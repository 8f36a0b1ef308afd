import Ucore.Lemmas.VfsMount
import Ucore.Theorems.Handlers

/-!
# Following a path

`get_device` ends for every path, and the rest of the path that it passes on never begins with a slash. `vfs_lookup` then ends
exactly if that rest, where it is looked up in a directory, has no more than 255 bytes (`lookup_returns`): the directory is searched
for the whole rest as one name, and the search asserts that the name is not longer (`long_path_panics`).
-/

namespace Ucore

open Checked Bytes SfsAux

namespace VfsAux

open Vfs

variable {v v' : Vfs} {I : Finset Nat} {fix : Set Nat} {x : Node → Nat × Nat} {n : Node} {i t : Nat} {mem : KernelMemory}
  {path sub : List UInt8} {r : Except Int Node}

/-! ## Steps that do not fail -/

theorem sfsLoadInode_total (memory : Bool) (h : v.Ok I fix x) (hi : i ∈ I) : ∃ r v', v.sfsLoadInode i memory = .ok (r, v') := by
  unfold sfsLoadInode
  split
  · exact ⟨_, _, rfl⟩
  split
  · exact ⟨_, _, rfl⟩
  have ho : ∃ ops, sfsGetOps (v.sfs.din i).type = .ok ops := by
    rcases h.mounted.kinds i hi with hk | hk
    · exact ⟨.file, by rw [hk]; rfl⟩
    · exact ⟨.dir, by rw [hk]; rfl⟩
  obtain ⟨ops, ho⟩ := ho
  unfold createInode
  rw [assertInuse_inode h.mounted hi, mapError_ok, ensure_of (h.mounted.links i hi).1, ho]
  exact ⟨_, _, rfl⟩

/-- The root is in memory. -/
theorem sfsGetRoot_total (mem : KernelMemory) (h : v.Ok I fix x) :
    v.sfsGetRoot mem = .ok (.sfs sfsBlknRoot, v.refInc (.sfs sfsBlknRoot)) := by
  unfold sfsGetRoot sfsLoadInode
  rw [if_pos h.root.ne']
  rfl

theorem vfsGetRoot_total (devname : List UInt8) (mem : KernelMemory) (h : v.Ok I fix x) :
    ∃ r v', v.vfsGetRoot devname mem = .ok (r, v') := by
  unfold vfsGetRoot
  split
  · exact ⟨_, _, rfl⟩
  split
  · exact ⟨_, _, rfl⟩
  split
  · rw [sfsGetRoot_total mem h]
    exact ⟨_, _, rfl⟩
  split
  · exact ⟨_, _, rfl⟩
  · exact ⟨_, _, rfl⟩

/-- A reference beside that of a holder is given back. -/
theorem refDec_total {hd : Holder} (h : v.Ok I fix (x + ref n)) (hh : v.holds hd = some n) : ∃ v', v.refDec n = .ok v' := by
  have ht : 1 + ((x n).1 + (ref n n).1) ≤ (v.vnodes n).refCount := h.backed.pos hh
  rw [ref_self] at ht
  unfold refDec
  rw [ensure_of h.pos]
  dsimp only
  rw [vnodes_setVnode_self, if_neg (by dsimp only; omega)]
  exact ⟨_, rfl⟩

/-! ## The beginning of a path -/

theorem head_skipSlashes (p : List UInt8) : (skipSlashes p).head? ≠ some slash := by
  intro hc
  have := List.head?_dropWhile_not (p := (· = slash)) p
  unfold skipSlashes at hc
  rw [hc] at this
  exact absurd this (by decide)

/-- A path whose first character is neither a colon nor a slash, or that is empty. -/
theorem head_plain (h : path = [] ∨ path.takeWhile plain ≠ []) : path.head? ≠ some slash := by
  cases path with
  | nil => nofun
  | cons c cs =>
    have hne := h.resolve_left nofun
    intro hc
    obtain rfl : c = slash := Option.some.inj hc
    exact hne (List.takeWhile_cons_of_neg (by decide))

/-- A path that the scan does not stop in. -/
theorem takeWhile_ne_nil (h : path.dropWhile plain = []) : path = [] ∨ path.takeWhile plain ≠ [] := by
  have ha := List.takeWhile_append_dropWhile (p := plain) (l := path)
  rw [h, List.append_nil] at ha
  by_cases hp : path = []
  · exact Or.inl hp
  · exact Or.inr (by rw [ha]; exact hp)

theorem rest_of_map {rest : List UInt8} (h : r.map (·, rest) = .ok (n, sub)) : rest = sub := by
  cases r with
  | error ret => cases h
  | ok m =>
    cases h
    rfl

/-- A path begins with a directory, if not with a device. -/
theorem dir_of_base (h : v.Ok I fix x) (hb : Base v (.sfs i)) : (v.sfs.din i).type = .dir := by
  rcases hb with hb | hb | ⟨t, hb⟩ | ⟨k, -, hb⟩
  · cases hb
    exact h.mounted.root.2
  · cases hb.symm.trans h.boot
    exact h.mounted.root.2
  · obtain ⟨j, -, hj, ht⟩ := h.dirs t _ hb
    cases hj
    exact ht
  · cases hb

/-- `get_device` ends for every path. -/
theorem getDevice_total (t : Nat) (path : List UInt8) (mem : KernelMemory) (h : v.Ok I fix x) :
    ∃ r p v', v.getDevice t path mem = .ok (r, p, v') ∧ ∀ n sub, r = .ok (n, sub) → sub.head? ≠ some slash := by
  have hrel : ∀ (o : Option Node) (rest : List UInt8), rest.head? ≠ some slash →
      ∃ r p v', (Except.ok ((v.getNode o).1.map (·, rest), path, (v.getNode o).2) : Except VfsPanic _) = .ok (r, p, v') ∧
        ∀ n sub, r = .ok (n, sub) → sub.head? ≠ some slash :=
    fun o rest hre => ⟨_, _, _, rfl, fun n sub hr => rest_of_map hr ▸ hre⟩
  unfold getDevice
  dsimp only
  split
  · rename_i hdr
    exact hrel _ _ (head_plain (takeWhile_ne_nil hdr))
  rename_i c rest hdr
  split
  · obtain ⟨r, v1, hro⟩ := vfsGetRoot_total (path.takeWhile plain) mem h
    rw [hro]
    exact ⟨_, _, _, rfl, fun n sub hr => rest_of_map hr ▸ head_skipSlashes rest⟩
  split
  · rename_i hd
    exact hrel _ _ (head_plain (Or.inr hd))
  split
  · exact hrel _ _ (head_skipSlashes rest)
  -- the root of the file system of the current directory
  split
  · exact ⟨_, _, _, rfl, nofun⟩
  · rename_i k v1 he
    cases hp : v.pwd t with
    | none =>
      rw [hp] at he
      nomatch he
    | some m =>
      rw [hp] at he
      obtain ⟨j, -, rfl, -⟩ := h.dirs t m hp
      nomatch Except.ok.inj (Prod.mk.inj he).1
  · rename_i i v1 he
    cases hp : v.pwd t with
    | none =>
      rw [hp] at he
      nomatch he
    | some m =>
      rw [hp] at he
      obtain ⟨hm, hv1⟩ := Prod.mk.inj he
      cases hm
      have h1 : v.Keeps v1 I fix (x + ref (.sfs i)) := hv1 ▸ refInc_ok h (h.held (show v.holds (.pwd t) = _ from hp))
      rw [sfsGetRoot_total mem h1.1, bind_ok]
      have h2 := refInc_ok h1.1 h1.1.root
      rw [add_right_comm] at h2
      have hh : (v1.refInc (.sfs sfsBlknRoot)).holds (.pwd t) = some (.sfs i) := hv1 ▸ hp
      obtain ⟨v3, hdec⟩ := refDec_total h2.1 hh
      rw [hdec]
      refine ⟨_, _, _, rfl, ?_⟩
      rintro n sub ⟨⟩
      exact head_skipSlashes rest

/-! ## The rest of a path -/

/-- A directory is searched for one name. -/
theorem sfsLookupOnce_ends {name : List UInt8} (mem : KernelMemory) (h : v.Ok I fix x) (hi : i ∈ I) (ht : (v.sfs.din i).type = .dir) :
    (∃ r v', v.sfsLookupOnce i name mem = .ok (r, v')) ↔ name.length ≤ sfsMaxFnameLen := by
  constructor
  · rintro ⟨r, v', hr⟩
    obtain ⟨found, hs, -⟩ := bind_eq_ok.mp hr
    exact (ensure_bind_eq_ok.mp (mapError_eq_ok.mp hs)).1
  · intro hl
    obtain ⟨ret, found, hs, hino⟩ := sfsDirentSearch_spec mem.entry h.mounted hi ht hl
    unfold sfsLookupOnce
    rw [hs, mapError_ok, bind_ok]
    dsimp only
    split
    · exact ⟨_, _, rfl⟩
    · rename_i hret
      obtain ⟨ino, hm, hst⟩ := hino (not_not.mp hret)
      rw [hst]
      exact sfsLoadInode_total mem.node h hm

/-- The inode of a directory is asked for a path. -/
theorem sfsLookup_ends (h : v.Ok I fix (x + ref (.sfs i))) (hb : Base v (.sfs i)) (hne : sub ≠ [])
    (hre : sub.head? ≠ some slash) : (∃ r v', v.sfsLookup i sub mem = .ok (r, v')) ↔ sub.length ≤ sfsMaxFnameLen := by
  obtain ⟨hd, hh⟩ := h.held_of_base hb
  have hi := (h.loaded i h.pos).1
  have ht := dir_of_base h hb
  change ((v.refInc (.sfs i)).sfs.din i).type = .dir at ht
  have h1 := refInc_ok h h.pos
  rw [← sfsLookupOnce_ends mem h1.1 hi ht]
  unfold sfsLookup
  rw [ensure_of ⟨hne, hre⟩, bind_ok]
  dsimp only
  rw [if_neg (not_not.mpr ht)]
  constructor
  · rintro ⟨r, v', hr⟩
    obtain ⟨⟨r', v2⟩, ho, -⟩ := bind_eq_ok.mp hr
    exact ⟨r', v2, ho⟩
  · rintro ⟨r, v2, ho⟩
    have h2 := (sfsLookupOnce_ok h1.1 hi ht ho).1
    rw [add_right_comm] at h2
    have hf := (refInc_frame h.absent).trans (sfsLookupOnce_frame h1.1.absent ho)
    obtain ⟨v3, hdec⟩ := refDec_total h2 ((congrFun (holds_of_frame hf) hd).trans hh)
    refine ⟨r, v3, ?_⟩
    rw [ho, bind_ok]
    rw [hdec]
    rfl

/-- The rest of a path is looked up from an inode. -/
theorem vopLookup_ends (mem : KernelMemory) (h : v.Ok I fix (x + ref n)) (hb : Base v n) (hne : sub ≠ [])
    (hre : sub.head? ≠ some slash) (ho : (v.vnodes n).openCount ≤ (v.vnodes n).refCount) : (∃ r v', v.vopLookup n sub mem = .ok (r, v')) ↔
      (v.vnodes n).refCount < maxInodeCount ∧ ∀ i, n = .sfs i → sub.length ≤ sfsMaxFnameLen := by
  have hm : Vop.lookup ∈ (v.vnodes n).ops.vops := by
    cases n with
    | sfs i =>
      rw [(h.loaded i h.pos).2.mpr (dir_of_base h hb)]
      decide
    | dev k =>
      rw [h.kinds.dev k]
      decide
  have hvop : v.vop n .lookup = .ok () ↔ (v.vnodes n).refCount < maxInodeCount := by
    unfold vop
    rw [ensure_of hm, bind_ok, ensure_eq_ok]
    exact ⟨fun hc => hc.2.1, fun hlt => ⟨ho, hlt, ho.trans_lt hlt⟩⟩
  rw [← hvop]
  unfold vopLookup
  constructor
  · rintro ⟨r, v', hr⟩
    obtain ⟨⟨⟩, hv, hr⟩ := bind_eq_ok.mp hr
    refine ⟨hv, ?_⟩
    rintro i rfl
    exact (sfsLookup_ends h hb hne hre).mp ⟨r, v', hr⟩
  · rintro ⟨hv, hl⟩
    rw [hv]
    cases n with
    | sfs i => exact (sfsLookup_ends h hb hne hre).mpr (hl i rfl)
    | dev k =>
      dsimp only
      rw [if_pos hne]
      exact ⟨_, _, rfl⟩

theorem frame_openCount (hf : v.Frame v' 0 (credit r)) (n : Node) : (v'.vnodes n).openCount = (v.vnodes n).openCount := by
  have hc : (v'.vnodes n).openCount + 0 = (v.vnodes n).openCount + (credit r n).2 := congrArg Prod.snd (congrFun hf.counts n)
  have hz : (credit r n).2 = 0 := by
    cases r with
    | error ret => rfl
    | ok m => exact ref_snd m n
  rwa [hz] at hc

/-- What `vfs_lookup` does after `get_device`. -/
theorem vfsLookup_ends {p : List UInt8} (h : v.Ok I fix 0) (ho : ∀ n, (v.vnodes n).openCount ≤ (v.vnodes n).refCount)
    (hdev : v.getDevice t path mem = .ok (.ok (n, sub), p, v')) (hre : sub.head? ≠ some slash) (hne : sub ≠ []) :
    (∃ out, v.vfsLookup t path mem = .ok out) ↔
      (v'.vnodes n).refCount < maxInodeCount ∧ ∀ i, n = .sfs i → sub.length ≤ sfsMaxFnameLen := by
  obtain ⟨hw, hba⟩ := getDevice_begins hdev
  have hf := hw.frame h.absent
  have hk := route_ok h hw
  have hb := (hba n rfl).frame hf
  have hopen' : (v'.vnodes n).openCount ≤ (v'.vnodes n).refCount := by
    rw [frame_openCount hf]
    have hc : (v'.vnodes n).refCount + 0 = _ := hf.refCount n
    exact (ho n).trans ((Nat.le_add_right _ _).trans_eq hc.symm)
  rw [← vopLookup_ends mem hk.1 hb hne hre hopen']
  unfold vfsLookup
  rw [hdev, bind_ok]
  cases sub with
  | nil => exact absurd rfl hne
  | cons c cs =>
    constructor
    · rintro ⟨out, hr⟩
      obtain ⟨⟨r, v2⟩, hl, -⟩ := bind_eq_ok.mp hr
      exact ⟨r, v2, hl⟩
    · rintro ⟨r, v2, hl⟩
      have hlook' := vopLookup_route hb hl
      have h2 := (route_ok hk.1 hlook').1
      rw [add_right_comm] at h2
      obtain ⟨hd, hh⟩ := hk.1.held_of_base hb
      obtain ⟨v3, hdec⟩ := refDec_total h2 ((congrFun (holds_of_frame (hlook'.frame hk.1.absent)) hd).trans hh)
      refine ⟨(r, p, v3), ?_⟩
      dsimp only
      rw [hl, bind_ok]
      rw [hdec]
      rfl

end VfsAux

/-- For every path: `get_device` ends, the rest that it passes on does not begin with a slash, and `vfs_lookup` ends exactly if the counts
of the inode to begin with are in range and the rest has at most 255 bytes, or is empty, or belongs to a device. -/
theorem lookup_returns {v : Vfs} {I : Finset Nat} {fix : Set Nat} (h : v.Ok I fix 0)
    (hopen : ∀ n, (v.vnodes n).openCount ≤ (v.vnodes n).refCount) (t : Nat) (path : List UInt8) (mem : KernelMemory) :
    ∃ r p v', v.getDevice t path mem = .ok (r, p, v') ∧ (∀ n sub, r = .ok (n, sub) → sub.head? ≠ some Vfs.slash) ∧
      ((∃ out, v.vfsLookup t path mem = .ok out) ↔ ∀ n sub, r = .ok (n, sub) → sub ≠ [] →
        (v'.vnodes n).refCount < maxInodeCount ∧ ∀ i, n = .sfs i → sub.length ≤ sfsMaxFnameLen) := by
  obtain ⟨r, p, v', hdev, hrest⟩ := VfsAux.getDevice_total t path mem h
  refine ⟨r, p, v', hdev, hrest, ?_⟩
  by_cases hr : ∃ n sub, r = .ok (n, sub) ∧ sub ≠ []
  · obtain ⟨n, sub, rfl, hne⟩ := hr
    rw [VfsAux.vfsLookup_ends h hopen hdev (hrest n sub rfl) hne]
    constructor
    · intro hends m sub' hr' _
      cases hr'
      exact hends
    · intro hall
      exact hall n sub rfl hne
  · -- nothing is looked up
    refine iff_of_true ?_ fun n sub hr' hne => absurd ⟨n, sub, hr', hne⟩ hr
    unfold Vfs.vfsLookup
    rw [hdev]
    cases r with
    | error ret => exact ⟨_, rfl⟩
    | ok ns =>
      obtain ⟨n, sub⟩ := ns
      cases sub with
      | nil => exact ⟨_, rfl⟩
      | cons c cs => exact absurd ⟨n, c :: cs, rfl, nofun⟩ hr

/-! ## A small volume -/

namespace VfsAux

open Sfs

theorem shelf_fileBlock (i k : Nat) (hi : i = 1 ∨ i = 4) :
    (shelf (smallFile 0 0)).fileBlock i k = (smallVolume (smallFile 0 0)).fileBlock i k := by
  rcases hi with rfl | rfl <;> rfl

theorem shelf_owned : (shelf (smallFile 0 0)).Owned {1, 4} {0, 1, 2, 4} := by
  have h : (smallVolume (smallFile 0 0)).Owned {1, 4} {0, 1, 2, 4} := smallVolume_owned
  refine ⟨?_, h.zero, h.nbits, h.nwords, h.small, h.count⟩
  refine h.exact.congr fun σ => held_congr (fun i hi k => shelf_fileBlock i k (by simpa using hi)) ?_
  intro i hi
  rcases (by simpa using hi : i = 1 ∨ i = 4) with rfl | rfl <;> rfl

theorem shelf_dense {i : Nat} (hi : i = 1 ∨ i = 4) : (shelf (smallFile 0 0)).Dense i := by
  intro k
  rw [shelf_fileBlock i k hi, smallVolume_fileBlock i k hi]
  rcases hi with rfl | rfl
  · change (if 1 = 1 ∧ k = 0 then 3 else 0) ≠ 0 ↔ k < 1
    by_cases hk : k = 0
    · rw [if_pos ⟨rfl, hk⟩]
      omega
    · rw [if_neg (fun hc => hk hc.2)]
      omega
  · change (if 4 = 1 ∧ k = 0 then 3 else 0) ≠ 0 ↔ k < 0
    rw [if_neg (fun hc => absurd hc.1 (by decide))]
    omega

theorem shelf_cases {i : Nat} (hi : i ∈ ({1, 4} : Finset Nat)) : i = 1 ∨ i = 4 := by simpa using hi

theorem shelf_mounted : (shelf (smallFile 0 0)).Mounted {1, 4} {0, 1, 2, 4} where
  owned := shelf_owned
  blocks i hi := by
    rcases shelf_cases hi with rfl | rfl <;> simp
  covered i hi ht := by
    refine ⟨shelf_dense (shelf_cases hi), ?_⟩
    rcases shelf_cases hi with rfl | rfl
    · nomatch ht
    · exact Nat.zero_le _
  synced i hi _ o _ := by
    rcases shelf_cases hi with rfl | rfl <;> rfl
  dense i hi := shelf_dense (shelf_cases hi)
  sizes i hi := by
    rcases shelf_cases hi with rfl | rfl <;> decide
  links i hi := by
    rcases shelf_cases hi with rfl | rfl <;> decide
  kinds i hi := by
    rcases shelf_cases hi with rfl | rfl <;> decide
  number i hi := by
    rcases shelf_cases hi with rfl | rfl <;> decide
  entries i hi ht k hk _ := by
    rcases shelf_cases hi with rfl | rfl
    · obtain rfl : k = 0 := Nat.lt_one_iff.mp hk
      decide
    · nomatch ht
  root := ⟨by decide, rfl⟩

theorem shelfVfs_ok : (shelfVfs (shelf (smallFile 0 0))).Ok {1, 4} {0, 1, 2, 4} 0 where
  toManned := shelfVfs_manned _
  mounted := shelf_mounted
  loaded := by
    intro i hi
    by_cases he : i = 1
    · rw [he]
      exact ⟨by decide, iff_of_true rfl rfl⟩
    · rw [show (shelfVfs (shelf (smallFile 0 0))).vnodes (.sfs i) = ⟨.file, 0, 0⟩ from if_neg he] at hi
      exact absurd hi (lt_irrefl 0)
  boot := rfl
  dirs := by
    intro t n hn
    change (if t = 0 then some (Node.sfs 1) else none) = some n at hn
    split at hn
    · exact ⟨1, by decide, (Option.some.inj hn).symm, rfl⟩
    · nomatch hn

theorem shelfVfs_open_le (s : Sfs) (n : Node) : ((shelfVfs s).vnodes n).openCount ≤ ((shelfVfs s).vnodes n).refCount := by
  cases n with
  | sfs i =>
    change (if i = 1 then (⟨.dir, 2, 0⟩ : Vnode) else ⟨.file, 0, 0⟩).openCount ≤
      (if i = 1 then (⟨.dir, 2, 0⟩ : Vnode) else ⟨.file, 0, 0⟩).refCount
    split <;> decide
  | dev k => exact Nat.zero_le _

end VfsAux

/-- A path of one short name. -/
theorem lookup_returns_short : ∃ out, (shelfVfs (shelf (smallFile 0 0))).vfsLookup 0 [97] .all = .ok out := by
  obtain ⟨r, p, v', hdev, -, hiff⟩ := lookup_returns VfsAux.shelfVfs_ok (VfsAux.shelfVfs_open_le _) 0 [97] .all
  refine hiff.mpr ?_
  have hok : okWith (fun out => decide (out.1 = .ok (.sfs 1, [97]) ∧ (out.2.2.vnodes (.sfs 1)).refCount = 3))
      ((shelfVfs (shelf (smallFile 0 0))).getDevice 0 [97] .all) = true := by decide +kernel
  obtain ⟨out, hout, hP⟩ := exists_of_okWith hok
  rw [hdev] at hout
  cases hout
  obtain ⟨hr, href⟩ := of_decide_eq_true hP
  intro n sub hns _
  cases hr.symm.trans hns
  exact ⟨by rw [href]; decide, fun _ _ => by decide⟩

/-- A name of 256 bytes, which the system call accepts: the assertion on the length of a name stops the kernel. -/
theorem long_path_panics : (List.replicate 256 (97 : UInt8)).length ≤ 4095 ∧
    (shelfVfs (shelf (smallFile 0 0))).vfsLookup 0 (List.replicate 256 97) .all = .error (.sfs .direntName) := by
  refine ⟨by rw [List.length_replicate]; decide, ?_⟩
  exact eq_error_of_errorIs (by decide +kernel)

end Ucore
