import Ucore.Theorems.MksfsDir
import Ucore.Theorems.MksfsTree
import Ucore.Theorems.Lookup

/-!
# Paths of a packed tree

`sfs_lookup` searches the root for the whole path as one name, so that a path with more than one component is never found, although
`mksfs` packs whole trees. A path of one component leads to its inode where the search of the root comes to it first
(`packed_path_resolves`, `deep_path_missing`).
-/

namespace Ucore

open Checked Bytes MksfsAux MksfsDirAux MksfsWalkAux SfsAux

namespace HostDir

/-- All names of a tree. -/
def names : HostDir → List (List UInt8)
  | .nil => []
  | .file name _ _ rest => name :: rest.names
  | .link name _ _ rest => name :: rest.names
  | .dir name _ entries rest => name :: (entries.names ++ rest.names)
  | .other name rest => name :: rest.names

/-- A file or a directory of a tree, with its path and its inode number. -/
inductive At : HostDir → List (List UInt8) → Nat → Prop
  | file {name data : List UInt8} {real : Nat} {rest : HostDir} : At (.file name real data rest) [name] real
  | dir {name : List UInt8} {real : Nat} {entries rest : HostDir} : At (.dir name real entries rest) [name] real
  | inside {name : List UInt8} {real n : Nat} {entries rest : HostDir} {path : List (List UInt8)} :
      At entries path n → At (.dir name real entries rest) (name :: path) n
  | behindFile {name data : List UInt8} {real n : Nat} {rest : HostDir} {path : List (List UInt8)} :
      At rest path n → At (.file name real data rest) path n
  | behindLink {name target : List UInt8} {real n : Nat} {rest : HostDir} {path : List (List UInt8)} :
      At rest path n → At (.link name real target rest) path n
  | behindDir {name : List UInt8} {real n : Nat} {entries rest : HostDir} {path : List (List UInt8)} :
      At rest path n → At (.dir name real entries rest) path n
  | behindOther {name : List UInt8} {n : Nat} {rest : HostDir} {path : List (List UInt8)} : At rest path n → At (.other name rest) path n

/-- What the search of the root for a name comes to first, among the slots that the maps of the kernel reach: its inode number. -/
def finds (home : HostDir) (name : List UInt8) : Option Nat :=
  ((((dotName, 0) :: (dotdotName, 0) :: home.listing).take (sfsNdirect + sfsBlkNentry)).find?
    fun x => x.1.take sfsWrittenName = name).map Prod.snd

end HostDir

/-- The components of a path with slashes between them. -/
def joinPath : List (List UInt8) → List UInt8
  | [] => []
  | [c] => c
  | c :: path => c ++ Vfs.slash :: joinPath path

/-- `disk0` -/
def diskName : List UInt8 := [100, 105, 115, 107, 48]

/-- The volume is mounted as `disk0`, and its root is the current directory. -/
structure Vfs.AtRoot (v : Vfs) (vol : Sfs) (t : Nat) : Prop where
  sfs : v.sfs = vol
  pwd : v.pwd t = some (.sfs sfsBlknRoot)
  disk : ∃ k d, (v.vdevList.findIdx? fun d => strcmp diskName d.devname = 0) = some k ∧ v.vdevList[k]? = some d ∧ d.fs = true
  ops : (v.vnodes (.sfs sfsBlknRoot)).ops = .dir
  pos : 0 < (v.vnodes (.sfs sfsBlknRoot)).refCount
  openCount : (v.vnodes (.sfs sfsBlknRoot)).openCount ≤ (v.vnodes (.sfs sfsBlknRoot)).refCount
  refCount : (v.vnodes (.sfs sfsBlknRoot)).refCount + 1 < maxInodeCount
  loaded : ∀ i, (v.vnodes (.sfs i)).refCount ≠ 0 → (vol.din i).nlinks ≠ 0

namespace PackedAux

open Vfs VfsAux

variable {v v' : Vfs} {vol : Sfs} {t i m : Nat} {n : Nat} {sub buf : List UInt8} {path : List (List UInt8)}
  {home : HostDir}

/-! ## Spellings of a path -/

/-- What `vfs_lookup` does once `get_device` has come to the root. -/
def follow (sub buf : List UInt8) (v : Vfs) : Except VfsPanic (Except Int Node × List UInt8 × Vfs) := do
  let (found, v) ← v.vopLookup (.sfs sfsBlknRoot) sub .all
  let v ← v.refDec (.sfs sfsBlknRoot)
  return (found, buf, v)

theorem vfsLookup_of {path : List UInt8} (hne : sub ≠ [])
    (hd : v.getDevice t path .all = .ok (.ok (.sfs sfsBlknRoot, sub), buf, v')) : v.vfsLookup t path .all = follow sub buf v' := by
  unfold vfsLookup
  rw [hd]
  cases sub with
  | nil => exact absurd rfl hne
  | cons c cs => rfl

/-- A path without a colon, whose first character is not a slash. -/
theorem lookup_relative (h : v.AtRoot vol t) (hne : sub ≠ []) (hhead : sub.head? ≠ some slash) (hco : colon ∉ sub) :
    v.vfsLookup t sub .all = follow sub sub (v.refInc (.sfs sfsBlknRoot)) := by
  refine vfsLookup_of hne ?_
  have hr : (v.getNode (v.pwd t)) = (.ok (.sfs sfsBlknRoot), v.refInc (.sfs sfsBlknRoot)) := by
    rw [h.pwd]
    rfl
  have hdevice : sub.takeWhile plain ≠ [] := by
    cases sub with
    | nil => exact absurd rfl hne
    | cons c cs =>
      have hc : plain c = true := by
        refine decide_eq_true ⟨fun hc => hco (hc ▸ List.mem_cons_self), fun hc => hhead ?_⟩
        rw [hc]
        rfl
      rw [List.takeWhile_cons_of_pos hc]
      nofun
  unfold getDevice
  dsimp only
  rw [hr]
  split
  · rfl
  · rename_i c rest hd
    have hm : c ∈ sub := (List.dropWhile_sublist plain).subset (hd ▸ List.mem_cons_self)
    have hcc : ¬(c = colon ∧ sub.takeWhile plain ≠ []) := fun hc => hco (hc.1 ▸ hm)
    rw [if_neg hcc, if_pos hdevice]
    rfl

theorem skipSlashes_replicate (hhead : sub.head? ≠ some slash) : skipSlashes (List.replicate m slash ++ sub) = sub := by
  unfold skipSlashes
  rw [List.dropWhile_append_of_pos (fun c hc => decide_eq_true (List.mem_replicate.mp hc).2)]
  cases sub with
  | nil => rfl
  | cons c cs => exact List.dropWhile_cons_of_neg (by simpa using fun hc => hhead (congrArg some hc))

/-- The path behind the name of the device, a colon and any number of slashes. -/
theorem lookup_device (h : v.AtRoot vol t) (m : Nat) (hne : sub ≠ []) (hhead : sub.head? ≠ some slash) :
    v.vfsLookup t (diskName ++ colon :: (List.replicate m slash ++ sub)) .all =
      follow sub diskName (v.refInc (.sfs sfsBlknRoot)) := by
  refine vfsLookup_of hne ?_
  have hp : ∀ c ∈ diskName, plain c = true := by decide +kernel
  obtain ⟨k, d, hidx, hd, hfs⟩ := h.disk
  have hr : v.vfsGetRoot diskName .all = .ok (.ok (.sfs sfsBlknRoot), v.refInc (.sfs sfsBlknRoot)) := by
    unfold vfsGetRoot
    rw [hidx]
    dsimp only
    rw [hd]
    dsimp only
    unfold sfsGetRoot sfsLoadInode
    rw [if_pos hfs, if_pos h.pos.ne']
    rfl
  have hc : plain colon ≠ true := by decide
  unfold getDevice
  rw [List.dropWhile_append_of_pos hp, List.dropWhile_cons_of_neg hc, List.takeWhile_append_of_pos hp,
    List.takeWhile_cons_of_neg hc, List.append_nil]
  dsimp only
  rw [hr, skipSlashes_replicate hhead]
  rfl

/-! ## The search of the root -/

theorem refDec_alive {n : Node} (h : 2 ≤ (v.vnodes n).refCount) :
    v.refDec n = .ok (v.setVnode n { v.vnodes n with refCount := (v.vnodes n).refCount - 1 }) := by
  unfold refDec
  rw [ensure_of (by omega)]
  dsimp only
  rw [vnodes_setVnode_self, if_neg (by dsimp only; omega)]
  rfl

@[simp] theorem refCount_refInc {n : Node} : ((v.refInc n).vnodes n).refCount = (v.vnodes n).refCount + 1 := by
  unfold refInc
  rw [vnodes_setVnode_self]

theorem vnodes_refInc_of_ne {n n' : Node} (hne : n' ≠ n) : (v.refInc n).vnodes n' = v.vnodes n' := by
  exact vnodes_setVnode_of_ne hne

/-- More references to the root leave what is in memory. -/
theorem refCount_refInc_ne_zero (h : v.AtRoot vol t) :
    (((v.refInc (.sfs sfsBlknRoot)).refInc (.sfs sfsBlknRoot)).vnodes (.sfs i)).refCount ≠ 0 ↔ (v.vnodes (.sfs i)).refCount ≠ 0 := by
  by_cases hi : i = sfsBlknRoot
  · subst hi
    have hp := h.pos
    rw [refCount_refInc]
    exact iff_of_true (by omega) (by omega)
  · have hne : Node.sfs i ≠ .sfs sfsBlknRoot := fun hc => hi (Node.sfs.inj hc)
    rw [vnodes_refInc_of_ne hne, vnodes_refInc_of_ne hne]

/-- The root admits a lookup. -/
theorem vop_lookup (h : v.AtRoot vol t) : (v.refInc (.sfs sfsBlknRoot)).vop (.sfs sfsBlknRoot) .lookup = .ok () := by
  have ho : ((v.refInc (.sfs sfsBlknRoot)).vnodes (.sfs sfsBlknRoot)).ops = .dir := by
    unfold refInc
    exact h.ops
  have hc : inodeCheck ((v.refInc (.sfs sfsBlknRoot)).vnodes (.sfs sfsBlknRoot)) := by
    have hop := h.openCount
    have hr := h.refCount
    unfold refInc inodeCheck
    rw [vnodes_setVnode_self]
    dsimp only
    omega
  unfold vop
  rw [ho, ensure_of (by decide), bind_ok, ensure_of hc]

variable (h : v.AtRoot vol t) (hne : sub ≠ []) (hhead : sub.head? ≠ some slash) (htype : (vol.din sfsBlknRoot).type = .dir)
  {c : List UInt8} {x : List UInt8 × Nat} {s' : Mksfs} {blocks : Nat} {entry : Nat → UInt8} {image : Nat → Nat → UInt8}
include h hne hhead htype

/-- The search, the inode that it leads to, and the references to the root that are given back. -/
theorem follow_eq : follow sub buf (v.refInc (.sfs sfsBlknRoot)) =
    ((v.refInc (.sfs sfsBlknRoot)).refInc (.sfs sfsBlknRoot)).sfsLookupOnce sfsBlknRoot sub .all >>= fun r =>
      r.2.refDec (.sfs sfsBlknRoot) >>= fun v => v.refDec (.sfs sfsBlknRoot) >>= fun v => .ok (r.1, buf, v) := by
  have hd : ((v.refInc (.sfs sfsBlknRoot)).refInc (.sfs sfsBlknRoot)).sfs.din sfsBlknRoot = vol.din sfsBlknRoot :=
    congrArg (fun s => Sfs.din s sfsBlknRoot) h.sfs
  unfold follow vopLookup
  rw [vop_lookup h]
  dsimp only
  unfold sfsLookup
  rw [ensure_of ⟨hne, hhead⟩]
  dsimp only
  rw [hd, if_neg (not_not.mpr htype)]
  cases ((v.refInc (.sfs sfsBlknRoot)).refInc (.sfs sfsBlknRoot)).sfsLookupOnce sfsBlknRoot sub .all with
  | error e => rfl
  | ok r =>
    simp only [bind_ok]
    cases r.2.refDec (.sfs sfsBlknRoot) with
    | error e => rfl
    | ok v1 => rfl

/-- What is found, the lookup returns. -/
theorem follow_hit {found : SfsSearch} (hs : sfsDirentSearch sfsBlknRoot sub true vol = .ok (0, found, vol))
    (hfo : found.inoStore = some i) (huse : assertInuse i vol = .ok ()) (hli : (vol.din i).nlinks ≠ 0)
    (hki : (vol.din i).type = .file ∨ (vol.din i).type = .dir) :
    ∃ v', follow sub buf (v.refInc (.sfs sfsBlknRoot)) = .ok (.ok (.sfs i), buf, v') := by
  obtain ⟨u, hu⟩ : ∃ u, u = (v.refInc (.sfs sfsBlknRoot)).refInc (.sfs sfsBlknRoot) := ⟨_, rfl⟩
  have hsfs : u.sfs = vol := by
    rw [hu]
    exact h.sfs
  have hco : 3 ≤ (u.vnodes (.sfs sfsBlknRoot)).refCount := by
    have hp := h.pos
    rw [hu, refCount_refInc, refCount_refInc]
    omega
  -- the inode is in memory, or is read from the disk
  obtain ⟨w, hlo, hke⟩ : ∃ w, u.sfsLoadInode i true = .ok (.ok (.sfs i), w) ∧ 3 ≤ (w.vnodes (.sfs sfsBlknRoot)).refCount := by
    unfold sfsLoadInode
    by_cases hm : (u.vnodes (.sfs i)).refCount ≠ 0
    · rw [if_pos hm]
      refine ⟨_, rfl, ?_⟩
      by_cases hi : Node.sfs sfsBlknRoot = .sfs i
      · rw [← hi, refCount_refInc]
        omega
      · rw [vnodes_refInc_of_ne hi]
        exact hco
    · have hi : Node.sfs sfsBlknRoot ≠ .sfs i := by
        intro hc
        rw [← hc] at hm
        omega
      obtain ⟨ops, hops⟩ : ∃ ops, sfsGetOps (vol.din i).type = .ok ops := by
        rcases hki with hk | hk
        · exact ⟨.file, by rw [hk]; rfl⟩
        · exact ⟨.dir, by rw [hk]; rfl⟩
      rw [if_neg hm]
      unfold createInode
      rw [hsfs, huse, mapError_ok, ensure_of hli, hops]
      refine ⟨_, rfl, ?_⟩
      rw [vnodes_setVnode_of_ne hi]
      exact hco
  have ho : u.sfsLookupOnce sfsBlknRoot sub .all = .ok (.ok (.sfs i), w) := by
    have hse : { u with sfs := vol } = u := by rw [← hsfs]
    unfold sfsLookupOnce
    rw [hsfs, show KernelMemory.all.entry = true from rfl, hs, mapError_ok, bind_ok]
    dsimp only
    rw [hfo, hse]
    exact hlo
  rw [follow_eq h hne hhead htype, ← hu, ho, bind_ok]
  dsimp only
  rw [refDec_alive (by omega), bind_ok, refDec_alive (by rw [vnodes_setVnode_self]; dsimp only; omega)]
  exact ⟨_, rfl⟩

/-- What the lookup returns was found, and has links. -/
theorem follow_found {q : List UInt8} (hrun : follow sub buf (v.refInc (.sfs sfsBlknRoot)) = .ok (.ok (.sfs i), q, v')) :
    ∃ x, sfsDirentSearch sfsBlknRoot sub true vol = .ok x ∧ x.1 = 0 ∧ x.2.1.inoStore.getD 0 = i ∧
      (x.2.2 = vol → (vol.din i).nlinks ≠ 0) := by
  rw [follow_eq h hne hhead htype] at hrun
  obtain ⟨⟨r, w⟩, ho, hrun⟩ := bind_eq_ok.mp hrun
  obtain ⟨v1, -, hrun⟩ := bind_eq_ok.mp hrun
  obtain ⟨v2, -, hr⟩ := bind_eq_ok.mp hrun
  obtain rfl : r = .ok (.sfs i) := (Prod.mk.inj (Except.ok.inj hr)).1
  have hsfs : ((v.refInc (.sfs sfsBlknRoot)).refInc (.sfs sfsBlknRoot)).sfs = vol := h.sfs
  unfold sfsLookupOnce at ho
  rw [hsfs] at ho
  obtain ⟨⟨ret, found, s⟩, hse, ho⟩ := bind_eq_ok.mp ho
  dsimp only at ho
  split at ho
  · nomatch ho
  rename_i hret
  refine ⟨_, mapError_eq_ok.mp hse, not_not.mp hret, ?_⟩
  unfold sfsLoadInode at ho
  split at ho
  · rename_i hm
    obtain ⟨hn, -⟩ := Prod.mk.inj (Except.ok.inj ho)
    have hi : found.inoStore.getD 0 = i := Node.sfs.inj (Except.ok.inj hn)
    exact ⟨hi, fun _ => h.loaded i ((refCount_refInc_ne_zero h).mp (hi ▸ hm))⟩
  split at ho
  · nomatch ho
  obtain ⟨w', hc, hr'⟩ := bind_eq_ok.mp ho
  have hi : found.inoStore.getD 0 = i := Node.sfs.inj (Except.ok.inj (Prod.mk.inj (Except.ok.inj hr')).1)
  obtain ⟨-, -, hc⟩ := bind_eq_ok.mp hc
  obtain ⟨hli, -⟩ := ensure_bind_eq_ok.mp hc
  refine ⟨hi, fun hs => ?_⟩
  rw [← hs, ← hi]
  exact hli

omit h hne hhead htype

/-! ## Components -/

theorem At.components (hat : home.At path n) : path ≠ [] ∧ ∀ c ∈ path, c ∈ home.names := by
  induction hat with
  | file | dir => exact ⟨nofun, fun c hc => List.mem_cons.mpr (Or.inl (List.mem_singleton.mp hc))⟩
  | inside _ ih =>
    refine ⟨nofun, fun c hc => ?_⟩
    rcases List.mem_cons.mp hc with rfl | hc
    · exact List.mem_cons_self
    · exact List.mem_cons_of_mem _ (List.mem_append_left _ (ih.2 c hc))
  | behindFile _ ih | behindLink _ ih | behindOther _ ih => exact ⟨ih.1, fun c hc => List.mem_cons_of_mem _ (ih.2 c hc)⟩
  | behindDir _ ih => exact ⟨ih.1, fun c hc => List.mem_cons_of_mem _ (List.mem_append_right _ (ih.2 c hc))⟩

theorem mem_joinPath {b : UInt8} (hb : b ∈ joinPath path) : b = slash ∨ ∃ c ∈ path, b ∈ c := by
  induction path with
  | nil => nomatch hb
  | cons c path ih =>
    cases path with
    | nil => exact Or.inr ⟨c, List.mem_cons_self, hb⟩
    | cons c' path =>
      rcases List.mem_append.mp hb with hb | hb
      · exact Or.inr ⟨c, List.mem_cons_self, hb⟩
      rcases List.mem_cons.mp hb with hb | hb
      · exact Or.inl hb
      · obtain hs | ⟨d, hd, hbd⟩ := ih hb
        · exact Or.inl hs
        · exact Or.inr ⟨d, List.mem_cons_of_mem c hd, hbd⟩

/-- A path begins as its first component does. -/
theorem head_joinPath (hc : c ≠ []) : (joinPath (c :: path)).head? = c.head? := by
  cases path with
  | nil => rfl
  | cons c' path => exact List.head?_append_of_ne_nil c hc

/-- The beginning of a path whose first component is a name. -/
theorem joinPath_start (hc : c ≠ []) (hsl : slash ∉ c) :
    joinPath (c :: path) ≠ [] ∧ (joinPath (c :: path)).head? ≠ some slash := by
  have hh : (joinPath (c :: path)).head? = c.head? := head_joinPath hc
  refine ⟨fun hn => ?_, fun hs => hsl (List.mem_of_head? (hh.symm.trans hs))⟩
  rw [hn] at hh
  exact hc (List.head?_eq_none_iff.mp hh.symm)

theorem slash_mem_joinPath {c' : List UInt8} : slash ∈ joinPath (c :: c' :: path) :=
  List.mem_append_cons_self

theorem listing_names (hx : x ∈ home.listing) : x.1 ∈ home.names := by
  have hs : ∀ {name : List UInt8} {real : Nat}, x ∈ HostDir.shown name real → x.1 = name := by
    intro name real hx
    unfold HostDir.shown at hx
    split at hx
    · nomatch hx
    · rw [List.mem_singleton.mp hx]
  induction home with
  | nil => nomatch hx
  | file name real _ rest ih | link name real _ rest ih =>
    rcases List.mem_append.mp hx with hx | hx
    · exact List.mem_cons.mpr (Or.inl (hs hx))
    · exact List.mem_cons_of_mem _ (ih hx)
  | dir name real entries rest _ ih =>
    rcases List.mem_append.mp hx with hx | hx
    · exact List.mem_cons.mpr (Or.inl (hs hx))
    · exact List.mem_cons_of_mem _ (List.mem_append_right _ (ih hx))
  | other name rest ih => exact List.mem_cons_of_mem _ (ih hx)

theorem listing_head (hx : x ∈ home.listing) : x.1.head? ≠ some 46 := by
  have hs : ∀ {name : List UInt8} {real : Nat}, x ∈ HostDir.shown name real → x.1.head? ≠ some 46 := by
    intro name real hx
    unfold HostDir.shown at hx
    split at hx
    · nomatch hx
    · rename_i hhead
      rw [List.mem_singleton.mp hx]
      exact hhead
  induction home with
  | nil => nomatch hx
  | file name real _ rest ih | link name real _ rest ih | dir name real _ rest _ ih => exact (List.mem_append.mp hx).elim hs ih
  | other name rest ih => exact ih hx

/-- In a root of at most 1034 names, all different and none of more than 252 bytes, the search comes to every name. -/
theorem finds_of_short (hlen : home.listing.length + 2 ≤ sfsNdirect + sfsBlkNentry)
    (hs : ∀ x ∈ home.listing, x.1.length ≤ sfsWrittenName) (hno : (home.listing.map Prod.fst).Nodup)
    (hx : (c, n) ∈ home.listing) : home.finds c = some n := by
  have hhead : c.head? ≠ some 46 := listing_head hx
  have hdot : dotName.take sfsWrittenName ≠ c := by
    rintro rfl
    exact hhead rfl
  have hd : dotdotName.take sfsWrittenName ≠ c := by
    rintro rfl
    exact hhead rfl
  have hc : c.take sfsWrittenName = c := List.take_of_length_le (hs _ hx)
  unfold HostDir.finds
  rw [List.take_of_length_le hlen]
  simp only [List.find?_cons, hdot, hd, decide_false]
  cases hfi : home.listing.find? fun x => x.1.take sfsWrittenName = c with
  | none => exact absurd (decide_eq_true hc) (List.find?_eq_none.mp hfi (c, n) hx)
  | some y =>
    have hy := List.mem_of_find?_eq_some hfi
    have hn := List.find?_some hfi
    rw [decide_eq_true_iff, List.take_of_length_le (hs y hy)] at hn
    rw [List.inj_on_of_nodup_map hno hy hx hn]
    rfl

/-! ## The root of a packed tree -/

/-- Searches of two lists whose elements correspond. -/
theorem find?_forall₂ {α β : Type} {R : α → β → Prop} {p : α → Bool} {q : β → Bool} {l : List α} {l' : List β}
    (hl : List.Forall₂ R l l') (hpq : ∀ a b, R a b → p a = q b) :
    (l.find? p = none ∧ l'.find? q = none) ∨ ∃ a b, l.find? p = some a ∧ l'.find? q = some b ∧ R a b := by
  induction hl with
  | nil => exact Or.inl ⟨rfl, rfl⟩
  | @cons a b l l' hab _ ih =>
    have hp := hpq a b hab
    cases hq : q b with
    | true =>
      rw [hq] at hp
      rw [List.find?_cons_of_pos hp, List.find?_cons_of_pos hq]
      exact Or.inr ⟨a, b, rfl, rfl, hab⟩
    | false =>
      rw [hq] at hp
      rw [List.find?_cons_of_neg (by rw [hp]; decide), List.find?_cons_of_neg (by rw [hq]; decide)]
      exact ih

section Packed

variable {s s' : Mksfs} {r : Record} (blocks : Nat) (hb : s.Tracked r ∅) (hl : s.Linked r) (hf : Mksfs.Flushed s s' r (closed s r))
  (hnul : ∀ e ∈ r.entries sfsBlknRoot, 0 ∉ e.2) (h0 : 0 ∉ sub)
include hb hl hf hnul h0

/-- The entry that the search comes to first. -/
theorem search_hit {e : Nat × List UInt8} (hlen : sub.length ≤ sfsMaxFnameLen)
    (hfd : ((r.entries sfsBlknRoot).take (sfsNdirect + sfsBlkNentry)).find? (fun e => e.2.take sfsWrittenName = sub) = some e) :
    ∃ k empty, sfsDirentSearch sfsBlknRoot sub true (volume s s' blocks) =
      .ok (0, ⟨some e.1, some k, some empty⟩, volume s s' blocks) := by
  have hr := hb.sound.root
  have hbl : ((volume s s' blocks).din sfsBlknRoot).blocks = (r.entries sfsBlknRoot).length := by
    rw [(din_volume blocks hb hl hf hr).2.2.1, hl.dirs _ hr hl.root]
  obtain ⟨hcut, k, hk, hg, hfi⟩ := List.find?_eq_some_iff_getElem.mp hfd
  rw [List.length_take] at hk
  rw [List.getElem_take] at hg
  have he : (r.entries sfsBlknRoot)[k]? = some e := List.getElem?_eq_some_iff.mpr ⟨by omega, hg⟩
  have hbe : ∀ j < k, ∀ e', (r.entries sfsBlknRoot)[j]? = some e' → e'.2.take sfsWrittenName ≠ sub := by
    intro j hj e' he' hc
    obtain ⟨hjlen, hget'⟩ := List.getElem?_eq_some_iff.mp he'
    have hno := hfi j hj
    rw [List.getElem_take, hget', hc] at hno
    simp at hno
  unfold sfsDirentSearch
  rw [ensure_of hlen,
    searchSlots_first blocks hb hl hf hr hl.root hnul h0 he (by omega) (of_decide_eq_true hcut) hbe (Nat.zero_le k) (by omega)]
  exact ⟨k, _, rfl⟩

theorem search_miss {x : Int × SfsSearch × Sfs}
    (hfi : ((r.entries sfsBlknRoot).take (sfsNdirect + sfsBlkNentry)).find? (fun e => e.2.take sfsWrittenName = sub) = none)
    (hr : sfsDirentSearch sfsBlknRoot sub true (volume s s' blocks) = .ok x) : x.1 ≠ 0 := by
  have hro := hb.sound.root
  have hlen := hl.dirs _ hro hl.root
  have hbl : ((volume s s' blocks).din sfsBlknRoot).blocks = (r.entries sfsBlknRoot).length := by
    rw [(din_volume blocks hb hl hf hro).2.2.1, hlen]
  obtain ⟨-, hr⟩ := ensure_bind_eq_ok.mp hr
  rw [hbl] at hr
  refine searchSlots_missing blocks hb hl hf hro hl.root hnul h0 ?_ (Nat.zero_add _).le hlen.symm hr
  intro j hj e' he' hc
  obtain ⟨hjlen, hg⟩ := List.getElem?_eq_some_iff.mp he'
  have hm : e' ∈ (r.entries sfsBlknRoot).take (sfsNdirect + sfsBlkNentry) :=
    List.mem_take_iff_getElem.mpr ⟨j, by omega, hg⟩
  exact List.find?_eq_none.mp hfi e' hm (decide_eq_true hc)

omit hnul h0 in
/-- The block of an inode is in use. -/
theorem assertInuse_packed (hi : i ∈ r.inos) : assertInuse i (volume s s' blocks) = .ok () := by
  have hlt := inode_lt hb.sound hl hi
  have hh := hb.sound.high
  have hfr : (volume s s' blocks).free = Finset.Ico s.nextIno s.ninos := free_mountedMap hb.sound hl hf blocks
  refine assertInuse_of (owned_volume blocks hb hl hf) (fun hc => hl.zero (hc ▸ hi)) (show i < s.ninos by omega) ?_
  rw [hfr, Finset.mem_Ico]
  omega

end Packed

/-- What is mounted from a closed image. -/
theorem mount_eq {s : Mksfs} {r : Record} (hb : s.Tracked r ∅) (hl : s.Linked r)
    (hf : Mksfs.Flushed s s' r (closed s r)) (hm : sfsDoMount (device s' blocks) = .ok (0, some vol)) :
    vol = volume s s' blocks := by
  by_cases hle : s.ninos ≤ blocks
  · rw [sfsDoMount_spec hb.sound hl hf hle] at hm
    exact (Option.some.inj (Prod.mk.inj (Except.ok.inj hm)).2).symm
  · -- the device is too small
    have hs : word (s'.image sfsBlknSuper) 4 = s.ninos := image_super hb.sound hf (w := 1) (by decide)
    unfold sfsDoMount device at hm
    dsimp only at hm
    rw [if_neg (not_not.mpr rfl), hs] at hm
    split at hm
    · cases hm
    rw [if_pos (not_le.mp hle)] at hm
    cases hm

/-- The image of a tree can be mounted from every device that is large enough. -/
theorem mount_createImg {size : Nat} (hap : home.Apart {0})
    (hr : createImg size entry image home = .ok s') (hle : s'.ninos ≤ blocks) :
    sfsDoMount (device s' blocks) = .ok (0, some (volume s' s' blocks)) := by
  obtain ⟨s, r, hbu, hc, -⟩ := (createImg_pass hap).ok hr
  obtain ⟨hb, hl⟩ := built_spec hbu
  obtain ⟨s'', hc', hf⟩ := closeSfs_spec hb.sound hl
  cases hc.symm.trans hc'
  obtain ⟨image', he⟩ := hf.state
  have hn : s'.ninos = s.ninos := by rw [he]
  have hvolume : volume s' s' blocks = volume s s' blocks := by
    unfold volume mountedMap
    rw [he]
  rw [hvolume]
  exact sfsDoMount_spec hb.sound hl hf (hn ▸ hle)

/-- A path that begins at the root of a packed tree leads to an inode exactly where it is a name that the search of the root comes to
first. -/
theorem follow_packed {size : Nat} (hap : home.Apart {0})
    (hna : ∀ x ∈ home.names, x ≠ [] ∧ 0 ∉ x ∧ slash ∉ x) (hr : createImg size entry image home = .ok s')
    (hmo : sfsDoMount (device s' blocks) = .ok (0, some vol)) (hv : v.AtRoot vol t) (hne : path ≠ [])
    (hp : ∀ c ∈ path, c ∈ home.names) (hlk : n ∉ home.links) (hi : searchCacheInode s' n = some i) :
    (∃ q v', follow (joinPath path) buf (v.refInc (.sfs sfsBlknRoot)) = .ok (.ok (.sfs i), q, v')) ↔
      (∃ c, path = [c] ∧ home.finds c = some n) ∧ (vol.din i).nlinks ≠ 0 := by
  obtain ⟨s, r, hbu, hcl, -, hnum, hrel⟩ := (createImg_pass hap).ok hr
  obtain ⟨hb, hl⟩ := built_spec hbu
  obtain ⟨s'', hc', hf⟩ := closeSfs_spec hb.sound hl
  cases hcl.symm.trans hc'
  obtain rfl := mount_eq hb hl hf hmo
  have hro := hb.sound.root
  have htype : ((volume s s' blocks).din sfsBlknRoot).type = .dir := (din_volume blocks hb hl hf hro).1.trans hl.root
  -- the inode of the object
  obtain ⟨hm, hre⟩ : i ∈ r.inos ∧ (s.ci i).real = n := by
    obtain ⟨image', rfl⟩ := hf.state
    have hi : searchCacheInode s n = some i := hi
    rcases searchCacheInode_spec n hbu with ⟨hn, -⟩ | ⟨c, hc, hcr, hso⟩
    · nomatch hn.symm.trans hi
    · cases hso.symm.trans hi
      exact ⟨hc, hcr⟩
  -- the names of the root
  have hen : ∀ e ∈ r.entries sfsBlknRoot, 0 ∉ e.2 ∧ slash ∉ e.2 := by
    intro e he
    obtain ⟨x, hx, hex⟩ : ∃ x ∈ (dotName, 0) :: (dotdotName, 0) :: home.listing, e.2 = x.1 := by
      obtain ⟨k, hk, rfl⟩ := List.mem_iff_getElem.mp he
      have hk' := hrel.length_eq ▸ hk
      exact ⟨_, List.getElem_mem hk', (List.forall₂_iff_get.mp hrel |>.2 k hk hk').2.1⟩
    rw [hex]
    rcases List.mem_cons.mp hx with rfl | hx
    · decide
    rcases List.mem_cons.mp hx with rfl | hx
    · decide
    · exact (hna _ (listing_names hx)).2
  have hnul : ∀ e ∈ r.entries sfsBlknRoot, 0 ∉ e.2 := fun e he => (hen e he).1
  obtain ⟨c, rest, rfl⟩ := List.exists_cons_of_ne_nil hne
  have hc := hna c (hp c List.mem_cons_self)
  obtain ⟨hj, hhead⟩ : joinPath (c :: rest) ≠ [] ∧ (joinPath (c :: rest)).head? ≠ some slash := joinPath_start hc.1 hc.2.2
  have h0 : (0 : UInt8) ∉ joinPath (c :: rest) := by
    intro hz
    rcases mem_joinPath hz with hz | ⟨d, hd, hz⟩
    · exact absurd hz (by decide)
    · exact (hna d (hp d hd)).2.1 hz
  have hcorr := find?_forall₂ (p := fun e => e.2.take sfsWrittenName = joinPath (c :: rest))
    (q := fun x => x.1.take sfsWrittenName = joinPath (c :: rest)) (List.forall₂_take (sfsNdirect + sfsBlkNentry) hrel)
    (fun a b hab => by rw [hab.2.1])
  cases rest with
  | cons c' rest =>
    -- no name has a slash
    refine iff_of_false ?_ fun hc => by
      obtain ⟨⟨d, hd, -⟩, -⟩ := hc
      nomatch hd
    rintro ⟨q, v', hfo⟩
    obtain ⟨x, hs, hx, -, -⟩ := follow_found hv hj hhead htype hfo
    refine search_miss blocks hb hl hf hnul h0 (List.find?_eq_none.mpr fun e he hcut => ?_) hs hx
    have hsl : slash ∈ e.2.take sfsWrittenName := (of_decide_eq_true hcut) ▸ slash_mem_joinPath
    exact (hen e (List.mem_of_mem_take he)).2 (List.mem_of_mem_take hsl)
  | nil =>
    constructor
    · rintro ⟨q, v', hfo⟩
      obtain ⟨x, hs, hx, hino, hli⟩ := follow_found hv hj hhead htype hfo
      rcases hcorr with ⟨hn, -⟩ | ⟨e, y, hfi, hf', hey⟩
      · exact absurd hx (search_miss blocks hb hl hf hnul h0 hn hs)
      have hlen : (joinPath [c]).length ≤ sfsMaxFnameLen := (ensure_bind_eq_ok.mp hs).1
      obtain ⟨k, empty, hh⟩ := search_hit blocks hb hl hf hnul h0 hlen hfi
      cases hs.symm.trans hh
      refine ⟨⟨c, rfl, ?_⟩, hli rfl⟩
      have hei : e.1 = i := hino
      unfold HostDir.finds
      rw [show joinPath [c] = c from rfl] at hf'
      rw [hf', Option.map_some, ← hey.2.2, hei, hre]
    · rintro ⟨⟨d, hd, hfs⟩, hli⟩
      obtain rfl : c = d := (List.cons.inj hd).1
      unfold HostDir.finds at hfs
      rcases hcorr with ⟨-, hn⟩ | ⟨e, y, hfi, hf', hey⟩
      · rw [show joinPath [c] = c from rfl] at hn
        rw [hn] at hfs
        nomatch hfs
      rw [show joinPath [c] = c from rfl] at hf'
      rw [hf', Option.map_some] at hfs
      -- it is the inode with the number of the host
      have hei : e.1 = i := by
        refine hnum.unique i hm e.1 hey.1 (by rw [hre]; exact hlk) ?_
        rw [hey.2.2, hre]
        exact Option.some.inj hfs
      have hlen : (joinPath [c]).length ≤ sfsMaxFnameLen := by
        have hcut := List.find?_some hfi
        rw [← of_decide_eq_true hcut, List.length_take]
        exact (Nat.min_le_left _ _).trans (by decide)
      obtain ⟨k, empty, hh⟩ := search_hit blocks hb hl hf hnul h0 hlen hfi
      have hki := hnum.kinds i hm
      rw [hre, ← (din_volume blocks hb hl hf hm).1] at hki
      have hfo : ∃ v', follow (joinPath [c]) buf (v.refInc (.sfs sfsBlknRoot)) = .ok (.ok (.sfs i), buf, v') :=
        follow_hit hv hj hhead htype hh (congrArg some hei) (assertInuse_packed blocks hb hl hf hm) hli
          (hki.imp_right fun hk => hk.resolve_right hlk)
      exact ⟨buf, hfo⟩

end PackedAux

/-- For a file or a directory of a packed tree, the lookup of its path returns its inode exactly where the path has one component, the
search of the root comes to that name first, and the inode has links. The path may be relative to the root, or stand behind the name of
the device with any number of slashes. -/
theorem packed_path_resolves {home : HostDir} {size blocks : Nat} {entry : Nat → UInt8} {image : Nat → Nat → UInt8} {s' : Mksfs}
    {vol : Sfs} (hap : home.Apart {0}) (hnames : ∀ x ∈ home.names, x ≠ [] ∧ 0 ∉ x ∧ Vfs.slash ∉ x)
    (hr : createImg size entry image home = .ok s') (hmount : sfsDoMount (device s' blocks) = .ok (0, some vol)) {v : Vfs} {t : Nat}
    (hv : v.AtRoot vol t) (path : List (List UInt8)) (n : Nat) (hat : home.At path n) (hcolon : ∀ c ∈ path, Vfs.colon ∉ c)
    (hlink : n ∉ home.links) (i : Nat) (hi : searchCacheInode s' n = some i) (slashes : Nat) :
    ((∃ q v', v.vfsLookup t (joinPath path) .all = .ok (.ok (.sfs i), q, v')) ↔
      (∃ c, path = [c] ∧ home.finds c = some n) ∧ (vol.din i).nlinks ≠ 0) ∧
    ((∃ q v', v.vfsLookup t (diskName ++ Vfs.colon :: (List.replicate slashes Vfs.slash ++ joinPath path)) .all =
        .ok (.ok (.sfs i), q, v')) ↔
      (∃ c, path = [c] ∧ home.finds c = some n) ∧ (vol.din i).nlinks ≠ 0) := by
  obtain ⟨hne, hpath⟩ := PackedAux.At.components hat
  obtain ⟨c, rest, rfl⟩ := List.exists_cons_of_ne_nil hne
  have hc := hnames c (hpath c List.mem_cons_self)
  obtain ⟨hjoin, hhead⟩ : joinPath (c :: rest) ≠ [] ∧ (joinPath (c :: rest)).head? ≠ some Vfs.slash :=
    PackedAux.joinPath_start hc.1 hc.2.2
  have hplain : Vfs.colon ∉ joinPath (c :: rest) := by
    intro hm
    rcases PackedAux.mem_joinPath hm with hm | ⟨d, hd, hm⟩
    · exact absurd hm (by decide)
    · exact hcolon d hd hm
  rw [PackedAux.lookup_relative hv hjoin hhead hplain, PackedAux.lookup_device hv slashes hjoin hhead]
  exact ⟨PackedAux.follow_packed hap hnames hr hmount hv hne hpath hlink hi,
    PackedAux.follow_packed hap hnames hr hmount hv hne hpath hlink hi⟩

/-! ## A tree with a directory -/

theorem PackedAux.sampleTree_apart : sampleTree.Apart {0} := ⟨by decide, by decide, by simp [sampleTree, HostDir.dirs]⟩

/-- The state after the boot, with the root in memory. -/
theorem PackedAux.atRoot_shelfVfs {vol : Sfs} (hli : (vol.din sfsBlknRoot).nlinks ≠ 0) : (shelfVfs vol).AtRoot vol 0 where
  sfs := rfl
  pwd := rfl
  disk := ⟨0, _, rfl, rfl, rfl⟩
  ops := rfl
  pos := Nat.succ_pos 1
  openCount := Nat.zero_le 2
  refCount := by
    change 2 + 1 < maxInodeCount
    decide
  loaded i hi := by
    by_cases he : i = 1
    · rw [he]
      exact hli
    · exact absurd (congrArg Vnode.refCount (if_neg he)) hi

/-- The file `a` of the root is found. -/
theorem packed_path_resolves_file : ∃ s' vol i q v', createImg (64 * 4096) (fun _ => 0) (fun _ _ => 0) sampleTree = .ok s' ∧
    sfsDoMount (device s' 64) = .ok (0, some vol) ∧ searchCacheInode s' 10 = some i ∧
    (shelfVfs vol).vfsLookup 0 [97] .all = .ok (.ok (.sfs i), q, v') := by
  have hr : createImg (64 * 4096) (fun _ => 0) (fun _ _ => 0) sampleTree = .ok _ := eq_ok_okGet (by decide +kernel)
  have hmount : sfsDoMount (device _ 64) = .ok (0, some _) := PackedAux.mount_createImg PackedAux.sampleTree_apart hr (by decide +kernel)
  have hiff := (packed_path_resolves PackedAux.sampleTree_apart (by decide) hr hmount
    (PackedAux.atRoot_shelfVfs (by decide +kernel)) [[97]] 10 .file (by decide) (by decide) 5 (by decide +kernel) 1).1
  obtain ⟨q, v', hlook⟩ := hiff.mpr ⟨⟨[97], rfl, PackedAux.finds_of_short (by decide) (by decide) (by decide) (by decide)⟩,
    by decide +kernel⟩
  exact ⟨_, _, 5, q, v', hr, hmount, by decide +kernel, hlook⟩

/-- The file `b` in the directory `d` is not found at `d/b`. -/
theorem deep_path_missing : sampleTree.At [[100], [98]] 10 ∧ ∃ s' vol q v',
    createImg (64 * 4096) (fun _ => 0) (fun _ _ => 0) sampleTree = .ok s' ∧ sfsDoMount (device s' 64) = .ok (0, some vol) ∧
    searchCacheInode s' 10 = some 5 ∧ joinPath [[100], [98]] = [100, 47, 98] ∧
    (shelfVfs vol).vfsLookup 0 [100, 47, 98] .all = .ok (.error (-eNoent), q, v') := by
  have hok : okWith (fun s' => decide (s'.ninos ≤ 64 ∧ searchCacheInode s' 10 = some 5) &&
      okWith (fun r => match r.1 with
        | .error ret => decide (ret = -eNoent)
        | .ok _ => false) ((shelfVfs (volume s' s' 64)).vfsLookup 0 [100, 47, 98] .all))
      (createImg (64 * 4096) (fun _ => 0) (fun _ _ => 0) sampleTree) = true := by decide +kernel
  obtain ⟨s', hr, hok⟩ := exists_of_okWith hok
  obtain ⟨hP, hok⟩ := (Bool.and_eq_true _ _).mp hok
  obtain ⟨hle, hi⟩ := of_decide_eq_true hP
  obtain ⟨⟨found, q, v'⟩, hlook, hfound⟩ := exists_of_okWith hok
  obtain rfl : found = .error (-eNoent) := by
    cases found with
    | error ret => rw [of_decide_eq_true hfound]
    | ok n => nomatch hfound
  exact ⟨.behindFile (.inside .file), s', _, q, v', hr, PackedAux.mount_createImg PackedAux.sampleTree_apart hr hle, hi, rfl, hlook⟩

end Ucore
