import Mathlib.Algebra.GroupWithZero.Nat
import Mathlib.Algebra.Group.Pi.Basic
import Mathlib.Algebra.Group.Prod
import Mathlib.Algebra.Order.Group.Nat
import Mathlib.Algebra.Group.Nat.Even
import Ucore.FileCall

/-!
# The balance of references

What the calls that find and open an inode do to the counts of the inodes. Counts are functions from inodes to pairs of numbers, and
a call that gives back the counts `a` and takes the counts `b` leads from `v` to a `v'` with `v'.counts + a = v.counts + b`
(`Vfs.Frame`). Balances add up along a call (`Frame.trans`), and what is taken for a while cancels (`Frame.borrow`). Nothing is assumed
of the state but that an inode which is not in memory is not open. An inode keeps its operations as long as it has more references than
the call gives back.
-/

namespace Ucore

open Checked Function

namespace Vfs

/-- `ref_count` and `open_count` of every inode. -/
def counts (v : Vfs) (n : Node) : Nat × Nat := ((v.vnodes n).refCount, (v.vnodes n).openCount)

/-- One reference to an inode. -/
def ref (n : Node) : Node → Nat × Nat := Pi.single n (1, 0)

/-- One opening of an inode. -/
def opening (n : Node) : Node → Nat × Nat := Pi.single n (0, 1)

/-- The reference that comes with a result. -/
def credit : Except Int Node → Node → Nat × Nat
  | .ok n => ref n
  | .error _ => 0

@[simp] theorem ref_self (n : Node) : ref n n = (1, 0) := Pi.single_eq_same n _

/-- An opening is not a reference. -/
theorem opening_fst (n m : Node) : (opening n m).1 = 0 := by
  unfold opening
  by_cases hm : m = n
  · rw [hm, Pi.single_eq_same]
  · rw [Pi.single_eq_of_ne hm]
    rfl

theorem ref_snd (n m : Node) : (ref n m).2 = 0 := by
  unfold ref
  by_cases hm : m = n
  · rw [hm, Pi.single_eq_same]
  · rw [Pi.single_eq_of_ne hm]
    rfl

/-- An inode that is not in memory is not open. -/
def Absent (v : Vfs) : Prop := ∀ n, (v.vnodes n).refCount = 0 → (v.vnodes n).openCount = 0

/-- The inodes of devices have the operations of devices, and those of the volume have not. -/
structure Kinds (v : Vfs) : Prop where
  dev : ∀ k, (v.vnodes (.dev k)).ops = .dev
  sfs : ∀ i, (v.vnodes (.sfs i)).ops ≠ .dev

/-- The inodes that have more references than `a` keep their operations. -/
def Steady (v v' : Vfs) (a : Node → Nat × Nat) : Prop :=
  ∀ m k, 0 < k → k + (a m).1 ≤ (v.vnodes m).refCount → (v'.vnodes m).ops = (v.vnodes m).ops

/-- A call gives back the counts `a` and takes the counts `b`, and leaves the devices, directories and slots. -/
structure Frame (v v' : Vfs) (a b : Node → Nat × Nat) : Prop where
  counts : v'.counts + a = v.counts + b
  absent : v'.Absent
  steady : v.Steady v' a
  kinds : v.Kinds → v'.Kinds
  vdevList : v'.vdevList = v.vdevList
  bootfs : v'.bootfs = v.bootfs
  pwd : v'.pwd = v.pwd
  files : v'.files = v.files

/-! ## Balances -/

variable {v v' v'' : Vfs} {a b c d : Node → Nat × Nat}

theorem Frame.refl (h : v.Absent) : v.Frame v 0 0 := ⟨rfl, h, fun _ _ _ _ => rfl, id, rfl, rfl, rfl, rfl⟩

section

variable (h : v.Frame v' a b)
include h

theorem Frame.refCount (n : Node) : (v'.vnodes n).refCount + (a n).1 = (v.vnodes n).refCount + (b n).1 :=
  congrArg Prod.fst (congrFun h.counts n)

theorem Frame.steady_trans (hs : v.Steady v' c) (hs' : v'.Steady v'' d) (hle : ∀ m, (a m).1 + (d m).1 ≤ (c m).1 + (b m).1) :
    v.Steady v'' c := by
  intro m k hk hr
  refine (hs' m k hk ?_).trans (hs m k hk hr)
  have hc := h.refCount m
  have := hle m
  omega

theorem Frame.trans (h' : v'.Frame v'' c d) : v.Frame v'' (a + c) (b + d) where
  counts := by
    calc v''.counts + (a + c) = v''.counts + c + a := by rw [add_comm a c, add_assoc]
      _ = v'.counts + a + d := by rw [h'.counts, add_right_comm]
      _ = v.counts + (b + d) := by rw [h.counts, add_assoc]
  absent := h'.absent
  steady := by
    refine h.steady_trans ?_ h'.steady fun m => Nat.le_add_right _ _
    intro m k hk hr
    exact h.steady m k hk ((Nat.add_le_add_left (Nat.le_add_right _ _) k).trans hr)
  kinds hv := h'.kinds (h.kinds hv)
  vdevList := h'.vdevList.trans h.vdevList
  bootfs := h'.bootfs.trans h.bootfs
  pwd := h'.pwd.trans h.pwd
  files := h'.files.trans h.files

theorem Frame.congr (ha : a = c) (hb : b = d) : v.Frame v' c d := ha ▸ hb ▸ h

end

/-- What is given back and taken again does not count, where the operations stay. -/
theorem Frame.cancel (h : v.Frame v' (a + c) (b + c)) (hs : v.Steady v' a) : v.Frame v' a b :=
  { h with
    counts := add_right_cancel (by rw [add_assoc, add_assoc, h.counts] : v'.counts + a + c = v.counts + b + c)
    steady := hs }

/-- A balance without anything given back or taken before or after another. -/
theorem Frame.zero_trans (h : v.Frame v' 0 0) (h' : v'.Frame v'' c d) : v.Frame v'' c d := (h.trans h').congr (zero_add _) (zero_add _)

theorem Frame.trans_zero (h : v.Frame v' a b) (h' : v'.Frame v'' 0 0) : v.Frame v'' a b := (h.trans h').congr (add_zero _) (add_zero _)

/-- What is taken first is given back, and more than that. -/
theorem Frame.repay (h : v.Frame v' 0 (b + a)) (h' : v'.Frame v'' (c + a) 0) : v.Frame v'' c b := by
  refine Frame.cancel ((h.trans h').congr (zero_add _) (add_zero _)) ?_
  refine h.steady_trans ?_ h'.steady ?_
  · intro m k hk hr
    exact h.steady m k hk ((Nat.le_add_right _ _).trans hr)
  · intro m
    show 0 + ((c m).1 + (a m).1) ≤ (c m).1 + ((b m).1 + (a m).1)
    omega

/-- A reference that is taken for a while. -/
theorem Frame.borrow {v1 v2 v3 : Vfs} (h1 : v.Frame v1 0 a) (h2 : v1.Frame v2 0 b) (h3 : v2.Frame v3 a 0) : v.Frame v3 0 b :=
  Frame.repay ((h1.trans h2).congr (add_zero _) (add_comm _ _)) (h3.congr (zero_add _).symm rfl)

/-- Only the volume changes. -/
theorem Frame.ofSfs {s : Sfs} (h : v.Absent) : v.Frame { v with sfs := s } 0 0 :=
  ⟨rfl, h, fun _ _ _ _ => rfl, fun hk => ⟨hk.dev, hk.sfs⟩, rfl, rfl, rfl, rfl⟩

/-- The flags that `vfs_open` accepts. -/
def Accepted (flags : Nat) : Prop := flags % 4 ≠ 3 ∧ ¬(flags.testBit 4 ∧ flags % 4 = 0)

/-- `O_CREAT` and `O_EXCL` are given, and the path leads to an inode. -/
def Clash (v : Vfs) (t : Nat) (path : List UInt8) (flags : Nat) (mem : KernelMemory) : Prop :=
  Accepted flags ∧ (flags.testBit 3 ∧ flags.testBit 2) ∧ ∃ n p v', v.vfsLookup t path mem = .ok (.ok n, p, v')

end Vfs

namespace VfsAux

open Vfs

variable {v v' : Vfs} {n m : Node} {i t flags : Nat} {mem : KernelMemory} {path p : List UInt8} {x : Vnode} {ret : Int}
  {memory : Bool} {r : Except Int Node}

/-! ## Counts -/

@[simp] theorem vnodes_setVnode_self : (v.setVnode n x).vnodes n = x := update_self _ _ _

theorem vnodes_setVnode_of_ne (h : m ≠ n) : (v.setVnode n x).vnodes m = v.vnodes m :=
  update_of_ne h _ _

theorem counts_setVnode : (v.setVnode n x).counts = update v.counts n (x.refCount, x.openCount) := by
  funext m
  unfold counts setVnode
  dsimp only
  rw [update_apply, update_apply]
  split <;> rfl

theorem add_single (f : Node → Nat × Nat) (n : Node) (x : Nat × Nat) : f + Pi.single n x = update f n (f n + x) := by
  funext m
  rw [Pi.add_apply, update_apply, Pi.single_apply]
  split
  · rename_i he
    rw [he]
  · rw [add_zero]

theorem absent_setVnode (h : v.Absent) (hx : x.refCount = 0 → x.openCount = 0) : (v.setVnode n x).Absent := by
  intro m
  by_cases hm : m = n
  · rw [hm, vnodes_setVnode_self]
    exact hx
  · rw [vnodes_setVnode_of_ne hm]
    exact h m

theorem ops_setVnode (hx : x.ops = (v.vnodes n).ops) : ((v.setVnode n x).vnodes m).ops = (v.vnodes m).ops := by
  by_cases hm : m = n
  · rw [hm, vnodes_setVnode_self, hx]
  · rw [vnodes_setVnode_of_ne hm]

theorem kinds_setVnode (hx : x.ops = (v.vnodes n).ops) (h : v.Kinds) : (v.setVnode n x).Kinds where
  dev k := (ops_setVnode hx).trans (h.dev k)
  sfs i := by
    rw [ops_setVnode hx]
    exact h.sfs i

theorem refInc_frame (h : v.Absent) : v.Frame (v.refInc n) 0 (ref n) := by
  refine ⟨?_, absent_setVnode h nofun, fun _ _ _ _ => ops_setVnode rfl, kinds_setVnode rfl, rfl, rfl, rfl, rfl⟩
  rw [refInc, counts_setVnode, ref, add_single]
  rfl

theorem openInc_frame (h : v.Absent) (hn : 0 < (v.vnodes n).refCount) : v.Frame (v.openInc n) 0 (opening n) := by
  refine ⟨?_, absent_setVnode h fun h0 => absurd h0 hn.ne', fun _ _ _ _ => ops_setVnode rfl, kinds_setVnode rfl,
    rfl, rfl, rfl, rfl⟩
  rw [openInc, counts_setVnode, opening, add_single]
  rfl

/-- A reference given back, before the inode is reclaimed. -/
theorem counts_refDec (hn : 0 < (v.vnodes n).refCount) :
    (v.setVnode n { v.vnodes n with refCount := (v.vnodes n).refCount - 1 }).counts + ref n = v.counts := by
  rw [counts_setVnode, ref, add_single, update_self, update_idem]
  refine (congrArg (update v.counts n) ?_).trans (update_eq_self n v.counts)
  show ((v.vnodes n).refCount - 1 + 1, (v.vnodes n).openCount + 0) = _
  rw [Nat.sub_add_cancel hn]
  rfl

theorem counts_openDec (hn : 0 < (v.vnodes n).openCount) :
    (v.setVnode n { v.vnodes n with openCount := (v.vnodes n).openCount - 1 }).counts + opening n = v.counts := by
  rw [counts_setVnode, opening, add_single, update_self, update_idem]
  refine (congrArg (update v.counts n) ?_).trans (update_eq_self n v.counts)
  show ((v.vnodes n).refCount + 0, (v.vnodes n).openCount - 1 + 1) = _
  rw [Nat.sub_add_cancel hn]
  rfl

theorem vop_ok {op : Vop} (hr : v.vop n op = .ok ()) : op ∈ (v.vnodes n).ops.vops ∧ inodeCheck (v.vnodes n) := by
  obtain ⟨hop, hr⟩ := ensure_bind_eq_ok.mp hr
  unfold ensure at hr
  split at hr
  · rename_i hc
    exact ⟨hop, hc⟩
  · nomatch hr

section

variable (h : v.Absent)
include h

theorem vopFsync_frame (hrun : v.vopFsync n = .ok v') : v.Frame v' 0 0 := by
  obtain ⟨-, -, hrun⟩ := bind_eq_ok.mp hrun
  cases n with
  | sfs i =>
    obtain ⟨s, -, hr⟩ := bind_eq_ok.mp hrun
    cases hr
    exact Frame.ofSfs h
  | dev k => nomatch hrun

theorem vopTruncate_frame {len : Int} (hrun : v.vopTruncate n len = .ok (ret, v')) : v.Frame v' 0 0 := by
  obtain ⟨-, -, hrun⟩ := bind_eq_ok.mp hrun
  cases n with
  | sfs i =>
    obtain ⟨s, -, hr⟩ := bind_eq_ok.mp hrun
    cases hr
    exact Frame.ofSfs h
  | dev k => nomatch hrun

theorem reclaimSync_frame (hr : v.reclaimSync i = .ok v') : v.Frame v' 0 0 := by
  unfold reclaimSync at hr
  split at hr
  · exact vopFsync_frame h hr
  · cases hr
    exact Frame.refl h

theorem reclaimRest_frame (hrun : v.reclaimRest i = .ok v') : v.Frame v' 0 0 := by
  obtain ⟨v1, hs, hrun⟩ := bind_eq_ok.mp hrun
  have h1 := reclaimSync_frame h hs
  obtain ⟨s, -, hrun⟩ := bind_eq_ok.mp hrun
  obtain ⟨-, hr⟩ := ensure_bind_eq_ok.mp hrun
  cases hr
  exact h1.zero_trans (Frame.ofSfs h1.absent)

theorem sfsReclaim_frame (hr : v.sfsReclaim i = .ok v') : v.Frame v' 0 0 := by
  unfold sfsReclaim at hr
  split at hr
  · obtain ⟨⟨ret, v1⟩, ht, hr⟩ := bind_eq_ok.mp hr
    have h1 := vopTruncate_frame h ht
    dsimp only at hr
    split at hr
    · cases hr
      exact h1
    · exact h1.zero_trans (reclaimRest_frame h1.absent hr)
  · exact reclaimRest_frame h hr

theorem vopReclaim_frame (hr : v.vopReclaim n = .ok v') : v.Frame v' 0 0 := by
  obtain ⟨-, -, hr⟩ := bind_eq_ok.mp hr
  cases n with
  | sfs i => exact sfsReclaim_frame h hr
  | dev k => nomatch hr

omit h in
theorem vopReclaim_check (hr : v.vopReclaim n = .ok v') : inodeCheck (v.vnodes n) := by
  obtain ⟨⟨⟩, hv, -⟩ := bind_eq_ok.mp hr
  exact (vop_ok hv).2

/-- `inode_ref_dec` gives a reference back. -/
theorem refDec_frame (hr : v.refDec n = .ok v') : v.Frame v' (ref n) 0 := by
  obtain ⟨hp, hr⟩ := ensure_bind_eq_ok.mp hr
  dsimp only at hr
  have hd : (v.setVnode n { v.vnodes n with refCount := (v.vnodes n).refCount - 1 }).Absent →
      v.Frame (v.setVnode n { v.vnodes n with refCount := (v.vnodes n).refCount - 1 }) (ref n) 0 := fun ha =>
    ⟨by rw [counts_refDec hp, add_zero], ha, fun _ _ _ _ => ops_setVnode rfl, kinds_setVnode rfl, rfl, rfl, rfl, rfl⟩
  split at hr
  · rename_i h0
    -- the inode is reclaimed; the check before that says that it is not open
    have hclosed := (vopReclaim_check hr).1
    have ha : (v.setVnode n { v.vnodes n with refCount := (v.vnodes n).refCount - 1 }).Absent := by
      refine absent_setVnode h ?_
      intro _
      rw [h0, vnodes_setVnode_self] at hclosed
      exact Nat.le_zero.mp hclosed
    exact (hd ha).trans_zero (vopReclaim_frame ha hr)
  · rename_i h0
    cases hr
    refine hd (absent_setVnode h ?_)
    intro hz
    rw [vnodes_setVnode_self] at h0
    exact absurd hz h0

theorem vopClose_frame (hr : v.vopClose n = .ok v') : v.Frame v' 0 0 := by
  obtain ⟨-, -, hr⟩ := bind_eq_ok.mp hr
  cases n with
  | sfs i => exact vopFsync_frame h hr
  | dev k =>
    cases hr
    exact Frame.refl h

/-- `inode_open_dec` gives an opening back. -/
theorem openDec_frame (hr : v.openDec n = .ok v') : v.Frame v' (opening n) 0 := by
  obtain ⟨hp, hr⟩ := ensure_bind_eq_ok.mp hr
  dsimp only at hr
  have ha : (v.setVnode n { v.vnodes n with openCount := (v.vnodes n).openCount - 1 }).Absent := by
    refine absent_setVnode h ?_
    intro h0
    exact absurd (h n h0) hp.ne'
  have hd : v.Frame (v.setVnode n { v.vnodes n with openCount := (v.vnodes n).openCount - 1 }) (opening n) 0 :=
    ⟨by rw [counts_openDec hp, add_zero], ha, fun _ _ _ _ => ops_setVnode rfl, kinds_setVnode rfl, rfl, rfl, rfl, rfl⟩
  split at hr
  · exact hd.trans_zero (vopClose_frame ha hr)
  · cases hr
    exact hd

/-- `vfs_close` -/
theorem vfsClose_frame (hr : v.vfsClose n = .ok v') : v.Frame v' (opening n + ref n) 0 := by
  obtain ⟨v1, ho, href⟩ := bind_eq_ok.mp hr
  have h1 := openDec_frame h ho
  exact (h1.trans (refDec_frame h1.absent href)).congr rfl (add_zero _)

/-! ## Inodes of a path -/

omit h in
theorem sfsGetOps_ne {type : SfsType} {ops : NodeOps} (hr : sfsGetOps type = .ok ops) : ops ≠ .dev := by
  rintro rfl
  cases type <;> nomatch hr

/-- An inode is read into memory. -/
theorem createInode_frame (h0 : (v.vnodes (.sfs i)).refCount = 0) (hrun : v.createInode i = .ok v') :
    v.Frame v' 0 (ref (.sfs i)) := by
  obtain ⟨-, -, hrun⟩ := bind_eq_ok.mp hrun
  obtain ⟨-, hrun⟩ := ensure_bind_eq_ok.mp hrun
  obtain ⟨ops, ho, hr⟩ := bind_eq_ok.mp hrun
  cases hr
  refine ⟨?_, absent_setVnode h nofun, ?_, ?_, rfl, rfl, rfl, rfl⟩
  rotate_left
  · intro m k hk href
    -- the inode has no reference, so that it is not one of those whose operations stay
    rw [vnodes_setVnode_of_ne]
    rintro rfl
    exact absurd href (by omega)
  · intro hv
    have hne : ∀ k, Node.dev k ≠ Node.sfs i := fun _ => nofun
    refine ⟨fun k => by rw [vnodes_setVnode_of_ne (hne k), hv.dev k], ?_⟩
    intro j
    by_cases hj : Node.sfs j = .sfs i
    · rw [hj, vnodes_setVnode_self]
      exact sfsGetOps_ne ho
    · rw [vnodes_setVnode_of_ne hj]
      exact hv.sfs j
  rw [counts_setVnode, ref, add_single]
  have hz : v.counts (.sfs i) = (0, 0) := by
    unfold counts
    rw [h0, h _ h0]
  rw [hz]
  rfl

theorem sfsLoadInode_frame (hrun : v.sfsLoadInode i memory = .ok (r, v')) : v.Frame v' 0 (credit r) := by
  unfold sfsLoadInode at hrun
  split at hrun
  · cases hrun
    exact refInc_frame h
  rename_i h0
  split at hrun
  · cases hrun
    exact Frame.refl h
  obtain ⟨v1, hl, hr⟩ := bind_eq_ok.mp hrun
  cases hr
  exact createInode_frame h (not_not.mp h0) hl

theorem sfsLookupOnce_frame {name : List UInt8} (hr : v.sfsLookupOnce i name mem = .ok (r, v')) : v.Frame v' 0 (credit r) := by
  obtain ⟨⟨ret, found, s⟩, -, hr⟩ := bind_eq_ok.mp hr
  dsimp only at hr
  have h1 : v.Frame { v with sfs := s } 0 0 := Frame.ofSfs h
  split at hr
  · cases hr
    exact h1
  · exact h1.zero_trans (sfsLoadInode_frame h1.absent hr)

end

/-- The inode that `sfs_load_inode` returns. -/
theorem sfsLoadInode_node (hrun : v.sfsLoadInode i memory = .ok (.ok n, v')) : n = .sfs i := by
  unfold sfsLoadInode at hrun
  split at hrun
  · cases hrun
    rfl
  split at hrun
  · cases hrun
  · obtain ⟨_, -, hr⟩ := bind_eq_ok.mp hrun
    cases hr
    rfl

/-! ## The way of a path -/

/-- Where a path can begin. -/
def Base (v : Vfs) (n : Node) : Prop :=
  n = .sfs sfsBlknRoot ∨ v.bootfs = some n ∨ (∃ t, v.pwd t = some n) ∨ ∃ k < v.vdevList.length, n = .dev k

theorem Base.frame {a b : Node → Nat × Nat} (hb : Base v n) (hf : v.Frame v' a b) : Base v' n := by
  unfold Base
  rw [hf.bootfs, hf.pwd, hf.vdevList]
  exact hb

/-- How the functions on paths find an inode: they take a reference where a path can begin, load the root or the inode of an entry
of a directory, and give back what they took to get there. -/
inductive Route : Vfs → Except Int Node → Vfs → Prop
  | fail (v : Vfs) (ret : Int) : Route v (.error ret) v
  | base {v : Vfs} {n : Node} : Base v n → Route v (.ok n) (v.refInc n)
  | root {v v' : Vfs} {memory : Bool} {n : Node} : v.sfsLoadInode sfsBlknRoot memory = .ok (.ok n, v') → Route v (.ok n) v'
  | entry {v v' : Vfs} {i : Nat} {name : List UInt8} {mem : KernelMemory} {r : Except Int Node} : Base v (.sfs i) →
      (v.sfs.din i).type = .dir → v.sfsLookupOnce i name mem = .ok (r, v') → Route v r v'
  | borrow {v v₁ v₂ v₃ : Vfs} {n : Node} {r : Except Int Node} : Base v n → Route v (.ok n) v₁ → Route v₁ r v₂ →
      v₂.refDec n = .ok v₃ → Route v r v₃

/-- A reference is taken to the inode that is returned, and nothing else. -/
theorem Route.frame (hr : Route v r v') (h : v.Absent) : v.Frame v' 0 (credit r) := by
  induction hr with
  | fail => exact Frame.refl h
  | base => exact refInc_frame h
  | root hl => exact sfsLoadInode_frame h hl
  | entry _ _ ho => exact sfsLookupOnce_frame h ho
  | borrow _ _ _ hd ih1 ih2 =>
    have h1 := ih1 h
    have h2 := ih2 h1.absent
    exact h1.borrow h2 (refDec_frame h2.absent hd)

/-- A way to an inode where a path can begin. -/
def Begins (v : Vfs) (r : Except Int Node) (v' : Vfs) : Prop := Route v r v' ∧ ∀ n, r = .ok n → Base v n

theorem Begins.fail (v : Vfs) (ret : Int) : Begins v (.error ret) v := ⟨.fail v ret, nofun⟩

theorem Begins.of_base (hb : Base v n) : Begins v (.ok n) (v.refInc n) :=
  ⟨.base hb, fun _ hn => Except.ok.inj hn ▸ hb⟩

theorem sfsGetRoot_route (hr : v.sfsGetRoot mem = .ok (n, v')) : Route v (.ok n) v' ∧ n = .sfs sfsBlknRoot := by
  obtain ⟨⟨r, v1⟩, hl, hr⟩ := bind_eq_ok.mp hr
  cases r with
  | ok m =>
    cases hr
    exact ⟨.root hl, sfsLoadInode_node hl⟩
  | error ret => nomatch hr

theorem findIdx_lt {α : Type} {l : List α} {p : α → Bool} {k : Nat} (h : l.findIdx? p = some k) : k < l.length :=
  (List.findIdx?_eq_some_iff_findIdx_eq.mp h).1

theorem vfsGetRoot_begins {devname : List UInt8} (hrun : v.vfsGetRoot devname mem = .ok (r, v')) : Begins v r v' := by
  unfold vfsGetRoot at hrun
  split at hrun
  · cases hrun
    exact .fail v _
  rename_i k hk
  split at hrun
  · cases hrun
    exact .fail v _
  split at hrun
  · obtain ⟨⟨n, v1⟩, hro, hr⟩ := bind_eq_ok.mp hrun
    cases hr
    obtain ⟨hw, rfl⟩ := sfsGetRoot_route hro
    exact ⟨hw, fun _ hn => Except.ok.inj hn ▸ Or.inl rfl⟩
  split at hrun
  · cases hrun
    exact .of_base (Or.inr (Or.inr (Or.inr ⟨k, findIdx_lt hk, rfl⟩)))
  · cases hrun
    exact .fail v _

theorem getNode_begins {o : Option Node} (ho : ∀ n, o = some n → Base v n) : Begins v (v.getNode o).1 (v.getNode o).2 := by
  cases o with
  | none => exact .fail v _
  | some n => exact .of_base (ho n rfl)

/-- The reference that `get_device` returns. -/
def start (r : Except Int (Node × List UInt8)) : Except Int Node := r.map (·.1)

theorem start_map (r : Except Int Node) (p : List UInt8) : start (r.map (·, p)) = r := by
  cases r <;> rfl

theorem getDevice_begins {r : Except Int (Node × List UInt8)} (hrun : v.getDevice t path mem = .ok (r, p, v')) :
    Begins v (start r) v' := by
  have hp : ∀ n, v.pwd t = some n → Base v n := fun n hn => Or.inr (Or.inr (Or.inl ⟨t, hn⟩))
  have hno : ∀ (o : Option Node) (sub : List UInt8), (∀ n, o = some n → Base v n) →
      (Except.ok ((v.getNode o).1.map (·, sub), path, (v.getNode o).2) : Except VfsPanic _) = .ok (r, p, v') →
        Begins v (start r) v' := by
    intro o sub ho hr
    cases hr
    rw [start_map]
    exact getNode_begins ho
  unfold getDevice at hrun
  dsimp only at hrun
  split at hrun
  · exact hno _ _ hp hrun
  split at hrun
  · obtain ⟨⟨n, v1⟩, hro, hr⟩ := bind_eq_ok.mp hrun
    cases hr
    rw [start_map]
    exact vfsGetRoot_begins hro
  split at hrun
  · exact hno _ _ hp hrun
  split at hrun
  · exact hno _ _ (fun n hn => Or.inr (Or.inl hn)) hrun
  -- the root of the file system of the current directory
  have hc := getNode_begins hp
  split at hrun
  · rename_i ret v1 he
    cases hrun
    rwa [he] at hc
  · nomatch hrun
  · rename_i i v1 he
    rw [he] at hc
    obtain ⟨⟨root, v2⟩, hro, hrun⟩ := bind_eq_ok.mp hrun
    obtain ⟨v3, hd, hr⟩ := bind_eq_ok.mp hrun
    cases hr
    obtain ⟨hw, rfl⟩ := sfsGetRoot_route hro
    exact ⟨.borrow (hc.2 _ rfl) hc.1 hw hd, fun _ hn => Except.ok.inj hn ▸ Or.inl rfl⟩

theorem sfsLookup_route (hb : Base v (.sfs i)) (hrun : v.sfsLookup i path mem = .ok (r, v')) : Route v r v' := by
  obtain ⟨-, hrun⟩ := ensure_bind_eq_ok.mp hrun
  dsimp only at hrun
  split at hrun
  · obtain ⟨v2, hd, hr⟩ := bind_eq_ok.mp hrun
    cases hr
    exact .borrow hb (.base hb) (.fail _ _) hd
  · rename_i ht
    obtain ⟨⟨r', v2⟩, ho, hrun⟩ := bind_eq_ok.mp hrun
    obtain ⟨v3, hd, hr⟩ := bind_eq_ok.mp hrun
    cases hr
    exact .borrow hb (.base hb) (.entry hb (not_not.mp ht) ho) hd

theorem vopLookup_route (hb : Base v n) (hr : v.vopLookup n path mem = .ok (r, v')) : Route v r v' := by
  obtain ⟨-, -, hr⟩ := bind_eq_ok.mp hr
  cases n with
  | sfs i => exact sfsLookup_route hb hr
  | dev k =>
    dsimp only at hr
    split at hr
    · cases hr
      exact .fail _ _
    · cases hr
      exact .base hb

theorem vfsLookup_route (h : v.Absent) (hrun : v.vfsLookup t path mem = .ok (r, p, v')) : Route v r v' := by
  obtain ⟨⟨g, q, v1⟩, hd, hrun⟩ := bind_eq_ok.mp hrun
  obtain ⟨h1, hba⟩ := getDevice_begins hd
  cases g with
  | error ret =>
    cases hrun
    exact h1
  | ok ns =>
    obtain ⟨n, sub⟩ := ns
    cases sub with
    | nil =>
      cases hrun
      exact h1
    | cons c cs =>
      obtain ⟨⟨r', v2⟩, hl, hrun⟩ := bind_eq_ok.mp hrun
      obtain ⟨v3, hdec, hr⟩ := bind_eq_ok.mp hrun
      cases hr
      have hb := hba n rfl
      exact .borrow hb h1 (vopLookup_route (hb.frame (h1.frame h)) hl) hdec

/-- `vfs_lookup` takes one reference to the inode that it returns. -/
theorem vfsLookup_frame (h : v.Absent) (hr : v.vfsLookup t path mem = .ok (r, p, v')) :
    v.Frame v' 0 (credit r) := (vfsLookup_route h hr).frame h

/-! ## Opening -/

/-- What the end of `vfs_open` does with the reference that it gets: it stays with the inode that is opened, and is given back
otherwise. -/
theorem openNode_frame (h : v.Absent) (hn : 0 < (v.vnodes n).refCount) (hrun : v.openNode n flags = .ok (r, v')) :
    (r = .ok n ∧ v.Frame v' 0 (opening n)) ∨ ((∃ ret, r = .error ret) ∧ v.Frame v' (ref n) 0) := by
  obtain ⟨ret, -, hrun⟩ := bind_eq_ok.mp hrun
  dsimp only at hrun
  split at hrun
  · obtain ⟨v1, hd, hr⟩ := bind_eq_ok.mp hrun
    cases hr
    exact Or.inr ⟨⟨_, rfl⟩, refDec_frame h hd⟩
  have h1 := openInc_frame h hn
  split at hrun
  · obtain ⟨⟨ret', v2⟩, ht, hrun⟩ := bind_eq_ok.mp hrun
    have h2 := h1.trans_zero (vopTruncate_frame h1.absent ht)
    split at hrun
    · obtain ⟨v3, hc, hr⟩ := bind_eq_ok.mp hrun
      cases hr
      have h3 := (vfsClose_frame h2.absent hc).congr (add_comm _ _) rfl
      exact Or.inr ⟨⟨_, rfl⟩, (h2.congr rfl (zero_add _).symm).repay h3⟩
    · cases hrun
      exact Or.inl ⟨rfl, h2⟩
  · cases hrun
    exact Or.inl ⟨rfl, h1⟩

theorem createNode_frame (h : v.Absent) (hr : v.createNode t path mem = .ok (r, v')) :
    (∃ ret, r = .error ret) ∧ v.Frame v' 0 0 := by
  obtain ⟨⟨g, q, v1⟩, hd, hr⟩ := bind_eq_ok.mp hr
  have h1 := (getDevice_begins hd).1.frame h
  cases g with
  | error ret =>
    cases hr
    exact ⟨⟨ret, rfl⟩, h1⟩
  | ok ns =>
    obtain ⟨-, -, hr⟩ := bind_eq_ok.mp hr
    nomatch hr

/-- The ways through `vfs_open` that end without a panic. -/
inductive OpenSteps (v : Vfs) (t : Nat) (path : List UInt8) (flags : Nat) (mem : KernelMemory) : Except Int Node → Vfs → Prop
  | rejected : ¬Accepted flags → OpenSteps v t path flags mem (.error (-eInval)) v
  | missing {ret : Int} {p : List UInt8} {v' : Vfs} : Accepted flags → v.vfsLookup t path mem = .ok (.error ret, p, v') →
      OpenSteps v t path flags mem (.error ret) v'
  | create {ret : Int} {p : List UInt8} {v₁ v' : Vfs} {r : Except Int Node} : Accepted flags →
      v.vfsLookup t path mem = .ok (.error ret, p, v₁) → v₁.createNode t p mem = .ok (r, v') → OpenSteps v t path flags mem r v'
  | clash {n : Node} {p : List UInt8} {v' : Vfs} : Accepted flags → flags.testBit 3 ∧ flags.testBit 2 →
      v.vfsLookup t path mem = .ok (.ok n, p, v') → OpenSteps v t path flags mem (.error (-eExists)) v'
  | found {n : Node} {p : List UInt8} {v₁ v' : Vfs} {r : Except Int Node} : Accepted flags → ¬(flags.testBit 3 ∧ flags.testBit 2) →
      v.vfsLookup t path mem = .ok (.ok n, p, v₁) → v₁.openNode n flags = .ok (r, v') → OpenSteps v t path flags mem r v'

theorem vfsOpen_steps (hr : v.vfsOpen t path flags mem = .ok (r, v')) : OpenSteps v t path flags mem r v' := by
  unfold vfsOpen at hr
  split at hr
  · rename_i ha
    cases hr
    exact .rejected fun hc => hc.1 ha
  rename_i ha
  split at hr
  · rename_i ht
    cases hr
    exact .rejected fun hc => hc.2 ht
  rename_i ht
  obtain ⟨⟨found, p, v1⟩, hl, hr⟩ := bind_eq_ok.mp hr
  cases found with
  | error ret =>
    dsimp only at hr
    split at hr
    · exact .create ⟨ha, ht⟩ hl hr
    · cases hr
      exact .missing ⟨ha, ht⟩ hl
  | ok n =>
    dsimp only at hr
    split at hr
    · rename_i hb
      cases hr
      exact .clash ⟨ha, ht⟩ hb hl
    · rename_i hb
      exact .found ⟨ha, ht⟩ hb hl hr

theorem not_clash_of_error (hl : v.vfsLookup t path mem = .ok (.error ret, p, v')) : ¬v.Clash t path flags mem := by
  rintro ⟨-, -, n, q, w, hok⟩
  rw [hl] at hok
  nomatch hok

/-- An inode that was looked up has a reference. -/
theorem refCount_pos_of_found (h : v.Absent) (hl : v.vfsLookup t path mem = .ok (.ok n, p, v')) :
    0 < (v'.vnodes n).refCount := by
  have hn := (vfsLookup_frame h hl).refCount n
  rw [credit, ref_self] at hn
  exact Nat.lt_of_lt_of_eq (Nat.succ_pos _) hn.symm

/-- `vfs_open` takes a reference and an opening of the inode that it returns. Where it fails it takes nothing, but for an inode that
it should not have found. -/
theorem vfsOpen_frame (h : v.Absent) (hrun : v.vfsOpen t path flags mem = .ok (r, v')) :
    (∃ n, r = .ok n ∧ v.Frame v' 0 (ref n + opening n)) ∨
      ((∃ ret, r = .error ret) ∧ ¬v.Clash t path flags mem ∧ v.Frame v' 0 0) ∨
      ∃ n, r = .error (-eExists) ∧ v.Clash t path flags mem ∧ v.Frame v' 0 (ref n) := by
  cases vfsOpen_steps hrun with
  | rejected ha => exact Or.inr (Or.inl ⟨⟨_, rfl⟩, fun hc => ha hc.1, Frame.refl h⟩)
  | missing _ hl => exact Or.inr (Or.inl ⟨⟨_, rfl⟩, not_clash_of_error hl, vfsLookup_frame h hl⟩)
  | create _ hl hcr =>
    have h1 := vfsLookup_frame h hl
    obtain ⟨hr, hf⟩ := createNode_frame h1.absent hcr
    exact Or.inr (Or.inl ⟨hr, not_clash_of_error hl, Frame.zero_trans h1 hf⟩)
  | clash ha hb hl => exact Or.inr (Or.inr ⟨_, rfl, ⟨ha, hb, _, _, _, hl⟩, vfsLookup_frame h hl⟩)
  | found _ hb hl ho =>
    have h1 := vfsLookup_frame h hl
    rcases openNode_frame h1.absent (refCount_pos_of_found h hl) ho with ⟨rfl, hf⟩ | ⟨hr, hf⟩
    · exact Or.inl ⟨_, rfl, (h1.trans hf).congr (add_zero _) rfl⟩
    · exact Or.inr (Or.inl ⟨hr, fun hc => hb hc.2.1, h1.borrow (Frame.refl h1.absent) hf⟩)

/-- A directory is only opened for reading. -/
theorem openNode_ops (h : v.Absent) (hk : v.Kinds) (hn : 0 < (v.vnodes n).refCount)
    (hrun : v.openNode n flags = .ok (.ok m, v')) (hw : flags % 4 ≠ 0) : (v'.vnodes m).ops ≠ .dir := by
  rcases openNode_frame h hn hrun with ⟨hr, hf⟩ | ⟨⟨ret, hr⟩, -⟩
  swap
  · nomatch hr
  obtain rfl := Except.ok.inj hr
  rw [hf.steady m 1 Nat.one_pos hn]
  obtain ⟨ret, ho, hrun⟩ := bind_eq_ok.mp hrun
  split at hrun
  · obtain ⟨v1, -, hr⟩ := bind_eq_ok.mp hrun
    nomatch hr
  rename_i hret
  intro hd
  obtain ⟨-, -, ho⟩ := bind_eq_ok.mp ho
  cases m with
  | sfs i =>
    rw [if_pos hd] at ho
    have hz := (Except.ok.inj ho).trans (not_not.mp hret)
    unfold sfsOpendir at hz
    rw [if_pos hw] at hz
    nomatch hz
  | dev k => exact absurd ((hk.dev k).symm.trans hd) (by decide)

theorem vfsOpen_ops (h : v.Absent) (hk : v.Kinds) (hrun : v.vfsOpen t path flags mem = .ok (.ok n, v'))
    (hw : flags % 4 ≠ 0) : (v'.vnodes n).ops ≠ .dir := by
  cases vfsOpen_steps hrun with
  | create _ hl hc =>
    obtain ⟨⟨ret, hr⟩, -⟩ := createNode_frame (vfsLookup_frame h hl).absent hc
    nomatch hr
  | found _ hb hl ho =>
    have h1 := vfsLookup_frame h hl
    exact openNode_ops h1.absent (h1.kinds hk) (refCount_pos_of_found h hl) ho hw

/-! ## Slots -/

/-- What `fd_array_alloc` does to the table where it returns 0. -/
theorem fdArrayAlloc_ok {fd : Int} {fdArray fdArray' : Nat → File} (hrun : fdArrayAlloc fd fdArray = .ok (0, i, fdArray')) :
    (fdArray i).status = .none ∧ fdArray' = update fdArray i { fdArray i with status := .init, node := none } := by
  have hf : ∀ j, (fdArray j).status = .none → fdArrayFound j fdArray = .ok (0, i, fdArray') →
      (fdArray i).status = .none ∧ fdArray' = update fdArray i { fdArray i with status := .init, node := none } := by
    intro j hj hr
    obtain ⟨-, hr⟩ := ensure_bind_eq_ok.mp hr
    cases hr
    exact ⟨hj, rfl⟩
  unfold fdArrayAlloc at hrun
  split at hrun
  · split at hrun
    · rename_i j hj
      have hn := List.find?_some hj
      exact hf j (of_decide_eq_true hn) hrun
    · nomatch hrun
  · split at hrun
    · split at hrun
      · rename_i hn
        exact hf _ hn hrun
      · nomatch hrun
    · nomatch hrun

/-- A slot that has been allocated and is freed again. -/
theorem fdArrayFree_init {fd : Nat} (hin : (v.files t fd).status = .init) (hrun : v.fdArrayFree t fd = .ok v') :
    v' = v.setFile t fd { v.files t fd with status := .none } := by
  obtain ⟨-, -, hrun⟩ := bind_eq_ok.mp hrun
  obtain ⟨v1, hc, hr⟩ := bind_eq_ok.mp hrun
  unfold closeNode at hc
  rw [if_neg (by rw [hin]; decide)] at hc
  cases hc
  exact (Except.ok.inj hr).symm

/-- The slot of a file that has been opened. -/
theorem store_ok {fd : Nat} (hrun : v.store t fd n flags = .ok (ret, v')) :
    ret = fd ∧ ∃ file : File, v' = v.setFile t fd file ∧ file.status = .opened ∧ 0 < file.openCount ∧ file.node = some n ∧
      file.readable = decide (flags % 4 ≠ 1) ∧ file.writable = decide (flags % 4 ≠ 0) := by
  obtain ⟨pos, -, hrun⟩ := bind_eq_ok.mp hrun
  obtain ⟨file, hopens, hr⟩ := bind_eq_ok.mp hrun
  obtain ⟨-, hf⟩ := ensure_bind_eq_ok.mp (mapError_eq_ok.mp hopens)
  cases hf
  cases hr
  exact ⟨rfl, _, rfl, rfl, Nat.succ_pos _, rfl, rfl, rfl⟩

end VfsAux

end Ucore
