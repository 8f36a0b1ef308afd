import Ucore.Lemmas.SfsLoose
import Ucore.Lemmas.VfsMount

/-!
# A file that descriptors share

What holds between two calls while descriptors on one regular file are read, written, moved and opened (`Vfs.Shared`). Nothing is said
about the marks of the inodes, so that none of them may be reclaimed meanwhile. A path starts at the root or at a current directory, both
of which have holders, and so a lookup leaves the volume as it is (`vfsLookup_same`).
-/

namespace Ucore

open Checked SfsAux

namespace Vfs

/-- The state between two calls on a file, with the references `x` beside those of the holders. -/
structure Shared (v : Vfs) (I : Finset Nat) (fix : Set Nat) (j : Nat) (x : Node → Nat × Nat) : Prop extends v.Manned x where
  loose : v.sfs.Loose I fix j
  boot : v.bootfs = some (.sfs sfsBlknRoot)
  root : sfsBlknRoot ∈ I
  dirs : ∀ t i, v.pwd t = some (.sfs i) → i ∈ I

open VfsAux

variable {v v' : Vfs} {I : Finset Nat} {fix : Set Nat} {x a b : Node → Nat × Nat} {n : Node} {i j t : Nat}
  {mem : KernelMemory}
  {path name : List UInt8} {hd : Holder} {r : Except Int Node}

theorem Ok.shared (h : v.Ok I fix x) (hj : j ∈ I) (hf : (v.sfs.din j).type = .file) : v.Shared I fix j x where
  toManned := h.toManned
  loose := {
    owned := h.mounted.owned
    mem := hj
    file := hf
    dense := h.mounted.dense
    size := Nat.le_trans (h.mounted.covered j hj hf).size (Nat.mul_le_mul_right _ (Nat.le_succ _)) }
  boot := h.boot
  root := h.mounted.root.1
  dirs t i hi := by
    obtain ⟨k, hk, he, -⟩ := h.dirs t _ hi
    exact Node.sfs.inj he ▸ hk

theorem Shared.frame (h : v.Shared I fix j (x + a)) (hf : v.Frame v' a b) (hs : v'.sfs = v.sfs) : v'.Shared I fix j (x + b) where
  toManned := h.toManned.frame hf
  loose := by
    rw [hs]
    exact h.loose
  boot := hf.bootfs.trans h.boot
  root := h.root
  dirs t i hi := by
    rw [hf.pwd] at hi
    exact h.dirs t i hi

theorem Shared.frame_zero (h : v.Shared I fix j x) (hf : v.Frame v' 0 b) (hs : v'.sfs = v.sfs) : v'.Shared I fix j (x + b) :=
  Shared.frame (by rwa [add_zero]) hf hs

/-! ## Lookups -/

/-- A reference is given back to an inode that has a holder: it is not reclaimed. -/
theorem refDec_same (h : v.Shared I fix j (x + ref n)) (hh : v.holds hd = some n) (hr : v.refDec n = .ok v') : v'.sfs = v.sfs := by
  have hc : 1 + ((x n).1 + (ref n n).1) ≤ (v.vnodes n).refCount := h.backed.pos hh
  rw [ref_self] at hc
  obtain ⟨-, hr⟩ := ensure_bind_eq_ok.mp hr
  dsimp only at hr
  split at hr
  · rename_i h0
    rw [vnodes_setVnode_self] at h0
    change (v.vnodes n).refCount - 1 = 0 at h0
    omega
  · rw [← Except.ok.inj hr]
    rfl

theorem sfsLoadInode_same {memory : Bool} (hrun : v.sfsLoadInode i memory = .ok (r, v')) : v'.sfs = v.sfs := by
  unfold sfsLoadInode at hrun
  split at hrun
  · rw [← (Prod.mk.inj (Except.ok.inj hrun)).2]
    rfl
  split at hrun
  · rw [← (Prod.mk.inj (Except.ok.inj hrun)).2]
  obtain ⟨v1, hl, hr⟩ := bind_eq_ok.mp hrun
  cases hr
  obtain ⟨-, -, hl⟩ := bind_eq_ok.mp hl
  obtain ⟨-, hl⟩ := ensure_bind_eq_ok.mp hl
  obtain ⟨_, -, hr⟩ := bind_eq_ok.mp hl
  rw [← Except.ok.inj hr]
  rfl

theorem searchSlots_same {s : Sfs} {k m empty : Nat} {r : Int × SfsSearch × Sfs} (h : s.Owned I fix) (hi : i ∈ I)
    (hd : s.Dense i) (ht : (s.din i).type = .dir) (hm : k + m ≤ (s.din i).blocks) (hr : searchSlots i name m k empty s = .ok r) :
    r.2.2 = s := by
  induction m generalizing k empty with
  | zero => rw [← Except.ok.inj hr]
  | succ m ih =>
    rw [searchSlots, sfsDirentRead_spec h hi hd ht (by omega), bind_ok] at hr
    dsimp only at hr
    rw [if_neg (by decide)] at hr
    split at hr
    · exact ih (by omega) hr
    split at hr
    · rw [← Except.ok.inj hr]
    · exact ih (by omega) hr

section

variable (h : v.Shared I fix j x)
include h

theorem sfsLookupOnce_same (hi : i ∈ I)
    (ht : (v.sfs.din i).type = .dir) (hr : v.sfsLookupOnce i name mem = .ok (r, v')) : v'.sfs = v.sfs := by
  obtain ⟨⟨ret, found, s⟩, hse, hr⟩ := bind_eq_ok.mp hr
  have hse := mapError_eq_ok.mp hse
  have hs : s = v.sfs := by
    obtain ⟨-, hse⟩ := ensure_bind_eq_ok.mp hse
    split at hse
    · rw [← (Prod.mk.inj (Prod.mk.inj (Except.ok.inj hse)).2).2]
    · exact searchSlots_same h.loose.owned hi (h.loose.dense i hi) ht (Nat.zero_add _).le hse
  rw [← hs]
  dsimp only at hr
  split at hr
  · rw [← (Prod.mk.inj (Except.ok.inj hr)).2]
  · exact sfsLoadInode_same hr

/-- Where a path can begin there is a holder, and an inode of the volume unless it is a device. -/
theorem Shared.held_of_base (hb : Base v n) : (∃ hd, v.holds hd = some n) ∧ ∀ i, n = .sfs i → i ∈ I := by
  rcases hb with rfl | hb | ⟨t, hb⟩ | ⟨k, hk, rfl⟩
  · exact ⟨⟨.boot, h.boot⟩, fun _ hi => Node.sfs.inj hi ▸ h.root⟩
  · cases hb.symm.trans h.boot
    exact ⟨⟨.boot, hb⟩, fun _ hi => Node.sfs.inj hi ▸ h.root⟩
  · exact ⟨⟨.pwd t, hb⟩, fun i hi => h.dirs t i (hi ▸ hb)⟩
  · exact ⟨⟨.dev k, if_pos hk⟩, nofun⟩

/-- The way of a path leaves the volume as it is. -/
theorem route_same (hr : Route v r v') : v'.sfs = v.sfs := by
  induction hr generalizing x with
  | fail => rfl
  | base => rfl
  | root hl => exact sfsLoadInode_same hl
  | entry hb ht ho => exact sfsLookupOnce_same h ((h.held_of_base hb).2 _ rfl) ht ho
  | @borrow v v1 v2 v3 n r hb hr1 hr2 hdec ih1 ih2 =>
    have hf1 := hr1.frame h.absent
    have h1 : v1.Shared I fix j (x + ref n) := h.frame_zero hf1 (ih1 h)
    have hf2 := hr2.frame h1.absent
    have h2 : v2.Shared I fix j (x + credit r + ref n) := by
      rw [add_right_comm]
      exact h1.frame_zero hf2 (ih2 h1)
    obtain ⟨⟨hd, hh⟩, -⟩ := h.held_of_base hb
    have hh2 : v2.holds hd = some n := by
      rw [holds_of_frame hf2, holds_of_frame hf1]
      exact hh
    exact (refDec_same h2 hh2 hdec).trans ((ih2 h1).trans (ih1 h))

/-- A lookup leaves the volume as it is. -/
theorem vfsLookup_same {p : List UInt8}
    (hr : v.vfsLookup t path mem = .ok (r, p, v')) : v'.sfs = v.sfs := route_same h (vfsLookup_route h.absent hr)

end

end Vfs

end Ucore
