import Ucore.Lemmas.SfsMount
import Ucore.Lemmas.VfsHold

/-!
# Inodes of a mounted volume

What the state of the file system is between two calls (`Vfs.Ok`): the volume is mounted, inodes in memory belong to it and have the
operations of their type, and the directories of processes are directories. Loading an inode, following a path and giving back a
reference keep this, and change nothing of the files (`Vfs.Keeps`): an inode that is reclaimed has been written to its block.
-/

namespace Ucore

open Checked SfsAux

namespace Vfs

/-- The state between two calls, with the references `x` beside those of the holders. -/
structure Ok (v : Vfs) (I : Finset Nat) (fix : Set Nat) (x : Node → Nat × Nat) : Prop extends v.Manned x where
  mounted : v.sfs.Mounted I fix
  loaded : ∀ i, 0 < (v.vnodes (.sfs i)).refCount →
    i ∈ I ∧ ((v.vnodes (.sfs i)).ops = .dir ↔ (v.sfs.din i).type = .dir)
  boot : v.bootfs = some (.sfs sfsBlknRoot)
  dirs : ∀ t n, v.pwd t = some n → ∃ i ∈ I, n = .sfs i ∧ (v.sfs.din i).type = .dir

/-- A call leads to such a state, and leaves the files as they are. -/
def Keeps (v v' : Vfs) (I : Finset Nat) (fix : Set Nat) (x : Node → Nat × Nat) : Prop :=
  v'.Ok I fix x ∧ FixedOnly v.sfs v'.sfs I fix

open VfsAux

variable {v v' v'' : Vfs} {I : Finset Nat} {fix : Set Nat} {x y a b : Node → Nat × Nat} {n : Node} {i t : Nat}
  {mem : KernelMemory}
  {path : List UInt8} {r : Except Int Node}

theorem Keeps.refl (h : v.Ok I fix x) : v.Keeps v I fix x := ⟨h, FixedOnly.refl⟩

theorem Keeps.trans (h : v.Keeps v' I fix x) (h' : v'.Keeps v'' I fix y) : v.Keeps v'' I fix y := ⟨h'.1, h.2.trans h'.2⟩

theorem Ok.mono (h : v.Ok I fix x) (hle : ∀ n, (y n).1 ≤ (x n).1) : v.Ok I fix y :=
  { h with toManned := h.toManned.mono hle }

/-- What the balance of a call leaves to show. -/
theorem Ok.frame (h : v.Ok I fix (x + a)) (hf : v.Frame v' a b) (hm : v'.sfs.Mounted I fix) (hs : FixedOnly v.sfs v'.sfs I fix)
    (hl : ∀ i, 0 < (v'.vnodes (.sfs i)).refCount → i ∈ I ∧ ((v'.vnodes (.sfs i)).ops = .dir ↔ (v.sfs.din i).type = .dir)) :
    v.Keeps v' I fix (x + b) where
  left := {
    h.toManned.frame hf with
    mounted := hm
    loaded := by
      intro i hi
      obtain ⟨hmem, ho⟩ := hl i hi
      exact ⟨hmem, by rw [ho, (hs.din i hmem).type]⟩
    boot := hf.bootfs.trans h.boot
    dirs := by
      intro t n hn
      rw [hf.pwd] at hn
      obtain ⟨i, hi, hni, ht⟩ := h.dirs t n hn
      exact ⟨i, hi, hni, (hs.din i hi).type.trans ht⟩ }
  right := hs

/-- A reference in hand. -/
theorem Ok.pos (h : v.Ok I fix (x + ref n)) : 0 < (v.vnodes n).refCount := by
  have hb := h.backed n ∅ (fun _ hc => absurd hc (Finset.notMem_empty _))
  change 0 + ((x n).1 + (ref n n).1) ≤ (v.vnodes n).refCount at hb
  rw [ref_self] at hb
  omega

/-- The reference of a holder. -/
theorem Ok.held (h : v.Ok I fix x) {hd : Holder} (hh : v.holds hd = some n) : 0 < (v.vnodes n).refCount := by
  have := h.backed.pos hh
  omega

theorem Ok.root (h : v.Ok I fix x) : 0 < (v.vnodes (.sfs sfsBlknRoot)).refCount :=
  h.held (show v.holds .boot = _ from h.boot)

/-! ## Counts -/

/-- The counts of an inode in memory change. -/
theorem loaded_setVnode {c : Vnode} (h : v.Ok I fix x) (hp : 0 < (v.vnodes n).refCount) (ho : c.ops = (v.vnodes n).ops) (i : Nat)
    (hi : 0 < ((v.setVnode n c).vnodes (.sfs i)).refCount) :
    i ∈ I ∧ (((v.setVnode n c).vnodes (.sfs i)).ops = .dir ↔ (v.sfs.din i).type = .dir) := by
  rw [ops_setVnode ho]
  refine h.loaded i ?_
  by_cases he : Node.sfs i = n
  · rw [he]
    exact hp
  · rwa [vnodes_setVnode_of_ne he] at hi

theorem refInc_ok (h : v.Ok I fix x) (hp : 0 < (v.vnodes n).refCount) : v.Keeps (v.refInc n) I fix (x + ref n) := by
  have h' : v.Ok I fix (x + 0) := by rwa [add_zero]
  exact h'.frame (refInc_frame h.absent) h.mounted FixedOnly.refl (loaded_setVnode h hp rfl)

theorem openInc_ok (h : v.Ok I fix x) (hp : 0 < (v.vnodes n).refCount) : v.Keeps (v.openInc n) I fix (x + opening n) := by
  have h' : v.Ok I fix (x + 0) := by rwa [add_zero]
  exact h'.frame (openInc_frame h.absent hp) h.mounted FixedOnly.refl (loaded_setVnode h hp rfl)

/-- A sync of an inode of the volume. -/
theorem vopFsync_volume (h : v.sfs.Mounted I fix) (hi : i ∈ I) (hrun : v.vopFsync (.sfs i) = .ok v') :
    v'.sfs.Mounted I fix ∧ FixedOnly v.sfs v'.sfs I fix ∧ (v'.sfs.inodes i).dirty = false ∧ v'.vnodes = v.vnodes := by
  obtain ⟨-, -, hrun⟩ := bind_eq_ok.mp hrun
  obtain ⟨s, hs, hr⟩ := bind_eq_ok.mp hrun
  cases hr
  obtain ⟨hm, hf, hc⟩ := mounted_fsync h hi (mapError_eq_ok.mp hs)
  exact ⟨hm, hf, hc, rfl⟩

theorem reclaimSync_volume (h : v.sfs.Mounted I fix) (hi : i ∈ I) (hr : v.reclaimSync i = .ok v') :
    v'.sfs.Mounted I fix ∧ FixedOnly v.sfs v'.sfs I fix ∧ (v'.sfs.inodes i).dirty = false ∧ v'.vnodes = v.vnodes := by
  unfold reclaimSync at hr
  split at hr
  · exact vopFsync_volume h hi hr
  · rename_i hd
    cases hr
    exact ⟨h, FixedOnly.refl, Bool.not_eq_true _ ▸ hd, rfl⟩

/-- An inode is reclaimed: it has links, so that it is written to its block and forgotten. -/
theorem vopReclaim_volume (h : v.sfs.Mounted I fix) (hi : i ∈ I) (hrun : v.vopReclaim (.sfs i) = .ok v') :
    v'.sfs.Mounted I fix ∧ FixedOnly v.sfs v'.sfs I fix ∧ v'.vnodes = v.vnodes := by
  obtain ⟨-, -, hrun⟩ := bind_eq_ok.mp hrun
  dsimp only at hrun
  unfold sfsReclaim at hrun
  rw [if_neg (h.links i hi).1] at hrun
  obtain ⟨v1, hsy, hrun⟩ := bind_eq_ok.mp hrun
  obtain ⟨h1, hf, hc, hvn⟩ := reclaimSync_volume h hi hsy
  obtain ⟨s, hfr, hrun⟩ := bind_eq_ok.mp hrun
  have hs : s = v1.sfs := by
    unfold freeInode at hfr
    rw [if_neg (h1.links i hi).1] at hfr
    exact (Except.ok.inj hfr).symm
  obtain ⟨-, hr⟩ := ensure_bind_eq_ok.mp hrun
  cases hr
  rw [hs]
  obtain ⟨hm, hf'⟩ := mounted_forget h1 hi hc
  exact ⟨hm, hf.trans hf', hvn⟩

theorem refDec_ok (h : v.Ok I fix (x + ref n)) (hr : v.refDec n = .ok v') : v.Keeps v' I fix x := by
  have hf := refDec_frame h.absent hr
  suffices hv : v'.sfs.Mounted I fix ∧ FixedOnly v.sfs v'.sfs I fix ∧
      v'.vnodes = (v.setVnode n { v.vnodes n with refCount := (v.vnodes n).refCount - 1 }).vnodes by
    have := h.frame hf hv.1 hv.2.1 fun i hi => by
      rw [hv.2.2] at hi ⊢
      exact loaded_setVnode (c := { v.vnodes n with refCount := (v.vnodes n).refCount - 1 }) h h.pos rfl i hi
    rwa [add_zero] at this
  obtain ⟨-, hr⟩ := ensure_bind_eq_ok.mp hr
  dsimp only at hr
  split at hr
  · have hm : (v.setVnode n { v.vnodes n with refCount := (v.vnodes n).refCount - 1 }).sfs.Mounted I fix := h.mounted
    cases n with
    | sfs i => exact vopReclaim_volume hm (h.loaded i h.pos).1 hr
    | dev k =>
      obtain ⟨-, -, hr⟩ := bind_eq_ok.mp hr
      nomatch hr
  · cases hr
    exact ⟨h.mounted, FixedOnly.refl, rfl⟩

theorem vopClose_volume (h : v.sfs.Mounted I fix) (hn : ∀ i, n = .sfs i → i ∈ I) (hr : v.vopClose n = .ok v') :
    v'.sfs.Mounted I fix ∧ FixedOnly v.sfs v'.sfs I fix ∧ v'.vnodes = v.vnodes := by
  obtain ⟨-, -, hr⟩ := bind_eq_ok.mp hr
  cases n with
  | sfs i =>
    obtain ⟨hm, hf, -, hvn⟩ := vopFsync_volume h (hn i rfl) hr
    exact ⟨hm, hf, hvn⟩
  | dev k =>
    cases hr
    exact ⟨h, FixedOnly.refl, rfl⟩

theorem openDec_ok (h : v.Ok I fix x) (hr : v.openDec n = .ok v') : v.Keeps v' I fix x := by
  have hf := openDec_frame h.absent hr
  have h' : v.Ok I fix (x + opening n) := by
    refine h.mono fun m => ?_
    change (x m).1 + (opening n m).1 ≤ (x m).1
    rw [opening_fst]
    exact le_rfl
  obtain ⟨ho, hr⟩ := ensure_bind_eq_ok.mp hr
  have hp : 0 < (v.vnodes n).refCount := Nat.pos_of_ne_zero fun hc => absurd (h.absent n hc) ho.ne'
  suffices hv : v'.sfs.Mounted I fix ∧ FixedOnly v.sfs v'.sfs I fix ∧
      v'.vnodes = (v.setVnode n { v.vnodes n with openCount := (v.vnodes n).openCount - 1 }).vnodes by
    have := h'.frame hf hv.1 hv.2.1 fun i hi => by
      rw [hv.2.2] at hi ⊢
      exact loaded_setVnode (c := { v.vnodes n with openCount := (v.vnodes n).openCount - 1 }) h hp rfl i hi
    rwa [add_zero] at this
  dsimp only at hr
  split at hr
  · have hm : (v.setVnode n { v.vnodes n with openCount := (v.vnodes n).openCount - 1 }).sfs.Mounted I fix := h.mounted
    refine vopClose_volume hm (fun i hi => ?_) hr
    rw [hi] at hp
    exact (h.loaded i hp).1
  · cases hr
    exact ⟨h.mounted, FixedOnly.refl, rfl⟩

theorem vfsClose_ok (h : v.Ok I fix (x + ref n)) (hr : v.vfsClose n = .ok v') : v.Keeps v' I fix x := by
  obtain ⟨v1, ho, href⟩ := bind_eq_ok.mp hr
  have h1 := openDec_ok h ho
  exact h1.trans (refDec_ok h1.1 href)

/-! ## Inodes of a path -/

theorem sfsGetOps_dir {type : SfsType} {ops : NodeOps} (hr : sfsGetOps type = .ok ops) : ops = .dir ↔ type = .dir := by
  cases type with
  | dir => exact iff_of_true (Except.ok.inj hr).symm rfl
  | file =>
    rw [← Except.ok.inj hr]
    exact iff_of_false nofun nofun
  | inval => nomatch hr
  | link => nomatch hr

section

variable (h : v.Ok I fix x)
include h

theorem sfsLoadInode_ok {memory : Bool} (hi : i ∈ I)
    (hrun : v.sfsLoadInode i memory = .ok (r, v')) : v.Keeps v' I fix (x + credit r) := by
  have hf := sfsLoadInode_frame h.absent hrun
  unfold sfsLoadInode at hrun
  split at hrun
  · rename_i hne
    cases hrun
    exact refInc_ok h (Nat.pos_of_ne_zero hne)
  split at hrun
  · cases hrun
    exact Keeps.refl (by rwa [show credit (Except.error (-eNoMem)) = 0 from rfl, add_zero])
  obtain ⟨v1, hl, hr⟩ := bind_eq_ok.mp hrun
  cases hr
  obtain ⟨-, -, hl⟩ := bind_eq_ok.mp hl
  obtain ⟨-, hl⟩ := ensure_bind_eq_ok.mp hl
  obtain ⟨ops, ho, hr⟩ := bind_eq_ok.mp hl
  cases hr
  have h' : v.Ok I fix (x + 0) := by rwa [add_zero]
  refine h'.frame hf h.mounted FixedOnly.refl fun j hj => ?_
  by_cases he : Node.sfs j = .sfs i
  · obtain rfl := Node.sfs.inj he
    rw [vnodes_setVnode_self]
    exact ⟨hi, sfsGetOps_dir ho⟩
  · rw [vnodes_setVnode_of_ne he] at hj ⊢
    exact h.loaded j hj

theorem sfsLookupOnce_ok {name : List UInt8} (hi : i ∈ I) (ht : (v.sfs.din i).type = .dir)
    (hr : v.sfsLookupOnce i name mem = .ok (r, v')) : v.Keeps v' I fix (x + credit r) := by
  obtain ⟨⟨ret, found, s⟩, hs, hr⟩ := bind_eq_ok.mp hr
  have hs := mapError_eq_ok.mp hs
  have hl := (ensure_bind_eq_ok.mp hs).1
  obtain ⟨ret', found', hsp, hino⟩ := sfsDirentSearch_spec mem.entry h.mounted hi ht hl
  rw [hsp] at hs
  obtain ⟨rfl, hq⟩ := Prod.mk.inj (Except.ok.inj hs)
  cases hq
  dsimp only at hr
  split at hr
  · cases hr
    exact Keeps.refl (by rwa [show credit (Except.error ret') = 0 from rfl, add_zero])
  · rename_i hret
    obtain ⟨ino, hm, hst⟩ := hino (not_not.mp hret)
    rw [hst] at hr
    exact sfsLoadInode_ok h hm hr

/-- Where a path can begin there is a holder. -/
theorem Ok.held_of_base (hb : Base v n) : ∃ hd, v.holds hd = some n := by
  rcases hb with rfl | hb | ⟨t, hb⟩ | ⟨k, hk, rfl⟩
  · exact ⟨.boot, h.boot⟩
  · exact ⟨.boot, hb⟩
  · exact ⟨.pwd t, hb⟩
  · exact ⟨.dev k, if_pos hk⟩

theorem Ok.base_pos (hb : Base v n) : 0 < (v.vnodes n).refCount := by
  obtain ⟨hd, hh⟩ := h.held_of_base hb
  exact h.held hh

/-- The way of a path changes nothing but the inodes in memory. -/
theorem route_ok (hr : Route v r v') : v.Keeps v' I fix (x + credit r) := by
  induction hr generalizing x with
  | fail v ret => exact Keeps.refl (by rwa [show credit (Except.error ret) = 0 from rfl, add_zero])
  | base hb => exact refInc_ok h (h.base_pos hb)
  | root hl => exact sfsLoadInode_ok h h.mounted.root.1 hl
  | entry hb ht ho => exact sfsLookupOnce_ok h (h.loaded _ (h.base_pos hb)).1 ht ho
  | @borrow v v1 v2 v3 n r _ _ _ hd ih1 ih2 =>
    have h1 := ih1 h
    have h2 := ih2 h1.1
    have h2' : v2.Ok I fix (x + credit r + ref n) := by
      rw [add_right_comm]
      exact h2.1
    exact (h1.trans h2).trans (refDec_ok h2' hd)

/-- A lookup changes nothing but the inodes in memory. -/
theorem vfsLookup_ok {p : List UInt8} (hr : v.vfsLookup t path mem = .ok (r, p, v')) :
    v.Keeps v' I fix (x + credit r) := route_ok h (vfsLookup_route h.absent hr)

end

end Vfs

end Ucore
