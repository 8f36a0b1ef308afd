import Ucore.Theorems.Lookup

/-!
# Opening and the data of a file

`vfs_open` without `O_TRUNC` leaves the size and the bytes of every regular file as they are, with one exception: a file that is not
empty, opened with `O_CREAT` and without `O_EXCL`, is truncated as if it had just been created (`open_keeps_data`,
`open_creat_truncates`).
-/

namespace Ucore

open Checked Bytes SfsAux

/-- The size and the bytes of a file are as before. -/
def Sfs.SameData (s s' : Sfs) (i : Nat) : Prop :=
  (s'.din i).size = (s.din i).size ∧ ∀ p < (s.din i).size, s'.image i p = s.image i p

namespace VfsAux

open Vfs Sfs

variable {v v' : Vfs} {I : Finset Nat} {fix : Set Nat} {x : Node → Nat × Nat} {n : Node} {i j flags : Nat}
  {s s' s'' : Sfs} {ret : Int}

theorem SameData.trans (h : s.SameData s' i) (h' : s'.SameData s'' i) : s.SameData s'' i := by
  refine ⟨h'.1.trans h.1, fun p hp => ?_⟩
  rw [h'.2 p (h.1.symm ▸ hp), h.2 p hp]

theorem SameData.of_keeps {y : Node → Nat × Nat} (h : v.Ok I fix x) (hk : v.Keeps v' I fix y) (hi : i ∈ I) : v.sfs.SameData v'.sfs i :=
  ⟨(hk.2.din i hi).size, fun _ _ => hk.2.image h.mounted.owned hi⟩

/-- A file is truncated to nothing. -/
theorem sfsTruncfile_zero (h : s.Owned I fix) (hj : j ∈ I) (hd : s.Dense j) (hrun : sfsTruncfile j 0 s = .ok (ret, s')) :
    ret = 0 ∧ Others s s' I fix j ∧ (s'.din j).size = 0 ∧ ((s.din j).size = 0 → s' = s) := by
  have hs : TruncResult s I fix j 0 _ (sfsTruncfile j (0 : Nat) s) := sfsTruncfile_spec h hj hd (by decide)
  have hsa : (s.din j).size = 0 → s' = s := by
    intro h0
    unfold sfsTruncfile at hrun
    rw [Int.toNat_zero] at hrun
    rw [if_pos h0] at hrun
    obtain ⟨-, hr⟩ := ensure_bind_eq_ok.mp hrun
    exact (Prod.mk.inj (Except.ok.inj hr)).2.symm
  rw [show sfsTruncfile j (0 : Nat) s = .ok (ret, s') from hrun] at hs
  generalize hr : (Except.ok (ret, s') : Except SfsPanic (Int × Sfs)) = r at hs
  cases hs with
  | mismatch => nomatch hr
  | out => nomatch hr
  | same h0 =>
    cases hr
    exact ⟨rfl, Others.refl h, h0, hsa⟩
  | done ho _ _ hsi =>
    cases hr
    exact ⟨rfl, ho, hsi, hsa⟩
  | short hlt => exact absurd hlt (Nat.not_lt_zero _)

/-- `vop_truncate` to nothing, and the data of a file. -/
theorem vopTruncate_data (h : v.Ok I fix x) (hp : 0 < (v.vnodes n).refCount) (hi : i ∈ I)
    (hrun : v.vopTruncate n 0 = .ok (ret, v')) :
    ret = 0 ∧ (v.sfs.SameData v'.sfs i ↔ ¬(n = .sfs i ∧ (v.sfs.din i).size ≠ 0)) := by
  obtain ⟨⟨⟩, hv, hrun⟩ := bind_eq_ok.mp hrun
  cases n with
  | dev k => nomatch hrun
  | sfs j =>
    obtain ⟨⟨ret', s'⟩, ht, hr⟩ := bind_eq_ok.mp hrun
    cases hr
    obtain ⟨hj, -⟩ := h.loaded j hp
    obtain ⟨hret, ho, hsi, hsa⟩ := sfsTruncfile_zero h.mounted.owned hj (h.mounted.dense j hj) (mapError_eq_ok.mp ht)
    refine ⟨hret, ?_⟩
    by_cases he : j = i
    · subst he
      by_cases h0 : (v.sfs.din j).size = 0
      · rw [hsa h0]
        exact iff_of_true ⟨rfl, fun _ _ => rfl⟩ fun hc => hc.2 h0
      · refine iff_of_false ?_ (not_not.mpr ⟨rfl, h0⟩)
        rintro ⟨hs, -⟩
        exact h0 (hs.symm.trans hsi)
    · have hne : i ≠ j := fun hc => he hc.symm
      refine iff_of_true ⟨?_, fun p _ => ho.images i hi hne p⟩ fun hc => he (Node.sfs.inj hc.1)
      rw [din_of_inodes (ho.inodes i hne)]

/-- A regular file is always opened. -/
theorem vopOpen_file (h : v.Ok I fix x) (hp : 0 < (v.vnodes (.sfs i)).refCount) (hreg : (v.sfs.din i).type = .file)
    (hr : v.vopOpen (.sfs i) flags = .ok ret) : ret = 0 := by
  obtain ⟨-, -, hr⟩ := bind_eq_ok.mp hr
  rw [if_neg] at hr
  · exact (Except.ok.inj hr).symm
  · intro hd
    exact absurd (hreg.symm.trans ((h.loaded i hp).2.mp hd)) (by decide)

theorem openNode_data {r : Except Int Node} (h : v.Ok I fix (x + ref n)) (hi : i ∈ I) (hreg : (v.sfs.din i).type = .file)
    (hrun : v.openNode n flags = .ok (r, v')) : v.sfs.SameData v'.sfs i ↔
      ¬((flags.testBit 4 = true ∨ flags.testBit 2 = true) ∧ n = .sfs i ∧ (v.sfs.din i).size ≠ 0) := by
  obtain ⟨ret, ho, hrun⟩ := bind_eq_ok.mp hrun
  dsimp only at hrun
  split at hrun
  · rename_i hret
    obtain ⟨v1, hd, hr⟩ := bind_eq_ok.mp hrun
    cases hr
    refine iff_of_true (SameData.of_keeps h (refDec_ok h hd) hi) ?_
    rintro ⟨-, rfl, -⟩
    exact hret (vopOpen_file h h.pos hreg ho)
  have h1 := openInc_ok h h.pos
  have hpos1 : 0 < ((v.openInc n).vnodes n).refCount := by
    unfold openInc
    rw [vnodes_setVnode_self]
    exact h.pos
  split at hrun
  · rename_i hf
    obtain ⟨⟨ret', v2⟩, ht, hrun⟩ := bind_eq_ok.mp hrun
    obtain ⟨rfl, hda⟩ := vopTruncate_data h1.1 hpos1 hi ht
    cases hrun
    change v.sfs.SameData v2.sfs i ↔ _ at hda
    rw [hda]
    exact not_congr (and_iff_right hf).symm
  · rename_i hf
    cases hrun
    exact iff_of_true ⟨rfl, fun _ _ => rfl⟩ fun hc => hf hc.1

end VfsAux

/-- For every regular file and all flags without `O_TRUNC` that `vfs_open` accepts, whether it succeeds or fails: the size and the bytes of
the file are kept, exactly if it is not opened with `O_CREAT` and without `O_EXCL` while it has bytes. -/
theorem open_keeps_data {v : Vfs} {I : Finset Nat} {fix : Set Nat} (h : v.Ok I fix 0) {i : Nat} (hi : i ∈ I)
    (hreg : (v.sfs.din i).type = .file) (t : Nat) (path : List UInt8) (flags : Nat) (mem : KernelMemory) (hacc : Vfs.Accepted flags)
    (hflag : flags.testBit 4 = false) (r : Except Int Node) (v' : Vfs) (hr : v.vfsOpen t path flags mem = .ok (r, v')) :
    v.sfs.SameData v'.sfs i ↔ ¬(flags.testBit 2 = true ∧ flags.testBit 3 = false ∧
      (∃ p v₁, v.vfsLookup t path mem = .ok (.ok (.sfs i), p, v₁)) ∧ (v.sfs.din i).size ≠ 0) := by
  cases VfsAux.vfsOpen_steps hr with
  | rejected hnot => exact absurd hacc hnot
  | missing _ hlook =>
    refine iff_of_true (VfsAux.SameData.of_keeps h (Vfs.vfsLookup_ok h hlook) hi) ?_
    rintro ⟨-, -, ⟨p, v₁, hc⟩, -⟩
    nomatch hlook.symm.trans hc
  | create _ hlook hcreate =>
    have h₁ := Vfs.vfsLookup_ok h hlook
    obtain ⟨⟨g, q, v₂⟩, hdev, hcreate⟩ := bind_eq_ok.mp hcreate
    refine iff_of_true ?_ ?_
    · cases g with
      | error ret =>
        cases hcreate
        exact VfsAux.SameData.of_keeps h (h₁.trans (Vfs.route_ok h₁.1 (VfsAux.getDevice_begins hdev).1)) hi
      | ok ns =>
        obtain ⟨-, -, hcreate⟩ := bind_eq_ok.mp hcreate
        nomatch hcreate
    · rintro ⟨-, -, ⟨p, v₁, hc⟩, -⟩
      nomatch hlook.symm.trans hc
  | clash _ hboth hlook =>
    refine iff_of_true (VfsAux.SameData.of_keeps h (Vfs.vfsLookup_ok h hlook) hi) ?_
    rintro ⟨-, hexcl, -⟩
    exact absurd (hboth.1.symm.trans hexcl) (by decide)
  | @found n p v₁ _ _ _ hboth hlook hopen =>
    have h₁ := Vfs.vfsLookup_ok h hlook
    have hsame := VfsAux.SameData.of_keeps h h₁ hi
    have hdata := VfsAux.openNode_data h₁.1 hi ((h₁.2.din i hi).type.trans hreg) hopen
    have hfind : n = .sfs i ↔ ∃ p v₁, v.vfsLookup t path mem = .ok (.ok (.sfs i), p, v₁) := by
      constructor
      · rintro rfl
        exact ⟨_, _, hlook⟩
      · rintro ⟨p', v₁', hc⟩
        exact Except.ok.inj (Prod.mk.inj (Except.ok.inj (hlook.symm.trans hc))).1
    have hiff : v.sfs.SameData v'.sfs i ↔ v₁.sfs.SameData v'.sfs i := by
      constructor
      · intro hs
        refine ⟨hs.1.trans hsame.1.symm, fun p hp => ?_⟩
        have hp' : p < (v.sfs.din i).size := hsame.1 ▸ hp
        rw [hs.2 p hp', hsame.2 p hp']
      · exact fun hs => VfsAux.SameData.trans hsame hs
    rw [hiff, hdata, hsame.1, hflag, hfind]
    refine not_congr ⟨?_, ?_⟩
    · rintro ⟨hcreat, hlook, h0⟩
      have hc := hcreat.resolve_left nofun
      refine ⟨hc, ?_, hlook, h0⟩
      cases hexcl : flags.testBit 3 with
      | false => rfl
      | true => exact absurd ⟨hexcl, hc⟩ hboth
    · rintro ⟨hcreat, -, hlook, h0⟩
      exact ⟨Or.inr hcreat, hlook, h0⟩

/-- The file `a` is opened for reading. -/
theorem open_keeps_data_reading : ∃ r v', (shelfVfs (shelf (smallFile 0 0))).vfsOpen 0 [97] 0 .all = .ok (r, v') ∧
    (shelf (smallFile 0 0)).SameData v'.sfs 4 := by
  refine ⟨_, _, eq_ok_okGet (by decide +kernel), ?_⟩
  have hacc : Vfs.Accepted 0 := ⟨by decide, by decide⟩
  refine (open_keeps_data VfsAux.shelfVfs_ok (by decide : 4 ∈ ({1, 4} : Finset Nat)) rfl 0 [97] 0 .all hacc rfl _ _
    (eq_ok_okGet (by decide +kernel))).mpr ?_
  rintro ⟨hc, -⟩
  nomatch hc

/-- A byte is written to the file `a`, which is then opened for reading with `O_CREAT`: the byte is gone. -/
theorem open_creat_truncates : ∃ v r v', CallReach (shelfVfs (shelf (smallFile 0 0))) v ∧ (v.sfs.din 4).size = 1 ∧
    v.vfsOpen 0 [97] 4 .all = .ok (r, v') ∧ (v'.sfs.din 4).size = 0 :=
  ⟨_, _, _, .step 0 (.write 0 (fun _ => 7) 1 (0, 0)) (.step 0 (.open [97] 1 .all) .start (eq_ok_okGet (by decide +kernel)))
    (eq_ok_okGet (by decide +kernel)), by decide +kernel, eq_ok_okGet (by decide +kernel), by decide +kernel⟩

end Ucore
