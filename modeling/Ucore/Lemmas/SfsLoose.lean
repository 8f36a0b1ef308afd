import Ucore.Lemmas.SfsSync

/-!
# Files that end behind their blocks

A write may start behind the end of a file, in the block that follows its last one. Where no block is free for it the file gets the
size without the block, so that a file can be longer than its blocks, by less than one block (`Sfs.Loose`). From such a file every read
returns, and so does every write that starts in a block of the file or in the next one (`sfsIo_loose`); a write that starts further
behind meets the assertion of `sfs_bmap_load_nolock` (`sfsIo_stuck`).
-/

namespace Ucore

open Checked Bytes

namespace Sfs

/-- A regular file of a volume that ends in the block after its last one at the latest. -/
structure Loose (s : Sfs) (I : Finset Nat) (fix : Set Nat) (j : Nat) : Prop where
  owned : s.Owned I fix
  mem : j ∈ I
  file : (s.din j).type = .file
  dense : ∀ i ∈ I, s.Dense i
  size : (s.din j).size ≤ ((s.din j).blocks + 1) * sfsBlksize

end Sfs

namespace SfsAux

open Sfs

variable {s s' : Sfs} {t : Transfer} {I : Finset Nat} {fix : Set Nat} {sin j pos endpos m : Nat} {write : Bool}
  {buf : Nat → UInt8}

/-- An operation on the file itself, from what it does to its blocks and its size. -/
theorem Loose.others (h : s.Loose I fix j) (ho : Others s s' I fix j) (hd : s'.Dense j)
    (hs : (s'.din j).size ≤ ((s'.din j).blocks + 1) * sfsBlksize) : s'.Loose I fix j where
  owned := ho.owned
  mem := h.mem
  file := ho.type.trans h.file
  dense i hi := by
    by_cases he : i = j
    · rw [he]
      exact hd
    · exact Others.dense_of_ne ho hi he (h.dense i hi)
  size := hs

/-! ## Transfers -/

/-- A transfer that starts further behind stops at its first block. -/
theorem ioParts_stuck (write : Bool) {ns : List Nat} (hp : Parts pos ns endpos) (hlt : pos < endpos)
    (hpos : (t.sfs.din sin).blocks < pos / sfsBlksize) : ioParts sin write ns pos t = .error .loadIndex := by
  cases ns with
  | nil => exact absurd hp hlt.ne
  | cons n ns =>
    unfold ioParts ioPart sfsBmapLoad
    rw [ensure_of_not (not_le.mpr hpos)]
    rfl

/-- A transfer keeps what the file is. -/
theorem Moves.loose (h : s.Loose I fix j) (hp : pos ≤ ((s.din j).blocks + 1) * sfsBlksize) (hm : Moves write buf s s' I fix j pos m) :
    Others s s' I fix j ∧ s'.Loose I fix j := by
  refine ⟨hm.toOthers, Loose.others h hm.toOthers hm.dense ?_⟩
  have hold := h.size
  rw [hm.size, hm.blocks]
  unfold sfsBlksize at *
  split <;> omega

section

variable (buf : Nat → UInt8) {offset : Int} {len : Nat} (h : s.Loose I fix j)
  (hend : offset + len ≤ ((sfsNdirect + sfsBlkNentry) * sfsBlksize : Nat))

include h hend

/-- `sfs_io_nolock` within the range of the map: a read, or a write of nothing, or a write that starts in a block of the file or in the
next one. -/
theorem sfsIo_loose (hw : write = true → len ≠ 0 → offset < (((s.din j).blocks + 1) * sfsBlksize : Nat)) :
    ∃ r, sfsIo j buf offset len write s = .ok r ∧ Others s r.2.2.2 I fix j ∧ r.2.2.2.Loose I fix j := by
  rcases sfsIo_args write offset len buf h.file with hb | ⟨o, e, rfl, he, hm, hle⟩
  · exact ⟨_, hb, Others.refl h.owned, h⟩
  have hend : o + len ≤ (sfsNdirect + sfsBlkNentry) * sfsBlksize := by exact_mod_cast hend
  have he' := endpos_eq (hend.trans_lt (by decide))
  obtain rfl : e = o + len := Int.natCast_inj.mp (he.symm.trans he')
  by_cases h0 : o = o + len ∨ (write = false ∧ (s.din j).size ≤ o)
  · exact ⟨_, sfsIo_nothing h.file he hm write hle h0, Others.refl h.owned, h⟩
  rw [not_or, not_and, Nat.not_le] at h0
  have hsi := h.size
  -- the first block of the transfer is one of the file or the next one
  have hs : o < ((s.din j).blocks + 1) * sfsBlksize := by
    cases write with
    | true => exact_mod_cast hw rfl (by omega)
    | false => exact (h0.2 rfl).trans_le hsi
  have hidx : o / sfsBlksize ≤ (s.din j).blocks := Nat.le_of_lt_succ (Nat.div_lt_of_lt_mul (by rwa [Nat.mul_comm]))
  obtain ⟨r, hio, hsp⟩ := sfsIo_carried buf h.file he hm write h.owned h.mem (h.dense j h.mem) (by omega) h0.2 hidx
  cases hsp with
  | all _ hc | short _ _ _ hc => exact ⟨_, hio, Moves.loose h hs.le hc.moves.2.2⟩
  | out _ hlt =>
    refine absurd hend (not_le.mpr (hlt.trans_le ?_))
    split <;> omega

/-- A write that starts further behind. -/
theorem sfsIo_stuck (hl : len ≠ 0) (hp : (((s.din j).blocks + 1) * sfsBlksize : Nat) ≤ offset) :
    sfsIo j buf offset len true s = .error .loadIndex := by
  obtain ⟨o, rfl⟩ := Int.eq_ofNat_of_zero_le (Int.le_trans (Int.natCast_nonneg _) hp)
  have hend : o + len ≤ (sfsNdirect + sfsBlkNentry) * sfsBlksize := by exact_mod_cast hend
  have hp : ((s.din j).blocks + 1) * sfsBlksize ≤ o := by exact_mod_cast hp
  have hidx : (s.din j).blocks < o / sfsBlksize := (Nat.le_div_iff_mul_le (by decide)).mpr hp
  have hm : o + len < sfsMaxFileSize := hend.trans_lt (by decide)
  obtain ⟨ns, hpa, hr⟩ := ioTransfer_eq j true (show o < o + len by omega)
  have hre : true = false → o < (s.din j).size := nofun
  rw [sfsIo_transfer h.file (endpos_eq (hm.trans (by decide))) (by omega) true (by omega) hre, if_pos rfl,
    Nat.min_eq_left hm.le, hr, ioParts_stuck true hpa (by omega) hidx]
  rfl

end

/-! ## Lengths -/

/-- `sfs_truncfile`, where it returns. -/
theorem sfsTruncfile_loose {len ret : Int} (h : s.Loose I fix j) (hrun : sfsTruncfile j len s = .ok (ret, s')) :
    Others s s' I fix j ∧ s'.Loose I fix j := by
  by_cases hra : len < 0 ∨ (sfsMaxFileSize : Int) < len
  · unfold sfsTruncfile at hrun
    rw [if_pos hra] at hrun
    cases hrun
    exact ⟨Others.refl h.owned, h⟩
  obtain ⟨n, rfl⟩ := Int.eq_ofNat_of_zero_le (show 0 ≤ len by omega)
  have hsp := sfsTruncfile_spec h.owned h.mem (h.dense j h.mem) (show n ≤ sfsMaxFileSize by omega)
  rw [hrun] at hsp
  generalize hr : (Except.ok (ret, s') : Except SfsPanic (Int × Sfs)) = r at hsp
  cases hsp with
  | mismatch => nomatch hr
  | out => nomatch hr
  | same =>
    cases hr
    exact ⟨Others.refl h.owned, h⟩
  | done ho hd hb hsi =>
    cases hr
    refine ⟨ho, Loose.others h ho hd ?_⟩
    rw [hb]
    unfold sfsBlksize
    omega
  | short _ _ hs _ =>
    cases hr
    refine ⟨hs.toOthers, Loose.others h hs.toOthers hs.dense ?_⟩
    rw [hs.size, hs.blocks]
    exact h.size.trans (Nat.mul_le_mul_right _ (Nat.add_le_add_right (blocks_le_limit (h.dense j h.mem)) 1))

theorem sfsTryseek_loose {p ret : Int} (h : s.Loose I fix j) (hr : sfsTryseek j p s = .ok (ret, s')) :
    Others s s' I fix j ∧ s'.Loose I fix j := by
  unfold sfsTryseek at hr
  split at hr
  · cases hr
    exact ⟨Others.refl h.owned, h⟩
  split at hr
  · exact sfsTruncfile_loose h hr
  · cases hr
    exact ⟨Others.refl h.owned, h⟩

end SfsAux

end Ucore
