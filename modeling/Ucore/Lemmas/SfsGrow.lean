import Ucore.Lemmas.SfsFile

/-!
# The length of a file

A file that gets longer by blocks can stop on the way: because no block is free, or because its map has no room for another one.
`sfsTruncfile_spec` names everything that `sfs_truncfile` can do to a file.
-/

namespace Ucore

open Checked Bytes

namespace SfsAux

open Sfs

variable {s s' : Sfs} {I : Finset Nat} {fix : Set Nat} {sin len tblks : Nat}

/-- What `sfs_truncfile` can do with a length in its range that needs `tblks` blocks. -/
inductive TruncResult (s : Sfs) (I : Finset Nat) (fix : Set Nat) (sin len tblks : Nat) : Except SfsPanic (Int × Sfs) → Prop
  | mismatch : (s.din sin).size = len → tblks ≠ (s.din sin).blocks → TruncResult s I fix sin len tblks (.error .truncBlocks)
  | same : (s.din sin).size = len → tblks = (s.din sin).blocks → TruncResult s I fix sin len tblks (.ok (0, s))
  | done {s' : Sfs} : Others s s' I fix sin → s'.Dense sin → (s'.din sin).blocks = tblks → (s'.din sin).size = len →
      (s'.inodes sin).dirty = true → tblks ≤ s.limit sin →
      (∀ p, s'.image sin p = if p / sfsBlksize < tblks then s.image sin p else 0) →
      TruncResult s I fix sin len tblks (.ok (0, s'))
  | short {s' : Sfs} : s.limit sin < tblks → s.limit sin < sfsNdirect + sfsBlkNentry → Loaded s s' I fix sin (s.limit sin) →
      (s.limit sin = (s.din sin).blocks → Starved s s' I fix sin) → TruncResult s I fix sin len tblks (.ok (-eNoMem, s'))
  | out : sfsNdirect + sfsBlkNentry ≤ s.limit sin → sfsNdirect + sfsBlkNentry < tblks → (s.din sin).size ≠ len →
      TruncResult s I fix sin len tblks (.error .indexRange)

/-- The end of `sfs_truncfile` once the file has the blocks for its new length. -/
theorem setLength_spec (ho : Others s s' I fix sin) (hd : s'.Dense sin) (hb : (s'.din sin).blocks = tblks) (hl : tblks ≤ s.limit sin)
    (him : ∀ p, p / sfsBlksize < tblks → s'.image sin p = s.image sin p) :
    TruncResult s I fix sin len tblks (setLength sin tblks len s') := by
  have hs : Others s' (s'.setDin sin { s'.din sin with size := len }) I fix sin := others_setDin ho.owned rfl rfl rfl rfl
  have hdin : ((s'.setDin sin { s'.din sin with size := len }).setDirty sin).din sin = { s'.din sin with size := len } := by
    rw [din_setDirty, din_setDin_self]
  have hm : ∀ k, ((s'.setDin sin { s'.din sin with size := len }).setDirty sin).fileBlock sin k = s'.fileBlock sin k := by
    intro k
    rw [fileBlock_setDirty]
    exact fileBlock_setDin rfl rfl
  unfold setLength
  rw [ensure_of hb]
  refine .done (ho.trans (hs.trans (others_setDirty hs.owned))) ?_ ?_ ?_ dirty_setDirty hl ?_
  · intro k
    rw [hm, hdin]
    exact hd k
  · rw [hdin]
    exact hb
  · rw [hdin]
  · intro p
    refine (image_of_disk hm rfl).trans ?_
    split
    · rename_i hp
      exact him p hp
    · rename_i hp
      refine image_of_none (not_not.mp fun hc => hp ?_)
      rw [← hb]
      exact (hd _).mp hc

/-- The branch of `sfs_truncfile` for a file that gets longer by blocks. -/
theorem growBlocks_cases (h : s.Owned I fix) (hsin : sin ∈ I) (hd : s.Dense sin) (hg : (s.din sin).blocks < tblks)
    (hsi : (s.din sin).size ≠ len) : TruncResult s I fix sin len tblks (do
      let (ret, s) ← growBlocks sin (tblks - (s.din sin).blocks) (s.din sin).blocks s
      if ret ≠ 0 then return (ret, s)
      else setLength sin tblks len s) := by
  have hs := growBlocks_spec hsin (tblks - (s.din sin).blocks) h hd
  have hsum : (s.din sin).blocks + (tblks - (s.din sin).blocks) = tblks := by omega
  generalize growBlocks sin (tblks - (s.din sin).blocks) (s.din sin).blocks s = r at hs
  cases hs with
  | all hl =>
    rw [hsum] at hl
    exact setLength_spec hl.toOthers hl.dense hl.blocks (hl.limit ▸ hl.blocks ▸ blocks_le_limit hl.dense) fun p _ => hl.image p
  | short hlt hc hl hst => exact .short (hsum ▸ hlt) hc hl hst
  | out hc hlt => exact .out hc (hsum ▸ hlt) hsi

/-- `sfs_truncfile` -/
theorem sfsTruncfile_spec (h : s.Owned I fix) (hsin : sin ∈ I) (hd : s.Dense sin) (hl : len ≤ sfsMaxFileSize) :
    TruncResult s I fix sin len ((len + sfsBlksize - 1) / sfsBlksize) (sfsTruncfile sin len s) := by
  have hli := blocks_le_limit hd
  unfold sfsTruncfile
  rw [if_neg (by omega), Int.toNat_natCast]
  dsimp only
  generalize (len + sfsBlksize - 1) / sfsBlksize = tblks
  by_cases hs : (s.din sin).size = len
  · rw [if_pos hs]
    by_cases hb : tblks = (s.din sin).blocks
    · rw [ensure_of hb]
      exact .same hs hb
    · rw [ensure_of_not hb]
      exact .mismatch hs hb
  rw [if_neg hs]
  by_cases hg : (s.din sin).blocks < tblks
  · rw [if_pos hg]
    exact growBlocks_cases h hsin hd hg hs
  · rw [if_neg hg]
    obtain ⟨s1, hr, ho, hd1, hb1, him⟩ := shrinkBlocks_spec hsin ((s.din sin).blocks - tblks) h hd (Nat.sub_le _ _)
    rw [hr]
    exact setLength_spec ho hd1 (by omega) (by omega) fun p hp => him p (by omega)

end SfsAux

end Ucore
