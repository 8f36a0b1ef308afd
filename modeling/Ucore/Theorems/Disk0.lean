import Mathlib.Data.Int.Basic
import Ucore.Disk0

/-!
# Which sectors a block of a volume is

A block is eight sectors, and `sfs_rwblock_nolock` passes its place on the disk as a byte offset, a signed number of 32 bits. The device
admits disks of almost `2 ^ 25` blocks, but the offset holds only the first `2 ^ 19`: those blocks and no others are transferred
(`rwblock_transfers_iff`). Beyond them another block is read or written, the call fails, or an assertion does.
-/

namespace Ucore

open Checked

/-- The drive transferred the sectors of a block and no others, and the bytes of the block are in the memory, or those of the memory
on the disk, with all other bytes as they were. -/
def Disk0.Transferred (d : Disk0) (write : Bool) (buf blkno : Nat) (d' : Disk0) : Prop :=
  d'.moved = d.moved ++ List.range' (8 * blkno) 8 ∧
    if write then d'.disk = blit d.disk (blkno * sfsBlksize) d.mem buf sfsBlksize ∧ d'.mem = d.mem
    else d'.mem = blit d.mem buf d.disk (blkno * sfsBlksize) sfsBlksize ∧ d'.disk = d.disk

namespace DiskAux

variable {d : Disk0} {buf k : Nat} {off q : Int} {write : Bool}

/-- What goes through the buffer arrives as it left. -/
theorem blit_blit (m m' source : Nat → UInt8) (dst src n : Nat) :
    blit m dst (blit m' 0 source src n) 0 n = blit m dst source src n := by
  funext a
  unfold blit
  split
  · rw [if_pos (by omega)]
    congr 1
    omega
  · rfl

/-- The byte offset of a block wraps around as its number does at `2 ^ 20`. -/
theorem bmod_offset (blkno : Nat) : Int.bmod (blkno * sfsBlksize) (2 ^ 32) = disk0Blksize * Int.bmod blkno (2 ^ 20) := by
  simp only [Int.bmod_def, sfsBlksize, disk0Blksize]
  omega

/-- The number of the block that `disk0_io` gets back from the offset. -/
theorem toNat_bmod_low (h : k % 2 ^ 20 < 2 ^ 19) : (Int.bmod k (2 ^ 20) % 2 ^ 32).toNat = k % 2 ^ 20 := by
  rw [Int.bmod_def]
  omega

theorem toNat_bmod_high (h : ¬k % 2 ^ 20 < 2 ^ 19) : (Int.bmod k (2 ^ 20) % 2 ^ 32).toNat = 2 ^ 32 - 2 ^ 20 + k % 2 ^ 20 := by
  rw [Int.bmod_def]
  omega

/-- The drive is told the sectors of a block. -/
theorem ideSecs_block (transfer : Nat → Nat → Disk0 → Disk0) (hk : k * 8 + 8 ≤ 2 ^ 28) :
    ideSecs transfer (k * disk0BlkNsect % 2 ^ 32) (1 * disk0BlkNsect % 2 ^ 32) d =
      .ok { transfer (k * sfsBlksize) sfsBlksize d with
        moved := (transfer (k * sfsBlksize) sfsBlksize d).moved ++ List.range' (8 * k) 8 } := by
  have hsec : k * disk0BlkNsect % 2 ^ 32 = 8 * k := by
    simp only [disk0BlkNsect, disk0Blksize, sectSize]
    omega
  have hlow : 8 * k % 2 ^ 28 = 8 * k := Nat.mod_eq_of_lt (by omega)
  have ha : 8 * k * sectSize = k * sfsBlksize := by
    simp only [sectSize, sfsBlksize]
    omega
  have hl : (8 * k + 8) % 2 ^ 32 ≤ maxDiskNsecs := le_trans (Nat.mod_le _ _) (by unfold maxDiskNsecs; omega)
  unfold ideSecs
  rw [hsec, ensure_of (by decide), ensure_of ⟨by unfold maxDiskNsecs; omega, hl⟩]
  dsimp only
  rw [hlow, ha]
  rfl

/-- For one block the loop makes one round. -/
theorem disk0IoLoop_write : disk0IoLoop true 1 sfsBlksize k (iobufInit buf sfsBlksize off) d =
    disk0WriteBlks k 1 { d with buffer := blit d.buffer 0 d.mem buf sfsBlksize } := by
  simp [disk0IoLoop, iobufMove, iobufSkip, iobufInit, sfsBlksize, disk0Blksize, disk0Bufsize]
  exact bind_pure _

theorem disk0IoLoop_read : disk0IoLoop false 1 sfsBlksize k (iobufInit buf sfsBlksize off) d =
    disk0ReadBlks k 1 d >>= fun d => .ok { d with mem := blit d.mem buf d.buffer 0 sfsBlksize } := by
  simp [disk0IoLoop, iobufMove, iobufSkip, iobufInit, sfsBlksize, disk0Blksize, disk0Bufsize]

/-- The round of a block that the disk has. -/
theorem disk0IoLoop_block (write : Bool) (buf : Nat) (off : Int) (d : Disk0) (hk : k * 8 + 8 ≤ 2 ^ 28) :
    ∃ d', disk0IoLoop write 1 sfsBlksize k (iobufInit buf sfsBlksize off) d = .ok d' ∧ d.Transferred write buf k d' := by
  cases write with
  | true =>
    rw [disk0IoLoop_write, disk0WriteBlks, ideWriteSecs, ideSecs_block _ hk]
    exact ⟨_, rfl, rfl, blit_blit _ _ _ _ _ _, rfl⟩
  | false =>
    rw [disk0IoLoop_read, disk0ReadBlks, ideReadSecs, ideSecs_block _ hk]
    exact ⟨_, rfl, rfl, blit_blit _ _ _ _ _ _, rfl⟩

/-- The round of the block whose number plus one wraps around. -/
theorem disk0IoLoop_last : disk0IoLoop write 1 sfsBlksize (2 ^ 32 - 1) (iobufInit buf sfsBlksize off) d = .error .ide := by
  cases write with
  | true =>
    rw [disk0IoLoop_write]
    rfl
  | false =>
    rfl

/-- `disk0_io` at the offset of a block. -/
theorem disk0Io_block : disk0Io (iobufInit buf sfsBlksize (disk0Blksize * q)) write d =
    if d.blocks < ((q % 2 ^ 32).toNat + 1) % 2 ^ 32 then .ok (-eInval, d)
    else disk0IoLoop write 1 sfsBlksize (q % 2 ^ 32).toNat (iobufInit buf sfsBlksize (disk0Blksize * q)) d >>= fun d => .ok (0, d) := by
  have hd : ((disk0Blksize : Int) * q).tdiv disk0Blksize = q := Int.mul_tdiv_cancel_left _ (by decide)
  have hm : ((disk0Blksize : Int) * q).tmod disk0Blksize = 0 := Int.mul_tmod_right _ _
  unfold disk0Io
  simp only [iobufInit, hd, hm]
  simp [sfsBlksize, disk0Blksize]

/-- A disk of zeros. -/
def blank (blocks : Nat) : Disk0 := ⟨blocks, fun _ => 0, fun _ => 0, fun _ => 0, []⟩

end DiskAux

open DiskAux

/-- On every disk of less than `2 ^ 28` sectors, and for every block of a volume that the device admits, `sfs_rwblock_nolock` returns 0 and
transfers the sectors of the block exactly when the byte offset of the block fits into an `off_t` (and, where the caller asks for
it, the block is not the superblock). -/
theorem rwblock_transfers_iff (sectors blocks buf blkno : Nat) (write check : Bool) (d : Disk0)
    (hdev : d.blocks = sectors / disk0BlkNsect) (hsectors : sectors < 2 ^ 28) (hmount : blocks ≤ d.blocks) (hblk : blkno < blocks) :
    (∃ d', sfsRwblockNolock blocks buf blkno write check d = .ok (0, d') ∧ d.Transferred write buf blkno d') ↔
      blkno * sfsBlksize < 2 ^ 31 ∧ (blkno ≠ 0 ∨ check = false) := by
  have hnsect : disk0BlkNsect = 8 := rfl
  have hsize : sfsBlksize = 4096 := rfl
  rw [hnsect] at hdev
  unfold sfsRwblockNolock
  simp only [ensure_bind_eq_ok, bmod_offset, disk0Io_block]
  constructor
  · rintro ⟨d', ⟨⟨hcheck, -⟩, hr⟩, hmoved, -⟩
    refine ⟨?_, hcheck⟩
    by_contra hbig
    rw [hsize] at hbig
    by_cases hhalf : blkno % 2 ^ 20 < 2 ^ 19
    · -- The offset is that of another block, which is transferred.
      obtain ⟨d'', hloop, hdone, -⟩ := disk0IoLoop_block write buf (disk0Blksize * Int.bmod blkno (2 ^ 20)) d
        (by omega : blkno % 2 ^ 20 * 8 + 8 ≤ 2 ^ 28)
      rw [toNat_bmod_low hhalf, if_neg (by omega), hloop] at hr
      cases hr
      have hhead := List.cons.inj (List.append_cancel_left (hdone.symm.trans hmoved))
      omega
    · -- The offset is negative: its block is beyond every disk, or its last sector wraps around.
      rw [toNat_bmod_high hhalf] at hr
      by_cases hlast : blkno % 2 ^ 20 = 2 ^ 20 - 1
      · have hsum : 2 ^ 32 - 2 ^ 20 + (2 ^ 20 - 1) = 2 ^ 32 - 1 := rfl
        rw [hlast, hsum, disk0IoLoop_last] at hr
        cases hr
      · rw [if_pos (by omega)] at hr
        cases hr
  · rintro ⟨hfits, hcheck⟩
    rw [hsize] at hfits
    have hlow : blkno % 2 ^ 20 = blkno := Nat.mod_eq_of_lt (by omega)
    obtain ⟨d', hloop, hdone⟩ := disk0IoLoop_block write buf (disk0Blksize * Int.bmod blkno (2 ^ 20)) d
      (by omega : blkno * 8 + 8 ≤ 2 ^ 28)
    rw [toNat_bmod_low (by omega), hlow, if_neg (by omega), hloop]
    exact ⟨d', ⟨⟨hcheck, hblk⟩, rfl⟩, hdone⟩

/-- A volume of 16 blocks, whose block 3 is read. -/
theorem rwblock_transfers_iff_third : ∃ d', sfsRwblockNolock 16 0 3 false true (DiskAux.blank 16) = .ok (0, d') ∧
    (DiskAux.blank 16).Transferred false 0 3 d' :=
  (rwblock_transfers_iff 128 16 0 3 false true (DiskAux.blank 16) rfl (by decide) (by decide) (by decide)).mpr
    ⟨by decide, Or.inl (by decide)⟩

/-- On a volume of `2 ^ 20 + 1` blocks, block `2 ^ 20` is read: the call returns 0 and the drive has transferred the superblock. -/
theorem large_block_misread : ∃ d', sfsRwblockNolock (2 ^ 20 + 1) 0 (2 ^ 20) false true (DiskAux.blank (2 ^ 20 + 1)) = .ok (0, d') ∧
    d'.moved = List.range 8 := ⟨_, rfl, rfl⟩

end Ucore
