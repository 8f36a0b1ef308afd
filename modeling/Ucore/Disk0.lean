import Mathlib.Algebra.Group.Int.Defs
import Ucore.Sfs

/-!
# The disk below a volume

`sfs_rwblock_nolock` of `kern/fs/sfs/sfs_io.c`, the device `disk0` of `kern/fs/devs/dev_disk0.c` that it calls, the `struct iobuf` that
they pass on, and the transfer of sectors of `kern/driver/ide.c`. The drive is there and reports no error. Numbers of type `uint32_t`
are taken modulo `2 ^ 32`, and an `off_t` is a signed number of 32 bits.
-/

namespace Ucore

open Checked

/-- `SECTSIZE` -/
def sectSize : Nat := 512

/-- `DISK0_BLKSIZE` -/
def disk0Blksize : Nat := 4096

/-- `DISK0_BUFSIZE` -/
def disk0Bufsize : Nat := 4 * disk0Blksize

/-- `DISK0_BLK_NSECT` -/
def disk0BlkNsect : Nat := disk0Blksize / sectSize

/-- `MAX_NSECS` -/
def maxNsecs : Nat := 128

/-- `MAX_DISK_NSECS` -/
def maxDiskNsecs : Nat := 0x10000000

/-- The assertions on the way to the disk. -/
inductive DiskPanic
  /-- `sfs_rwblock_nolock` -/
  | rwblock
  /-- `iobuf_skip` -/
  | skip
  /-- `disk0_io` -/
  | copied
  /-- `ide_read_secs` and `ide_write_secs` -/
  | ide
  deriving DecidableEq

/-- The disk, the memory and what lies between them. -/
structure Disk0 where
  /-- `d_blocks` -/
  blocks : Nat
  /-- The bytes of the disk. -/
  disk : Nat → UInt8
  /-- `disk0_buffer` -/
  buffer : Nat → UInt8
  mem : Nat → UInt8
  /-- The sectors that the drive has transferred, in order. -/
  moved : List Nat

/-- `n` bytes from `src` on are copied to `dst` on. -/
def blit (m : Nat → UInt8) (dst : Nat) (source : Nat → UInt8) (src n : Nat) : Nat → UInt8 :=
  fun a => if dst ≤ a ∧ a < dst + n then source (src + (a - dst)) else m a

/-! ## `struct iobuf` -/

/-- `struct iobuf` -/
structure Iobuf where
  base : Nat
  offset : Int
  len : Nat
  resid : Nat

/-- `iobuf_init` -/
def iobufInit (base len : Nat) (offset : Int) : Iobuf := ⟨base, offset, len, len⟩

/-- `iobuf_skip` -/
def iobufSkip (iob : Iobuf) (n : Nat) : Except DiskPanic Iobuf := do
  ensure (n ≤ iob.resid) .skip
  return { iob with base := iob.base + n, offset := iob.offset + n, resid := iob.resid - n }

/-- `iobuf_move` between the memory and `disk0_buffer`: the number of bytes copied. -/
def iobufMove (iob : Iobuf) (len : Nat) (m2b : Bool) (d : Disk0) : Except DiskPanic (Nat × Iobuf × Disk0) := do
  let alen := min iob.resid len
  let d := if m2b then { d with mem := blit d.mem iob.base d.buffer 0 alen } else { d with buffer := blit d.buffer 0 d.mem iob.base alen }
  let iob ← iobufSkip iob alen
  return (alen, iob, d)

/-! ## The device -/

/-- The checks of a transfer. The registers of the drive take the low 28 bits of the sector number. -/
def ideSecs (transfer : Nat → Nat → Disk0 → Disk0) (secno nsecs : Nat) (d : Disk0) : Except DiskPanic Disk0 := do
  ensure (nsecs ≤ maxNsecs) .ide
  ensure (secno < maxDiskNsecs ∧ (secno + nsecs) % 2 ^ 32 ≤ maxDiskNsecs) .ide
  let secno := secno % 2 ^ 28
  let d := transfer (secno * sectSize) (nsecs * sectSize) d
  return { d with moved := d.moved ++ List.range' secno nsecs }

/-- `ide_read_secs` -/
def ideReadSecs : Nat → Nat → Disk0 → Except DiskPanic Disk0 :=
  ideSecs fun addr n d => { d with buffer := blit d.buffer 0 d.disk addr n }

/-- `ide_write_secs` -/
def ideWriteSecs : Nat → Nat → Disk0 → Except DiskPanic Disk0 :=
  ideSecs fun addr n d => { d with disk := blit d.disk addr d.buffer 0 n }

/-- `disk0_read_blks_nolock` -/
def disk0ReadBlks (blkno nblks : Nat) : Disk0 → Except DiskPanic Disk0 :=
  ideReadSecs (blkno * disk0BlkNsect % 2 ^ 32) (nblks * disk0BlkNsect % 2 ^ 32)

/-- `disk0_write_blks_nolock` -/
def disk0WriteBlks (blkno nblks : Nat) : Disk0 → Except DiskPanic Disk0 :=
  ideWriteSecs (blkno * disk0BlkNsect % 2 ^ 32) (nblks * disk0BlkNsect % 2 ^ 32)

/-- The loop of `disk0_io`, which moves a block at least in each of its `n` rounds. -/
def disk0IoLoop (write : Bool) : Nat → Nat → Nat → Iobuf → Disk0 → Except DiskPanic Disk0
  | 0, _, _, _, d => .ok d
  | n + 1, resid, blkno, iob, d =>
    if resid = 0 then .ok d
    else if write then do
      let (copied, iob, d) ← iobufMove iob disk0Bufsize false d
      ensure (copied ≠ 0 ∧ copied ≤ resid ∧ copied % disk0Blksize = 0) .copied
      let nblks := copied / disk0Blksize
      let d ← disk0WriteBlks blkno nblks d
      disk0IoLoop write n (resid - copied) ((blkno + nblks) % 2 ^ 32) iob d
    else do
      let alen := min disk0Bufsize resid
      let nblks := alen / disk0Blksize
      let d ← disk0ReadBlks blkno nblks d
      let (copied, iob, d) ← iobufMove iob alen true d
      ensure (copied = alen ∧ copied % disk0Blksize = 0) .copied
      disk0IoLoop write n (resid - copied) ((blkno + nblks) % 2 ^ 32) iob d

/-- `disk0_io` -/
def disk0Io (iob : Iobuf) (write : Bool) (d : Disk0) : Except DiskPanic (Int × Disk0) :=
  let blkno := (iob.offset.tdiv disk0Blksize % 2 ^ 32).toNat
  let nblks := iob.resid / disk0Blksize
  if iob.offset.tmod disk0Blksize ≠ 0 ∨ iob.resid % disk0Blksize ≠ 0 then .ok (-eInval, d)
  else if d.blocks < (blkno + nblks) % 2 ^ 32 then .ok (-eInval, d)
  else if nblks = 0 then .ok (0, d)
  else do
    let d ← disk0IoLoop write nblks iob.resid blkno iob d
    return (0, d)

/-- `sfs_rwblock_nolock` on a volume of `blocks` blocks. The byte offset is computed in 32 bits and then taken as signed. -/
def sfsRwblockNolock (blocks buf blkno : Nat) (write check : Bool) (d : Disk0) : Except DiskPanic (Int × Disk0) := do
  ensure ((blkno ≠ 0 ∨ check = false) ∧ blkno < blocks) .rwblock
  disk0Io (iobufInit buf sfsBlksize (Int.bmod (blkno * sfsBlksize) (2 ^ 32))) write d

end Ucore
