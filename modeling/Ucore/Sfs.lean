import Ucore.Bitmap
import Ucore.Lib.Bytes

/-!
# The simple file system

The block maps and the transfers of regular files, from `kern/fs/sfs/sfs_inode.c` and `sfs_io.c`. The device holds the bytes of
each block and never fails. The inodes are those that are loaded, by inode number; `din` is the copy of the inode in memory, and
`dirty` says that it has changed. The buffer of a transfer is the byte at each offset from its beginning.

A panic and a failed assertion stop a call with the `SfsPanic` that names it. Not modelled: the locks, and `sfs_buffer`, which each
function fills before it reads it.
-/

namespace Ucore

open Checked Bytes Function

/-- `SFS_BLKSIZE` -/
def sfsBlksize : Nat := 4096

/-- `SFS_NDIRECT` -/
def sfsNdirect : Nat := 12

/-- `SFS_BLK_NENTRY` -/
def sfsBlkNentry : Nat := 1024

/-- `SFS_MAX_FILE_SIZE` -/
def sfsMaxFileSize : Nat := 1024 * 1024 * 128

/-- `SFS_TYPE_INVAL`, `SFS_TYPE_FILE`, `SFS_TYPE_DIR`, `SFS_TYPE_LINK`. -/
inductive SfsType
  | inval
  | file
  | dir
  | link
  deriving DecidableEq

/-- `struct sfs_disk_inode` -/
structure DiskInode where
  size : Nat
  type : SfsType
  nlinks : Nat
  blocks : Nat
  direct : Nat → Nat
  indirect : Nat

/-- `struct sfs_inode` -/
structure SfsInode where
  din : DiskInode
  dirty : Bool

/-- `struct sfs_fs`: `super.blocks`, `super.unused_blocks`, the bitmap, the device, and the loaded inodes. -/
structure Sfs where
  blocks : Nat
  unusedBlocks : Nat
  freemap : Bitmap
  superDirty : Bool
  disk : Nat → Nat → UInt8
  inodes : Nat → SfsInode

/-- The panics and assertions that a call can stop at. -/
inductive SfsPanic
  /-- `sfs_block_inuse` got a block out of range, or a block that must be in use is free. -/
  | blockInuse
  /-- `sfs_block_alloc` found a free bit while `unused_blocks` is 0. -/
  | unusedBlocks
  | bitmap (panic : BitmapPanic)
  /-- `sfs_rwblock_nolock` got a block out of range. -/
  | rwblock
  /-- `sfs_rbuf` or `sfs_wbuf` got a range out of the block. -/
  | bufRange
  /-- `sfs_bmap_get_sub_nolock` or `sfs_bmap_free_sub_nolock` got an index out of the table. -/
  | subIndex
  /-- `sfs_bmap_get_nolock`: "index out of range". -/
  | indexRange
  /-- `sfs_bmap_get_nolock` would replace an indirect block. -/
  | indirectSet
  /-- `sfs_bmap_load_nolock` got an index behind the end of the file. -/
  | loadIndex
  /-- `sfs_bmap_truncate_nolock` got an empty file. -/
  | truncateEmpty
  /-- `sfs_truncfile` found a file whose blocks do not fit its size. -/
  | truncBlocks
  /-- `sfs_io_nolock` got a directory. -/
  | ioType
  /-- `sfs_dirent_read_nolock` got something that is not a directory, or a slot out of range. -/
  | direntRead
  /-- `sfs_dirent_search_nolock` got a name that is too long. -/
  | direntName
  /-- `sfs_init_freemap` got a bitmap of another size. -/
  | initFreemap
  /-- `sfs_do_mount` counted another number of free blocks than the superblock has. -/
  | mount
  deriving DecidableEq

namespace Sfs

/-- The copy of an inode in memory. -/
def din (s : Sfs) (sin : Nat) : DiskInode := (s.inodes sin).din

def setDin (s : Sfs) (sin : Nat) (din : DiskInode) : Sfs :=
  { s with inodes := update s.inodes sin { s.inodes sin with din := din } }

/-- `sin->dirty = 1` -/
def setDirty (s : Sfs) (sin : Nat) : Sfs :=
  { s with inodes := update s.inodes sin { s.inodes sin with dirty := true } }

end Sfs

/-! ## Blocks of the device -/

/-- The assertion of `sfs_rwblock_nolock`, which every caller here asks to check. -/
def sfsRwblock (blkno : Nat) (s : Sfs) : Except SfsPanic Unit := ensure (blkno ≠ 0 ∧ blkno < s.blocks) .rwblock

/-- The assertion of `sfs_rbuf` and `sfs_wbuf`. -/
def bufInside (len offset : Nat) : Except SfsPanic Unit :=
  ensure (offset < sfsBlksize ∧ offset + len ≤ sfsBlksize) .bufRange

/-- `sfs_rblock` of one block. -/
def sfsRblock (blkno : Nat) (s : Sfs) : Except SfsPanic (Nat → UInt8) := do
  sfsRwblock blkno s
  return s.disk blkno

/-- `sfs_wblock` of one block. -/
def sfsWblock (buf : Nat → UInt8) (blkno : Nat) (s : Sfs) : Except SfsPanic Sfs := do
  sfsRwblock blkno s
  return { s with disk := update s.disk blkno (patch (s.disk blkno) 0 sfsBlksize buf) }

/-- `sfs_rbuf`: the bytes of the block from `offset` on. -/
def sfsRbuf (len blkno offset : Nat) (s : Sfs) : Except SfsPanic (Nat → UInt8) := do
  bufInside len offset
  sfsRwblock blkno s
  return fun i => s.disk blkno (offset + i)

/-- `sfs_wbuf` -/
def sfsWbuf (buf : Nat → UInt8) (len blkno offset : Nat) (s : Sfs) : Except SfsPanic Sfs := do
  bufInside len offset
  sfsRwblock blkno s
  return { s with disk := update s.disk blkno (patch (s.disk blkno) offset len buf) }

/-- `sfs_clear_block` of one block. -/
def sfsClearBlock (blkno : Nat) (s : Sfs) : Except SfsPanic Sfs := sfsWblock (fun _ => 0) blkno s

/-! ## The free blocks -/

/-- `sfs_block_inuse` -/
def sfsBlockInuse (ino : Nat) (s : Sfs) : Except SfsPanic Bool :=
  if ino ≠ 0 ∧ ino < s.blocks then do
    let free ← (bitmapTest s.freemap ino).mapError SfsPanic.bitmap
    return !free
  else .error .blockInuse

/-- `assert(sfs_block_inuse(sfs, ino))` -/
def assertInuse (ino : Nat) (s : Sfs) : Except SfsPanic Unit := do
  let inuse ← sfsBlockInuse ino s
  ensure (inuse = true) .blockInuse

/-- `sfs_block_alloc`: the return value, and the block. -/
def sfsBlockAlloc (s : Sfs) : Except SfsPanic (Int × Nat × Sfs) := do
  match ← (bitmapAlloc s.freemap).mapError SfsPanic.bitmap with
  | none => return (-eNoMem, 0, s)
  | some (ino, freemap) =>
    ensure (0 < s.unusedBlocks) .unusedBlocks
    let s := { s with freemap := freemap, unusedBlocks := s.unusedBlocks - 1, superDirty := true }
    assertInuse ino s
    let s ← sfsClearBlock ino s
    return (0, ino, s)

/-- `sfs_block_free` -/
def sfsBlockFree (ino : Nat) (s : Sfs) : Except SfsPanic Sfs := do
  assertInuse ino s
  let freemap ← (bitmapFree s.freemap ino).mapError SfsPanic.bitmap
  return { s with freemap := freemap, unusedBlocks := s.unusedBlocks + 1, superDirty := true }

/-! ## Block maps -/

/-- The end of `sfs_bmap_get_sub_nolock`: a block for the entry `index` of the table `ent`. Where there is none, a table that the
call has just allocated (it is not `entp`) is freed again. -/
def newEntry (entp ent index : Nat) (s : Sfs) : Except SfsPanic (Int × Nat × Nat × Sfs) := do
  let (ret, ino, s) ← sfsBlockAlloc s
  if ret ≠ 0 then
    if ent ≠ entp then
      let s ← sfsBlockFree ent s
      return (ret, 0, entp, s)
    else return (ret, 0, entp, s)
  else
    let s ← sfsWbuf (byteOf ino) 4 ent (index * 4) s
    return (0, ino, ent, s)

/-- `sfs_bmap_get_sub_nolock`: the return value, the block, and the table. -/
def sfsBmapGetSub (entp index : Nat) (create : Bool) (s : Sfs) : Except SfsPanic (Int × Nat × Nat × Sfs) := do
  ensure (index < sfsBlkNentry) .subIndex
  if entp ≠ 0 then
    let ino := word (← sfsRbuf 4 entp (index * 4) s) 0
    if ino ≠ 0 ∨ create = false then return (0, ino, entp, s)
    else newEntry entp entp index s
  else if create = false then return (0, 0, entp, s)
  else
    let (ret, ent, s) ← sfsBlockAlloc s
    if ret ≠ 0 then return (ret, 0, entp, s)
    else newEntry entp ent index s

/-- The branch of `sfs_bmap_get_nolock` for a direct block. -/
def bmapGetDirect (sin index : Nat) (create : Bool) (s : Sfs) : Except SfsPanic (Int × Nat × Sfs) :=
  if (s.din sin).direct index = 0 ∧ create = true then do
    let (ret, ino, s) ← sfsBlockAlloc s
    if ret ≠ 0 then return (ret, 0, s)
    else
      let din := s.din sin
      return (0, ino, (s.setDin sin { din with direct := update din.direct index ino }).setDirty sin)
  else .ok (0, (s.din sin).direct index, s)

/-- The branch of `sfs_bmap_get_nolock` for an indirect block. -/
def bmapGetIndirect (sin index : Nat) (create : Bool) (s : Sfs) : Except SfsPanic (Int × Nat × Sfs) := do
  let (ret, ino, ent, s) ← sfsBmapGetSub (s.din sin).indirect index create s
  if ret ≠ 0 then return (ret, 0, s)
  else if ent ≠ (s.din sin).indirect then
    ensure ((s.din sin).indirect = 0) .indirectSet
    return (0, ino, (s.setDin sin { s.din sin with indirect := ent }).setDirty sin)
  else return (0, ino, s)

/-- The branches of `sfs_bmap_get_nolock`. -/
def bmapGetBranch (sin index : Nat) (create : Bool) (s : Sfs) : Except SfsPanic (Int × Nat × Sfs) :=
  if index < sfsNdirect then bmapGetDirect sin index create s
  else if index - sfsNdirect < sfsBlkNentry then bmapGetIndirect sin (index - sfsNdirect) create s
  else .error .indexRange

/-- `sfs_bmap_get_nolock`: the return value, and the block. -/
def sfsBmapGet (sin index : Nat) (create : Bool) (s : Sfs) : Except SfsPanic (Int × Nat × Sfs) := do
  let (ret, ino, s) ← bmapGetBranch sin index create s
  if ret ≠ 0 then return (ret, 0, s)
  else if ino ≠ 0 then
    assertInuse ino s
    return (0, ino, s)
  else return (0, ino, s)

/-- `sfs_bmap_free_sub_nolock` -/
def sfsBmapFreeSub (ent index : Nat) (s : Sfs) : Except SfsPanic Sfs := do
  assertInuse ent s
  ensure (index < sfsBlkNentry) .subIndex
  let ino := word (← sfsRbuf 4 ent (index * 4) s) 0
  if ino ≠ 0 then
    let s ← sfsWbuf (byteOf 0) 4 ent (index * 4) s
    sfsBlockFree ino s
  else return s

/-- `sfs_bmap_free_nolock` -/
def sfsBmapFree (sin index : Nat) (s : Sfs) : Except SfsPanic Sfs :=
  if index < sfsNdirect then
    if (s.din sin).direct index ≠ 0 then do
      let s ← sfsBlockFree ((s.din sin).direct index) s
      let din := s.din sin
      return (s.setDin sin { din with direct := update din.direct index 0 }).setDirty sin
    else .ok s
  else if index - sfsNdirect < sfsBlkNentry then
    if (s.din sin).indirect ≠ 0 then sfsBmapFreeSub (s.din sin).indirect (index - sfsNdirect) s
    else .ok s
  else .ok s

/-- `sfs_bmap_load_nolock`: the return value, and the block. -/
def sfsBmapLoad (sin index : Nat) (s : Sfs) : Except SfsPanic (Int × Nat × Sfs) := do
  ensure (index ≤ (s.din sin).blocks) .loadIndex
  let create := decide (index = (s.din sin).blocks)
  let (ret, ino, s) ← sfsBmapGet sin index create s
  if ret ≠ 0 then return (ret, 0, s)
  else
    assertInuse ino s
    if create then
      let din := s.din sin
      return (0, ino, s.setDin sin { din with blocks := din.blocks + 1 })
    else return (0, ino, s)

/-- `sfs_bmap_truncate_nolock`. It returns 0 on a device that does not fail. -/
def sfsBmapTruncate (sin : Nat) (s : Sfs) : Except SfsPanic Sfs := do
  ensure ((s.din sin).blocks ≠ 0) .truncateEmpty
  let s ← sfsBmapFree sin ((s.din sin).blocks - 1) s
  let din := s.din sin
  return (s.setDin sin { din with blocks := din.blocks - 1 }).setDirty sin

/-! ## Transfers -/

/-- The state of a transfer: the volume, the buffer, and the bytes moved so far. The buffer pointer of the source moves with
`alen`. -/
structure Transfer where
  sfs : Sfs
  buf : Nat → UInt8
  alen : Nat

/-- `sfs_buf_op`: `size` bytes of the block `ino` at `blkoff`, to or from the buffer. -/
def sfsBufOp (write : Bool) (size ino blkoff : Nat) (t : Transfer) : Except SfsPanic Transfer :=
  if write then do
    let s ← sfsWbuf (fun i => t.buf (t.alen + i)) size ino blkoff t.sfs
    return ⟨s, t.buf, t.alen + size⟩
  else do
    let bytes ← sfsRbuf size ino blkoff t.sfs
    return ⟨t.sfs, patch t.buf t.alen size bytes, t.alen + size⟩

/-- `sfs_block_op`: the block `ino`, to or from the buffer. -/
def sfsBlockOp (write : Bool) (ino : Nat) (t : Transfer) : Except SfsPanic Transfer :=
  if write then do
    let s ← sfsWblock (fun i => t.buf (t.alen + i)) ino t.sfs
    return ⟨s, t.buf, t.alen + sfsBlksize⟩
  else do
    let bytes ← sfsRblock ino t.sfs
    return ⟨t.sfs, patch t.buf t.alen sfsBlksize bytes, t.alen + sfsBlksize⟩

/-- A part of a block: it is loaded, and moved where that succeeds. -/
def ioPart (sin : Nat) (write : Bool) (blkno blkoff size : Nat) (t : Transfer) : Except SfsPanic (Int × Transfer) := do
  let (ret, ino, s) ← sfsBmapLoad sin blkno t.sfs
  let t := { t with sfs := s }
  if ret ≠ 0 then return (ret, t)
  else
    let t ← sfsBufOp write size ino blkoff t
    return (0, t)

/-- The loop over the whole blocks, with `nblks` to go. -/
def ioBlocks (sin : Nat) (write : Bool) : Nat → Nat → Transfer → Except SfsPanic (Int × Transfer)
  | 0, _, t => .ok (0, t)
  | nblks + 1, blkno, t => do
    let (ret, ino, s) ← sfsBmapLoad sin blkno t.sfs
    let t := { t with sfs := s }
    if ret ≠ 0 then return (ret, t)
    else
      let t ← sfsBlockOp write ino t
      ioBlocks sin write nblks (blkno + 1) t

/-- The whole blocks and the part of the last block, from the block `blkno` on. -/
def ioRest (sin : Nat) (write : Bool) (blkno nblks endpos : Nat) (t : Transfer) : Except SfsPanic (Int × Transfer) := do
  let (ret, t) ← ioBlocks sin write nblks blkno t
  if ret ≠ 0 then return (ret, t)
  else if endpos % sfsBlksize ≠ 0 then ioPart sin write (blkno + nblks) 0 (endpos % sfsBlksize) t
  else return (0, t)

/-- The transfer of the bytes from `offset` to `endpos`: the part of the first block, the whole blocks, the part of the last. -/
def ioTransfer (sin : Nat) (write : Bool) (offset endpos : Nat) (t : Transfer) : Except SfsPanic (Int × Transfer) :=
  let blkno := offset / sfsBlksize
  let nblks := endpos / sfsBlksize - blkno
  let blkoff := offset % sfsBlksize
  if blkoff ≠ 0 then do
    let (ret, t) ← ioPart sin write blkno blkoff (if nblks ≠ 0 then sfsBlksize - blkoff else endpos - offset) t
    if ret ≠ 0 ∨ nblks = 0 then return (ret, t)
    else ioRest sin write (blkno + 1) (nblks - 1) endpos t
  else ioRest sin write blkno nblks endpos t

/-- What `sfs_io_nolock` does at its end: the file reaches at least as far as the transfer did. -/
def growSize (sin offset : Nat) (t : Transfer) : Sfs :=
  if (t.sfs.din sin).size < offset + t.alen then
    (t.sfs.setDin sin { t.sfs.din sin with size := offset + t.alen }).setDirty sin
  else t.sfs

/-- `sfs_io_nolock`: the return value, the bytes moved, the buffer. Offsets are 32-bit and signed, and the end is computed modulo
`2 ^ 32`. -/
def sfsIo (sin : Nat) (buf : Nat → UInt8) (offset : Int) (len : Nat) (write : Bool) (s : Sfs) :
    Except SfsPanic (Int × Nat × (Nat → UInt8) × Sfs) := do
  ensure ((s.din sin).type ≠ .dir) .ioType
  let endpos := (offset + len).bmod (2 ^ 32)
  if offset < 0 ∨ sfsMaxFileSize ≤ offset ∨ endpos < offset then return (-eInval, 0, buf, s)
  else if offset = endpos then return (0, 0, buf, s)
  else if write = false ∧ (s.din sin).size ≤ offset.toNat then return (0, 0, buf, s)
  else
    let endpos := min endpos.toNat sfsMaxFileSize
    let endpos := if write then endpos else min endpos (s.din sin).size
    let (ret, t) ← ioTransfer sin write offset.toNat endpos ⟨s, buf, 0⟩
    return (ret, t.alen, t.buf, growSize sin offset.toNat t)

/-! ## The length of a file -/

/-- The loop of `sfs_truncfile` that adds `n` blocks at the end. -/
def growBlocks (sin : Nat) : Nat → Nat → Sfs → Except SfsPanic (Int × Sfs)
  | 0, _, s => .ok (0, s)
  | n + 1, nblks, s => do
    let (ret, _, s) ← sfsBmapLoad sin nblks s
    if ret ≠ 0 then return (ret, s)
    else growBlocks sin n (nblks + 1) s

/-- The loop of `sfs_truncfile` that frees `n` blocks at the end. -/
def shrinkBlocks (sin : Nat) : Nat → Sfs → Except SfsPanic Sfs
  | 0, s => .ok s
  | n + 1, s => do
    let s ← sfsBmapTruncate sin s
    shrinkBlocks sin n s

/-- The end of `sfs_truncfile`, once the blocks are there. -/
def setLength (sin tblks len : Nat) (s : Sfs) : Except SfsPanic (Int × Sfs) := do
  ensure ((s.din sin).blocks = tblks) .truncBlocks
  return (0, (s.setDin sin { s.din sin with size := len }).setDirty sin)

/-- `sfs_truncfile` -/
def sfsTruncfile (sin : Nat) (len : Int) (s : Sfs) : Except SfsPanic (Int × Sfs) :=
  if len < 0 ∨ (sfsMaxFileSize : Int) < len then .ok (-eInval, s)
  else
    let len := len.toNat
    let tblks := (len + sfsBlksize - 1) / sfsBlksize
    if (s.din sin).size = len then do
      ensure (tblks = (s.din sin).blocks) .truncBlocks
      return (0, s)
    else if (s.din sin).blocks < tblks then do
      let (ret, s) ← growBlocks sin (tblks - (s.din sin).blocks) (s.din sin).blocks s
      if ret ≠ 0 then return (ret, s)
      else setLength sin tblks len s
    else do
      let s ← shrinkBlocks sin ((s.din sin).blocks - tblks) s
      setLength sin tblks len s

/-- `sfs_tryseek` on a regular file. -/
def sfsTryseek (sin : Nat) (pos : Int) (s : Sfs) : Except SfsPanic (Int × Sfs) :=
  if pos < 0 ∨ (sfsMaxFileSize : Int) ≤ pos then .ok (-eInval, s)
  else if ((s.din sin).size : Int) < pos then sfsTruncfile sin pos s
  else .ok (0, s)

end Ucore
