import Ucore.Sfs

/-!
# Mounted volumes and their directories

`sfs_do_mount` of `kern/fs/sfs/sfs_fs.c`, which reads the superblock and the bitmap of a device, and the functions of `sfs_inode.c`
that read the entries of a directory. Every entry has a block of its own. An inode is read from its block when it is loaded, so that
a mounted volume has the inodes that its blocks hold.

The memory that a mount asks for is not modelled; it always gets it. A name is the list of its bytes before the terminating NUL.
-/

namespace Ucore

open Checked Bytes

/-- `SFS_MAGIC` -/
def sfsMagic : Nat := 0x2f8dbe2a

/-- `SFS_BLKBITS` -/
def sfsBlkbits : Nat := 32768

/-- `SFS_BLKN_SUPER` -/
def sfsBlknSuper : Nat := 0

/-- `SFS_BLKN_ROOT` -/
def sfsBlknRoot : Nat := 1

/-- `SFS_BLKN_FREEMAP` -/
def sfsBlknFreemap : Nat := 2

/-- `SFS_MAX_FNAME_LEN` -/
def sfsMaxFnameLen : Nat := 255

/-! ## Structures on the device -/

/-- The number of a type on the device. -/
def SfsType.code : SfsType → Nat
  | .inval => 0
  | .file => 1
  | .dir => 2
  | .link => 3

/-- The type of a number on the device. -/
def SfsType.ofCode : Nat → SfsType
  | 1 => .file
  | 2 => .dir
  | 3 => .link
  | _ => .inval

/-- The `struct sfs_disk_inode` at the beginning of a block. -/
def DiskInode.ofBytes (f : Nat → UInt8) : DiskInode where
  size := word f 0
  type := .ofCode (half f 4)
  nlinks := half f 6
  blocks := word f 8
  direct k := if k < sfsNdirect then word f (12 + k * 4) else 0
  indirect := word f 60

/-- `struct sfs_disk_entry` -/
structure SfsEntry where
  ino : Nat
  name : List UInt8
  deriving DecidableEq

/-- The string at an offset, of at most `n` bytes. -/
def cString (f : Nat → UInt8) (o n : Nat) : List UInt8 := (slice f o n).takeWhile (· ≠ 0)

/-- The `struct sfs_disk_entry` at the beginning of a block. The last byte of the name is set to NUL when it is read. -/
def SfsEntry.ofBytes (f : Nat → UInt8) : SfsEntry := ⟨word f 0, cString f 4 sfsMaxFnameLen⟩

/-! ## Mounting -/

/-- A block device: `d_blocks`, `d_blocksize`, and the bytes of each block. -/
structure SfsDevice where
  blocks : Nat
  blocksize : Nat
  bytes : Nat → Nat → UInt8

/-- A word of the bitmap on the device. -/
def deviceWord (dev : SfsDevice) (w : Nat) : BitVec 32 :=
  BitVec.ofNat 32 (word (dev.bytes (sfsBlknFreemap + w / sfsBlkNentry)) (w % sfsBlkNentry * 4))

/-- `sfs_init_freemap`: the words of the bitmap are those of `nblks` blocks from `SFS_BLKN_FREEMAP` on. -/
def sfsInitFreemap (dev : SfsDevice) (freemap : Bitmap) (nblks : Nat) : Except SfsPanic Bitmap := do
  ensure (freemap.nwords * 4 = nblks * sfsBlksize) .initFreemap
  return { freemap with map := deviceWord dev }

/-- The loop of `sfs_do_mount` that counts the free blocks, with `n` bits to go. -/
def countUnused (freemap : Bitmap) : Nat → Nat → Nat → Except BitmapPanic Nat
  | 0, _, unused => .ok unused
  | n + 1, i, unused => do
    let free ← bitmapTest freemap i
    countUnused freemap n (i + 1) (if free then unused + 1 else unused)

/-- `sfs_do_mount`: the return value, and the volume. -/
def sfsDoMount (dev : SfsDevice) : Except SfsPanic (Int × Option Sfs) :=
  if dev.blocksize ≠ sfsBlksize then .ok (-eNaDev, none)
  else
    let super := dev.bytes sfsBlknSuper
    let blocks := word super 4
    let unusedBlocks := word super 8
    if word super 0 ≠ sfsMagic then .ok (-eInval, none)
    else if dev.blocks < blocks then .ok (-eInval, none)
    else do
      let nblks := (blocks + sfsBlkbits - 1) / sfsBlkbits
      let freemap ← (bitmapCreate (nblks * sfsBlkbits)).mapError SfsPanic.bitmap
      let freemap ← sfsInitFreemap dev freemap nblks
      let unused ← (countUnused freemap (nblks * sfsBlkbits) 0 0).mapError SfsPanic.bitmap
      ensure (unused = unusedBlocks) .mount
      return (0, some ⟨blocks, unusedBlocks, freemap, false, dev.bytes, fun i => ⟨.ofBytes (dev.bytes i), false⟩⟩)

/-! ## Directories -/

/-- `sfs_dirent_read_nolock`: the return value, and the entry. -/
def sfsDirentRead (sin slot : Nat) (s : Sfs) : Except SfsPanic (Int × SfsEntry × Sfs) := do
  ensure ((s.din sin).type = .dir ∧ slot < (s.din sin).blocks) .direntRead
  let (ret, ino, s) ← sfsBmapLoad sin slot s
  if ret ≠ 0 then return (ret, ⟨0, []⟩, s)
  else
    assertInuse ino s
    let bytes ← sfsRbuf 260 ino 0 s
    return (0, .ofBytes bytes, s)

/-- `strcmp` -/
def strcmp : List UInt8 → List UInt8 → Int
  | [], [] => 0
  | [], b :: _ => -(b.toNat : Int)
  | a :: _, [] => a.toNat
  | a :: s1, b :: s2 => if a = b then strcmp s1 s2 else (a.toNat : Int) - b.toNat

/-- What `sfs_dirent_search_nolock` stores. -/
structure SfsSearch where
  inoStore : Option Nat
  slot : Option Nat
  emptySlot : Option Nat
  deriving DecidableEq

/-- The loop of `sfs_dirent_search_nolock`, with `n` slots to go. -/
def searchSlots (sin : Nat) (name : List UInt8) : Nat → Nat → Nat → Sfs → Except SfsPanic (Int × SfsSearch × Sfs)
  | 0, _, empty, s => .ok (-eNoent, ⟨none, none, some empty⟩, s)
  | n + 1, i, empty, s => do
    let (ret, entry, s) ← sfsDirentRead sin i s
    if ret ≠ 0 then return (ret, ⟨none, none, some empty⟩, s)
    else if entry.ino = 0 then searchSlots sin name n (i + 1) i s
    else if strcmp name entry.name = 0 then return (0, ⟨some entry.ino, some i, some empty⟩, s)
    else searchSlots sin name n (i + 1) empty s

/-- `sfs_dirent_search_nolock`; `memory` says whether `kmalloc` has memory for the entry. -/
def sfsDirentSearch (sin : Nat) (name : List UInt8) (memory : Bool) (s : Sfs) : Except SfsPanic (Int × SfsSearch × Sfs) := do
  ensure (name.length ≤ sfsMaxFnameLen) .direntName
  if memory = false then return (-eNoMem, ⟨none, none, none⟩, s)
  else searchSlots sin name (s.din sin).blocks 0 (s.din sin).blocks s

end Ucore
