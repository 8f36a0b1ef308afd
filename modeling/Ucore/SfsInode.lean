import Ucore.SfsDir

/-!
# Inodes in memory

`sfs_fsync` and `sfs_getdirentry` of `kern/fs/sfs/sfs_inode.c`, and what the kernel does to a volume when it frees the memory of an
inode. `Sfs.inodes` has for an inode that is not in memory what `sfs_load_inode` reads: its block.
-/

namespace Ucore

open Checked Bytes Function

/-- `sizeof(struct sfs_disk_inode)` -/
def sizeofDiskInode : Nat := 64

/-- `sfs_dentry_size`: the bytes of a name and its NUL. -/
def sfsDentrySize : Nat := 256

/-- The bytes of a `struct sfs_disk_inode`. -/
def DiskInode.bytes (din : DiskInode) (o : Nat) : UInt8 :=
  if o < 4 then byteOf din.size o
  else if o < 6 then byteOf din.type.code (o - 4)
  else if o < 8 then byteOf din.nlinks (o - 6)
  else if o < 12 then byteOf din.blocks (o - 8)
  else if o < 60 then byteOf (din.direct ((o - 12) / 4)) (o % 4)
  else byteOf din.indirect (o - 60)

namespace Sfs

/-- `sin->dirty = 0` -/
def setClean (s : Sfs) (sin : Nat) : Sfs :=
  { s with inodes := update s.inodes sin { s.inodes sin with dirty := false } }

/-- The memory of an inode is freed; when it is loaded again, it is read from its block. -/
def forget (s : Sfs) (sin : Nat) : Sfs :=
  { s with inodes := update s.inodes sin ⟨.ofBytes (s.disk sin), false⟩ }

end Sfs

/-- `sfs_fsync`. It returns 0 on a device that does not fail. -/
def sfsFsync (sin : Nat) (s : Sfs) : Except SfsPanic Sfs :=
  if (s.inodes sin).dirty then sfsWbuf (s.din sin).bytes sizeofDiskInode sin 0 (s.setClean sin) else .ok s

/-- `sfs_getdirentry_sub_nolock`, with `n` slots to go from `i` on and `slot` entries to skip. -/
def sfsGetdirentrySub (sin : Nat) : Nat → Nat → Nat → Sfs → Except SfsPanic (Int × SfsEntry × Sfs)
  | 0, _, _, s => .ok (-eNoent, ⟨0, []⟩, s)
  | n + 1, i, slot, s => do
    let (ret, entry, s) ← sfsDirentRead sin i s
    if ret ≠ 0 then return (ret, entry, s)
    else if entry.ino = 0 then sfsGetdirentrySub sin n (i + 1) slot s
    else if slot = 0 then return (0, entry, s)
    else sfsGetdirentrySub sin n (i + 1) (slot - 1) s

/-- `sfs_getdirentry`: the return value, the name, and the volume; `memory` says whether `kmalloc` has memory for the entry. -/
def sfsGetdirentry (sin : Nat) (offset : Int) (memory : Bool) (s : Sfs) : Except SfsPanic (Int × List UInt8 × Sfs) :=
  if memory = false then .ok (-eNoMem, [], s)
  else if offset < 0 ∨ offset % sfsDentrySize ≠ 0 then .ok (-eInval, [], s)
  else
    let slot := offset.toNat / sfsDentrySize
    if (s.din sin).blocks < slot then .ok (-eNoent, [], s)
    else do
      let (ret, entry, s) ← sfsGetdirentrySub sin (s.din sin).blocks 0 slot s
      return (ret, entry.name, s)

end Ucore
