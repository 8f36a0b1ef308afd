import Ucore.Sync
import Ucore.Vfs

/-!
# Calls on descriptors

`file_open`, `file_close`, `file_read`, `file_write`, `file_seek`, `file_fstat`, `file_fsync`, `file_getdirentry` and `file_dup` of
`kern/fs/file.c`, for the `files_struct` of a process. What a device does with a transfer is an argument of the call: the value that
`dop_io` returns, and the bytes that it has moved.
-/

namespace Ucore

open Checked Bytes Function

namespace Vfs

/-- The inode of a slot. -/
def node (file : File) : Except VfsPanic Node :=
  match file.node with
  | some n => .ok n
  | none => .error .node

/-! ## Slots -/

/-- The call of `vfs_close` in `fd_array_free`. -/
def closeNode (file : File) (v : Vfs) : Except VfsPanic Vfs :=
  if file.status = .closed then do
    let n ← node file
    v.vfsClose n
  else .ok v

/-- `fd_array_free` -/
def fdArrayFree (t fd : Nat) (v : Vfs) : Except VfsPanic Vfs := do
  (v.files t fd).checkFree.mapError .slot
  let v ← v.closeNode (v.files t fd)
  return v.setFile t fd { v.files t fd with status := .none }

/-- The end of `fd_array_release` and of `fd_array_close`: the slot has got a new count. -/
def settle (t fd : Nat) (file : File) (v : Vfs) : Except VfsPanic Vfs :=
  if file.openCount = 0 then (v.setFile t fd file).fdArrayFree t fd else .ok (v.setFile t fd file)

/-- `fd_array_release` -/
def fdArrayRelease (t fd : Nat) (v : Vfs) : Except VfsPanic Vfs := do
  let file ← (v.files t fd).release.mapError .slot
  v.settle t fd file

/-! ## Opening and closing -/

/-- `st_size` of `vop_fstat`. -/
def statSize (n : Node) (v : Vfs) : Nat :=
  match n with
  | .sfs i => (v.sfs.din i).size
  | .dev k => (v.vdevList[k]?.map fun d => d.blocks * d.blocksize).getD 0

/-- The position of a file that has been opened: its end for `O_APPEND`. -/
def firstPos (n : Node) (flags : Nat) (v : Vfs) : Except VfsPanic Int :=
  if flags.testBit 5 then do
    v.vop n .fstat
    return int32 (v.statSize n)
  else .ok 0

/-- The end of `file_open`: the inode is stored in the slot. -/
def store (t fd : Nat) (n : Node) (flags : Nat) (v : Vfs) : Except VfsPanic (Int × Vfs) := do
  let pos ← v.firstPos n flags
  let file : File := { v.files t fd with pos := pos, node := some n, readable := flags % 4 ≠ 1, writable := flags % 4 ≠ 0 }
  let file ← file.opens.mapError .slot
  return (fd, v.setFile t fd file)

/-- `file_open` -/
def fileOpen (t : Nat) (path : List UInt8) (flags : Nat) (mem : KernelMemory) (v : Vfs) : Except VfsPanic (Int × Vfs) :=
  if flags % 4 = 3 then .ok (-eInval, v)
  else do
    let (ret, fd, fdArray) ← (fdArrayAlloc noFd (v.files t)).mapError .slot
    if ret ≠ 0 then return (ret, v)
    else
      match ← { v with files := update v.files t fdArray }.vfsOpen t path flags mem with
      | (.error ret, v) =>
        let v ← v.fdArrayFree t fd
        return (ret, v)
      | (.ok n, v) => v.store t fd n flags

/-- `file_close` -/
def fileClose (t : Nat) (fd : Int) (v : Vfs) : Except VfsPanic (Int × Vfs) :=
  match fd2file fd (v.files t) with
  | none => .ok (-eInval, v)
  | some i => do
    let file ← (v.files t i).close.mapError .slot
    let v ← v.settle t i file
    return (0, v)

/-- `file_dup` -/
def fileDup (t : Nat) (fd1 fd2 : Int) (v : Vfs) : Except VfsPanic (Int × Vfs) :=
  match fd2file fd1 (v.files t) with
  | none => .ok (-eInval, v)
  | some i => do
    let (ret, j, fdArray) ← (fdArrayAlloc fd2 (v.files t)).mapError .slot
    if ret ≠ 0 then return (ret, v)
    else
      let file ← ((fdArray j).dup (fdArray i)).mapError .slot
      let n ← node (fdArray i)
      let v := { v with files := update v.files t fdArray }
      return (j, ((v.refInc n).openInc n).setFile t j file)

/-! ## Operations on an open file -/

/-- A call that takes the slot of an open file, does something with its inode, and gives the slot back. -/
def operate (t : Nat) (fd : Int) (may : File → Bool) (op : Nat → Node → Vfs → Except VfsPanic (Int × Vfs)) (v : Vfs) :
    Except VfsPanic (Int × Vfs) :=
  match fd2file fd (v.files t) with
  | none => .ok (-eInval, v)
  | some i =>
    if may (v.files t i) then do
      let file ← (v.files t i).acquire.mapError .slot
      let n ← node file
      let (ret, v) ← op i n (v.setFile t i file)
      let v ← v.fdArrayRelease t i
      return (ret, v)
    else .ok (-eInval, v)

/-- The position of a slot. -/
def setPos (t i : Nat) (pos : Int) (v : Vfs) : Vfs := v.setFile t i { v.files t i with pos := pos }

/-- `vop_read` or `vop_write`: the return value, and the bytes moved; `answer` is what a device does. -/
def vopIo (write : Bool) (n : Node) (buf : Nat → UInt8) (offset : Int) (len : Nat) (answer : Int × Nat) (v : Vfs) :
    Except VfsPanic (Int × Nat × Vfs) := do
  v.vop n (if write then .write else .read)
  match n with
  | .sfs i =>
    let (ret, copied, _, s) ← (sfsIo i buf offset len write v.sfs).mapError .sfs
    return (ret, copied, { v with sfs := s })
  | .dev _ => return (answer.1, answer.2, v)

/-- The part of `file_read` and `file_write` between `fd_array_acquire` and `fd_array_release`. -/
def transfer (write : Bool) (t : Nat) (buf : Nat → UInt8) (len : Nat) (answer : Int × Nat) (i : Nat) (n : Node) (v : Vfs) :
    Except VfsPanic (Int × Vfs) := do
  let (ret, copied, v) ← v.vopIo write n buf (v.files t i).pos len answer
  if (v.files t i).status = .opened then return (ret, v.setPos t i (int32 ((v.files t i).pos + copied)))
  else return (ret, v)

/-- `file_read`, less the bytes that it brings. -/
def fileRead (t : Nat) (fd : Int) (buf : Nat → UInt8) (len : Nat) (answer : Int × Nat) (v : Vfs) : Except VfsPanic (Int × Vfs) :=
  v.operate t fd (·.readable) (transfer false t buf len answer)

/-- `file_write` -/
def fileWrite (t : Nat) (fd : Int) (buf : Nat → UInt8) (len : Nat) (answer : Int × Nat) (v : Vfs) : Except VfsPanic (Int × Vfs) :=
  v.operate t fd (·.writable) (transfer true t buf len answer)

/-- The position that `file_seek` computes from its arguments; `none` where `whence` is unknown. Positions are 32-bit and signed. -/
def target (pos whence : Int) (file : File) (size : Nat) : Option Int :=
  if whence = 0 then some pos
  else if whence = 1 then some (int32 (pos + file.pos))
  else if whence = 2 then some (int32 (pos + size))
  else none

/-- `dev_tryseek`: positions are those of whole blocks of a block device. The numbers are unsigned where `d_blocks` takes part. -/
def devTryseek (dev : VfsDev) (pos : Int) : Int :=
  if 0 < dev.blocks ∧ pos % dev.blocksize = 0 ∧ 0 ≤ pos ∧ pos < (dev.blocks * dev.blocksize % 2 ^ 32 : Nat) then 0 else -eInval

/-- `vop_tryseek` -/
def vopTryseek (n : Node) (pos : Int) (v : Vfs) : Except VfsPanic (Int × Vfs) := do
  v.vop n .tryseek
  match n with
  | .sfs i =>
    let (ret, s) ← (sfsTryseek i pos v.sfs).mapError .sfs
    return (ret, { v with sfs := s })
  | .dev k =>
    match v.vdevList[k]? with
    | some d => return (devTryseek d pos, v)
    | none => .error .node

/-- The call of `vop_fstat` in `file_seek`, which only `LSEEK_END` needs. -/
def seekStat (whence : Int) (n : Node) (v : Vfs) : Except VfsPanic Unit := if whence = 2 then v.vop n .fstat else .ok ()

/-- The part of `file_seek` between `fd_array_acquire` and `fd_array_release`. -/
def seek (t : Nat) (pos whence : Int) (i : Nat) (n : Node) (v : Vfs) : Except VfsPanic (Int × Vfs) := do
  v.seekStat whence n
  match target pos whence (v.files t i) (v.statSize n) with
  | none => return (-eInval, v)
  | some pos =>
    let (ret, v) ← v.vopTryseek n pos
    if ret = 0 then return (0, v.setPos t i pos) else return (ret, v)

/-- `file_seek` -/
def fileSeek (t : Nat) (fd pos whence : Int) (v : Vfs) : Except VfsPanic (Int × Vfs) :=
  v.operate t fd (fun _ => true) (seek t pos whence)

/-- `file_fstat`, less the fields of `struct stat` that it fills. -/
def fileFstat (t : Nat) (fd : Int) (v : Vfs) : Except VfsPanic (Int × Vfs) :=
  v.operate t fd (fun _ => true) fun _ n v => do
    v.vop n .fstat
    return (0, v)

/-- `file_fsync` -/
def fileFsync (t : Nat) (fd : Int) (v : Vfs) : Except VfsPanic (Int × Vfs) :=
  v.operate t fd (fun _ => true) fun _ n v => do
    let v ← v.vopFsync n
    return (0, v)

/-- `vop_getdirentry`; only directories have it. -/
def vopGetdirentry (n : Node) (offset : Int) (mem : KernelMemory) (v : Vfs) : Except VfsPanic (Int × Vfs) := do
  v.vop n .getdirentry
  match n with
  | .sfs i =>
    let (ret, _, s) ← (sfsGetdirentry i offset mem.entry v.sfs).mapError .sfs
    return (ret, { v with sfs := s })
  | .dev _ => .error (.handler .getdirentry)

/-- `file_getdirentry`, less the name and the offset that it stores. -/
def fileGetdirentry (t : Nat) (fd offset : Int) (mem : KernelMemory) (v : Vfs) : Except VfsPanic (Int × Vfs) :=
  v.operate t fd (fun _ => true) fun _ n v => v.vopGetdirentry n offset mem

end Vfs

/-- The calls of a process. -/
inductive FileCall where
  | open (path : List UInt8) (flags : Nat) (mem : KernelMemory)
  | close (fd : Int)
  | read (fd : Int) (buf : Nat → UInt8) (len : Nat) (answer : Int × Nat)
  | write (fd : Int) (buf : Nat → UInt8) (len : Nat) (answer : Int × Nat)
  | seek (fd pos whence : Int)
  | fstat (fd : Int)
  | fsync (fd : Int)
  | getdirentry (fd offset : Int) (mem : KernelMemory)
  | dup (fd1 fd2 : Int)
  | chdir (path : List UInt8) (mem : KernelMemory)

/-- One call of a process with the `files_struct` `t`: the return value, and the state after it. -/
def Vfs.call (t : Nat) (v : Vfs) : FileCall → Except VfsPanic (Int × Vfs)
  | .open path flags mem => v.fileOpen t path flags mem
  | .close fd => v.fileClose t fd
  | .read fd buf len answer => v.fileRead t fd buf len answer
  | .write fd buf len answer => v.fileWrite t fd buf len answer
  | .seek fd pos whence => v.fileSeek t fd pos whence
  | .fstat fd => v.fileFstat t fd
  | .fsync fd => v.fileFsync t fd
  | .getdirentry fd offset mem => v.fileGetdirentry t fd offset mem
  | .dup fd1 fd2 => v.fileDup t fd1 fd2
  | .chdir path mem => v.vfsChdir t path mem

end Ucore
