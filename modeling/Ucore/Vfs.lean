import Ucore.File
import Ucore.SfsInode

/-!
# The virtual file system

Inodes with their counts and operation tables, and how a path leads to one: `vfs_lookup`, `vfs_open`, `vfs_close` and `vfs_chdir` of
`kern/fs/vfs`, with the operations of `sfs_inode.c` and `dev.c` that they call. There is one volume, mounted on a device of the list.
A call runs to its end before the next one; the locks and `reclaim_count`, which matter only where calls interleave, are left out.

An inode of the volume without references is not in memory (see `SfsInode`). A path is the list of its bytes before the NUL.
Whether `kmalloc` has memory is an argument of the functions that ask for it. A failed assertion and a panic stop a call with the
`VfsPanic` that names it.
-/

namespace Ucore

open Checked Bytes Function

/-! ## Operation tables -/

/-- The operations of `struct inode_ops`. -/
inductive Vop where
  | open | close | read | write | fstat | fsync | namefile | getdirentry | reclaim | gettype | tryseek | truncate | create | lookup
  | ioctl
  deriving DecidableEq, Repr

/-- `sfs_node_dirops`, `sfs_node_fileops` and `dev_node_ops`. -/
inductive NodeOps where
  | dir | file | dev
  deriving DecidableEq, Repr

/-- The operations that a table defines. -/
def NodeOps.vops : NodeOps → List Vop
  | .dir => [.open, .close, .fstat, .fsync, .namefile, .getdirentry, .reclaim, .gettype, .lookup]
  | .file => [.open, .close, .read, .write, .fstat, .fsync, .reclaim, .gettype, .tryseek, .truncate]
  | .dev => [.open, .close, .read, .write, .fstat, .ioctl, .gettype, .tryseek, .lookup]

/-- The assertions and panics of the modelled functions. -/
inductive VfsPanic where
  | slot (a : FileAssert)
  | sfs (p : SfsPanic)
  /-- `__vop_op`: the table does not define the operation. -/
  | handler (op : Vop)
  /-- `inode_check`: the counts are out of range. -/
  | inodeCheck
  /-- An operation was called for the inode `NULL`. -/
  | node
  /-- `inode_open_dec` or `inode_ref_dec` got an inode with the count 0. -/
  | openDec
  | refDec
  /-- `inode_kill` got an inode that is still open. -/
  | kill
  /-- `sfs_load_inode` read an inode without links. -/
  | loadLinks
  /-- `sfs_get_ops` got a type that is neither a file nor a directory. -/
  | getOps
  /-- `sfs_get_root` could not load the root. -/
  | getRoot
  /-- `sfs_lookup` got an empty path, or one that begins with a slash. -/
  | lookupPath
  /-- `get_device`: the current directory has no file system. -/
  | curdirFs
  deriving DecidableEq

/-- The fields `in_ops`, `ref_count` and `open_count` of a `struct inode`. -/
structure Vnode where
  ops : NodeOps
  refCount : Nat
  openCount : Nat
  deriving DecidableEq, Repr

/-- `vfs_dev_t` with what its device answers: `fs` says whether the volume is mounted on it, `dopOpen` is the value of `d_open` for
the flags. -/
structure VfsDev where
  devname : List UInt8
  fs : Bool
  mountable : Bool
  blocks : Nat
  blocksize : Nat
  dopOpen : Nat → Int

/-- The volume, the inodes, the devices, `bootfs_node`, and for each `files_struct` its directory and its slots. -/
structure Vfs where
  sfs : Sfs
  vnodes : Node → Vnode
  vdevList : List VfsDev
  bootfs : Option Node
  pwd : Nat → Option Node
  files : Nat → Nat → File

/-- Where `kmalloc` has memory: for the root and its inode, for an entry of a directory, for an inode that a path leads to. -/
structure KernelMemory where
  root : Bool
  entry : Bool
  node : Bool

/-- `MAX_INODE_COUNT` -/
def maxInodeCount : Nat := 0x10000

namespace Vfs

/-- `inode_check` -/
def inodeCheck (n : Vnode) : Prop := n.openCount ≤ n.refCount ∧ n.refCount < maxInodeCount ∧ n.openCount < maxInodeCount

instance (n : Vnode) : Decidable (inodeCheck n) := inferInstanceAs (Decidable (_ ∧ _ ∧ _))

/-- `__vop_op` -/
def vop (n : Node) (op : Vop) (v : Vfs) : Except VfsPanic Unit := do
  ensure (op ∈ (v.vnodes n).ops.vops) (.handler op)
  ensure (inodeCheck (v.vnodes n)) .inodeCheck

def setVnode (n : Node) (c : Vnode) (v : Vfs) : Vfs := { v with vnodes := update v.vnodes n c }

def setFile (t fd : Nat) (file : File) (v : Vfs) : Vfs :=
  { v with files := update v.files t (update (v.files t) fd file) }

/-! ## Counts -/

/-- `inode_ref_inc` -/
def refInc (n : Node) (v : Vfs) : Vfs := v.setVnode n { v.vnodes n with refCount := (v.vnodes n).refCount + 1 }

/-- `inode_open_inc` -/
def openInc (n : Node) (v : Vfs) : Vfs := v.setVnode n { v.vnodes n with openCount := (v.vnodes n).openCount + 1 }

/-- `vop_fsync`; only inodes of the volume have it. -/
def vopFsync (n : Node) (v : Vfs) : Except VfsPanic Vfs := do
  v.vop n .fsync
  match n with
  | .sfs i =>
    let s ← (sfsFsync i v.sfs).mapError .sfs
    return { v with sfs := s }
  | .dev _ => .error (.handler .fsync)

/-- `vop_truncate`; only regular files have it. -/
def vopTruncate (n : Node) (len : Int) (v : Vfs) : Except VfsPanic (Int × Vfs) := do
  v.vop n .truncate
  match n with
  | .sfs i =>
    let (ret, s) ← (sfsTruncfile i len v.sfs).mapError .sfs
    return (ret, { v with sfs := s })
  | .dev _ => .error (.handler .truncate)

/-- What `sfs_reclaim` frees of a file without links. -/
def freeInode (i : Nat) (s : Sfs) : Except SfsPanic Sfs :=
  if (s.din i).nlinks = 0 then do
    let s ← sfsBlockFree i s
    if (s.din i).indirect ≠ 0 then sfsBlockFree (s.din i).indirect s else return s
  else .ok s

/-- The call of `vop_fsync` in `sfs_reclaim`. -/
def reclaimSync (i : Nat) (v : Vfs) : Except VfsPanic Vfs :=
  if (v.sfs.inodes i).dirty then v.vopFsync (.sfs i) else .ok v

/-- The end of `sfs_reclaim`, once a file without links is empty. -/
def reclaimRest (i : Nat) (v : Vfs) : Except VfsPanic Vfs := do
  let v ← v.reclaimSync i
  let s ← (freeInode i v.sfs).mapError .sfs
  ensure ((v.vnodes (.sfs i)).openCount = 0) .kill
  return { v with sfs := s.forget i }

/-- `sfs_reclaim`, for an inode without references. -/
def sfsReclaim (i : Nat) (v : Vfs) : Except VfsPanic Vfs :=
  if (v.sfs.din i).nlinks = 0 then do
    let (ret, v) ← v.vopTruncate (.sfs i) 0
    if ret ≠ 0 then return v else v.reclaimRest i
  else v.reclaimRest i

/-- `vop_reclaim`; only inodes of the volume have it. -/
def vopReclaim (n : Node) (v : Vfs) : Except VfsPanic Vfs := do
  v.vop n .reclaim
  match n with
  | .sfs i => v.sfsReclaim i
  | .dev _ => .error (.handler .reclaim)

/-- `inode_ref_dec` -/
def refDec (n : Node) (v : Vfs) : Except VfsPanic Vfs := do
  ensure (0 < (v.vnodes n).refCount) .refDec
  let v := v.setVnode n { v.vnodes n with refCount := (v.vnodes n).refCount - 1 }
  if (v.vnodes n).refCount = 0 then v.vopReclaim n else return v

/-- `vop_close`: `sfs_close` is `vop_fsync`, `dev_close` does nothing. -/
def vopClose (n : Node) (v : Vfs) : Except VfsPanic Vfs := do
  v.vop n .close
  match n with
  | .sfs _ => v.vopFsync n
  | .dev _ => return v

/-- `inode_open_dec` -/
def openDec (n : Node) (v : Vfs) : Except VfsPanic Vfs := do
  ensure (0 < (v.vnodes n).openCount) .openDec
  let v := v.setVnode n { v.vnodes n with openCount := (v.vnodes n).openCount - 1 }
  if (v.vnodes n).openCount = 0 then v.vopClose n else return v

/-- `vfs_close` -/
def vfsClose (n : Node) (v : Vfs) : Except VfsPanic Vfs := do
  let v ← v.openDec n
  v.refDec n

/-! ## Inodes of a path

A function that finds an inode returns it with a reference of its own, or the error code. -/

/-- `sfs_get_ops` -/
def sfsGetOps : SfsType → Except VfsPanic NodeOps
  | .dir => .ok .dir
  | .file => .ok .file
  | _ => .error .getOps

/-- The part of `sfs_load_inode` that reads an inode which is not in memory, with `sfs_create_inode`. -/
def createInode (i : Nat) (v : Vfs) : Except VfsPanic Vfs := do
  (assertInuse i v.sfs).mapError .sfs
  ensure ((v.sfs.din i).nlinks ≠ 0) .loadLinks
  let ops ← sfsGetOps (v.sfs.din i).type
  return v.setVnode (.sfs i) ⟨ops, 1, 0⟩

/-- `sfs_load_inode` -/
def sfsLoadInode (i : Nat) (memory : Bool) (v : Vfs) : Except VfsPanic (Except Int Node × Vfs) :=
  if (v.vnodes (.sfs i)).refCount ≠ 0 then .ok (.ok (.sfs i), v.refInc (.sfs i))
  else if memory = false then .ok (.error (-eNoMem), v)
  else do
    let v ← v.createInode i
    return (.ok (.sfs i), v)

/-- `sfs_get_root` -/
def sfsGetRoot (mem : KernelMemory) (v : Vfs) : Except VfsPanic (Node × Vfs) := do
  match ← v.sfsLoadInode sfsBlknRoot mem.root with
  | (.ok n, v) => return (n, v)
  | (.error _, _) => .error .getRoot

/-- `vfs_get_root` -/
def vfsGetRoot (devname : List UInt8) (mem : KernelMemory) (v : Vfs) : Except VfsPanic (Except Int Node × Vfs) :=
  match v.vdevList.findIdx? fun d => strcmp devname d.devname = 0 with
  | none => .ok (.error (-eNoDev), v)
  | some k =>
    match v.vdevList[k]? with
    | none => .ok (.error (-eNoDev), v)
    | some d =>
      if d.fs then do
        let (n, v) ← v.sfsGetRoot mem
        return (.ok n, v)
      else if d.mountable = false then .ok (.ok (.dev k), v.refInc (.dev k))
      else .ok (.error (-eNaDev), v)

/-- `vfs_get_curdir` for the `files_struct` `t`, and `vfs_get_bootfs`. -/
def getNode (n : Option Node) (v : Vfs) : Except Int Node × Vfs :=
  match n with
  | some n => (.ok n, v.refInc n)
  | none => (.error (-eNoent), v)

/-- The codes of `:` and `/`. -/
def colon : UInt8 := 58

@[inherit_doc colon]
def slash : UInt8 := 47

/-- The loop that skips slashes. -/
def skipSlashes (path : List UInt8) : List UInt8 := path.dropWhile (· = slash)

/-- A character at which the scan of `get_device` does not stop. -/
def plain (c : UInt8) : Bool := c ≠ colon ∧ c ≠ slash

/-- `get_device`: the inode to begin with and the rest of the path, and what the buffer of the path holds afterwards. -/
def getDevice (t : Nat) (path : List UInt8) (mem : KernelMemory) (v : Vfs) :
    Except VfsPanic (Except Int (Node × List UInt8) × List UInt8 × Vfs) :=
  let relative : Except VfsPanic (Except Int (Node × List UInt8) × List UInt8 × Vfs) :=
    let (n, v) := v.getNode (v.pwd t)
    .ok (n.map (·, path), path, v)
  let device := path.takeWhile plain
  match path.dropWhile plain with
  | [] => relative
  | c :: rest =>
    if c = colon ∧ device ≠ [] then do
      -- the colon is replaced by a NUL
      let (n, v) ← v.vfsGetRoot device mem
      return (n.map (·, skipSlashes rest), device, v)
    else if device ≠ [] then relative
    else if c = slash then
      let (n, v) := v.getNode v.bootfs
      .ok (n.map (·, skipSlashes rest), path, v)
    else
      match v.getNode (v.pwd t) with
      | (.error ret, v) => .ok (.error ret, path, v)
      | (.ok (.dev _), _) => .error .curdirFs
      | (.ok (.sfs i), v) => do
        let (root, v) ← v.sfsGetRoot mem
        let v ← v.refDec (.sfs i)
        return (.ok (root, skipSlashes rest), path, v)

/-- `sfs_lookup_once` -/
def sfsLookupOnce (i : Nat) (name : List UInt8) (mem : KernelMemory) (v : Vfs) : Except VfsPanic (Except Int Node × Vfs) := do
  let (ret, found, s) ← (sfsDirentSearch i name mem.entry v.sfs).mapError .sfs
  let v := { v with sfs := s }
  if ret ≠ 0 then return (.error ret, v)
  else v.sfsLoadInode (found.inoStore.getD 0) mem.node

/-- `sfs_lookup`: the whole path is one name. -/
def sfsLookup (i : Nat) (path : List UInt8) (mem : KernelMemory) (v : Vfs) : Except VfsPanic (Except Int Node × Vfs) := do
  ensure (path ≠ [] ∧ path.head? ≠ some slash) .lookupPath
  let v := v.refInc (.sfs i)
  if (v.sfs.din i).type ≠ .dir then
    let v ← v.refDec (.sfs i)
    return (.error (-eNotdir), v)
  else
    let (n, v) ← v.sfsLookupOnce i path mem
    let v ← v.refDec (.sfs i)
    return (n, v)

/-- `vop_lookup`; `dev_lookup` knows only the empty path. -/
def vopLookup (n : Node) (path : List UInt8) (mem : KernelMemory) (v : Vfs) : Except VfsPanic (Except Int Node × Vfs) := do
  v.vop n .lookup
  match n with
  | .sfs i => v.sfsLookup i path mem
  | .dev k => if path ≠ [] then return (.error (-eNoent), v) else return (.ok (.dev k), v.refInc (.dev k))

/-- `vfs_lookup`: the inode, and what the buffer of the path holds afterwards. -/
def vfsLookup (t : Nat) (path : List UInt8) (mem : KernelMemory) (v : Vfs) :
    Except VfsPanic (Except Int Node × List UInt8 × Vfs) := do
  match ← v.getDevice t path mem with
  | (.error ret, path, v) => return (.error ret, path, v)
  | (.ok (n, []), path, v) => return (.ok n, path, v)
  | (.ok (n, subpath), path, v) =>
    let (found, v) ← v.vopLookup n subpath mem
    let v ← v.refDec n
    return (found, path, v)

/-! ## Opening -/

/-- `sfs_opendir` -/
def sfsOpendir (flags : Nat) : Int := if flags % 4 ≠ 0 then -eIsdir else if flags.testBit 5 then -eIsdir else 0

/-- `dev_open` -/
def devOpen (dev : VfsDev) (flags : Nat) : Int :=
  if flags.testBit 2 ∨ flags.testBit 3 ∨ flags.testBit 4 ∨ flags.testBit 5 then -eInval else dev.dopOpen flags

/-- `vop_open` -/
def vopOpen (n : Node) (flags : Nat) (v : Vfs) : Except VfsPanic Int := do
  v.vop n .open
  match n with
  | .sfs _ => if (v.vnodes n).ops = .dir then return sfsOpendir flags else return 0
  | .dev k =>
    match v.vdevList[k]? with
    | some d => return devOpen d flags
    | none => .error .node

/-- The end of `vfs_open`, once the inode has been found or created. -/
def openNode (n : Node) (flags : Nat) (v : Vfs) : Except VfsPanic (Except Int Node × Vfs) := do
  let ret ← v.vopOpen n flags
  if ret ≠ 0 then
    let v ← v.refDec n
    return (.error ret, v)
  else
    let v := v.openInc n
    if flags.testBit 4 ∨ flags.testBit 2 then
      let (ret, v) ← v.vopTruncate n 0
      if ret ≠ 0 then
        let v ← v.vfsClose n
        return (.error ret, v)
      else return (.ok n, v)
    else return (.ok n, v)

/-- The branch of `vfs_open` that creates a file. No table has `vop_create`. -/
def createNode (t : Nat) (path : List UInt8) (mem : KernelMemory) (v : Vfs) : Except VfsPanic (Except Int Node × Vfs) := do
  match ← v.getDevice t path mem with
  | (.error ret, _, v) => return (.error ret, v)
  | (.ok (dir, _), _, v) =>
    v.vop dir .create
    .error (.handler .create)

/-- `vfs_open` -/
def vfsOpen (t : Nat) (path : List UInt8) (flags : Nat) (mem : KernelMemory) (v : Vfs) : Except VfsPanic (Except Int Node × Vfs) :=
  if flags % 4 = 3 then .ok (.error (-eInval), v)
  else if flags.testBit 4 ∧ flags % 4 = 0 then .ok (.error (-eInval), v)
  else do
    match ← v.vfsLookup t path mem with
    | (.error ret, path, v) =>
      if ret = -16 ∧ flags.testBit 2 then v.createNode t path mem else return (.error ret, v)
    | (.ok n, _, v) =>
      if flags.testBit 3 ∧ flags.testBit 2 then return (.error (-eExists), v)
      else v.openNode n flags

/-! ## The current directory -/

/-- `S_ISDIR` of what `vop_gettype` stores. -/
def isDir (n : Node) (v : Vfs) : Bool :=
  match n with
  | .sfs i => (v.sfs.din i).type = .dir
  | .dev _ => false

/-- `vfs_set_curdir` -/
def vfsSetCurdir (t : Nat) (dir : Node) (v : Vfs) : Except VfsPanic (Int × Vfs) :=
  if v.pwd t = some dir then .ok (0, v)
  else do
    v.vop dir .gettype
    if v.isDir dir = false then return (-eNotdir, v)
    else
      let v := v.refInc dir
      match v.pwd t with
      | none => return (0, { v with pwd := update v.pwd t (some dir) })
      | some old =>
        let v ← { v with pwd := update v.pwd t (some dir) }.refDec old
        return (0, v)

/-- `vfs_chdir` -/
def vfsChdir (t : Nat) (path : List UInt8) (mem : KernelMemory) (v : Vfs) : Except VfsPanic (Int × Vfs) := do
  match ← v.vfsLookup t path mem with
  | (.error ret, _, v) => return (ret, v)
  | (.ok n, _, v) =>
    let (ret, v) ← v.vfsSetCurdir t n
    let v ← v.refDec n
    return (ret, v)

end Vfs

end Ucore
