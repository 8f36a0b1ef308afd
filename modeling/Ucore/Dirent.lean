import Ucore.Disk0
import Ucore.FileCall

/-!
# Listing a directory

`file_getdirentry` of `kern/fs/file.c` with the `struct dirent` that it reads and fills through an `iobuf`, and the calls of a process
that lists a directory: each passes on the offset that the one before it has stored.
-/

namespace Ucore

open Checked

/-- `struct dirent`: the offset, and the name up to its NUL. -/
structure Dirent where
  offset : Int
  name : List UInt8

/-- `sizeof(direntp->name)` -/
def sizeofDirentName : Nat := 256

/-- `iobuf_used` -/
def iobufUsed (iob : Iobuf) : Nat := iob.len - iob.resid

/-- `iobuf_move` of `len` bytes into the buffer of the caller: the return value. The assertion of `iobuf_skip` is that the bytes
copied are not more than the buffer has left. -/
def iobufMoveOut (iob : Iobuf) (len : Nat) : Int × Iobuf :=
  let alen := min iob.resid len
  (if len - alen = 0 then 0 else -eNoMem,
    { iob with base := iob.base + alen, offset := iob.offset + alen, resid := iob.resid - alen })

namespace Vfs

/-- `vop_getdirentry`, with the `iobuf` and the name that is moved through it. -/
def vopDirent (n : Node) (iob : Iobuf) (mem : KernelMemory) (v : Vfs) : Except VfsPanic (Int × List UInt8 × Iobuf × Vfs) := do
  v.vop n .getdirentry
  match n with
  | .sfs i =>
    let (ret, name, s) ← (sfsGetdirentry i iob.offset mem.entry v.sfs).mapError .sfs
    if ret ≠ 0 then return (ret, [], iob, { v with sfs := s })
    else
      let (ret, iob) := iobufMoveOut iob sfsDentrySize
      return (ret, name, iob, { v with sfs := s })
  | .dev _ => .error (.handler .getdirentry)

/-- `file_getdirentry` -/
def fileDirent (t : Nat) (fd : Int) (mem : KernelMemory) (direntp : Dirent) (v : Vfs) : Except VfsPanic (Int × Dirent × Vfs) :=
  match fd2file fd (v.files t) with
  | none => .ok (-eInval, direntp, v)
  | some i => do
    let file ← (v.files t i).acquire.mapError .slot
    let n ← node file
    let (ret, name, iob, v) ← (v.setFile t i file).vopDirent n (iobufInit 0 sizeofDirentName direntp.offset) mem
    let v ← v.fdArrayRelease t i
    return (ret, if ret = 0 then ⟨int32 (direntp.offset + iobufUsed iob), name⟩ else direntp, v)

/-- At most `rounds` calls, the first with `direntp`: the names, and the value with which the last call has ended the listing. -/
def listing (t : Nat) (fd : Int) (mem : KernelMemory) : Nat → Dirent → Vfs → Except VfsPanic (List (List UInt8) × Int × Vfs)
  | 0, _, v => .ok ([], 0, v)
  | rounds + 1, direntp, v => do
    let (ret, direntp, v) ← v.fileDirent t fd mem direntp
    if ret ≠ 0 then return ([], ret, v)
    else
      let (names, ret, v) ← listing t fd mem rounds direntp v
      return (direntp.name :: names, ret, v)

end Vfs

end Ucore
