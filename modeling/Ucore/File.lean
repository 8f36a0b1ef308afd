import Ucore.Errors
import Ucore.Lib.Checked

/-!
# Slots of open files

`struct file` and the functions `fd_array_*` and `fd2file` of `kern/fs/file.c`, on one table of open files or one slot of it. What they
call of the inode (`vfs_close`, `vop_ref_inc`, `vop_open_inc`) is left to their callers.
-/

namespace Ucore

open Checked

/-- `FILES_STRUCT_NENTRY`: a page less the 24 bytes of `struct files_struct`, in slots of 28 bytes. -/
def filesStructNentry : Nat := 145

/-- `NO_FD` -/
def noFd : Int := -0x9527

/-- An inode in memory: one of the volume, by its number, or that of a device, by its place in the list of devices. -/
inductive Node where
  | sfs (ino : Nat)
  | dev (k : Nat)
  deriving DecidableEq, Repr

/-- The states of a slot: `FD_NONE`, `FD_INIT`, `FD_OPENED`, `FD_CLOSED`. -/
inductive FdStatus where
  | none | init | opened | closed
  deriving DecidableEq, Repr

/-- `struct file`; the node `none` is `NULL`. -/
structure File where
  status : FdStatus
  readable : Bool
  writable : Bool
  fd : Nat
  pos : Int
  node : Option Node
  openCount : Nat
  deriving DecidableEq, Repr

/-- The assertions of the functions on slots, by function. -/
inductive FileAssert where
  | alloc | freeStatus | freeCount | acquire | releaseStatus | releaseCount | opens | closeStatus | closeCount | dup
  deriving DecidableEq, Repr

namespace File

/-- A slot of a new table: `fd_array_init`. -/
def fresh (fd : Nat) : File := ⟨.none, false, false, fd, 0, none, 0⟩

/-- `fd_array_acquire` -/
def acquire (file : File) : Except FileAssert File := do
  ensure (file.status = .opened) .acquire
  return { file with openCount := file.openCount + 1 }

/-- `fd_array_release`, less its call of `fd_array_free`, which follows where the count is 0. -/
def release (file : File) : Except FileAssert File := do
  ensure (file.status = .opened ∨ file.status = .closed) .releaseStatus
  ensure (0 < file.openCount) .releaseCount
  return { file with openCount := file.openCount - 1 }

/-- The assertions of `fd_array_free`. -/
def checkFree (file : File) : Except FileAssert Unit := do
  ensure (file.status = .init ∨ file.status = .closed) .freeStatus
  ensure (file.openCount = 0) .freeCount

/-- `fd_array_open` -/
def opens (file : File) : Except FileAssert File := do
  ensure (file.status = .init ∧ file.node ≠ Option.none) .opens
  return { file with status := .opened, openCount := file.openCount + 1 }

/-- `fd_array_close`, less its call of `fd_array_free`, which follows where the count is 0. -/
def close (file : File) : Except FileAssert File := do
  ensure (file.status = .opened) .closeStatus
  ensure (0 < file.openCount) .closeCount
  return { file with status := .closed, openCount := file.openCount - 1 }

/-- `fd_array_dup`: the slot `file` becomes a copy of `source`. -/
def dup (file source : File) : Except FileAssert File := do
  ensure (file.status = .init ∧ source.status = .opened) .dup
  opens { file with pos := source.pos, readable := source.readable, writable := source.writable, node := source.node }

end File

/-- `testfd` -/
def testfd (fd : Int) : Prop := 0 ≤ fd ∧ fd < filesStructNentry

instance (fd : Int) : Decidable (testfd fd) := inferInstanceAs (Decidable (0 ≤ fd ∧ fd < filesStructNentry))

/-- The end of `fd_array_alloc`. -/
def fdArrayFound (i : Nat) (fdArray : Nat → File) : Except FileAssert (Int × Nat × (Nat → File)) := do
  ensure ((fdArray i).openCount = 0) .alloc
  return (0, i, Function.update fdArray i { fdArray i with status := .init, node := none })

/-- `fd_array_alloc`: the return value, the slot, and the table. -/
def fdArrayAlloc (fd : Int) (fdArray : Nat → File) : Except FileAssert (Int × Nat × (Nat → File)) :=
  if fd = noFd then
    match (List.range filesStructNentry).find? fun i => (fdArray i).status = .none with
    | some i => fdArrayFound i fdArray
    | none => .ok (-eMaxOpen, 0, fdArray)
  else if testfd fd then
    if (fdArray fd.toNat).status = .none then fdArrayFound fd.toNat fdArray
    else .ok (-eBusy, 0, fdArray)
  else .ok (-eInval, 0, fdArray)

/-- `fd2file`: the slot of an open file. -/
def fd2file (fd : Int) (fdArray : Nat → File) : Option Nat :=
  if testfd fd ∧ (fdArray fd.toNat).status = .opened ∧ ((fdArray fd.toNat).fd : Int) = fd then some fd.toNat else none

end Ucore
