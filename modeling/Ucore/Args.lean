import Ucore.Exec
import Ucore.UserMem

/-!
# The arguments of a new program

The part of `load_icode` that puts the arguments on the stack of the program, over the bytes of the program's memory. A string is
the list of its bytes before the NUL. Page faults on the stack are taken as served.
-/

namespace Ucore

/-- `EXEC_MAX_ARG_NUM`. -/
def execMaxArgNum : Nat := 32

/-- `EXEC_MAX_ARG_LEN`. -/
def execMaxArgLen : Nat := 4095

/-- The bytes of a string, with NULs behind it. -/
abbrev chars (s : List UInt8) (k : Nat) : UInt8 := s.getD k 0

/-- `strcpy`. -/
def strcpy (dst : Nat) (s : List UInt8) (user : Nat → UInt8) : Nat → UInt8 :=
  Bytes.patch user dst (s.length + 1) (chars s)

/-- A word stored in the memory of the program. -/
def putWord (a w : Nat) (user : Nat → UInt8) : Nat → UInt8 := Bytes.patch user a 4 (Bytes.byteOf w)

/-- What one argument adds to `argv_size`. -/
def addArg (size : Nat) (s : List UInt8) : Nat := (size + strnlen (chars s) (execMaxArgLen + 1) + 1) % addrSize

/-- The loop of `load_icode` that copies the arguments from the `i`-th on, where `size` is `argv_size`. -/
def copyArgs (stacktop uargv : Nat) : List (List UInt8) → Nat → Nat → (Nat → UInt8) → Nat → UInt8
  | [], _, _, user => user
  | s :: rest, i, size, user =>
    let dst := (stacktop + size) % addrSize
    copyArgs stacktop uargv rest (i + 1) (addArg size s) (putWord ((uargv + 4 * i) % addrSize) dst (strcpy dst s user))

/-- The part of `load_icode` that puts the arguments on the new stack, in the memory of the program: the stack pointer it starts
with, and the memory. -/
def pushArgs (stacktop : Nat) (kargv : List (List UInt8)) (user : Nat → UInt8) : Nat × (Nat → UInt8) :=
  let stacktop := sub32 stacktop ((kargv.foldl addArg 0 / 4 + 1) * 4)
  let uargv := sub32 stacktop (kargv.length * 4)
  let user := copyArgs stacktop uargv kargv 0 0 user
  let stacktop := sub32 uargv 4
  (stacktop, putWord stacktop kargv.length user)

end Ucore
