import Ucore.Lib.Bytes
import Ucore.Vmm

/-!
# The kernel in the user's memory

`copy_string` of `kern/mm/vmm.c`, with `strnlen` of `libs/string.c`. The bytes of the user's memory are a function of the address.
What the call does there is recorded in its order: the ranges that `user_mem_check` has passed, and the bytes that are read.
-/

namespace Ucore

open Checked Bytes

/-- What `copy_string` does in the user's memory. -/
inductive UserEvent where
  | passed (addr len : Nat)
  | read (addr : Nat)
  deriving DecidableEq, Repr

/-- `strnlen`. -/
def strnlen (s : Nat → UInt8) : Nat → Nat
  | 0 => 0
  | len + 1 => if s 0 = 0 then 0 else strnlen (fun k => s (k + 1)) len + 1

/-- Where `copy_string` is: the bytes from its argument `dst` on, how far `dst` has moved, and what was done. -/
structure StringCopy where
  mm : Mm
  dst : Nat → UInt8
  moved : Nat
  trace : List UserEvent

/-- The bytes from an address on are read. -/
def reads (src n : Nat) : List UserEvent := (List.range n).map fun k => .read (src + k)

/-- `memcpy(dst, src, n)`, and `dst` moves on. -/
def StringCopy.memcpy (mem : Nat → UInt8) (src n : Nat) (c : StringCopy) : StringCopy :=
  { c with dst := patch c.dst c.moved n fun k => mem (src + k), moved := c.moved + n, trace := c.trace ++ reads src n }

/-- `user_mem_check` passes a part, and `strnlen` reads it up to the NUL, if there is one. -/
def StringCopy.scan (src part alen : Nat) (mm : Mm) (c : StringCopy) : StringCopy :=
  { c with mm := mm, trace := c.trace ++ .passed src part :: reads src (min (alen + 1) part) }

/-- The loop of `copy_string`. The first number bounds the rounds. -/
def copyStringLoop (mem : Nat → UInt8) : Nat → Nat → Nat → Nat → StringCopy → Except VmPanic (Bool × StringCopy)
  | 0, _, _, _, _ => .error .unfinished
  | rounds + 1, part, src, maxn, c => do
    let part := if maxn < part then maxn else part
    let r ← userMemCheck src part false c.mm
    if r.1 then
      let alen := strnlen (fun k => mem (src + k)) part
      let c := c.scan src part alen r.2
      if alen < part then .ok (true, c.memcpy mem src (alen + 1))
      else if part = maxn then .ok (false, c)
      else copyStringLoop mem rounds pgSize ((src + part) % addrSize) (maxn - part) (c.memcpy mem src part)
    else .ok (false, { c with mm := r.2 })

/-- `copy_string`. -/
def copyString (mem dst : Nat → UInt8) (src maxn : Nat) (mm : Mm) : Except VmPanic (Bool × StringCopy) :=
  copyStringLoop mem (maxn + 1) ((roundDown ((src + pgSize) % addrSize) pgSize + addrSize - src) % addrSize) src maxn ⟨mm, dst, 0, []⟩

end Ucore
