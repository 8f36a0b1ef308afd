import Ucore.Lib.Checked

/-!
# The heap of a user process

`malloc` and `free` of `user/libs/malloc.c`: a ring of free blocks in the order of their addresses, each with a header of 64 bytes
that says how many units of 64 bytes the block has, its header included. Addresses and sizes are 32-bit unsigned numbers.

The heap is given by the headers at all addresses; what `sys_brk` does is an argument, for each call the return value and the word
it stores. A loop that does not end within the given number of rounds gives `none`. Not modelled: the locks.
-/

namespace Ucore

/-- The fields of a `header_t`. -/
structure Header where
  ptr : UInt32
  size : UInt32
  type : UInt32
  deriving DecidableEq

/-- The headers, the address of `base`, `freep` (none for `NULL`), `brk` of `morecore_brk_locked`, and the number of calls of
`sys_brk` so far. -/
structure UserHeap where
  headers : UInt32 → Header
  base : UInt32
  freep : Option UInt32
  brk : UInt32
  calls : Nat

/-- What `sys_brk` returns and stores, for each call and the word it is given. -/
abbrev SysBrk := Nat → UInt32 → Int × UInt32

namespace UserHeap

/-- A store to a header. -/
def set (h : UserHeap) (p : UInt32) (b : Header) : UserHeap := { h with headers := Function.update h.headers p b }

/-- `p + n` for a `header_t *`, with `sizeof(header_t)` = 64. -/
def skip (p n : UInt32) : UInt32 := p + n * 64

/-- The loop of `free_locked`: the block behind which `bp` has its place. -/
def place (h : UserHeap) (bp : UInt32) : Nat → UInt32 → Option UInt32
  | 0, _ => none
  | rounds + 1, p =>
    let next := (h.headers p).ptr
    if p < bp ∧ bp < next ∨ next ≤ p ∧ (p < bp ∨ bp < next) then some p else place h bp rounds next

/-- The header `b` at `bp`, joined with the one at `next` if the two blocks touch, and else linked to it. -/
def join (h : UserHeap) (bp : UInt32) (b : Header) (next : UInt32) : Header :=
  let n := h.headers next
  if b.type = n.type ∧ skip bp b.size = next then { b with size := b.size + n.size, ptr := n.ptr } else { b with ptr := next }

/-- `free_locked` of the block whose header is at `bp`. -/
def freeLocked (rounds : Nat) (bp : UInt32) (h : UserHeap) : Option UserHeap := do
  let p ← h.place bp rounds (← h.freep)
  let h := h.set bp (h.join bp (h.headers bp) (h.headers p).ptr)
  let h := h.set p (h.join p (h.headers p) bp)
  return { h with freep := some p }

/-- `morecore_brk_locked`. -/
def morecoreBrkLocked (sysBrk : SysBrk) (rounds : Nat) (nu : UInt32) (h : UserHeap) : Option (Bool × UserHeap) :=
  let first := if h.brk = 0 then sysBrk h.calls 0 else (0, h.brk)
  let h := if h.brk = 0 then { h with brk := first.2, calls := h.calls + 1 } else h
  if first.1 ≠ 0 ∨ h.brk = 0 then some (false, h)
  else
    let r := sysBrk h.calls (skip h.brk nu)
    let h := { h with calls := h.calls + 1 }
    if r.1 ≠ 0 ∨ r.2 ≤ h.brk then some (false, h)
    else do
      let h ← (h.set h.brk { h.headers h.brk with size := (r.2 - h.brk) / 64, type := 0 }).freeLocked rounds h.brk
      return (true, { h with brk := r.2 })

/-- A block of `nunits` is taken from the free block `p`, which is large enough. -/
def take (nunits type prevp p : UInt32) (h : UserHeap) : UserHeap :=
  let b := h.headers p
  let h := if b.size = nunits then h.set prevp { h.headers prevp with ptr := b.ptr }
    else
      let np := skip p nunits
      let h := h.set prevp { h.headers prevp with ptr := np }
      let h := h.set np { ptr := (h.headers p).ptr, size := b.size - nunits, type := type }
      h.set p { h.headers p with size := nunits }
  { h with freep := some prevp }

/-- The loop of `malloc_locked`, at the block `p` behind `prevp`. -/
def search (sysBrk : SysBrk) (nunits type : UInt32) :
    Nat → UInt32 → UInt32 → UserHeap → Option (Option UInt32 × UserHeap)
  | 0, _, _, _ => none
  | rounds + 1, prevp, p, h =>
    if (h.headers p).type = type ∧ nunits ≤ (h.headers p).size then some (some (skip p 1), h.take nunits type prevp p)
    else if h.freep = some p then do
      let m ← h.morecoreBrkLocked sysBrk rounds nunits
      if m.1 then search sysBrk nunits type rounds p (m.2.headers p).ptr m.2 else return (none, m.2)
    else search sysBrk nunits type rounds p (h.headers p).ptr h

/-- `nunits` for a size: the units for so many bytes, and one for the header. -/
def units (size : UInt32) : UInt32 := (size + 64 - 1) / 64 + 1

/-- `malloc`: the pointer, none for `NULL`, and the heap. -/
def malloc (sysBrk : SysBrk) (rounds : Nat) (size : UInt32) (h : UserHeap) : Option (Option UInt32 × UserHeap) :=
  let h := if h.freep = none then { h.set h.base { h.headers h.base with ptr := h.base, size := 0 } with freep := some h.base }
    else h
  let prevp := h.freep.getD h.base
  h.search sysBrk (units size) 0 rounds prevp (h.headers prevp).ptr

end UserHeap

end Ucore
