import Ucore.PageTable

/-!
# The kernel heap

The SLOB allocator of `kern/mm/kmalloc.c`. Memory is the words of the kernel's address space, by byte address. A block is named by
the address of its `slob_t`: the word there is its `units`, the word behind it its `next`. The record of a large allocation
(`bigblock_t`) lies in a block of the same heap: its `order` and `pages` are the words where the block had `units` and `next`, and
its own `next` is the word after them.

The page allocator answers from outside: `grows` are the single pages that `__slob_get_free_page` will return, one after the other,
and `NULL` once none is left; `big` is the answer to the request of a large allocation.

The searches of the source walk lists that memory holds. They are given as many rounds as there are addresses, and end with
`SlobPanic.unfinished` after them.

Not modelled: the spin locks, and the alignment of `slob_alloc`, which every caller gives as 0.
-/

namespace Ucore

open Checked

/-- `SLOB_UNIT`: the bytes of a `slob_t`. -/
def slobUnit : Nat := 8

/-- `SLOB_UNITS`. -/
def slobUnits (size : Nat) : Nat := (size + slobUnit - 1) / slobUnit

/-- The bytes of a `bigblock_t`. -/
def bigblockSize : Nat := 12

/-- The memory and the two lists of the allocator. -/
structure Slob where
  mem : Nat → Nat
  /-- The block of the free list that the last call left. -/
  slobfree : Nat
  /-- The first record of the large allocations, `0` for `NULL`. -/
  bigblocks : Nat

/-- Where a call does not return. -/
inductive SlobPanic
  /-- The assertion of `slob_alloc` on the size. -/
  | size
  /-- A list was walked for more rounds than there are addresses. -/
  | unfinished
  deriving DecidableEq

namespace Slob

/-- The `units` of a block. -/
def units (s : Slob) (b : Nat) : Nat := s.mem b

/-- The `next` of a block. -/
def next (s : Slob) (b : Nat) : Nat := s.mem (b + 4)

/-- A word written. -/
def store (s : Slob) (a v : Nat) : Slob := { s with mem := Function.update s.mem a v }

def setUnits (s : Slob) (b v : Nat) : Slob := s.store b v

def setNext (s : Slob) (b v : Nat) : Slob := s.store (b + 4) v

/-- The `order` of a record. -/
def order (s : Slob) (bb : Nat) : Nat := s.mem bb

/-- The `pages` of a record. -/
def pages (s : Slob) (bb : Nat) : Nat := s.mem (bb + 4)

/-- The `next` of a record. -/
def bigNext (s : Slob) (bb : Nat) : Nat := s.mem (bb + 8)

end Slob

/-! ## Freeing a block -/

/-- The search for the block behind which `b` goes. -/
def findPoint (b : Nat) : Nat → Nat → Slob → Except SlobPanic Nat
  | 0, _, _ => .error .unfinished
  | n + 1, cur, s =>
    if cur < b ∧ b < s.next cur then .ok cur
    else if s.next cur ≤ cur ∧ (cur < b ∨ b < s.next cur) then .ok cur
    else findPoint b n (s.next cur) s

/-- The block `b` takes over the block behind `cur` where that one begins at its end, and is linked to what follows. -/
def joinNext (b cur : Nat) (s : Slob) : Slob :=
  if b + slobUnit * s.units b = s.next cur then
    let s := s.setUnits b (s.units b + s.units (s.next cur))
    s.setNext b (s.next (s.next cur))
  else s.setNext b (s.next cur)

/-- The block `cur` takes over `b` where that one begins at its end; it is linked to `b` where it does not. -/
def joinPrev (b cur : Nat) (s : Slob) : Slob :=
  if cur + slobUnit * s.units cur = b then
    let s := s.setUnits cur (s.units cur + s.units b)
    s.setNext cur (s.next b)
  else s.setNext cur b

/-- `slob_free` -/
def slobFree (b size : Nat) (s : Slob) : Except SlobPanic Slob :=
  if b = 0 then .ok s
  else do
    let s := if size ≠ 0 then s.setUnits b (slobUnits size) else s
    let cur ← findPoint b addrSize s.slobfree s
    return { joinPrev b cur (joinNext b cur s) with slobfree := cur }

/-! ## Taking a block -/

/-- One way round the free list: the first block with enough units, and the block before it. -/
def scan (units : Nat) : Nat → Nat → Nat → Slob → Except SlobPanic (Option (Nat × Nat))
  | 0, _, _, _ => .error .unfinished
  | n + 1, prev, cur, s =>
    if units ≤ s.units cur then .ok (some (prev, cur))
    else if cur = s.slobfree then .ok none
    else scan units n cur (s.next cur) s

/-- The block `cur` behind `prev` taken out of the free list; what it has beyond `units` stays there. -/
def takeBlock (units prev cur : Nat) (s : Slob) : Slob :=
  if s.units cur = units then { s.setNext prev (s.next cur) with slobfree := prev }
  else
    let rest := cur + slobUnit * units
    let s := s.setNext prev rest
    let s := s.setUnits rest (s.units cur - units)
    let s := s.setNext rest (s.next cur)
    { s.setUnits cur units with slobfree := prev }

/-- The loop of `slob_alloc`. Where a way round finds nothing, the free list gets a page and the search begins again. -/
def slobLoop (size : Nat) : List Nat → Slob → Except SlobPanic (Nat × List Nat × Slob)
  | grows, s => do
    match ← scan (slobUnits size) addrSize s.slobfree (s.next s.slobfree) s with
    | some (prev, cur) => return (cur, [], takeBlock (slobUnits size) prev cur s)
    | none =>
      if size = pgSize then return (0, [], s)
      match grows with
      | [] => return (0, [], s)
      | page :: grows =>
        let s ← slobFree page pgSize s
        let (m, got, s) ← slobLoop size grows s
        return (m, page :: got, s)

/-- `slob_alloc`: the block, or `0` for `NULL`, and the pages that the free list got. -/
def slobAlloc (size : Nat) (grows : List Nat) (s : Slob) : Except SlobPanic (Nat × List Nat × Slob) := do
  ensure (size + slobUnit < pgSize) SlobPanic.size
  slobLoop size grows s

/-! ## The interface -/

/-- The loop of `find_order`. A size has 32 bits, and each round halves it. -/
def findOrderLoop : Nat → Nat → Nat
  | 0, _ => 0
  | n + 1, size => if 4096 < size then findOrderLoop n (size / 2) + 1 else 0

/-- `find_order`. The parameter is an `int`: a size with the top bit set is negative there, and stops the loop at once. -/
def findOrder (size : Nat) : Nat := if size < 2 ^ 31 then findOrderLoop 32 size else 0

/-- `__kmalloc`: the pointer, or `0` for `NULL`, and the pages that the free list got. -/
def kmalloc (size : Nat) (grows : List Nat) (big : Option Nat) (s : Slob) : Except SlobPanic (Nat × List Nat × Slob) :=
  if size < pgSize - slobUnit then do
    let (m, got, s) ← slobAlloc (size + slobUnit) grows s
    return (if m = 0 then 0 else m + slobUnit, got, s)
  else do
    let (bb, got, s) ← slobAlloc bigblockSize grows s
    if bb = 0 then return (0, got, s)
    let s := s.store bb (findOrder size)
    let s := s.store (bb + 4) (big.getD 0)
    match big with
    | some pages => return (pages, got, { s.store (bb + 8) s.bigblocks with bigblocks := bb })
    | none =>
      let s ← slobFree bb bigblockSize s
      return (0, got, s)

/-- The search of `kfree` in the list of large allocations: the record of `block`, and the record before it if there is one. -/
def findBig (block : Nat) : Nat → Option Nat → Nat → Slob → Except SlobPanic (Option (Option Nat × Nat))
  | 0, _, _, _ => .error .unfinished
  | n + 1, last, bb, s =>
    if bb = 0 then .ok none
    else if s.pages bb = block then .ok (some (last, bb))
    else findBig block n (some bb) (s.bigNext bb) s

/-- The record of `block`. Only a pointer that is aligned to a page is looked up. -/
def lookupBig (block : Nat) (s : Slob) : Except SlobPanic (Option (Option Nat × Nat)) :=
  if block % pgSize = 0 then findBig block addrSize none s.bigblocks s else .ok none

/-- `*last = bb->next` -/
def unlinkBig (last : Option Nat) (bb : Nat) (s : Slob) : Slob :=
  match last with
  | none => { s with bigblocks := s.bigNext bb }
  | some prev => s.store (prev + 8) (s.bigNext bb)

/-- `kfree`. Returned with the memory: the pages given back to the page allocator, by address and order. -/
def kfree (block : Nat) (s : Slob) : Except SlobPanic (Option (Nat × Nat) × Slob) :=
  if block = 0 then .ok (none, s)
  else do
    match ← lookupBig block s with
    | some (last, bb) =>
      let s := unlinkBig last bb s
      let order := s.order bb
      let s ← slobFree bb bigblockSize s
      return (some (block, order), s)
    | none =>
      let s ← slobFree (block - slobUnit) 0 s
      return (none, s)

end Ucore
