import Ucore.PageTable
import Ucore.SwapFifo

/-!
# Pages for `alloc_pages`

The loop of `alloc_pages` in `kern/mm/pmm.c`, which asks the swapper for a page when the allocator has none, and `swap_out` of
`kern/mm/swap.c`. The swapper works on the address space `check_mm_struct`, which only the self tests of `kern/mm/vmm.c` and
`kern/mm/swap.c` set, and which is `NULL` at any other time. Whether `swapfs_write` of a page succeeds is an argument.
-/

namespace Ucore

open Checked

/-- The ways in which `alloc_pages` stops the kernel: a null pointer is used as an `mm_struct` or as a page table entry, or an
assertion of a function that it calls fails. `unfinished` says that the loop of the model ran out of rounds. -/
inductive AllocPanic where
  | nullMm | nullPte | present | swap (a : SwapAssert) | mem (p : MemPanic) | unfinished
  deriving DecidableEq

/-- What `alloc_pages` and `swap_out` use: the memory, the swapper, `pra_vaddr` of each page, `pgdir` of each `mm_struct`, and
`check_mm_struct`. -/
structure Paging where
  mem : Memory
  swap : Swap
  praVaddr : Nat → Nat
  pgdir : Nat → Nat
  checkMmStruct : Option Nat

/-- A round of `swap_out`: the oldest page goes to the disk, or stays if it cannot be written there. -/
def swapOutPage (write : Nat → Bool) (mm : Nat) (s : Paging) : Except AllocPanic Paging := do
  let victim ← (s.swap.fifoSwapOutVictim mm 0).mapError .swap
  let v := s.praVaddr victim.1
  let ptep ← (getPte (s.pgdir mm) v false s.mem).mapError .mem
  match ptep.1 with
  | none => .error .nullPte
  | some ptep => do
    ensure (s.mem.load ptep &&& pteP ≠ 0) .present
    if write victim.1 then do
      let mem ← (freePage victim.1 (s.mem.store ptep ((v / pgSize + 1) * 256 % addrSize))).mapError .mem
      .ok { s with mem := mem, swap := victim.2 }
    else do
      let swap ← (victim.2.fifoMapSwappable mm victim.1).mapError .swap
      .ok { s with swap := swap }

/-- `swap_out`, which reads `mm->sm_priv` first in every round; `swap_out_victim` of the FIFO manager returns 0 if it returns. -/
def swapOut (write : Nat → Bool) (mm : Option Nat) : Nat → Paging → Except AllocPanic Paging
  | 0, s => .ok s
  | n + 1, s =>
    match mm with
    | none => .error .nullMm
    | some m => do
      let s ← swapOutPage write m s
      swapOut write mm n s

/-- `alloc_pages`. The third argument bounds the number of rounds. -/
def allocPages (write : Nat → Bool) (n : Nat) : Nat → Paging → Except AllocPanic (Option Nat × Paging)
  | 0, _ => .error .unfinished
  | rounds + 1, s => do
    let r ← (defaultAllocPages n s.mem.area).mapError (fun a => .mem (.pmm a))
    let s := { s with mem := { s.mem with area := r.2 } }
    if r.1.isSome ∨ 1 < n ∨ s.mem.swapInitOk = false then .ok (r.1, s)
    else do
      let s ← swapOut write s.checkMmStruct n s
      allocPages write n rounds s

end Ucore
