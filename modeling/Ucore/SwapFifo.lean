import Ucore.Lib.Checked
import Ucore.Lib.ListHead

/-!
# Page replacement

The replacement of pages in order of arrival (`kern/mm/swap_fifo.c`), with the calls through which `kern/mm/swap.c` and `mm_create` of
`kern/mm/vmm.c` reach it. There is one list head, `pra_list_head`, and `sm_priv` of an `mm_struct` points to it.
-/

namespace Ucore

open Checked ListHead Function

/-- The list entries: `pra_list_head`, and `pra_page_link` of each page. -/
inductive PraEntry
  | praListHead
  | page (p : Nat)
  deriving DecidableEq

/-- The assertions of the modelled functions. -/
inductive SwapAssert
  /-- `head != NULL` -/
  | head
  /-- `in_tick == 0` -/
  | inTick
  /-- `le != head` -/
  | empty
  deriving DecidableEq

/-- The links, `swap_init_ok`, and `sm_priv` of each `mm_struct` that there is. -/
structure Swap where
  links : Links PraEntry
  swapInitOk : Bool
  smPriv : Nat → Option (Option PraEntry)

namespace Swap

/-- `_fifo_init_mm`, the `init_mm` of `swap_init_mm` -/
def fifoInitMm (mm : Nat) (s : Swap) : Swap :=
  { s with links := s.links.init .praListHead, smPriv := update s.smPriv mm (some (some .praListHead)) }

/-- `mm_create`, with what `kmalloc` returns: its result, and the part of its work that concerns the replacement of pages. -/
def mmCreate (kmalloc : Option Nat) (s : Swap) : Option Nat × Swap :=
  match kmalloc with
  | none => (none, s)
  | some mm =>
    if s.swapInitOk then (some mm, s.fifoInitMm mm)
    else (some mm, { s with smPriv := update s.smPriv mm (some none) })

/-- `(list_entry_t *)mm->sm_priv`, which is asserted not to be `NULL`. -/
def head (mm : Nat) (s : Swap) : Except SwapAssert PraEntry :=
  match s.smPriv mm with
  | some (some h) => .ok h
  | _ => .error .head

/-- `_fifo_map_swappable`, for `swap_map_swappable`; it uses neither the address nor `swap_in`. -/
def fifoMapSwappable (mm page : Nat) (s : Swap) : Except SwapAssert Swap := do
  let head ← s.head mm
  return { s with links := s.links.addAfter head (.page page) }

/-- `_fifo_swap_out_victim`: the page, and the state. -/
def fifoSwapOutVictim (mm : Nat) (inTick : Int) (s : Swap) : Except SwapAssert (Nat × Swap) := do
  let head ← s.head mm
  ensure (inTick = 0) .inTick
  let le := s.links.prev head
  ensure (le ≠ head) .empty
  match le with
  | .page p => return (p, { s with links := s.links.del le })
  | .praListHead => .error .empty

end Swap

/-- The calls that concern the replacement of pages. -/
inductive SwapOp
  | create (kmalloc : Option Nat)
  | map (mm page : Nat)
  | victim (mm : Nat) (inTick : Int)

/-- One call: the page that it chooses, and the state after it. -/
def Swap.step (s : Swap) : SwapOp → Except SwapAssert (Option Nat × Swap)
  | .create kmalloc => .ok (none, (s.mmCreate kmalloc).2)
  | .map mm page => do
    let s ← s.fifoMapSwappable mm page
    return (none, s)
  | .victim mm inTick => do
    let (p, s) ← s.fifoSwapOutVictim mm inTick
    return (some p, s)

end Ucore
