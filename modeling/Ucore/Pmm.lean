import Ucore.Lib.Checked
import Mathlib.Order.Interval.Set.Basic

/-!
# The physical page allocator

The first-fit manager of `kern/mm/default_pmm.c`. A page is named by its index in the array `pages`, so page addresses are
natural numbers and `base + n` is pointer arithmetic on `struct Page *`. The free list is the list of the head pages of the
free blocks, from `list_next(&free_list)` on; the size of a block stands in the descriptor of its head page (`property`) and
the head carries the flag `PG_property`.

The sums of sizes stay below the number of pages of the machine (at most `KMEMSIZE / PGSIZE`), so the counters are natural
numbers.
-/

namespace Ucore

open Checked Function

/-- The two flags of a page descriptor that are in use: `PG_reserved` and `PG_property`. -/
structure Flags where
  reserved : Bool
  property : Bool
  deriving DecidableEq, Repr

/-- `struct Page`: the reference counter, the flags and the size of the free block the page heads. -/
structure Page where
  ref : Int
  flags : Flags
  property : Nat
  deriving DecidableEq, Repr

/-- The page descriptors with `free_area`: the free list and `nr_free`. -/
structure FreeArea where
  pages : Nat → Page
  freeList : List Nat
  nrFree : Nat

/-- The assertions of `default_pmm.c`. -/
inductive PmmAssertion where
  | initCount | initReserved (p : Nat) | allocCount | freeCount | freeFlags (p : Nat) | freeAdjacent (p : Nat)
  deriving DecidableEq, Repr

/-- `SetPageProperty`. -/
def Page.setProperty (p : Page) : Page := { p with flags := { p.flags with property := true } }

/-- `ClearPageProperty`. -/
def Page.clearProperty (p : Page) : Page := { p with flags := { p.flags with property := false } }

/-- Rewrite the descriptor of one page. -/
def FreeArea.modify (s : FreeArea) (p : Nat) (f : Page → Page) : FreeArea :=
  { s with pages := update s.pages p (f (s.pages p)) }

/-- `list_del`. -/
def FreeArea.listDel (s : FreeArea) (p : Nat) : FreeArea := { s with freeList := s.freeList.erase p }

/-- `list_add_after`: the entry `y` goes right behind the entry `x`. -/
def listAddAfter (x y : Nat) : List Nat → List Nat
  | [] => []
  | a :: l => if a = x then a :: y :: l else a :: listAddAfter x y l

/-- `default_init`. -/
def defaultInit (pages : Nat → Page) : FreeArea := { pages := pages, freeList := [], nrFree := 0 }

/-- The loop of `default_init_memmap` over the pages from `p` on. -/
def initPages (pages : Nat → Page) (p : Nat) : Nat → Except PmmAssertion (Nat → Page)
  | 0 => .ok pages
  | n + 1 => do
    ensure ((pages p).flags.reserved = true) (.initReserved p)
    initPages (update pages p { ref := 0, flags := ⟨false, false⟩, property := 0 }) (p + 1) n

/-- `default_init_memmap`. -/
def defaultInitMemmap (base n : Nat) (s : FreeArea) : Except PmmAssertion FreeArea := do
  ensure (0 < n) .initCount
  let pages ← initPages s.pages base n
  let s := { s with pages := pages }
  let s := s.modify base (fun p => { p.setProperty with property := n })
  .ok { s with nrFree := s.nrFree + n, freeList := s.freeList ++ [base] }

/-- What `default_alloc_pages` does once it has found the block of `page`: what the block holds beyond `n` pages goes back
into the list as a block of its own, and `page` leaves the list. -/
def FreeArea.takeBlock (s : FreeArea) (page n : Nat) : FreeArea :=
  let s :=
    if n < (s.pages page).property then
      let s := s.modify (page + n) (fun p => { p.setProperty with property := (s.pages page).property - n })
      { s with freeList := listAddAfter page (page + n) s.freeList }
    else s
  let s := s.listDel page
  let s := { s with nrFree := s.nrFree - n }
  s.modify page Page.clearProperty

/-- `default_alloc_pages`: the first free block that is large enough serves the request. -/
def defaultAllocPages (n : Nat) (s : FreeArea) : Except PmmAssertion (Option Nat × FreeArea) := do
  ensure (0 < n) .allocCount
  if s.nrFree < n then
    .ok (none, s)
  else
    match s.freeList.find? (fun p => decide (n ≤ (s.pages p).property)) with
    | none => .ok (none, s)
    | some page => .ok (some page, s.takeBlock page n)

/-- The first loop of `default_free_pages`, over the pages from `p` on. -/
def freePages (pages : Nat → Page) (p : Nat) : Nat → Except PmmAssertion (Nat → Page)
  | 0 => .ok pages
  | n + 1 => do
    ensure ((pages p).flags.reserved = false ∧ (pages p).flags.property = false) (.freeFlags p)
    freePages (update pages p { pages p with ref := 0, flags := ⟨false, false⟩ }) (p + 1) n

/-- The second loop of `default_free_pages`: the block that heads at `base` swallows the free blocks it touches. The loop
reads `list_next(le)` before it may delete `le`, so it runs over the list as it stood at its start. -/
def mergeLoop : List Nat → Nat → FreeArea → Nat × FreeArea
  | [], base, s => (base, s)
  | p :: le, base, s =>
    if base + (s.pages base).property = p then
      let s := s.modify base (fun b => { b with property := b.property + (s.pages p).property })
      mergeLoop le base ((s.modify p Page.clearProperty).listDel p)
    else if p + (s.pages p).property = base then
      let s := s.modify p (fun q => { q with property := q.property + (s.pages base).property })
      mergeLoop le p ((s.modify base Page.clearProperty).listDel p)
    else mergeLoop le base s

/-- The third loop of `default_free_pages` with the insertion behind it: the list with `base` before the first block that
starts at or above `stop`, the end of the block freed. -/
def insertLoop (base stop : Nat) : List Nat → Except PmmAssertion (List Nat)
  | [] => .ok [base]
  | p :: le =>
    if stop ≤ p then do
      ensure (stop ≠ p) (.freeAdjacent p)
      .ok (base :: p :: le)
    else (p :: ·) <$> insertLoop base stop le

/-- `default_free_pages`. -/
def defaultFreePages (base n : Nat) (s : FreeArea) : Except PmmAssertion FreeArea := do
  ensure (0 < n) .freeCount
  let pages ← freePages s.pages base n
  let s := { s with pages := pages }
  let s := s.modify base (fun p => { p.setProperty with property := n })
  let (base, s) := mergeLoop s.freeList base s
  let s := { s with nrFree := s.nrFree + n }
  let l ← insertLoop base (base + (s.pages base).property) s.freeList
  .ok { s with freeList := l }

/-- `default_init`, then `default_init_memmap` on each range in turn. -/
def bootPmm (pages : Nat → Page) (ranges : List (Nat × Nat)) : Except PmmAssertion FreeArea :=
  ranges.foldlM (fun s r => defaultInitMemmap r.1 r.2 s) (defaultInit pages)

end Ucore
