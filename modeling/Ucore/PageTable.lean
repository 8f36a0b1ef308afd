import Mathlib.Algebra.Group.Nat.Defs
import Ucore.Errors
import Ucore.Pmm

/-!
# Page tables

The two-level page tables of `kern/mm/pmm.c`, and `setup_pgdir` and `put_pgdir` of `kern/process/proc.c`. Physical memory is the
words of its page frames, and a frame is named by its page number: the page directory or page table at the kernel address `KADDR(pa)` is the frame
`PPN(pa)`, and a pointer to one of its entries is the frame with an index below 1024. The descriptors of the frames are those of
the page allocator.

`alloc_page` asks the page allocator for one page. Once swapping is initialised, a request that cannot be met goes on to
`swap_out(check_mm_struct, ..)`; `check_mm_struct` is `NULL` outside the kernel's self tests, and the call then reads through the
null pointer (`MemPanic.swapOut`).

Not modelled: the translation cache (`tlb_invalidate`), and the list of swappable pages that `pgdir_alloc_page` keeps when
`check_mm_struct` is not `NULL`.
-/

namespace Ucore

open Checked Function

/-- `PGSIZE`. -/
def pgSize : Nat := 4096

/-- `PTSIZE`: the bytes that one entry of a page directory maps. -/
def ptSize : Nat := pgSize * 1024

/-- `KERNBASE`: the addresses from here on are the kernel's in every address space. -/
def kernBase : Nat := 0xC0000000

/-- `USERBASE`. -/
def userBase : Nat := 0x00200000

/-- `USERTOP`. -/
def userTop : Nat := 0xB0000000

/-- `VPT`: where every page directory maps itself. -/
def vpt : Nat := 0xFAC00000

/-- The modulus of `uintptr_t`. -/
def addrSize : Nat := 2 ^ 32

/-- `USER_ACCESS`. -/
def UserAccess (start stop : Nat) : Prop := userBase ≤ start ∧ start < stop ∧ stop ≤ userTop

instance (start stop : Nat) : Decidable (UserAccess start stop) := inferInstanceAs (Decidable (_ ∧ _ ∧ _))

/-- `ROUNDDOWN`. -/
def roundDown (a n : Nat) : Nat := a - a % n

/-- `PDX`: the index of the directory entry of a linear address. -/
def pdx (la : Nat) : Nat := (la >>> 22) &&& 0x3FF

/-- `PTX`: the index of the table entry of a linear address. -/
def ptx (la : Nat) : Nat := (la >>> 12) &&& 0x3FF

/-- `PPN`. -/
def ppn (la : Nat) : Nat := la >>> 12

/-- `PTE_ADDR` and `PDE_ADDR`: an entry less its flags. -/
def pteAddr (pte : Nat) : Nat := pte &&& 0xFFFFF000

/-- `PTE_P`. -/
def pteP : Nat := 0x001

/-- `PTE_W`. -/
def pteW : Nat := 0x002

/-- `PTE_U`. -/
def pteU : Nat := 0x004

/-- `PTE_USER`. -/
def pteUser : Nat := pteU ||| pteW ||| pteP

/-- Physical memory: the page allocator, the words of the frames, the page directories set up so far (the `pgdir` fields of the
address spaces), `boot_pgdir`, `npage` and `swap_init_ok`. -/
structure Memory where
  area : FreeArea
  frames : Nat → Nat → Nat
  pgdirs : List Nat
  bootPgdir : Nat
  npage : Nat
  swapInitOk : Bool

/-- The ways in which a function of this module stops the kernel. `unfinished` is no way of the kernel's: it says that a loop of
the model ran out of the number of rounds it was given. -/
inductive MemPanic where
  | pmm (a : PmmAssertion) | kaddr (pa : Nat) | pa2page (pa : Nat) | pte2page (pte : Nat) | swapOut | unmapAligned | unmapAccess
  | exitAligned | exitAccess | copyAligned | copyAccess | copyPage | copyInsert | unfinished
  deriving DecidableEq, Repr

/-- `page2pa`: the pages of the machine number at most `KMEMSIZE / PGSIZE`, so the shift loses nothing. -/
def page2pa (page : Nat) : Nat := page <<< 12

/-- `KADDR` of a page-aligned address: the frame there. -/
def kaddr (s : Memory) (pa : Nat) : Except MemPanic Nat := do
  ensure (ppn pa < s.npage) (.kaddr pa)
  .ok (ppn pa)

/-- `pa2page`. -/
def pa2page (s : Memory) (pa : Nat) : Except MemPanic Nat := do
  ensure (ppn pa < s.npage) (.pa2page pa)
  .ok (ppn pa)

/-- `pte2page`. -/
def pte2page (s : Memory) (pte : Nat) : Except MemPanic Nat := do
  ensure (pte &&& pteP ≠ 0) (.pte2page pte)
  pa2page s (pteAddr pte)

/-- `page_ref`. -/
def Memory.pageRef (s : Memory) (page : Nat) : Int := (s.area.pages page).ref

/-- `set_page_ref`. -/
def Memory.setPageRef (s : Memory) (page : Nat) (ref : Int) : Memory :=
  { s with area := s.area.modify page (fun p => { p with ref := ref }) }

/-- `page_ref_inc`. -/
def Memory.pageRefInc (s : Memory) (page : Nat) : Memory := s.setPageRef page (s.pageRef page + 1)

/-- `page_ref_dec`. -/
def Memory.pageRefDec (s : Memory) (page : Nat) : Memory := s.setPageRef page (s.pageRef page - 1)

/-- The word an entry pointer points to. -/
def Memory.load (s : Memory) (ptep : Nat × Nat) : Nat := s.frames ptep.1 ptep.2

/-- A store through an entry pointer. -/
def Memory.store (s : Memory) (ptep : Nat × Nat) (w : Nat) : Memory :=
  { s with frames := update s.frames ptep.1 (update (s.frames ptep.1) ptep.2 w) }

/-- A frame filled with the words of `f`: `memset` and `memcpy` of a page. -/
def Memory.fill (s : Memory) (frame : Nat) (f : Nat → Nat) : Memory :=
  { s with frames := update s.frames frame f }

/-- `alloc_page`. -/
def allocPage (s : Memory) : Except MemPanic (Option Nat × Memory) := do
  let r ← (defaultAllocPages 1 s.area).mapError .pmm
  match r.1 with
  | some page => .ok (some page, { s with area := r.2 })
  | none => if s.swapInitOk then .error .swapOut else .ok (none, { s with area := r.2 })

/-- `free_page`. -/
def freePage (page : Nat) (s : Memory) : Except MemPanic Memory := do
  let area ← (defaultFreePages page 1 s.area).mapError .pmm
  .ok { s with area := area }

/-- The part of `get_pte` that makes a page table for a linear address: false when there is no page for it. -/
def createTable (pgdir la : Nat) (s : Memory) : Except MemPanic (Bool × Memory) := do
  let r ← allocPage s
  match r.1 with
  | none => .ok (false, r.2)
  | some page => do
    let s := r.2.setPageRef page 1
    let frame ← kaddr s (page2pa page)
    let s := s.fill frame (fun _ => 0)
    .ok (true, s.store (pgdir, pdx la) (page2pa page ||| pteUser))

/-- The last line of `get_pte`: the entry of a linear address in the page table that the directory names. -/
def tableEntry (pgdir la : Nat) (s : Memory) : Except MemPanic (Nat × Nat) := do
  let table ← kaddr s (pteAddr (s.load (pgdir, pdx la)))
  .ok (table, ptx la)

/-- `get_pte`. -/
def getPte (pgdir la : Nat) (create : Bool) (s : Memory) : Except MemPanic (Option (Nat × Nat) × Memory) :=
  if s.load (pgdir, pdx la) &&& pteP = 0 then
    if create then do
      let r ← createTable pgdir la s
      if r.1 then do
        let ptep ← tableEntry pgdir la r.2
        .ok (some ptep, r.2)
      else .ok (none, r.2)
    else .ok (none, s)
  else do
    let ptep ← tableEntry pgdir la s
    .ok (some ptep, s)

/-- `get_page`, with the entry pointer it stores. -/
def getPage (pgdir la : Nat) (s : Memory) : Except MemPanic (Option Nat × Option (Nat × Nat)) := do
  let r ← getPte pgdir la false s
  match r.1 with
  | none => .ok (none, none)
  | some ptep =>
    if s.load ptep &&& pteP ≠ 0 then do
      let page ← pte2page s (s.load ptep)
      .ok (some page, some ptep)
    else .ok (none, some ptep)

/-- `page_remove_pte`. -/
def pageRemovePte (ptep : Nat × Nat) (s : Memory) : Except MemPanic Memory :=
  if s.load ptep &&& pteP ≠ 0 then do
    let page ← pte2page s (s.load ptep)
    let s := s.pageRefDec page
    let s ← if s.pageRef page = 0 then freePage page s else .ok s
    .ok (s.store ptep 0)
  else .ok s

/-- The loop of `unmap_range`. The first argument bounds the number of rounds. -/
def unmapLoop (pgdir stop : Nat) : Nat → Nat → Memory → Except MemPanic Memory
  | 0, _, _ => .error .unfinished
  | rounds + 1, start, s => do
    let r ← getPte pgdir start false s
    let next ←
      match r.1 with
      | none => .ok (roundDown ((start + ptSize) % addrSize) ptSize, r.2)
      | some ptep => do
        let s ← if r.2.load ptep ≠ 0 then pageRemovePte ptep r.2 else .ok r.2
        .ok ((start + pgSize) % addrSize, s)
    if next.1 ≠ 0 ∧ next.1 < stop then unmapLoop pgdir stop rounds next.1 next.2 else .ok next.2

/-- `unmap_range`. -/
def unmapRange (pgdir start stop : Nat) (s : Memory) : Except MemPanic Memory := do
  ensure (start % pgSize = 0 ∧ stop % pgSize = 0) .unmapAligned
  ensure (UserAccess start stop) .unmapAccess
  unmapLoop pgdir stop ((stop - start) / pgSize) start s

/-- `page_remove`. -/
def pageRemove (pgdir la : Nat) (s : Memory) : Except MemPanic Memory := do
  let r ← getPte pgdir la false s
  match r.1 with
  | none => .ok r.2
  | some ptep => pageRemovePte ptep r.2

/-- The part of `page_insert` that deals with what the entry holds: the same page again, another page, or none. -/
def releaseEntry (page : Nat) (ptep : Nat × Nat) (s : Memory) : Except MemPanic Memory :=
  if s.load ptep &&& pteP ≠ 0 then do
    let p ← pte2page s (s.load ptep)
    if p = page then .ok (s.pageRefDec page) else pageRemovePte ptep s
  else .ok s

/-- `page_insert`: 0 or `-E_NO_MEM`. -/
def pageInsert (pgdir page la perm : Nat) (s : Memory) : Except MemPanic (Int × Memory) := do
  let r ← getPte pgdir la true s
  match r.1 with
  | none => .ok (-eNoMem, r.2)
  | some ptep => do
    let s ← releaseEntry page ptep (r.2.pageRefInc page)
    .ok (0, s.store ptep (page2pa page ||| pteP ||| perm))

/-- `pgdir_alloc_page`: none is `NULL`. -/
def pgdirAllocPage (pgdir la perm : Nat) (s : Memory) : Except MemPanic (Option Nat × Memory) := do
  let r ← allocPage s
  match r.1 with
  | none => .ok (none, r.2)
  | some page => do
    let r ← pageInsert pgdir page la perm r.2
    if r.1 ≠ 0 then do
      let s ← freePage page r.2
      .ok (none, s)
    else .ok (some page, r.2)

/-- `setup_pgdir`: the new page directory, none for `-E_NO_MEM`. -/
def setupPgdir (s : Memory) : Except MemPanic (Option Nat × Memory) := do
  let r ← allocPage s
  match r.1 with
  | none => .ok (none, r.2)
  | some page => do
    let pgdir ← kaddr r.2 (page2pa page)
    let s := r.2.fill pgdir (r.2.frames r.2.bootPgdir)
    let s := s.store (pgdir, pdx vpt) (page2pa page ||| pteP ||| pteW)
    .ok (some pgdir, { s with pgdirs := pgdir :: s.pgdirs })

/-- What a round of `exit_range` does to the directory entry it looks at. -/
def exitSlot (pgdir pdeIdx : Nat) (s : Memory) : Except MemPanic Memory :=
  if s.load (pgdir, pdeIdx) &&& pteP ≠ 0 then do
    let page ← pa2page s (pteAddr (s.load (pgdir, pdeIdx)))
    let s ← freePage page s
    .ok (s.store (pgdir, pdeIdx) 0)
  else .ok s

/-- The loop of `exit_range`. The first argument bounds the number of rounds. -/
def exitLoop (pgdir stop : Nat) : Nat → Nat → Memory → Except MemPanic Memory
  | 0, _, _ => .error .unfinished
  | rounds + 1, start, s => do
    let s ← exitSlot pgdir (pdx start) s
    let start := (start + ptSize) % addrSize
    if start ≠ 0 ∧ start < stop then exitLoop pgdir stop rounds start s else .ok s

/-- `exit_range`. -/
def exitRange (pgdir start stop : Nat) (s : Memory) : Except MemPanic Memory := do
  ensure (start % pgSize = 0 ∧ stop % pgSize = 0) .exitAligned
  ensure (UserAccess start stop) .exitAccess
  exitLoop pgdir stop ((stop - roundDown start ptSize) / ptSize + 1) (roundDown start ptSize) s

/-- `put_pgdir`. -/
def putPgdir (pgdir : Nat) (s : Memory) : Except MemPanic Memory := do
  let page ← pa2page s (page2pa pgdir)
  let s ← freePage page s
  .ok { s with pgdirs := s.pgdirs.erase pgdir }

/-- What `copy_range` does for a page that is present in the directory it copies from; `ptep` is the entry there. -/
def copyPage (toDir la : Nat) (ptep : Nat × Nat) (s : Memory) : Except MemPanic (Int × Memory) := do
  let r ← getPte toDir la true s
  match r.1 with
  | none => .ok (-eNoMem, r.2)
  | some _ => do
    let perm := r.2.load ptep &&& pteUser
    let page ← pte2page r.2 (r.2.load ptep)
    let a ← allocPage r.2
    match a.1 with
    | none => .error .copyPage
    | some npage => do
      let source ← kaddr a.2 (page2pa page)
      let target ← kaddr a.2 (page2pa npage)
      let i ← pageInsert toDir npage la perm (a.2.fill target (a.2.frames source))
      ensure (i.1 = 0) .copyInsert
      .ok (0, i.2)

/-- The loop of `copy_range`. The first argument bounds the number of rounds. -/
def copyLoop (toDir fromDir stop : Nat) : Nat → Nat → Memory → Except MemPanic (Int × Memory)
  | 0, _, _ => .error .unfinished
  | rounds + 1, start, s => do
    let r ← getPte fromDir start false s
    match r.1 with
    | none =>
      let next := roundDown ((start + ptSize) % addrSize) ptSize
      if next ≠ 0 ∧ next < stop then copyLoop toDir fromDir stop rounds next r.2 else .ok (0, r.2)
    | some ptep => do
      let c ← if r.2.load ptep &&& pteP ≠ 0 then copyPage toDir start ptep r.2 else .ok (0, r.2)
      if c.1 ≠ 0 then .ok c
      else
        let next := (start + pgSize) % addrSize
        if next ≠ 0 ∧ next < stop then copyLoop toDir fromDir stop rounds next c.2 else .ok (0, c.2)

/-- `copy_range`, whose argument `share` is not read. -/
def copyRange (toDir fromDir start stop : Nat) (s : Memory) : Except MemPanic (Int × Memory) := do
  ensure (start % pgSize = 0 ∧ stop % pgSize = 0) .copyAligned
  ensure (UserAccess start stop) .copyAccess
  copyLoop toDir fromDir stop ((stop - start) / pgSize) start s

/-- What is done to the page tables: a directory is set up, a page is taken from the allocator, and the four functions that map
and unmap. -/
inductive MemOp where
  | setupPgdir
  | allocPage
  | pageInsert (pgdir page la perm : Nat)
  | pageRemove (pgdir la : Nat)
  | pgdirAllocPage (pgdir la perm : Nat)
  | unmapRange (pgdir start stop : Nat)
  deriving DecidableEq, Repr

/-- What a call returns. -/
inductive MemResult where
  | done
  | code (c : Int)
  | page (p : Option Nat)
  deriving DecidableEq, Repr

/-- One call. -/
def stepMem (s : Memory) : MemOp → Except MemPanic (MemResult × Memory)
  | .setupPgdir => do
    let r ← setupPgdir s
    .ok (.page r.1, r.2)
  | .allocPage => do
    let r ← allocPage s
    .ok (.page r.1, r.2)
  | .pageInsert pgdir page la perm => do
    let r ← pageInsert pgdir page la perm s
    .ok (.code r.1, r.2)
  | .pageRemove pgdir la => do
    let s ← pageRemove pgdir la s
    .ok (.done, s)
  | .pgdirAllocPage pgdir la perm => do
    let r ← pgdirAllocPage pgdir la perm s
    .ok (.page r.1, r.2)
  | .unmapRange pgdir start stop => do
    let s ← unmapRange pgdir start stop s
    .ok (.done, s)

end Ucore
