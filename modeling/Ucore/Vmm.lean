import Ucore.PageTable

/-!
# Address spaces

The VMA list of an address space in `kern/mm/vmm.c` and `do_brk` of `kern/process/proc.c`. A VMA is named by its address: the
fields of all VMAs are a function of the name, and `mmap_list` is the list of the names from `list_next(&mmap_list)` on. Addresses
and lengths are 32 bits wide, and their sums wrap around.

`kmalloc` serves or refuses each request as it likes: `kmalloc k` says whether the `k`-th request is served, and the block it
returns then has the name `k`, which no other block has. What is in the bytes of the user's memory is not modelled: `do_brk` is
given the word that it reads from there.
-/

namespace Ucore

open Checked Function

/-- `VM_READ`. -/
def vmRead : Nat := 1

/-- `VM_WRITE`. -/
def vmWrite : Nat := 2

/-- `VM_EXEC`. -/
def vmExec : Nat := 4

/-- `VM_STACK`. -/
def vmStack : Nat := 8

/-- `ROUNDUP`. -/
def roundUp (a n : Nat) : Nat := roundDown ((a + n - 1) % addrSize) n

/-- `struct vma_struct`. -/
structure Vma where
  vmMm : Nat
  vmStart : Nat
  vmEnd : Nat
  vmFlags : Nat
  deriving DecidableEq, Repr

/-- `struct mm_struct`, with the VMAs; `id` is its address. -/
structure Mm where
  id : Nat
  vmas : Nat → Vma
  mmapList : List Nat
  mmapCache : Option Nat
  mapCount : Int
  pgdir : Nat
  brkStart : Nat
  brk : Nat

/-- An address space, the memory it maps, and the number of requests that `kmalloc` has seen. -/
structure Vm where
  mm : Mm
  mem : Memory
  kmallocs : Nat

/-- The assertions of `vmm.c` and of `do_brk`, and what stops the kernel in the page tables. `swapIn` is no assertion: it says that
`do_pgfault` goes on to `swap_in`, for the entry given, which is not modelled. `unfinished` says that a loop of the model ran out
of the number of rounds it was given. -/
inductive VmPanic where
  | insertEmpty | overlapEmpty | overlap | removeMm | resizeAligned | resizeRange | brkAligned | mem (p : MemPanic)
  | swapIn (pte : Nat) | unfinished
  deriving DecidableEq, Repr

/-- The address lies in the VMA. -/
def Mm.Has (mm : Mm) (addr v : Nat) : Prop := (mm.vmas v).vmStart ≤ addr ∧ addr < (mm.vmas v).vmEnd

instance (mm : Mm) (addr : Nat) : DecidablePred (mm.Has addr) := fun _ => inferInstanceAs (Decidable (_ ∧ _))

/-- `find_vma`. -/
def findVma (addr : Nat) (mm : Mm) : Option Nat × Mm :=
  match mm.mmapCache.filter (fun v => decide (mm.Has addr v)) with
  | some v => (some v, mm)
  | none =>
    match mm.mmapList.find? (fun v => decide (mm.Has addr v)) with
    | some v => (some v, { mm with mmapCache := some v })
    | none => (none, mm)

/-- `find_vma_intersection`. -/
def findVmaIntersection (start stop : Nat) (mm : Mm) : Option Nat × Mm :=
  let r := findVma start mm
  (r.1.filter (fun v => !decide (stop ≤ (r.2.vmas v).vmStart)), r.2)

/-- `vma_create`. -/
def vmaCreate (kmalloc : Nat → Bool) (start stop flags : Nat) (s : Vm) : Option Nat × Vm :=
  if kmalloc s.kmallocs then
    (some s.kmallocs, { s with
      mm := { s.mm with vmas := (update s.mm.vmas s.kmallocs
        { s.mm.vmas s.kmallocs with vmStart := start, vmEnd := stop, vmFlags := flags }) }
      kmallocs := s.kmallocs + 1 })
  else (none, { s with kmallocs := s.kmallocs + 1 })

/-- `check_vma_overlap`. -/
def checkVmaOverlap (prev next : Vma) : Except VmPanic Unit := do
  ensure (prev.vmStart < prev.vmEnd) .overlapEmpty
  ensure (prev.vmEnd ≤ next.vmStart) .overlap
  ensure (next.vmStart < next.vmEnd) .overlapEmpty

/-- `insert_vma_struct`: its loop passes the VMAs that start no later than the new one. -/
def insertVmaStruct (v : Nat) (mm : Mm) : Except VmPanic Mm := do
  ensure ((mm.vmas v).vmStart < (mm.vmas v).vmEnd) .insertEmpty
  let before := mm.mmapList.takeWhile (fun u => decide ((mm.vmas u).vmStart ≤ (mm.vmas v).vmStart))
  let after := mm.mmapList.dropWhile (fun u => decide ((mm.vmas u).vmStart ≤ (mm.vmas v).vmStart))
  before.getLast?.forM (fun u => checkVmaOverlap (mm.vmas u) (mm.vmas v))
  after.head?.forM (fun u => checkVmaOverlap (mm.vmas v) (mm.vmas u))
  .ok { mm with
    vmas := (update mm.vmas v { mm.vmas v with vmMm := mm.id })
    mmapList := before ++ v :: after
    mapCount := mm.mapCount + 1 }

/-- `remove_vma_struct`. -/
def removeVmaStruct (v : Nat) (mm : Mm) : Except VmPanic Mm := do
  ensure (mm.id = (mm.vmas v).vmMm) .removeMm
  .ok { mm with
    mmapList := mm.mmapList.erase v
    mmapCache := if mm.mmapCache = some v then none else mm.mmapCache
    mapCount := mm.mapCount - 1 }

/-- `vma_resize`. -/
def vmaResize (v start stop : Nat) (mm : Mm) : Except VmPanic Mm := do
  ensure (start % pgSize = 0 ∧ stop % pgSize = 0) .resizeAligned
  ensure ((mm.vmas v).vmStart ≤ start ∧ start < stop ∧ stop ≤ (mm.vmas v).vmEnd) .resizeRange
  .ok { mm with vmas := (update mm.vmas v { mm.vmas v with vmStart := start, vmEnd := stop }) }

/-- `unmap_range` on the page directory of the address space. -/
def Vm.unmapRange (s : Vm) (start stop : Nat) : Except VmPanic Vm := do
  let mem ← (Ucore.unmapRange s.mm.pgdir start stop s.mem).mapError .mem
  .ok { s with mem := mem }

/-- The first loop of `mm_unmap`, over the list from a VMA on: the VMAs that start before `stop` leave the list and are put in
front of `freeList`. -/
def detachLoop (stop : Nat) : List Nat → List Nat → Mm → Except VmPanic (List Nat × Mm)
  | [], freeList, mm => .ok (freeList, mm)
  | v :: le, freeList, mm =>
    if (mm.vmas v).vmStart < stop then do
      let mm ← removeVmaStruct v mm
      detachLoop stop le (v :: freeList) mm
    else .ok (freeList, mm)

/-- What the second loop of `mm_unmap` does with one VMA: the part of it outside of the range goes back into the list, and the
rest is unmapped. -/
def trimVma (start stop v : Nat) (s : Vm) : Except VmPanic Vm :=
  if (s.mm.vmas v).vmStart < start then do
    let unEnd := (s.mm.vmas v).vmEnd
    let mm ← vmaResize v (s.mm.vmas v).vmStart start s.mm
    let mm ← insertVmaStruct v mm
    { s with mm := mm }.unmapRange start unEnd
  else do
    let unStart := (s.mm.vmas v).vmStart
    if stop < (s.mm.vmas v).vmEnd then do
      let mm ← vmaResize v stop (s.mm.vmas v).vmEnd s.mm
      let mm ← insertVmaStruct v mm
      { s with mm := mm }.unmapRange unStart stop
    else s.unmapRange unStart (s.mm.vmas v).vmEnd

/-- `mm_unmap`. -/
def mmUnmap (kmalloc : Nat → Bool) (addr len : Nat) (s : Vm) : Except VmPanic (Int × Vm) :=
  let start := roundDown addr pgSize
  let stop := roundUp ((addr + len) % addrSize) pgSize
  if ¬UserAccess start stop then .ok (-eInval, s)
  else
    let r := findVma start s.mm
    let s := { s with mm := r.2 }
    match r.1 with
    | none => .ok (0, s)
    | some v =>
      if stop ≤ (s.mm.vmas v).vmStart then .ok (0, s)
      else if (s.mm.vmas v).vmStart < start ∧ stop < (s.mm.vmas v).vmEnd then
        let c := vmaCreate kmalloc (s.mm.vmas v).vmStart start (s.mm.vmas v).vmFlags s
        match c.1 with
        | none => .ok (-eNoMem, c.2)
        | some nvma => do
          let mm ← vmaResize v stop (c.2.mm.vmas v).vmEnd c.2.mm
          let mm ← insertVmaStruct nvma mm
          let s ← { c.2 with mm := mm }.unmapRange start stop
          .ok (0, s)
      else do
        let d ← detachLoop stop (s.mm.mmapList.dropWhile (fun u => decide (u ≠ v))) [] s.mm
        let s ← d.1.foldlM (fun s v => trimVma start stop v s) { s with mm := d.2 }
        .ok (0, s)

/-- `mm_brk`. -/
def mmBrk (kmalloc : Nat → Bool) (addr len : Nat) (s : Vm) : Except VmPanic (Int × Vm) := do
  let start := roundDown addr pgSize
  let stop := roundUp ((addr + len) % addrSize) pgSize
  if ¬UserAccess start stop then .ok (-eInval, s)
  else do
    let r ← mmUnmap kmalloc start (stop - start) s
    if r.1 ≠ 0 then .ok r
    else
      let f := findVma (start - 1) r.2.mm
      let s := { r.2 with mm := f.2 }
      match f.1.filter (fun v => decide ((s.mm.vmas v).vmEnd = start ∧ (s.mm.vmas v).vmFlags = vmRead ||| vmWrite)) with
      | some v =>
        .ok (0, { s with mm := { s.mm with vmas := (update s.mm.vmas v { s.mm.vmas v with vmEnd := stop }) } })
      | none =>
        let c := vmaCreate kmalloc start stop (vmRead ||| vmWrite) s
        match c.1 with
        | none => .ok (-eNoMem, c.2)
        | some v => do
          let mm ← insertVmaStruct v c.2.mm
          .ok (0, { c.2 with mm := mm })

/-- `mm_create`, where `kmalloc` returned the block `id`; the bytes of the VMAs to come are as they are. -/
def mmCreate (id : Nat) (vmas : Nat → Vma) : Mm :=
  { id := id, vmas := vmas, mmapList := [], mmapCache := none, mapCount := 0, pgdir := 0, brkStart := 0, brk := 0 }

/-- `mm_map`, with the VMA that it stores through `vma_store`. -/
def mmMap (kmalloc : Nat → Bool) (addr len flags : Nat) (s : Vm) : Except VmPanic (Int × Option Nat × Vm) :=
  let start := roundDown addr pgSize
  let stop := roundUp ((addr + len) % addrSize) pgSize
  if ¬UserAccess start stop then .ok (-eInval, none, s)
  else
    let f := findVma start s.mm
    let s := { s with mm := f.2 }
    match f.1.filter (fun v => decide ((s.mm.vmas v).vmStart < stop)) with
    | some _ => .ok (-eInval, none, s)
    | none =>
      let c := vmaCreate kmalloc start stop flags s
      match c.1 with
      | none => .ok (-eNoMem, none, c.2)
      | some v => do
        let mm ← insertVmaStruct v c.2.mm
        .ok (0, some v, { c.2 with mm := mm })

/-- The loop of `dup_mmap`, over what is left of the list of `fromMm` from its end. -/
def dupLoop (kmalloc : Nat → Bool) (fromMm : Mm) : List Nat → Vm → Except VmPanic (Int × Vm)
  | [], s => .ok (0, s)
  | v :: le, s =>
    let vma := fromMm.vmas v
    let c := vmaCreate kmalloc vma.vmStart vma.vmEnd vma.vmFlags s
    match c.1 with
    | none => .ok (-eNoMem, c.2)
    | some nvma => do
      let mm ← insertVmaStruct nvma c.2.mm
      let r ← (copyRange mm.pgdir fromMm.pgdir vma.vmStart vma.vmEnd c.2.mem).mapError .mem
      if r.1 ≠ 0 then .ok (-eNoMem, { c.2 with mm := mm, mem := r.2 })
      else dupLoop kmalloc fromMm le { c.2 with mm := mm, mem := r.2 }

/-- `dup_mmap`: the address space of `s` is the argument `to`, and `from` is `fromMm`. -/
def dupMmap (kmalloc : Nat → Bool) (fromMm : Mm) (s : Vm) : Except VmPanic (Int × Vm) :=
  dupLoop kmalloc fromMm fromMm.mmapList.reverse s

/-- The loops of `exit_mmap`; that `mm_count` is 0 is not modelled. -/
def exitMmap (s : Vm) : Except VmPanic Vm := do
  let mem ← s.mm.mmapList.foldlM (fun mem v =>
    (unmapRange s.mm.pgdir (s.mm.vmas v).vmStart (s.mm.vmas v).vmEnd mem).mapError .mem) s.mem
  let mem ← s.mm.mmapList.foldlM (fun mem v =>
    (exitRange s.mm.pgdir (s.mm.vmas v).vmStart (s.mm.vmas v).vmEnd mem).mapError .mem) mem
  .ok { s with mem := mem }

/-- The blocks that `mm_destroy` gives to `kfree`. -/
def mmDestroy (mm : Mm) : List Nat := mm.mmapList ++ [mm.id]

/-- `exit_mmap`, `put_pgdir` and `mm_destroy`, as `do_exit` calls them: the memory, and the blocks given to `kfree`. -/
def releaseMm (s : Vm) : Except VmPanic (Memory × List Nat) := do
  let s ← exitMmap s
  let mem ← (putPgdir s.mm.pgdir s.mem).mapError .mem
  .ok (mem, mmDestroy s.mm)

/-- What `do_pgfault` asks of the VMA that holds the address, and the permissions of the page it is to map then. -/
def faultPerm (vma : Vma) (errorCode : Nat) : Option Nat :=
  let fits :=
    match errorCode &&& 3 with
    | 0 => decide (vma.vmFlags &&& (vmRead ||| vmExec) ≠ 0)
    | 1 => false
    | _ => decide (vma.vmFlags &&& vmWrite ≠ 0)
  if fits then some (if vma.vmFlags &&& vmWrite ≠ 0 then pteU ||| pteW else pteU) else none

/-- The part of `do_pgfault` that maps the page. -/
def mapFault (la perm : Nat) (s : Vm) : Except VmPanic (Int × Vm) := do
  let r ← (getPte s.mm.pgdir la true s.mem).mapError .mem
  match r.1 with
  | none => .ok (-eNoMem, { s with mem := r.2 })
  | some ptep =>
    if r.2.load ptep = 0 then do
      let a ← (pgdirAllocPage s.mm.pgdir la perm r.2).mapError .mem
      .ok (if a.1.isNone then -eNoMem else 0, { s with mem := a.2 })
    else if r.2.swapInitOk then .error (.swapIn (r.2.load ptep))
    else .ok (-eNoMem, { s with mem := r.2 })

/-- `do_pgfault`. -/
def doPgfault (errorCode addr : Nat) (s : Vm) : Except VmPanic (Int × Vm) :=
  let f := findVma addr s.mm
  let s := { s with mm := f.2 }
  match f.1.filter (fun v => decide ((s.mm.vmas v).vmStart ≤ addr)) with
  | none => .ok (-eInval, s)
  | some v =>
    match faultPerm (s.mm.vmas v) errorCode with
    | none => .ok (-eInval, s)
    | some perm => mapFault (roundDown addr pgSize) perm s

/-- What `user_mem_check` asks of the VMA that holds `start`. -/
def Vma.permits (vma : Vma) (start : Nat) (write : Bool) : Bool :=
  decide (vma.vmFlags &&& (if write then vmWrite else vmRead) ≠ 0) &&
    !(write && decide (vma.vmFlags &&& vmStack ≠ 0) && decide (start < vma.vmStart + pgSize))

/-- The loop of `user_mem_check`. The first argument bounds the number of rounds. -/
def userMemLoop (stop : Nat) (write : Bool) : Nat → Nat → Mm → Except VmPanic (Bool × Mm)
  | 0, _, _ => .error .unfinished
  | rounds + 1, start, mm =>
    if start < stop then
      let r := findVma start mm
      match r.1 with
      | none => .ok (false, r.2)
      | some v =>
        if start < (r.2.vmas v).vmStart then .ok (false, r.2)
        else if (r.2.vmas v).permits start write then userMemLoop stop write rounds (r.2.vmas v).vmEnd r.2
        else .ok (false, r.2)
    else .ok (true, mm)

/-- `user_mem_check` of an address space. -/
def userMemCheck (addr len : Nat) (write : Bool) (mm : Mm) : Except VmPanic (Bool × Mm) :=
  let stop := (addr + len) % addrSize
  if ¬UserAccess addr stop then .ok (false, mm) else userMemLoop stop write (stop - addr + 1) addr mm

/-- The part of `do_brk` that moves the break to `newbrk`: whether it did. -/
def moveBrk (kmalloc : Nat → Bool) (newbrk : Nat) (s : Vm) : Except VmPanic (Bool × Vm) := do
  let oldbrk := s.mm.brk
  if newbrk < oldbrk then do
    let r ← mmUnmap kmalloc newbrk (oldbrk - newbrk) s
    .ok (decide (r.1 = 0), r.2)
  else
    let f := findVmaIntersection oldbrk ((newbrk + pgSize) % addrSize) s.mm
    let s := { s with mm := f.2 }
    match f.1 with
    | some _ => .ok (false, s)
    | none => do
      let r ← mmBrk kmalloc oldbrk (newbrk - oldbrk) s
      .ok (decide (r.1 = 0), r.2)

/-- The part of `do_brk` between the two copies from and to the user's memory, for the word `brk` it read there. -/
def setBrk (kmalloc : Nat → Bool) (brk : Nat) (s : Vm) : Except VmPanic Vm :=
  if brk < s.mm.brkStart then .ok s
  else do
    let newbrk := roundUp brk pgSize
    ensure (s.mm.brk % pgSize = 0) .brkAligned
    if newbrk = s.mm.brk then .ok s
    else do
      let r ← moveBrk kmalloc newbrk s
      if r.1 then .ok { r.2 with mm := { r.2.mm with brk := newbrk } } else .ok r.2

/-- `do_brk`, called with a pointer to a word of the user's that holds `brk`. -/
def doBrk (kmalloc : Nat → Bool) (brkStore brk : Nat) (s : Vm) : Except VmPanic (Int × Vm) :=
  if brkStore = 0 then .ok (-eInval, s)
  else do
    let c ← userMemCheck brkStore 4 true s.mm
    let s := { s with mm := c.2 }
    if c.1 then do
      let s ← setBrk kmalloc brk s
      let c ← userMemCheck brkStore 4 true s.mm
      .ok (0, { s with mm := c.2 })
    else .ok (-eInval, s)

end Ucore
