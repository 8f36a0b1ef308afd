import Ucore.Vmm
import Ucore.Lib.Bytes

/-!
# Address spaces for programs

The two functions of `kern/process/proc.c` that make an address space: `load_icode`, which fills one from an ELF file, and
`copy_mm`, which copies that of the parent. Both set it up with `mm_create` and `setup_pgdir`, and give everything back when they
fail.

The file is given by what `load_icode_read` makes of it: `read offset len` is its return value and the bytes it has stored, of
which the first `len` count. The return values of `rand` are arguments. All sums are those of 32-bit unsigned numbers.

Not modelled: the trap frame, the reference count and the lock of the address space, and `CLONE_VM`. The arguments that
`load_icode` puts on the new stack are in `Ucore.Args`.
-/

namespace Ucore

open Checked

/-- `ELF_MAGIC`. -/
def elfMagic : Nat := 0x464C457F

/-- `ELF_PT_LOAD`. -/
def elfPtLoad : Nat := 1

/-- `ELF_PF_X`. -/
def elfPfX : Nat := 1

/-- `ELF_PF_W`. -/
def elfPfW : Nat := 2

/-- `ELF_PF_R`. -/
def elfPfR : Nat := 4

/-- `USTACKTOP`. -/
def ustackTop : Nat := userTop

/-- `USTACKSIZE`: 256 pages. -/
@[irreducible] def ustackSize : Nat := 256 * pgSize

/-- `USTACK_RND_MASK`. -/
def ustackRndMask : Nat := 0x7FF

/-- `UBRK_RND_MASK`. -/
def ubrkRndMask : Nat := 0x7FF

/-- What `load_icode_read` does with an offset and a length. -/
abbrev Reader := Nat → Nat → Int × (Nat → UInt8)

/-- The fields of `struct elfhdr` that are read. -/
structure Elfhdr where
  eMagic : Nat
  ePhoff : Nat
  ePhnum : Nat
  deriving DecidableEq, Repr

/-- `sizeof(struct elfhdr)`. -/
def elfhdrSize : Nat := 52

def elfhdrOf (b : Nat → UInt8) : Elfhdr := ⟨Bytes.word b 0, Bytes.word b 28, Bytes.half b 44⟩

/-- The fields of `struct proghdr` that are read. -/
structure Proghdr where
  pType : Nat
  pOffset : Nat
  pVa : Nat
  pFilesz : Nat
  pMemsz : Nat
  pFlags : Nat
  deriving DecidableEq, Repr

/-- `sizeof(struct proghdr)`. -/
def proghdrSize : Nat := 32

def proghdrOf (b : Nat → UInt8) : Proghdr :=
  ⟨Bytes.word b 0, Bytes.word b 4, Bytes.word b 8, Bytes.word b 16, Bytes.word b 20, Bytes.word b 24⟩

/-- The difference of two 32-bit unsigned numbers. -/
def sub32 (a b : Nat) : Nat := (a + addrSize - b) % addrSize

/-- What stops `load_icode`: its assertions and those of the functions it calls. `overrun` is no assertion: it says that the bytes
of a page are written beyond its end, which is not followed any further. `unfinished` says that a loop of the model ran out of the
number of rounds it was given. -/
inductive LoadPanic where
  | vm (p : VmPanic) | tail | stack | overrun | unfinished
  deriving DecidableEq, Repr

/-- The bytes of a frame. -/
def Memory.bytes (s : Memory) (frame i : Nat) : UInt8 := Bytes.byteOf (s.frames frame (i / 4)) (i % 4)

/-- `len` bytes stored at `page2kva(page) + off`. -/
def Memory.writeBytes (s : Memory) (page off len : Nat) (b : Nat → UInt8) : Except LoadPanic Memory := do
  let frame ← (kaddr s (page2pa page)).mapError (fun p => .vm (.mem p))
  ensure (off + len ≤ pgSize) .overrun
  .ok (s.fill frame (fun w => Bytes.word (Bytes.patch (s.bytes frame) off len b) (4 * w)))

/-- Where the loader is in a segment: the variables `start`, `la`, `offset` and `page`. -/
structure Cursor where
  start : Nat
  la : Nat
  offset : Nat
  page : Option Nat
  deriving DecidableEq, Repr

/-- What is put into a new page: from the offset of the file, to the page, at an offset there, so many bytes. -/
abbrev Put := Nat → Nat → Nat → Nat → Memory → Except LoadPanic (Int × Memory)

/-- The bytes of the file. -/
def putFile (read : Reader) : Put := fun offset page off size s =>
  let r := read offset size
  if r.1 ≠ 0 then .ok (r.1, s)
  else do
    let s ← s.writeBytes page off size r.2
    .ok (0, s)

/-- Zeros. -/
def putZeros : Put := fun _ page off size s => do
  let s ← s.writeBytes page off size (fun _ => 0)
  .ok (0, s)

/-- How many bytes of a page are written, from the offset `off` in the page that ends at `la`: up to the end of the page, or up to
`stop` if that comes first. -/
def pieceSize (off la stop : Nat) : Nat :=
  if stop < la then sub32 (sub32 pgSize off) (sub32 la stop) else sub32 pgSize off

/-- The two loops of `load_icode` over the pages of a segment; `stop` is `end`. The third argument bounds the number of
rounds. -/
def allocLoop (pgdir perm stop : Nat) (put : Put) : Nat → Cursor → Memory → Except LoadPanic (Int × Cursor × Memory)
  | 0, _, _ => .error .unfinished
  | rounds + 1, c, s =>
    if c.start < stop then do
      let r ← (pgdirAllocPage pgdir c.la perm s).mapError (fun p => .vm (.mem p))
      match r.1 with
      | none => .ok (-eNoMem, c, r.2)
      | some page =>
        let off := sub32 c.start c.la
        let la := (c.la + pgSize) % addrSize
        let size := pieceSize off la stop
        let p ← put c.offset page off size r.2
        if p.1 ≠ 0 then .ok (p.1, { c with la := la, page := some page }, p.2)
        else
          allocLoop pgdir perm stop put rounds
            ⟨(c.start + size) % addrSize, la, (c.offset + size) % addrSize, some page⟩ p.2
    else .ok (0, c, s)

/-- The number of rounds given to `allocLoop`. -/
def Cursor.rounds (c : Cursor) (stop : Nat) : Nat := (stop - c.la) / pgSize + 2

/-- `memset(page2kva(page) + off, 0, len)`, where `page` may not have been set yet. -/
def Memory.zeroBytes (s : Memory) (page : Option Nat) (off len : Nat) : Except LoadPanic Memory :=
  match page with
  | none => .error .overrun
  | some page => s.writeBytes page off len (fun _ => 0)

/-- The part of `load_icode` that zeroes the rest of the last page that was read from the file. -/
def zeroTail (stop : Nat) (c : Cursor) (s : Memory) : Except LoadPanic (Cursor × Memory) := do
  let off := sub32 ((c.start + pgSize) % addrSize) c.la
  let size := pieceSize off c.la stop
  let s ← s.zeroBytes c.page off size
  let start := (c.start + size) % addrSize
  ensure (stop < c.la ∧ start = stop ∨ c.la ≤ stop ∧ start = c.la) .tail
  .ok ({ c with start := start }, s)

/-- The `vm_flags` of a segment. -/
def Proghdr.vmFlags (ph : Proghdr) : Nat :=
  (if ph.pFlags &&& elfPfX ≠ 0 then vmExec else 0) ||| (if ph.pFlags &&& elfPfW ≠ 0 then vmWrite else 0) |||
    (if ph.pFlags &&& elfPfR ≠ 0 then vmRead else 0)

/-- The permissions of the pages of a segment. -/
def Proghdr.perm (ph : Proghdr) : Nat := if ph.vmFlags &&& vmWrite ≠ 0 then pteU ||| pteW else pteU

/-- The end of a segment in memory: `p_va + p_memsz`. -/
def Proghdr.memEnd (ph : Proghdr) : Nat := (ph.pVa + ph.pMemsz) % addrSize

/-- The end of a segment's bytes from the file: `p_va + p_filesz`. -/
def Proghdr.fileEnd (ph : Proghdr) : Nat := (ph.pVa + ph.pFilesz) % addrSize

/-- The last lines of the loop of `load_icode`, which a `continue` passes by. -/
def raiseBrk (ph : Proghdr) (mm : Mm) : Mm := if mm.brkStart < ph.memEnd then { mm with brkStart := ph.memEnd } else mm

/-- The part of `load_icode` that allocates the pages of a segment beyond those of the file, from the cursor on. -/
def loadBss (ph : Proghdr) (c : Cursor) (s : Vm) : Except LoadPanic (Int × Vm) := do
  let z ← allocLoop s.mm.pgdir ph.perm ph.memEnd putZeros (c.rounds ph.memEnd) c s.mem
  if z.1 ≠ 0 then .ok (z.1, { s with mem := z.2.2 })
  else .ok (0, { s with mm := raiseBrk ph s.mm, mem := z.2.2 })

/-- The part of `load_icode` that fills the VMA of a segment. -/
def loadPages (read : Reader) (ph : Proghdr) (s : Vm) : Except LoadPanic (Int × Vm) := do
  let c : Cursor := ⟨ph.pVa, roundDown ph.pVa pgSize, ph.pOffset, none⟩
  let f ← allocLoop s.mm.pgdir ph.perm ph.fileEnd (putFile read) (c.rounds ph.fileEnd) c s.mem
  let s := { s with mem := f.2.2 }
  if f.1 ≠ 0 then .ok (f.1, s)
  else if f.2.1.start < f.2.1.la then
    if f.2.1.start = ph.memEnd then .ok (0, s)
    else do
      let t ← zeroTail ph.memEnd f.2.1 s.mem
      loadBss ph t.1 { s with mem := t.2 }
  else loadBss ph f.2.1 s

/-- The body of the loop of `load_icode` over the program headers. -/
def loadSegment (kmalloc : Nat → Bool) (read : Reader) (ph : Proghdr) (s : Vm) : Except LoadPanic (Int × Vm) :=
  if ph.pType ≠ elfPtLoad then .ok (0, s)
  else if ph.pMemsz < ph.pFilesz then .ok (-eInvalElf, s)
  else if ph.pFilesz = 0 then .ok (0, s)
  else do
    let m ← (mmMap kmalloc ph.pVa ph.pMemsz ph.vmFlags s).mapError .vm
    if m.1 ≠ 0 then .ok (m.1, m.2.2) else loadPages read ph m.2.2

/-- The program header `phnum`, as `load_icode` reads it. -/
def readProghdr (read : Reader) (elf : Elfhdr) (phnum : Nat) : Int × Proghdr :=
  let r := read ((elf.ePhoff + proghdrSize * phnum) % addrSize) proghdrSize
  (r.1, proghdrOf r.2)

/-- The loop of `load_icode` over the program headers, with so many of them left. -/
def loadSegments (kmalloc : Nat → Bool) (read : Reader) (elf : Elfhdr) : Nat → Nat → Vm → Except LoadPanic (Int × Vm)
  | 0, _, s => .ok (0, s)
  | left + 1, phnum, s =>
    let r := readProghdr read elf phnum
    if r.1 ≠ 0 then .ok (r.1, s)
    else onZero (loadSegment kmalloc read r.2 s) (loadSegments kmalloc read elf left (phnum + 1))

/-- One of the pages of the new stack. -/
def stackPage (pgdir la : Nat) (s : Memory) : Except LoadPanic Memory := do
  let r ← (pgdirAllocPage pgdir la pteUser s).mapError (fun p => .vm (.mem p))
  ensure (r.1.isSome = true) .stack
  .ok r.2

/-- The part of `load_icode` that makes the stack. -/
def mapStack (kmalloc : Nat → Bool) (stacktop : Nat) (s : Vm) : Except LoadPanic (Int × Vm) := do
  let m ← (mmMap kmalloc (stacktop - ustackSize) ustackSize (vmRead ||| vmWrite ||| vmStack) s).mapError .vm
  let s := m.2.2
  if m.1 ≠ 0 then .ok (m.1, s)
  else do
    let mem ← [1, 2, 3, 4].foldlM (fun mem i => stackPage s.mm.pgdir (stacktop - i * pgSize) mem) s.mem
    .ok (0, { s with mem := mem })

/-- Where the break starts: behind the segments, and a random number of pages further. -/
def placeBrk (rnd : Nat) (mm : Mm) : Mm :=
  let brk := (roundUp mm.brkStart pgSize + (rnd % ubrkRndMask) * pgSize) % addrSize
  { mm with brkStart := brk, brk := brk }

/-- What `load_icode` does once the ELF header is read: the segments, the break and the stack. -/
def loadBody (kmalloc : Nat → Bool) (read : Reader) (elf : Elfhdr) (rnd₁ rnd₂ : Nat) (s : Vm) : Except LoadPanic (Int × Vm) :=
  onZero (loadSegments kmalloc read elf elf.ePhnum 0 s) fun s =>
    mapStack kmalloc (ustackTop - (rnd₂ % ustackRndMask) * pgSize) { s with mm := placeBrk rnd₁ s.mm }

/-- What the functions of this module end with: the value returned, and where it is 0 the new address space. -/
structure NewMm where
  ret : Int
  mm : Option Mm
  mem : Memory
  kmallocs : Nat

/-- `load_icode`, where the bytes of the VMAs to come are those of `vmas`. -/
def loadIcode (kmalloc : Nat → Bool) (read : Reader) (rnd₁ rnd₂ : Nat) (vmas : Nat → Vma) (mem : Memory) (kmallocs : Nat) :
    Except LoadPanic NewMm :=
  if ¬kmalloc kmallocs then .ok ⟨-eNoMem, none, mem, kmallocs + 1⟩
  else do
    let d ← (setupPgdir mem).mapError (fun p => .vm (.mem p))
    match d.1 with
    | none => .ok ⟨-eNoMem, none, d.2, kmallocs + 1⟩
    | some pgdir => do
      let s : Vm := ⟨{ mmCreate kmallocs vmas with pgdir := pgdir }, d.2, kmallocs + 1⟩
      let e := read 0 elfhdrSize
      if e.1 ≠ 0 ∨ (elfhdrOf e.2).eMagic ≠ elfMagic then do
        let mem ← (putPgdir pgdir s.mem).mapError (fun p => .vm (.mem p))
        .ok ⟨if e.1 ≠ 0 then e.1 else -eInvalElf, none, mem, s.kmallocs⟩
      else do
        let r ← loadBody kmalloc read (elfhdrOf e.2) rnd₁ rnd₂ s
        if r.1 = 0 then .ok ⟨0, some r.2.mm, r.2.mem, r.2.kmallocs⟩
        else do
          let m ← (releaseMm r.2).mapError .vm
          .ok ⟨r.1, none, m.1, r.2.kmallocs⟩

/-- `copy_mm` without `CLONE_VM`, of a process whose address space is `oldmm`. -/
def copyMm (kmalloc : Nat → Bool) (vmas : Nat → Vma) (oldmm : Mm) (mem : Memory) (kmallocs : Nat) : Except VmPanic NewMm :=
  if ¬kmalloc kmallocs then .ok ⟨-eNoMem, none, mem, kmallocs + 1⟩
  else do
    let d ← (setupPgdir mem).mapError .mem
    match d.1 with
    | none => .ok ⟨-eNoMem, none, d.2, kmallocs + 1⟩
    | some pgdir => do
      let r ← dupMmap kmalloc oldmm ⟨{ mmCreate kmallocs vmas with pgdir := pgdir }, d.2, kmallocs + 1⟩
      if r.1 ≠ 0 then do
        let m ← releaseMm r.2
        .ok ⟨r.1, none, m.1, r.2.kmallocs⟩
      else .ok ⟨0, some { r.2.mm with brkStart := oldmm.brkStart, brk := oldmm.brk }, r.2.mem, r.2.kmallocs⟩

end Ucore
