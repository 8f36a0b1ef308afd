import Ucore.Lemmas.Load

/-!
# Pages are used as their VMAs allow

The address spaces of a machine: `load_icode` makes one from a program and `copy_mm` makes one from another, and page faults,
`mm_unmap` and `mm_brk` change them. Every page that is mapped lies in a VMA and can be written exactly if the VMA can, so that a
page fault never takes a page that is present for one that is swapped out (`page_permissions_follow_vmas`). This asks of the
programs that no segment wraps around: `mm_map` and the loop that loads the segment both add `p_memsz` to `p_va` in 32 bits, and
for a segment that wraps into the page it starts in, the VMA is one page long while the bytes from the file go on behind it
(`wrapped_segment_unguarded`).
-/

namespace Ucore

open Checked PageAux VmmAux

/-- The memory of a machine, the number of requests that `kmalloc` has seen, and the address spaces in use. -/
structure Spaces where
  mem : Memory
  kmallocs : Nat
  mms : List Mm

/-- One address space by itself. -/
def Spaces.vm (σ : Spaces) (mm : Mm) : Vm := ⟨mm, σ.mem, σ.kmallocs⟩

/-- The address space number `i` after a call. -/
def Spaces.put (σ : Spaces) (i : Nat) (s : Vm) : Spaces := ⟨s.mem, s.kmallocs, σ.mms.set i s.mm⟩

/-- A new address space. -/
def Spaces.add (σ : Spaces) (mm : Mm) (new : NewMm) : Spaces := ⟨new.mem, new.kmallocs, mm :: σ.mms⟩

/-- What a machine reaches from the memory `mem₀` when it runs programs that are `allowed`. A call that an assertion stops leads
nowhere. The heap grows into ranges that no VMA has. -/
inductive SpacesReach (kmalloc : Nat → Bool) (allowed : Reader → Prop) (mem₀ : Memory) : Spaces → Prop where
  | start (kmallocs : Nat) : SpacesReach kmalloc allowed mem₀ ⟨mem₀, kmallocs, []⟩
  | exec {σ : Spaces} {new : NewMm} {mm : Mm} (read : Reader) (rnd₁ rnd₂ : Nat) (vmas : Nat → Vma) :
      SpacesReach kmalloc allowed mem₀ σ → allowed read →
      loadIcode kmalloc read rnd₁ rnd₂ vmas σ.mem σ.kmallocs = .ok new → new.mm = some mm →
      SpacesReach kmalloc allowed mem₀ (σ.add mm new)
  | fork {σ : Spaces} {new : NewMm} {oldmm mm : Mm} (vmas : Nat → Vma) : SpacesReach kmalloc allowed mem₀ σ → oldmm ∈ σ.mms →
      copyMm kmalloc vmas oldmm σ.mem σ.kmallocs = .ok new → new.mm = some mm →
      SpacesReach kmalloc allowed mem₀ (σ.add mm new)
  | fault {σ : Spaces} {mm : Mm} {s : Vm} {r : Int} (i code addr : Nat) : SpacesReach kmalloc allowed mem₀ σ →
      σ.mms[i]? = some mm → doPgfault code addr (σ.vm mm) = .ok (r, s) → SpacesReach kmalloc allowed mem₀ (σ.put i s)
  | unmap {σ : Spaces} {mm : Mm} {s : Vm} {r : Int} (i addr len : Nat) : SpacesReach kmalloc allowed mem₀ σ →
      σ.mms[i]? = some mm → mmUnmap kmalloc addr len (σ.vm mm) = .ok (r, s) → SpacesReach kmalloc allowed mem₀ (σ.put i s)
  | brk {σ : Spaces} {mm : Mm} {s : Vm} {r : Int} (i addr len : Nat) : SpacesReach kmalloc allowed mem₀ σ →
      σ.mms[i]? = some mm → mm.Unoccupied (roundDown addr pgSize) (roundUp ((addr + len) % addrSize) pgSize) →
      mmBrk kmalloc addr len (σ.vm mm) = .ok (r, s) → SpacesReach kmalloc allowed mem₀ (σ.put i s)

/-- The processor raises a page fault with this error code at a page that the directory maps so: the page is not present, or the
access is a write that the entry does not allow, or one by the user that it does not allow. -/
def Raises (entry : Option (Nat × Nat)) (code : Nat) : Prop :=
  match entry with
  | none => code &&& 1 = 0
  | some (_, flags) => code &&& 1 ≠ 0 ∧ (code &&& 2 ≠ 0 ∧ flags &&& pteW = 0 ∨ code &&& 4 ≠ 0 ∧ flags &&& pteU = 0)

namespace VmmAux

variable {kmalloc : Nat → Bool} {pg0 : Nat → Page} {I A : Set Nat} {mem₀ : Memory} {σ : Spaces} {mm : Mm} {s : Vm}

/-- All address spaces are guarded, and no two have the same directory. -/
structure AllGuarded (pg0 : Nat → Page) (I : Set Nat) (σ : Spaces) : Prop where
  inv : ∃ A, σ.mem.Inv pg0 I A (fun _ => 0)
  guarded : ∀ (i : Nat) mm, σ.mms[i]? = some mm → (σ.vm mm).Guarded pg0 I
  apart : ∀ (i : Nat) mm (j : Nat) mm', σ.mms[i]? = some mm → σ.mms[j]? = some mm' → mm.pgdir = mm'.pgdir → i = j

/-- A call for one address space. -/
theorem allGuarded_put (h : AllGuarded pg0 I σ) {i : Nat} (hi : σ.mms[i]? = some mm) (hu : Upholds pg0 I (σ.vm mm) s) :
    AllGuarded pg0 I (σ.put i s) := by
  have hlt : i < σ.mms.length := (List.getElem?_eq_some_iff.mp hi).1
  have hg : ∀ (j : Nat) mm', (σ.put i s).mms[j]? = some mm' → (j = i ∧ mm' = s.mm) ∨ (j ≠ i ∧ σ.mms[j]? = some mm') := by
    intro j mm' hj
    change (σ.mms.set i s.mm)[j]? = some mm' at hj
    by_cases hji : j = i
    · subst hji
      rw [List.getElem?_set_self hlt] at hj
      exact Or.inl ⟨rfl, (Option.some.inj hj).symm⟩
    · rw [List.getElem?_set_ne (Ne.symm hji)] at hj
      exact Or.inr ⟨hji, hj⟩
  refine ⟨hu.guarded.inv, ?_, ?_⟩
  · intro j mm' hj
    rcases hg j mm' hj with ⟨-, rfl⟩ | ⟨hji, hj⟩
    · exact hu.guarded
    · exact guarded_other (s := σ.vm mm) (h.guarded j mm' hj) hu (fun he => hji (h.apart j mm' i mm hj hi he))
  · intro j mm1 k mm2 hj hk heq
    rcases hg j mm1 hj with ⟨rfl, rfl⟩ | ⟨-, hj0⟩
    · rcases hg k mm2 hk with ⟨rfl, -⟩ | ⟨-, hk0⟩
      · rfl
      · exact h.apart j mm k mm2 hi hk0 (hu.pgdir.symm.trans heq)
    · rcases hg k mm2 hk with ⟨rfl, rfl⟩ | ⟨-, hk0⟩
      · exact h.apart j mm1 k mm hj0 hi (heq.trans hu.pgdir)
      · exact h.apart j mm1 k mm2 hj0 hk0 heq

/-- A new address space. -/
theorem allGuarded_add {new : NewMm} (h : AllGuarded pg0 I σ)
    (hf : Founds pg0 I σ.mem σ.kmallocs ⟨mm, new.mem, new.kmallocs⟩) : AllGuarded pg0 I (σ.add mm new) := by
  have hold : ∀ (j : Nat) mm', σ.mms[j]? = some mm' → ((σ.add mm new).vm mm').Guarded pg0 I := by
    intro j mm' hj
    have hg := h.guarded j mm' hj
    refine ⟨hf.guarded.inv, tidy_mono hg.tidy hf.le, hg.sorted, ?_, ?_⟩
    · change mm'.pgdir ∈ new.mem.pgdirs
      have hd : new.mem.pgdirs = mm.pgdir :: σ.mem.pgdirs := hf.pgdirs
      rw [hd]
      exact List.mem_cons_of_mem _ hg.dir
    · intro n hn e hw
      exact hg.guarded n hn e ((hf.others mm'.pgdir hg.dir n hn).symm.trans hw)
  have hne : ∀ (j : Nat) mm', σ.mms[j]? = some mm' → mm.pgdir ≠ mm'.pgdir := by
    intro j mm' hj he
    have hdir : mm'.pgdir ∈ σ.mem.pgdirs := (h.guarded j mm' hj).dir
    exact hf.fresh (he ▸ hdir)
  refine ⟨hf.guarded.inv, ?_, ?_⟩
  · intro i mm' hi
    cases i with
    | zero =>
      obtain rfl : mm = mm' := Option.some.inj hi
      exact hf.guarded
    | succ i => exact hold i mm' hi
  · intro i mm1 j mm2 hi hj heq
    cases i with
    | zero =>
      obtain rfl : mm = mm1 := Option.some.inj hi
      cases j with
      | zero => rfl
      | succ j => exact absurd heq (hne j mm2 hj)
    | succ i =>
      cases j with
      | zero =>
        obtain rfl : mm = mm2 := Option.some.inj hj
        exact absurd heq.symm (hne i mm1 hi)
      | succ j => exact congrArg Nat.succ (h.apart i mm1 j mm2 hi hj heq)

/-- Every step keeps all address spaces guarded. -/
theorem allGuarded_of_reach (hm : mem₀.Inv pg0 I A (fun _ => 0)) (h : SpacesReach kmalloc Reader.NoWrap mem₀ σ) :
    AllGuarded pg0 I σ := by
  induction h with
  | start kmallocs => exact ⟨⟨A, hm⟩, nofun, nofun⟩
  | exec read rnd1 rnd2 vmas _ hw hr hmm ih =>
    obtain ⟨A', hinv⟩ := ih.inv
    have hfo := (loadIcode_spec kmalloc rnd1 rnd2 vmas _ hinv hw).ok hr
    exact allGuarded_add ih (hfo _ hmm)
  | fork vmas _ hold hr hmm ih =>
    obtain ⟨i, hi⟩ := List.mem_iff_getElem?.mp hold
    exact allGuarded_add ih (copyMm_founds (ih.guarded i _ hi) hr hmm)
  | fault i code addr _ hi hr ih => exact allGuarded_put ih hi (doPgfault_upholds (ih.guarded i _ hi) hr)
  | unmap i addr len _ hi hr ih => exact allGuarded_put ih hi (mmUnmap_upholds (ih.guarded i _ hi) hr)
  | brk i addr len _ hi hf hr ih => exact allGuarded_put ih hi (mmBrk_upholds (ih.guarded i _ hi) hf hr)

/-- Where `do_pgfault` goes on to `swap_in`: the VMA of the address allows the access, and the entry is not zero. -/
theorem doPgfault_swapIn {code addr pte : Nat} (h : s.Guarded pg0 I) (hr : doPgfault code addr s = .error (.swapIn pte)) :
    ∃ v ∈ s.mm.mmapList, s.mm.Has addr v ∧ faultPerm (s.mm.vmas v) code ≠ none ∧
      s.mem.walk s.mm.pgdir (addr / 4096) = decode pte := by
  obtain ⟨A, hinv⟩ := h.inv
  obtain ⟨c, -, hno | ⟨v, hv, hh, perm, hp, hm⟩⟩ := doPgfault_cases h.tidy code addr
  · rw [hno] at hr
    cases hr
  rw [hm] at hr
  obtain ⟨hla, hpa, hn, -⟩ := page_of_has h.tidy hv hh
  refine ⟨v, hv, hh, by rw [hp]; exact nofun, ?_⟩
  unfold mapFault at hr
  rcases getPte_true hinv h.dir hla with ⟨-, hg, -⟩ | ⟨-, hg, -⟩ | ⟨t, mem1, A1, hg, ht⟩
  · rw [hg] at hr
    cases hr
  · rw [hg] at hr
    cases hr
  · rw [hpa] at hg ht
    rw [hg, mapError_ok, bind_ok] at hr
    dsimp only at hr
    split at hr
    · cases ha : pgdirAllocPage s.mm.pgdir (roundDown addr pgSize) perm mem1 with
      | error p =>
        rw [ha] at hr
        cases hr
      | ok r =>
        rw [ha] at hr
        cases hr
    · split at hr
      · cases hr
        rw [← ht.walks s.mm.pgdir h.dir _ hn, Memory.walk, ht.table]
        rfl
      · cases hr

/-- A fault that the processor raises at a page that is present is not one that the VMA allows. -/
theorem not_present_of_swapIn {code addr pte : Nat} (h : s.Guarded pg0 I)
    (hra : Raises (s.mem.walk s.mm.pgdir (addr / 4096)) code) (hr : doPgfault code addr s = .error (.swapIn pte)) :
    pte &&& pteP = 0 := by
  obtain ⟨v, hv, hh, hp, hw⟩ := doPgfault_swapIn h hr
  obtain ⟨-, -, hn, hpa⟩ := page_of_has h.tidy hv hh
  rw [← decode_eq_none]
  cases hd : decode pte with
  | none => rfl
  | some e =>
    exfalso
    obtain ⟨frame, flags⟩ := e
    rw [hw, hd] at hra
    obtain ⟨f, ⟨u, hu, huh, hf⟩, hU, hW⟩ := h.guarded _ hn _ (hw.trans hd)
    rw [List.append_nil] at hu
    -- the VMA that guards the page is the one that `do_pgfault` found
    obtain rfl : u = v := h.sorted.ordered.eq_of_within hu hv huh hpa
    obtain ⟨hpr, ⟨hwr, hnoW⟩ | ⟨-, hnoU⟩⟩ := hra
    · have hno : (s.mm.vmas u).vmFlags &&& vmWrite = 0 := by
        by_contra hne
        exact hW.mpr (hf ▸ hne) hnoW
      have hthree : code &&& 3 = 3 := by
        have h1 : code % 2 = 1 := by
          rw [Nat.and_one_is_mod] at hpr
          omega
        have h2 : code / 2 % 2 = 1 := by
          by_contra hz
          apply hwr
          have hb : code.testBit 1 = false := by
            rw [Nat.testBit_eq_decide_div_mod_eq]
            simpa using hz
          apply Nat.eq_of_testBit_eq
          intro k
          rw [Nat.testBit_and, Nat.zero_testBit]
          by_cases hk : k = 1
          · rw [hk, hb, Bool.false_and]
          · rw [Nat.testBit_two_pow_of_ne (Ne.symm hk), Bool.and_false]
        rw [show (3 : Nat) = 2 ^ 2 - 1 from rfl, Nat.and_two_pow_sub_one_eq_mod]
        omega
      apply hp
      unfold faultPerm
      rw [hthree]
      simp [hno]
    · exact hU hnoU

end VmmAux

/-- In every run of programs whose segments do not wrap around, and in every address space: a page that is mapped lies in a VMA,
which is the only one that holds it; the user may use the page, and its entry allows writing exactly if the VMA does. And where
the processor raises a fault and `do_pgfault` goes on to `swap_in`, the entry is not present. -/
theorem page_permissions_follow_vmas {kmalloc : Nat → Bool} {M : Machine} {mem₀ : Memory} {σ : Spaces} (hmem : MemReach M mem₀)
    (h : SpacesReach kmalloc Reader.NoWrap mem₀ σ) (mm : Mm) (hmm : mm ∈ σ.mms) :
    (∀ n < userPages, ∀ frame flags, σ.mem.walk mm.pgdir n = some (frame, flags) →
      ∃ v ∈ mm.mmapList, mm.Has (n * pgSize) v ∧ (∀ u ∈ mm.mmapList, mm.Has (n * pgSize) u → u = v) ∧
        flags &&& pteU ≠ 0 ∧ (flags &&& pteW ≠ 0 ↔ (mm.vmas v).vmFlags &&& vmWrite ≠ 0)) ∧
    ∀ code addr pte, Raises (σ.mem.walk mm.pgdir (addr / pgSize)) code →
      doPgfault code addr (σ.vm mm) = .error (.swapIn pte) → pte &&& pteP = 0 := by
  obtain ⟨A, hinv⟩ := inv_of_memReach hmem
  obtain ⟨i, hi⟩ := List.mem_iff_getElem?.mp hmm
  have hg := (allGuarded_of_reach hinv h).guarded i mm hi
  refine ⟨?_, fun code addr pte hraise hr => not_present_of_swapIn hg hraise hr⟩
  intro n hn frame flags hw
  obtain ⟨f, ⟨v, hv, hhas, hf⟩, hU, hW⟩ := hg.guarded n hn _ hw
  rw [List.append_nil] at hv
  refine ⟨v, hv, hhas, fun u hu huhas => hg.sorted.ordered.eq_of_within hu hv huhas hhas, hU, ?_⟩
  have hf : (mm.vmas v).vmFlags = f := hf
  rw [hf]
  exact hW

/-! ## Two programs -/

namespace VmmAux

/-- A machine with the fourteen pages 2 to 15. -/
def loadMachine : Machine := PageAux.machineOf 14 (by decide) (by decide)

/-- Its memory when it has booted. -/
def loadMemory : Memory := PageAux.bootedFrom loadMachine

theorem loadMemory_reach : MemReach loadMachine loadMemory := .boot rfl

/-- An ELF file with one program header, right behind the ELF header, and zeros where the segment's bytes are. -/
def oneSegment (ph : Proghdr) : Reader := fun offset _ =>
  let elf := fun i => if i < 4 then Bytes.byteOf elfMagic i else if i = 28 then 52 else if i = 44 then 1 else 0
  let words := [ph.pType, ph.pOffset, ph.pVa, 0, ph.pFilesz, ph.pMemsz, ph.pFlags, pgSize]
  (0, if offset = 0 then elf else if offset = 52 then fun i => Bytes.byteOf (words.getD (i / 4) 0) (i % 4) else fun _ => 0)

/-- What the loader makes of the program in a memory. -/
def loadOne (mem : Memory) (ph : Proghdr) : Except LoadPanic NewMm :=
  loadIcode (fun _ => true) (oneSegment ph) 0 0 (fun _ => ⟨0, 0, 0, 0⟩) mem 0

/-- A segment that starts at the last byte of a page and wraps around to the end of that page, with 4097 bytes from the file. -/
def wrappedProghdr : Proghdr := ⟨elfPtLoad, 4096, 0x200FFF, 0x1001, 0xFFFFFFFF, elfPfR ||| elfPfW⟩

/-- A segment of eight bytes that can be read and executed, four of them from the file. -/
def codeProghdr : Proghdr := ⟨elfPtLoad, 4096, 0x800020, 4, 8, elfPfR ||| elfPfX⟩

end VmmAux

/-- A program is loaded whose segment wraps around: the page at `0x201000` is mapped, and no VMA has it. -/
theorem wrapped_segment_unguarded :
    ∃ σ, SpacesReach (fun _ => true) (fun _ => True) VmmAux.loadMemory σ ∧
      ∃ mm ∈ σ.mms, (σ.mem.walk mm.pgdir 0x201).isSome ∧ ∀ v ∈ mm.mmapList, ¬mm.Has (0x201 * pgSize) v := by
  refine ⟨_, .exec _ 0 0 _ (.start 0) trivial (eq_ok_okGet (x := loadOne VmmAux.loadMemory VmmAux.wrappedProghdr) (by decide +kernel))
    (Option.some_get (by decide +kernel)).symm, _, List.mem_cons_self, by decide +kernel, by decide +kernel⟩

/-- A program is loaded whose segment can be read and executed: its page is mapped, and cannot be written. -/
theorem page_permissions_follow_vmas_code :
    ∃ σ, SpacesReach (fun _ => true) Reader.NoWrap VmmAux.loadMemory σ ∧ ∃ mm ∈ σ.mms, ∃ frame flags,
      σ.mem.walk mm.pgdir 0x800 = some (frame, flags) ∧ flags &&& pteU ≠ 0 ∧ flags &&& pteW = 0 := by
  have hwrap : (oneSegment VmmAux.codeProghdr).NoWrap := by
    unfold Reader.NoWrap Proghdr.NoWrap
    decide +kernel
  have hr : loadOne VmmAux.loadMemory VmmAux.codeProghdr = .ok _ := eq_ok_okGet (by decide +kernel)
  have hreach := SpacesReach.exec _ 0 0 _ (.start 0) hwrap hr (Option.some_get (by decide +kernel)).symm
  obtain ⟨-, -, -, -, hU, -⟩ :=
    (page_permissions_follow_vmas loadMemory_reach hreach _ List.mem_cons_self).1 0x800 (by decide) 3 5 (by decide +kernel)
  exact ⟨_, hreach, _, List.mem_cons_self, 3, 5, by decide +kernel, hU, by decide⟩

end Ucore
