import Ucore.Lemmas.AddressSpace

/-!
# What an address space gives back

An address space is set up by `mm_create` and `setup_pgdir`, used by `mm_map`, page faults, `mm_unmap` and `do_brk`, and released by
`exit_mmap`, `put_pgdir` and `mm_destroy`. Its frames and its directory always go back to the allocator. Its page tables do not:
`exit_mmap` gives back the tables of the slots that the VMAs touch which are there at the exit, and `mm_unmap` gives back no table
(`unmapped_table_lost`). What is lost is counted by `Vm.leaked`, and is nothing exactly if every slot with a table is touched
(`space_given_back`).
-/

namespace Ucore

open Checked Spans Blocks PageAux

/-- The address spaces that a run leads to from the memory `mem₀`. The number counts the pages that others take in between,
`kmalloc` for one. -/
inductive SpaceReach (kmalloc : Nat → Bool) (mem₀ : Memory) : Nat → Vm → Prop where
  | setup {pgdir : Nat} {mem : Memory} (id : Nat) (vmas : Nat → Vma) (brk kmallocs : Nat) :
      setupPgdir mem₀ = .ok (some pgdir, mem) →
      SpaceReach kmalloc mem₀ 0
        { mm := { mmCreate id vmas with pgdir := pgdir, brkStart := brk, brk := brk }, mem := mem, kmallocs := kmallocs }
  | map {taken : Nat} {s s' : Vm} {r : Int} {w : Option Nat} (addr len flags : Nat) : SpaceReach kmalloc mem₀ taken s →
      mmMap kmalloc addr len flags s = .ok (r, w, s') → SpaceReach kmalloc mem₀ taken s'
  | fault {taken : Nat} {s s' : Vm} {r : Int} (code addr : Nat) : SpaceReach kmalloc mem₀ taken s →
      doPgfault code addr s = .ok (r, s') → SpaceReach kmalloc mem₀ taken s'
  | unmap {taken : Nat} {s s' : Vm} {r : Int} (addr len : Nat) : SpaceReach kmalloc mem₀ taken s →
      mmUnmap kmalloc addr len s = .ok (r, s') → SpaceReach kmalloc mem₀ taken s'
  | brk {taken : Nat} {s s' : Vm} {r : Int} (brkStore brk : Nat) : SpaceReach kmalloc mem₀ taken s →
      doBrk kmalloc brkStore brk s = .ok (r, s') → SpaceReach kmalloc mem₀ taken s'
  | take {taken page : Nat} {s : Vm} {mem : Memory} : SpaceReach kmalloc mem₀ taken s →
      allocPage s.mem = .ok (some page, mem) → SpaceReach kmalloc mem₀ (taken + 1) { s with mem := mem }

/-- A VMA of the address space touches the slot of the directory. -/
def Mm.TouchesSlot (mm : Mm) (k : Nat) : Prop := ∃ v ∈ mm.mmapList, Touches (mm.vmas v).vmStart (mm.vmas v).vmEnd k

instance (mm : Mm) (k : Nat) : Decidable (mm.TouchesSlot k) :=
  inferInstanceAs (Decidable (∃ v ∈ mm.mmapList, Touches (mm.vmas v).vmStart (mm.vmas v).vmEnd k))

/-- The number of page tables in slots that no VMA touches. -/
def Vm.leaked (s : Vm) : Nat :=
  ((Finset.range userSlots).filter (fun k => s.mem.table s.mm.pgdir k ≠ none ∧ ¬s.mm.TouchesSlot k)).card

namespace VmmAux

variable {kmalloc : Nat → Bool} {pages₀ : Nat → Page} {I A base : Set Nat} {mem₀ mem mem' : Memory} {s s' : Vm} {d taken : Nat}

/-- Every page that is mapped belongs to a VMA. -/
def Vm.Covered (s : Vm) : Prop := ∀ n < userPages, s.mem.walk s.mm.pgdir n ≠ none → ∃ f, s.mm.Covers [] (n * 4096) f

/-- What holds at every point of a run that began with `free` free pages. -/
structure Held (pages₀ : Nat → Page) (I : Set Nat) (free taken : Nat) (base A : Set Nat) (s : Vm) : Prop where
  pages : Private pages₀ I base s.mm.pgdir A s.mem
  count : (I \ base).ncard + taken = free
  tidy : s.mm.Tidy s.kmallocs []
  covered : Vm.Covered s

variable {free : Nat}

/-- A change of the VMAs, with the ranges that are unmapped. -/
theorem held_reshapes {ranges : List (Nat × Nat)} (h : Held pages₀ I free taken base A s) (hr : Reshapes ranges s s') :
    ∃ A', Held pages₀ I free taken base A' s' := by
  obtain ⟨A', hc⟩ := unmapRanges_cleared h.pages.inv h.pages.dir hr.mem
  refine ⟨A', hr.pgdir ▸ private_cleared h.pages hc, h.count, hr.tidy, ?_⟩
  intro n hn hw
  rw [hr.pgdir] at hw
  have ho : ¬InRanges ranges n := fun hin => hw (hc.cleared n hn hin)
  rw [hc.others _ h.pages.dir n hn (fun hcc => ho hcc.2)] at hw
  obtain ⟨f, hf⟩ := h.covered n hn hw
  exact ⟨f, (hr.lost _ f hf).resolve_right ho⟩

theorem private_faulted {n perm : Nat} (h : Private pages₀ I base d A mem) (hn : n < userPages)
    (hf : Faulted pages₀ I d n perm A mem mem') : ∃ A', Private pages₀ I base d A' mem' := by
  obtain ⟨A1, mem1, hma, hm⟩ := hf
  have h1 : Private pages₀ I base d A1 mem1 := by
    rcases hma with ⟨rfl, rfl⟩ | ⟨t, ht⟩
    · exact h
    · exact private_tabled h (slot_lt hn) ht
  rcases hm with rfl | ⟨area, rfl, hinv⟩ | ⟨p, A2, hp, hfr, hi⟩
  · exact ⟨A1, h1⟩
  · exact ⟨A1, private_area h1 hinv⟩
  · exact ⟨A2, private_inserted h1 hn hfr hp hi⟩

/-- A page fault maps no page but the one of the address. -/
theorem walk_faulted {n m perm : Nat} (hd : d ∈ mem.pgdirs) (hm : m < userPages) (hmn : m ≠ n)
    (hf : Faulted pages₀ I d n perm A mem mem') : mem'.walk d m = mem.walk d m := by
  obtain ⟨A1, mem1, hme, hma⟩ := hf
  have h1 : mem1.walk d m = mem.walk d m ∧ d ∈ mem1.pgdirs := by
    rcases hme with ⟨rfl, rfl⟩ | ⟨t, ht⟩
    · exact ⟨rfl, hd⟩
    · exact ⟨ht.walks d hd m hm, ht.pgdirs ▸ hd⟩
  rcases hma with rfl | ⟨area, rfl, -⟩ | ⟨p, A2, -, -, hi⟩
  · exact h1.1
  · exact h1.1
  · rw [hi.others d h1.2 m hm (fun hc => hmn hc.2), h1.1]

theorem held_fault {code addr : Nat} {r : Int} (h : Held pages₀ I free taken base A s)
    (hr : doPgfault code addr s = .ok (r, s')) : ∃ A', Held pages₀ I free taken base A' s' := by
  obtain ⟨c, hc, hmm, hk, hmem⟩ := doPgfault_spec h.tidy h.pages.inv h.pages.dir hr
  obtain ⟨mm', mem', k'⟩ := s'
  subst hmm hk
  have ht := tidy_setCache h.tidy hc
  rcases hmem with rfl | ⟨v, hv, hh, hf⟩
  · exact ⟨A, h.pages, h.count, ht, h.covered⟩
  · obtain ⟨-, -, hn, hhas'⟩ := page_of_has h.tidy hv hh
    obtain ⟨A', hp⟩ := private_faulted h.pages hn hf
    refine ⟨A', hp, h.count, ht, ?_⟩
    intro m hm hw
    by_cases hmn : m = addr / 4096
    · exact ⟨_, v, List.mem_append_left _ hv, hmn ▸ hhas', rfl⟩
    · have hs : mem'.walk s.mm.pgdir m = s.mem.walk s.mm.pgdir m := walk_faulted h.pages.dir hm hmn hf
      exact h.covered m hm (hs ▸ hw)

/-- A run keeps hold of its pages. -/
theorem held_of_reach {A0 : Set Nat} (hm : mem₀.Inv pages₀ I A0 (fun _ => 0)) (h : SpaceReach kmalloc mem₀ taken s) :
    ∃ base A, Held pages₀ I mem₀.area.nrFree taken base A s := by
  induction h with
  | setup id vmas brk kmallocs hrun =>
    rcases setupPgdir_spec hm with ⟨-, hs, -⟩ | ⟨-, hs, -⟩ | ⟨p, area, hs, -, hp, hinv⟩
    · rw [hs] at hrun
      cases hrun
    · rw [hs] at hrun
      cases hrun
    · rw [hs] at hrun
      cases hrun
      refine ⟨A0, _, private_setup hm hp hinv, (nrFree_eq hm.area).symm, ?_, ?_⟩
      · constructor
        all_goals simp [mmCreate]
      · intro n hn hw
        exact absurd (walk_withPgdir_self hm hn) hw
  | map addr len flags _ hrun ih =>
    obtain ⟨base, A, hh⟩ := ih
    rcases mmMap_adds hh.tidy rfl rfl hrun with ⟨-, ha, -⟩ | ⟨-, hk⟩
    · exact ⟨base, held_reshapes hh ha.reshapes⟩
    · exact ⟨base, held_reshapes hh (edits_kept hh.tidy hk).reshapes⟩
  | fault code addr _ hrun ih =>
    obtain ⟨base, A, hh⟩ := ih
    exact ⟨base, held_fault hh hrun⟩
  | unmap addr len _ hrun ih =>
    obtain ⟨base, A, hh⟩ := ih
    obtain ⟨ranges, he⟩ := edits_of_mmUnmap hh.tidy hrun
    exact ⟨base, held_reshapes hh he.reshapes⟩
  | brk brkStore brk _ hrun ih =>
    obtain ⟨base, A, hh⟩ := ih
    obtain ⟨ranges, hr⟩ := doBrk_reshapes hh.tidy hrun
    exact ⟨base, held_reshapes hh hr⟩
  | @take taken page s mem _ hrun ih =>
    obtain ⟨base, A, hh⟩ := ih
    rcases allocPage_spec hh.pages.inv with ⟨-, hs, -⟩ | ⟨-, hs, -⟩ | ⟨p, area, hs, ⟨⟨hpI, hp⟩, -⟩, har, href⟩
    · rw [hs] at hrun
      cases hrun
    · rw [hs] at hrun
      cases hrun
    · rw [hs] at hrun
      cases hrun
      refine ⟨base ∪ {page}, A ∪ {page}, private_alloc hh.pages hp har href, ?_, hh.tidy, hh.covered⟩
      have hpb : page ∈ I \ base := ⟨hpI, fun hb => hp (hh.pages.kept hb)⟩
      have hsp : I \ (base ∪ {page}) = (I \ base) \ {page} := by rw [Set.sdiff_sdiff]
      have hca := Set.ncard_sdiff_singleton_add_one hpb ((finite_pages hh.pages.inv).subset Set.sdiff_subset)
      have hc := hh.count
      rw [hsp]
      omega

/-! ## The exit -/

/-- The first loop of `exit_mmap` is that of `unmapRanges`. -/
theorem unmap_fold (pgdir : Nat) (vmas : Nat → Vma) (l : List Nat) (mem : Memory) :
    l.foldlM (fun mem v => (unmapRange pgdir (vmas v).vmStart (vmas v).vmEnd mem).mapError VmPanic.mem) mem =
      unmapRanges pgdir (l.map (fun v => ((vmas v).vmStart, (vmas v).vmEnd))) mem := by
  rw [unmapRanges, List.foldlM_map]

/-- The second loop of `exit_mmap` empties the slots that the VMAs touch. -/
theorem exit_fold (vmas : Nat → Vma) :
    ∀ (l : List Nat) (mem : Memory) (A : Set Nat), Private pages₀ I base d A mem → (∀ n < userPages, mem.walk d n = none) →
      (∀ v ∈ l, Fits (vmas v).vmStart (vmas v).vmEnd) →
      ∃ mem' A', l.foldlM (fun mem v => (exitRange d (vmas v).vmStart (vmas v).vmEnd mem).mapError VmPanic.mem) mem = .ok mem' ∧
        Private pages₀ I base d A' mem' ∧
        Emptied d (fun k => ∃ v ∈ l, Touches (vmas v).vmStart (vmas v).vmEnd k) mem mem' := by
  intro l
  induction l with
  | nil =>
    intro mem A h hn _
    refine ⟨mem, A, rfl, h, rfl, ?_, fun _ _ _ => rfl, hn⟩
    rintro k - ⟨v, hv, -⟩
    cases hv
  | cons v l ih =>
    intro mem A h hn hf
    obtain ⟨hal, ha⟩ := hf v List.mem_cons_self
    obtain ⟨mem1, A1, hr1, hp1, he1⟩ := exitRange_spec h hn hal ha
    obtain ⟨mem2, A2, hr2, hp2, he2⟩ := ih mem1 A1 hp1 he1.walk (fun u hu => hf u (List.mem_cons_of_mem _ hu))
    refine ⟨mem2, A2, ?_, hp2, (he1.trans he2).congr ?_⟩
    · rw [List.foldlM_cons, hr1, mapError_ok, bind_ok, hr2]
    · intro k _
      simp only [List.mem_cons, exists_eq_or_imp]

/-- The three calls that release an address space go through, and what is handed out then is what others have and the tables in
slots that no VMA touches. -/
theorem releaseMm_spec (h : Held pages₀ I free taken base A s) :
    ∃ mem', releaseMm s = .ok (mem', mmDestroy s.mm) ∧ mem'.area.Inv pages₀ I
      (base ∪ {t | ∃ k < userSlots, ¬s.mm.TouchesSlot k ∧ s.mem.table s.mm.pgdir k = some t}) := by
  have hd := h.pages.dir
  have hf : ∀ v ∈ s.mm.mmapList, Fits (s.mm.vmas v).vmStart (s.mm.vmas v).vmEnd :=
    fun v hv => h.tidy.fits v (List.mem_append_left _ hv)
  obtain ⟨mem1, A1, hr1, hc⟩ := unmapRanges_ok (s.mm.mmapList.map (fun v => ((s.mm.vmas v).vmStart, (s.mm.vmas v).vmEnd)))
    s.mem A h.pages.inv hd (by simpa using hf)
  have hp1 := private_cleared h.pages hc
  -- every page that was mapped lay in a VMA, so nothing is mapped any more
  have hne : ∀ n < userPages, mem1.walk s.mm.pgdir n = none := by
    intro n hn
    by_cases hin : InRanges (s.mm.mmapList.map (fun v => ((s.mm.vmas v).vmStart, (s.mm.vmas v).vmEnd))) n
    · exact hc.cleared n hn hin
    · rw [hc.others _ hd n hn (fun hcc => hin hcc.2)]
      by_contra hw
      obtain ⟨f, v, hv, hh, -⟩ := h.covered n hn hw
      rw [List.append_nil] at hv
      exact hin ⟨_, List.mem_map_of_mem hv, hh⟩
  obtain ⟨mem2, A2, hr2, hp2, he2⟩ := exit_fold s.mm.vmas s.mm.mmapList mem1 A1 hp1 hne hf
  obtain ⟨area, hp, ha⟩ := putPgdir_spec hp2
  have hexit : exitMmap s = .ok { s with mem := mem2 } := by
    unfold exitMmap
    rw [unmap_fold, hr1, bind_ok, hr2, bind_ok]
  have ht : ∀ k < userSlots, mem2.table s.mm.pgdir k = if s.mm.TouchesSlot k then none else s.mem.table s.mm.pgdir k := by
    intro k hk
    by_cases hto : s.mm.TouchesSlot k
    · rw [if_pos hto, he2.emptied k hk hto]
    · rw [if_neg hto, he2.others k hk hto, hc.tables _ hd k hk]
  refine ⟨{ mem2 with area := area, pgdirs := mem2.pgdirs.erase s.mm.pgdir }, ?_, ?_⟩
  · unfold releaseMm
    rw [hexit, bind_ok, hp, mapError_ok, bind_ok]
  · have hl : A2 \ {s.mm.pgdir} =
        base ∪ {t | ∃ k < userSlots, ¬s.mm.TouchesSlot k ∧ s.mem.table s.mm.pgdir k = some t} := by
      ext p
      constructor
      · rintro ⟨hpA, hpd⟩
        rcases hp2.owned p hpA with hb | hb | ⟨k, hk, hu⟩ | ⟨n, hn, e, he, -⟩
        · exact Or.inl hb
        · exact absurd hb hpd
        · rw [ht k hk] at hu
          split at hu
          · cases hu
          · rename_i hno
            exact Or.inr ⟨k, hk, hno, hu⟩
        · rw [he2.walk n hn] at he
          cases he
      · rintro (hb | ⟨k, hk, hno, hu⟩)
        · exact ⟨hp2.kept hb, fun he => hp2.dir_new (he ▸ hb)⟩
        · have hu' : mem2.table s.mm.pgdir k = some p := by rw [ht k hk, if_neg hno, hu]
          obtain ⟨hpA, hpd⟩ := hp2.inv.tables _ hp2.dir k hk p hu'
          exact ⟨hpA, fun he => hpd (he ▸ hp2.dir)⟩
    exact hl ▸ ha

/-- The tables in slots that no VMA touches, counted by their slots. -/
theorem ncard_leaked (h : Private pages₀ I base s.mm.pgdir A s.mem) :
    {t | ∃ k < userSlots, ¬s.mm.TouchesSlot k ∧ s.mem.table s.mm.pgdir k = some t}.ncard = s.leaked := by
  have him : {t | ∃ k < userSlots, ¬s.mm.TouchesSlot k ∧ s.mem.table s.mm.pgdir k = some t} =
      ↑(((Finset.range userSlots).filter (fun k => s.mem.table s.mm.pgdir k ≠ none ∧ ¬s.mm.TouchesSlot k)).image
        (fun k => (s.mem.table s.mm.pgdir k).getD 0)) := by
    ext t
    simp only [Finset.coe_image, Finset.coe_filter, Finset.mem_range, Set.mem_image, Set.mem_ofPred_eq]
    constructor
    · rintro ⟨k, hk, hno, hu⟩
      exact ⟨k, ⟨hk, by simp [hu], hno⟩, by rw [hu, Option.getD_some]⟩
    · rintro ⟨k, ⟨hk, hs, hno⟩, hu⟩
      obtain ⟨u, hu'⟩ := Option.ne_none_iff_exists'.mp hs
      rw [hu'] at hu
      exact ⟨k, hk, hno, hu ▸ hu'⟩
  rw [him, Set.ncard_coe_finset, Finset.card_image_of_injOn, Vm.leaked]
  intro k hk k' hk' heq
  simp only [Finset.coe_filter, Finset.mem_range, Set.mem_ofPred_eq] at hk hk'
  obtain ⟨u, hu⟩ := Option.ne_none_iff_exists'.mp hk.2.1
  obtain ⟨u', hu'⟩ := Option.ne_none_iff_exists'.mp hk'.2.1
  simp only [hu, hu', Option.getD_some] at heq
  subst heq
  exact (h.inv.tables_inj _ h.dir k hk.1 _ h.dir k' hk'.1 u hu hu').2

end VmmAux

open VmmAux in
/-- Let an address space be set up in a memory whose counters are right, and used in any way that stops at no assertion. Then the
calls that release it go through; all its frames and its directory are free again, and all its page tables but those in slots that
no VMA touches. So there are as many free pages as before, less those that others took, exactly if each slot that has a table is
touched by a VMA at the exit. -/
theorem space_given_back {kmalloc : Nat → Bool} {pages₀ : Nat → Page} {I A₀ : Set Nat} {mem₀ : Memory} {taken : Nat} {s : Vm}
    (hmem : mem₀.Inv pages₀ I A₀ (fun _ => 0)) (h : SpaceReach kmalloc mem₀ taken s) :
    ∃ mem', releaseMm s = .ok (mem', mmDestroy s.mm) ∧ mem'.area.nrFree + taken + s.leaked = mem₀.area.nrFree ∧
      (mem'.area.nrFree + taken = mem₀.area.nrFree ↔
        ∀ k < userSlots, s.mem.table s.mm.pgdir k ≠ none → s.mm.TouchesSlot k) := by
  obtain ⟨base, A, hh⟩ := held_of_reach hmem h
  obtain ⟨mem', hr, harea⟩ := releaseMm_spec hh
  let lost := {t | ∃ k < userSlots, ¬s.mm.TouchesSlot k ∧ s.mem.table s.mm.pgdir k = some t}
  have hfinite := finite_pages hh.pages.inv
  have hlost : lost ⊆ I \ base := by
    rintro t ⟨k, hk, -, hu⟩
    exact ⟨allocated_subset hh.pages.inv (hh.pages.inv.tables _ hh.pages.dir k hk t hu).1, hh.pages.table_new k hk t hu⟩
  have hcount : mem'.area.nrFree + taken + s.leaked = mem₀.area.nrFree := by
    have hsplit := Set.ncard_sdiff_add_ncard_of_subset hlost (hfinite.subset Set.sdiff_subset)
    have hnr : mem'.area.nrFree = ((I \ base) \ lost).ncard := by
      rw [nrFree_eq harea, ← Set.sdiff_sdiff]
    have hleaked : lost.ncard = s.leaked := ncard_leaked hh.pages
    have := hh.count
    omega
  refine ⟨mem', hr, hcount, ?_⟩
  have hzero : s.leaked = 0 ↔ ∀ k < userSlots, s.mem.table s.mm.pgdir k ≠ none → s.mm.TouchesSlot k := by
    rw [Vm.leaked, Finset.card_eq_zero, Finset.filter_eq_empty_iff]
    simp only [Finset.mem_range, not_and, not_not]
  rw [← hzero]
  omega

namespace VmmAux

/-- An address space in the small machine, whose directory is page 2. -/
def emptySpace : Vm where
  mm := { mmCreate 9 (fun _ => ⟨0, 0, 0, 0⟩) with pgdir := 2, brkStart := 0, brk := 0 }
  mem := smallMemory
  kmallocs := 0

/-- One page of it can be read and written. -/
def onePage : Vm := ((mmMap (fun _ => true) 0x200000 0x1000 3 emptySpace).toOption.getD (0, none, emptySpace)).2.2

/-- The page is written, which takes a page for it and one for its table. -/
def writtenPage : Vm := ((doPgfault 2 0x200000 onePage).toOption.getD (0, onePage)).2

/-- The page is unmapped again. -/
def unmappedPage : Vm := ((mmUnmap (fun _ => true) 0x200000 0x1000 writtenPage).toOption.getD (0, writtenPage)).2

theorem writtenPage_reach : SpaceReach (fun _ => true) bootedMemory 0 writtenPage := by
  have he : SpaceReach (fun _ => true) bootedMemory 0 emptySpace := .setup 9 (fun _ => ⟨0, 0, 0, 0⟩) 0 0 rfl
  have ho : SpaceReach (fun _ => true) bootedMemory 0 onePage := .map 0x200000 0x1000 3 he rfl
  exact .fault 2 0x200000 ho rfl

theorem unmappedPage_reach : SpaceReach (fun _ => true) bootedMemory 0 unmappedPage :=
  .unmap 0x200000 0x1000 writtenPage_reach rfl

theorem writtenPage_touched :
    ∀ k < userSlots, writtenPage.mem.table writtenPage.mm.pgdir k ≠ none → writtenPage.mm.TouchesSlot k := by
  decide +kernel

end VmmAux

open VmmAux in
/-- A page is mapped, written and unmapped again: the page table that was made for it is in the slot 0, which no VMA touches at the
exit, and one page of the four is lost. -/
theorem unmapped_table_lost : ∃ s mem', SpaceReach (fun _ => true) bootedMemory 0 s ∧ releaseMm s = .ok (mem', mmDestroy s.mm) ∧
    bootedMemory.area.nrFree = 4 ∧ mem'.area.nrFree = 3 :=
  ⟨unmappedPage, _, unmappedPage_reach, rfl, rfl, rfl⟩

open VmmAux in
/-- With the page still mapped at the exit, all four pages are free again. -/
theorem space_given_back_mapped : ∃ mem', releaseMm writtenPage = .ok (mem', mmDestroy writtenPage.mm) ∧
    mem'.area.nrFree + 0 = bootedMemory.area.nrFree := by
  have hboot : MemReach smallMachine bootedMemory := .boot rfl
  obtain ⟨A, hinv⟩ := inv_of_memReach hboot
  obtain ⟨mem', hr, -, hiff⟩ := space_given_back hinv writtenPage_reach
  exact ⟨mem', hr, hiff.mpr writtenPage_touched⟩

end Ucore
