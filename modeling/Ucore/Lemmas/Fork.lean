import Ucore.Lemmas.Copy
import Ucore.Theorems.VmaList

/-!
# What `dup_mmap` does

`dup_mmap` walks the VMA list from its end and puts a copy of each VMA in front of the new list, so the new list has the old
order; `copy_range` copies the pages of each. `Duplicated done` is the state after the VMAs `done` at the end of the list.
-/

namespace Ucore

open Checked Spans PageAux

/-- The pages of the VMAs that are present. -/
def presentPages (mm : Mm) (mem : Memory) : Finset Nat :=
  (Finset.range userPages).filter (fun n => (∃ v ∈ mm.mmapList, mm.Has (n * pgSize) v) ∧ mem.walk mm.pgdir n ≠ none)

/-- The pages that a copy of the address space asks for: one for each page that is present, and one for each page table. -/
def copyNeeds (mm : Mm) (mem : Memory) : Nat :=
  (presentPages mm mem).card + ((presentPages mm mem).image (· / 1024)).card

namespace VmmAux

variable {kmalloc : Nat → Bool} {pg0 : Nat → Page} {I A0 A : Set Nat} {mem0 : Memory} {mm fromMm : Mm} {s : Vm}
  {dt v : Nat} {P : Finset Nat}

/-! ## The loop -/

/-- Where `dup_mmap` is after the VMAs `done`: the new list is a copy of them, and their pages are copied. -/
structure Duplicated (pg0 : Nat → Page) (I A0 : Set Nat) (mem0 : Memory) (fromMm : Mm) (dt : Nat) (P : Finset Nat)
    (done : List Nat) (s : Vm) : Prop where
  tidy : s.mm.Tidy s.kmallocs []
  sorted : s.mm.Sorted []
  layout : s.mm.layout = done.map (fun v => (fromMm.lo v, fromMm.hi v, (fromMm.vmas v).vmFlags))
  pgdir : s.mm.pgdir = dt
  copied : ∃ A, Copying pg0 I A0 mem0 dt fromMm.pgdir P (fun k => ∃ v ∈ done, fromMm.Has (k * 4096) v) A s.mem

/-- One round of the loop of `dup_mmap`. -/
theorem dupLoop_copies (kmalloc : Nat → Bool) (le : List Nat) {done : List Nat} (hm : mem0.Inv pg0 I A0 (fun _ => 0))
    (hdf : fromMm.pgdir ∈ mem0.pgdirs) (hne : fromMm.pgdir ≠ dt) (h : Duplicated pg0 I A0 mem0 fromMm dt P done s)
    (hv : Fits (fromMm.lo v) (fromMm.hi v)) (hb : ∀ w ∈ done, fromMm.hi v ≤ fromMm.lo w)
    (hP : ∀ k, fromMm.Has (k * 4096) v → mem0.walk fromMm.pgdir k ≠ none → k ∈ P) :
    ((kmalloc s.kmallocs = false ∨ Short I A0 P) ∧ ∀ s', dupLoop kmalloc fromMm (v :: le) s ≠ .ok (0, s')) ∨
    ∃ s1 : Vm, dupLoop kmalloc fromMm (v :: le) s = dupLoop kmalloc fromMm le s1 ∧ s1.kmallocs = s.kmallocs + 1 ∧
      Duplicated pg0 I A0 mem0 fromMm dt P (v :: done) s1 := by
  obtain ⟨A, hc⟩ := h.copied
  rw [dupLoop]
  by_cases hse : kmalloc s.kmallocs = true
  swap
  · refine Or.inl ⟨Or.inl (Bool.not_eq_true _ ▸ hse), ?_⟩
    rw [vmaCreate_eq, if_neg hse]
    simp [eNoMem]
  have hfront : ∀ u ∈ s.mm.mmapList, fromMm.hi v ≤ s.mm.lo u := by
    intro u hu
    have hin : (s.mm.lo u, s.mm.hi u, (s.mm.vmas u).vmFlags) ∈ s.mm.layout := List.mem_map_of_mem hu
    rw [h.layout] at hin
    obtain ⟨w, hw, heq⟩ := List.mem_map.mp hin
    exact (Prod.mk.inj heq).1 ▸ hb w hw
  have hf : s.mm.Unoccupied (fromMm.lo v) (fromMm.hi v) := unoccupied_of_apart fun u hu => Or.inr (hfront u hu)
  obtain ⟨mm', hins⟩ := insert_created (fromMm.vmas v).vmFlags h.tidy h.sorted hv hf
  obtain ⟨ha, -⟩ := adds_of_insert h.tidy hv hins
  have hp : mm'.pgdir = dt := ha.fields.2.1.trans h.pgdir
  -- the new VMA starts before all others, so it is put in front
  have hl : mm'.layout = (fromMm.lo v, fromMm.hi v, (fromMm.vmas v).vmFlags) :: s.mm.layout := by
    obtain ⟨l1, l2, hold, hn, hle⟩ := layout_inserted h.tidy hins
    cases l1 with
    | nil => rw [hn, hold, List.nil_append, List.nil_append]
    | cons r l1 =>
      obtain ⟨u, hu, rfl⟩ := List.mem_map.mp (hold.symm ▸ List.mem_cons_self : r ∈ s.mm.layout)
      exact absurd (hv.2.2.1.trans_le (hfront u hu)) (not_lt.mpr (hle _ List.mem_cons_self))
  have hn : ∀ k, fromMm.lo v ≤ k * 4096 → k * 4096 < fromMm.hi v → ¬∃ w ∈ done, fromMm.Has (k * 4096) w := by
    rintro k hk hk' ⟨w, hw, hh⟩
    have hlo : fromMm.lo w ≤ k * 4096 := hh.1
    have := hb w hw
    omega
  have hco := copyRange_spec hm hdf hne hc hv.1 hv.2 hn (fun k hk hk' => hP k ⟨hk, hk'⟩)
  rw [← hp] at hco
  unfold Mm.lo Mm.hi at hco
  rw [vmaCreate_eq, if_pos hse]
  dsimp only
  unfold Mm.lo Mm.hi at hins
  rw [hins, bind_ok]
  rcases hco with ⟨hs, hfa⟩ | ⟨mem', A', hco, hc'⟩
  · refine Or.inl ⟨Or.inr hs, ?_⟩
    cases hr : copyRange mm'.pgdir fromMm.pgdir (fromMm.vmas v).vmStart (fromMm.vmas v).vmEnd s.mem with
    | error p =>
      simp
    | ok c =>
      have hc : c.1 ≠ 0 := fun hz => hfa c.2 (hr.trans (congrArg Except.ok (Prod.ext hz rfl)))
      rw [mapError_ok, bind_ok, if_pos hc]
      simp [eNoMem]
  refine Or.inr ⟨{ mm := mm', mem := mem', kmallocs := s.kmallocs + 1 }, ?_, rfl, ?_⟩
  · rw [hco, mapError_ok, bind_ok, if_neg (by simp)]
  · rw [hp] at hc'
    refine ⟨ha.tidy, ha.sorted h.sorted hf, ?_, hp, A', hc'.pass ?_ ?_⟩
    · rw [hl, h.layout, List.map_cons]
    · rintro k - (⟨w, hw, hh⟩ | hh)
      · exact ⟨w, List.mem_cons_of_mem _ hw, hh⟩
      · exact ⟨v, List.mem_cons_self, hh⟩
    · rintro k - ⟨w, hw, hh⟩ hno
      refine absurd ?_ hno
      rcases List.mem_cons.mp hw with rfl | hw
      · exact Or.inr hh
      · exact Or.inl ⟨w, hw, hh⟩

/-- The loop of `dup_mmap`. -/
theorem dupLoop_spec (kmalloc : Nat → Bool) (hm : mem0.Inv pg0 I A0 (fun _ => 0)) (hdf : fromMm.pgdir ∈ mem0.pgdirs)
    (hne : fromMm.pgdir ≠ dt) (ho : Ordered fromMm.lo fromMm.hi fromMm.mmapList)
    (hra : ∀ v ∈ fromMm.mmapList, Fits (fromMm.lo v) (fromMm.hi v))
    (hP : ∀ v ∈ fromMm.mmapList, ∀ k, fromMm.Has (k * 4096) v → mem0.walk fromMm.pgdir k ≠ none → k ∈ P) :
    ∀ (le done : List Nat) (s : Vm), fromMm.mmapList = le.reverse ++ done →
      Duplicated pg0 I A0 mem0 fromMm dt P done s →
      (((∃ k, s.kmallocs ≤ k ∧ k < s.kmallocs + le.length ∧ kmalloc k = false) ∨ Short I A0 P) ∧
        ∀ s', dupLoop kmalloc fromMm le s ≠ .ok (0, s')) ∨
      ∃ s', dupLoop kmalloc fromMm le s = .ok (0, s') ∧ s.kmallocs ≤ s'.kmallocs ∧
        Duplicated pg0 I A0 mem0 fromMm dt P fromMm.mmapList s' := by
  intro le
  induction le with
  | nil =>
    intro done s hl h
    exact Or.inr ⟨s, rfl, le_rfl, hl ▸ h⟩
  | cons v le ih =>
    intro done s hl h
    rw [List.reverse_cons, List.append_assoc] at hl
    have hv : v ∈ fromMm.mmapList := by simp [hl]
    have hb : ∀ w ∈ done, fromMm.hi v ≤ fromMm.lo w := by
      have hs : (v :: done).Sublist fromMm.mmapList := hl ▸ List.sublist_append_right _ _
      exact fun w hw => List.rel_of_pairwise_cons (ho.apart.sublist hs) hw
    rw [List.length_cons]
    rcases dupLoop_copies kmalloc le hm hdf hne h (hra v hv) hb (hP v hv) with ⟨hwhy, hf⟩ | ⟨s1, hr, hk, h1⟩
    · exact Or.inl ⟨hwhy.imp_left fun hno => ⟨_, le_rfl, by omega, hno⟩, hf⟩
    rw [hr]
    rcases ih (v :: done) s1 hl h1 with ⟨hwhy, hf⟩ | ⟨s', hr', hle, h'⟩
    · exact Or.inl ⟨hwhy.imp_left fun ⟨k, hk1, hk2, hno⟩ => ⟨k, by omega, by omega, hno⟩, hf⟩
    · exact Or.inr ⟨s', hr', by omega, h'⟩

/-- `dup_mmap` on a new address space whose directory is empty: a block or a page is missing, or the address space is copied. -/
theorem dupMmap_spec (kmalloc : Nat → Bool) (id kmallocs : Nat) (vmas : Nat → Vma) (hm : mem0.Inv pg0 I A0 (fun _ => 0))
    (hdf : fromMm.pgdir ∈ mem0.pgdirs) (hdt : dt ∈ mem0.pgdirs) (hne : fromMm.pgdir ≠ dt)
    (he : ∀ i < userSlots, mem0.table dt i = none) (ho : Ordered fromMm.lo fromMm.hi fromMm.mmapList)
    (hr : ∀ v ∈ fromMm.mmapList, Fits (fromMm.lo v) (fromMm.hi v)) :
    (((∃ k, kmallocs ≤ k ∧ k < kmallocs + fromMm.mmapList.length ∧ kmalloc k = false) ∨
        Short I A0 (presentPages fromMm mem0)) ∧
      ∀ s', dupMmap kmalloc fromMm ⟨{ mmCreate id vmas with pgdir := dt }, mem0, kmallocs⟩ ≠ .ok (0, s')) ∨
    ∃ s', dupMmap kmalloc fromMm ⟨{ mmCreate id vmas with pgdir := dt }, mem0, kmallocs⟩ = .ok (0, s') ∧
      kmallocs ≤ s'.kmallocs ∧
      Duplicated pg0 I A0 mem0 fromMm dt (presentPages fromMm mem0) fromMm.mmapList s' := by
  have hP : ∀ v ∈ fromMm.mmapList, ∀ k, fromMm.Has (k * 4096) v → mem0.walk fromMm.pgdir k ≠ none →
      k ∈ presentPages fromMm mem0 := by
    intro v hv k hh hso
    refine Finset.mem_filter.mpr ⟨Finset.mem_range.mpr ?_, ⟨v, hv, hh⟩, hso⟩
    have hlt : k * 4096 < fromMm.hi v := hh.2
    have ht : fromMm.hi v ≤ 2952790016 := (hr v hv).2.2.2
    unfold userPages userSlots
    omega
  have hs : Duplicated pg0 I A0 mem0 fromMm dt (presentPages fromMm mem0) []
      ⟨{ mmCreate id vmas with pgdir := dt }, mem0, kmallocs⟩ := by
    refine ⟨tidy_mmCreate id vmas dt kmallocs, sorted_mmCreate id vmas dt, rfl, rfl, A0, ?_⟩
    exact (copying_start hm hdt he).pass (fun _ _ hF => hF.elim) (fun _ _ ⟨_, hw, _⟩ => nomatch hw)
  have h := dupLoop_spec kmalloc hm hdf hne ho hr hP fromMm.mmapList.reverse [] _ (by simp) hs
  rwa [List.length_reverse] at h

end VmmAux

end Ucore
