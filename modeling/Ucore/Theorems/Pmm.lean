import Ucore.Lemmas.PmmFree

/-!
# Runs of the page allocator

A run begins with `default_init` and `default_init_memmap` on each range of the machine's memory, and goes on with allocations
and with frees of pages that are handed out, in any chunking and any order. `PmmReach` is the states such a run reaches,
together with the set of pages handed out there.
-/

namespace Ucore

open Checked Blocks

/-- The states the allocator reaches, with the pages handed out. -/
inductive PmmReach (pages : Nat → Page) (ranges : List (Nat × Nat)) : FreeArea → Set Nat → Prop where
  | boot {s : FreeArea} : bootPmm pages ranges = .ok s → PmmReach pages ranges s ∅
  | alloc {s s' : FreeArea} {A : Set Nat} {n p : Nat} : PmmReach pages ranges s A → 0 < n →
      defaultAllocPages n s = .ok (some p, s') → PmmReach pages ranges s' (A ∪ Set.Ico p (p + n))
  | refuse {s s' : FreeArea} {A : Set Nat} {n : Nat} : PmmReach pages ranges s A → 0 < n →
      defaultAllocPages n s = .ok (none, s') → PmmReach pages ranges s' A
  | free {s s' : FreeArea} {A : Set Nat} {base n : Nat} : PmmReach pages ranges s A → 0 < n →
      Set.Ico base (base + n) ⊆ A → defaultFreePages base n s = .ok s' →
      PmmReach pages ranges s' (A \ Set.Ico base (base + n))

/-- What holds of the list, the descriptors and the counter at every point of a run: the list increases, its blocks are
disjoint, the flag marks their heads (a page the allocator was never given keeps its flag), the counter counts their pages, and
the free pages and those of `A` partition the pages of the ranges. -/
structure PmmConsistent (pages : Nat → Page) (ranges : List (Nat × Nat)) (s : FreeArea) (A : Set Nat) : Prop where
  increasing : s.freeList.Pairwise (· < ·)
  disjoint : s.freeList.Pairwise (fun p q =>
    Disjoint (Set.Ico p (p + (s.pages p).property)) (Set.Ico q (q + (s.pages q).property)))
  heads : ∀ p, (s.pages p).flags.property = true ↔
    p ∈ s.freeList ∨ (p ∉ rangePages ranges ∧ (pages p).flags.property = true)
  count : s.nrFree = (s.freeList.map (fun p => (s.pages p).property)).sum
  lost_none : ∀ p, p ∈ rangePages ranges ↔
    p ∈ A ∨ ∃ b ∈ s.freeList, b ≤ p ∧ p < b + (s.pages b).property
  shared_none : ∀ p, p ∈ A → ¬∃ b ∈ s.freeList, b ≤ p ∧ p < b + (s.pages b).property

namespace PmmAux

variable {pages : Nat → Page} {ranges : List (Nat × Nat)} {s : FreeArea} {A : Set Nat}

/-- The invariant holds in every state reached. -/
theorem inv_of_reach (hr : Ascending ranges) (hres : ∀ p ∈ rangePages ranges, (pages p).flags.reserved = true)
    (h : PmmReach pages ranges s A) : s.Inv pages (rangePages ranges) A := by
  induction h with
  | boot hb =>
    obtain ⟨s', hs', hinv⟩ := bootPmm_spec pages ranges hr hres
    rw [hs'] at hb
    cases hb
    exact hinv
  | alloc _ hn ha ih =>
    rcases defaultAllocPages_spec ih hn with h' | ⟨p, s', h', -, -, hinv⟩
    · rw [h'] at ha
      cases ha
    · rw [h'] at ha
      cases ha
      exact hinv
  | refuse _ hn ha ih =>
    rcases defaultAllocPages_spec ih hn with h' | ⟨p, s', h', -⟩
    · rw [h'] at ha
      cases ha
      exact ih
    · rw [h'] at ha
      cases ha
  | free _ hn hA hf ih =>
    obtain ⟨s', h', hinv, -⟩ := defaultFreePages_spec _ ih hn hA
    rw [h'] at hf
    cases hf
    exact hinv

/-- Where no two ranges touch, no two free blocks touch in any state reached. -/
theorem gapped_of_reach (hr : Ascending ranges) (hap : ranges.Pairwise (fun a b => a.1 + a.2 < b.1))
    (hres : ∀ p ∈ rangePages ranges, (pages p).flags.reserved = true) (h : PmmReach pages ranges s A) :
    Gapped s.size s.freeList := by
  induction h with
  | boot hb =>
    obtain ⟨hl, hs⟩ := bootPmm_blocks hr hres hb
    rw [hl, Gapped, List.pairwise_map]
    refine hap.imp_of_mem ?_
    intro a b ha _ hab
    rw [FreeArea.size, hs a ha]
    exact hab
  | alloc hre _ ha ih | refuse hre _ ha ih => exact defaultAllocPages_gapped (inv_of_reach hr hres hre).separated.nodup ih ha
  | free hre hn hA hf ih => exact defaultFreePages_gapped (inv_of_reach hr hres hre) ih hn hA hf

/-- The invariant, spelled out. -/
theorem consistent_of_inv (h : s.Inv pages (rangePages ranges) A) : PmmConsistent pages ranges s A := by
  have hf : ∀ p ∈ s.freeList, p ∈ rangePages ranges := by
    intro p hp
    rw [← h.cover]
    have := h.separated.2 p hp
    exact Or.inl ⟨p, hp, Nat.le_refl p, by omega⟩
  refine ⟨h.separated.strictlyIncreasing, h.separated.disjoint, ?_, h.count, ?_, ?_⟩
  · intro p
    by_cases hp : p ∈ rangePages ranges
    · rw [h.property_iff p hp]
      simp only [hp, not_true_eq_false, false_and, or_false]
    · have hno : p ∉ s.freeList := fun hm => hp (hf p hm)
      rw [h.outside p hp]
      simp only [hno, hp, not_false_eq_true, true_and, false_or]
  · intro p
    rw [← h.cover, Set.mem_union, or_comm]
    rfl
  · intro p hpA hf'
    exact Set.disjoint_left.mp h.disjoint hf' hpA

end PmmAux

open PmmAux

/-- The allocator over whole runs. Booting on ascending ranges of reserved pages succeeds; in every state a run reaches the
list, the descriptors and the counter are consistent; an allocation there trips no assertion and hands out only pages that are
not handed out; and a free of pages that are handed out trips no assertion. -/
theorem pmm_runs_consistent (pages : Nat → Page) (ranges : List (Nat × Nat)) (hr : Ascending ranges)
    (hres : ∀ p ∈ rangePages ranges, (pages p).flags.reserved = true) :
    (∃ s, bootPmm pages ranges = .ok s) ∧
    ∀ s A, PmmReach pages ranges s A →
      PmmConsistent pages ranges s A ∧
      (∀ n, 0 < n → ∃ r s', defaultAllocPages n s = .ok (r, s') ∧
        ∀ p, r = some p → Set.Ico p (p + n) ⊆ rangePages ranges ∧ Disjoint (Set.Ico p (p + n)) A) ∧
      (∀ base n, 0 < n → Set.Ico base (base + n) ⊆ A → ∃ s', defaultFreePages base n s = .ok s') := by
  refine ⟨?_, ?_⟩
  · obtain ⟨s, hs, -⟩ := bootPmm_spec pages ranges hr hres
    exact ⟨s, hs⟩
  · intro s A hreach
    have hinv := inv_of_reach hr hres hreach
    refine ⟨consistent_of_inv hinv, ?_, ?_⟩
    · intro n hn
      rcases defaultAllocPages_spec hinv hn with h | ⟨p, s', h, hsub, -, -⟩
      · refine ⟨none, s, h, ?_⟩
        intro p hp
        cases hp
      · refine ⟨some p, s', h, ?_⟩
        intro q hq
        cases hq
        refine ⟨hsub.trans ?_, hinv.disjoint.mono_left hsub⟩
        rw [← hinv.cover]
        exact Set.subset_union_left
    · intro base n hn hA
      obtain ⟨s', h, -⟩ := defaultFreePages_spec _ hinv hn hA
      exact ⟨s', h⟩

/-- On a machine with two adjacent ranges of three and two pages: the state after an allocation of four pages was refused, for
want of one block that large, and two pages were handed out. -/
theorem pmm_runs_consistent_adjacent :
    ∃ s A, PmmReach (fun _ => ⟨0, ⟨true, false⟩, 0⟩) [(1, 3), (4, 2)] s A ∧ 1 ∈ A ∧ s.freeList = [3, 4] ∧
      PmmConsistent (fun _ => ⟨0, ⟨true, false⟩, 0⟩) [(1, 3), (4, 2)] s A := by
  have hboot : PmmReach (fun _ => ⟨0, ⟨true, false⟩, 0⟩) [(1, 3), (4, 2)] _ ∅ := PmmReach.boot rfl
  have hreach := PmmReach.alloc (n := 2) (PmmReach.refuse (n := 4) hboot (by decide) rfl) (by decide) rfl
  exact ⟨_, _, hreach, Or.inr ⟨Nat.le_refl 1, by decide⟩, rfl,
    ((pmm_runs_consistent _ _ (by simp [Ascending]) (fun _ _ => rfl)).2 _ _ hreach).1⟩

/-- Where no two ranges touch, no two free blocks touch at any point of a run, and a run at whose end no page is handed out ends
with the free blocks it began with, which are the ranges. -/
theorem pmm_runs_confluent (pages : Nat → Page) (ranges : List (Nat × Nat)) (hpos : ∀ r ∈ ranges, 0 < r.2)
    (hapart : ranges.Pairwise (fun a b => a.1 + a.2 < b.1)) (hres : ∀ p ∈ rangePages ranges, (pages p).flags.reserved = true)
    {s₀ : FreeArea} (hboot : bootPmm pages ranges = .ok s₀) (s : FreeArea) (A : Set Nat) (h : PmmReach pages ranges s A) :
    s.freeList.Pairwise (fun p q => p + (s.pages p).property < q) ∧
    (A = ∅ → s.freeList = ranges.map Prod.fst ∧ s.freeList = s₀.freeList ∧
      (∀ p ∈ s.freeList, (s.pages p).property = (s₀.pages p).property) ∧ s.nrFree = s₀.nrFree) := by
  have hr : Ascending ranges := ⟨hapart.imp Nat.le_of_lt, hpos⟩
  have hg := gapped_of_reach hr hapart hres h
  refine ⟨hg, ?_⟩
  rintro rfl
  have hinv := inv_of_reach hr hres h
  have hreach₀ : PmmReach pages ranges s₀ ∅ := .boot hboot
  have hinv₀ := inv_of_reach hr hres hreach₀
  -- both lists hold the pages of the ranges, and only one list of blocks that do not touch does
  have hext : extent s.size s.freeList = extent s₀.size s₀.freeList := by
    rw [← Set.union_empty (extent s.size _), ← Set.union_empty (extent s₀.size _), hinv.cover, hinv₀.cover]
  obtain ⟨hlist, hsizes⟩ := hg.eq_of_extent_eq hinv.separated (gapped_of_reach hr hapart hres hreach₀) hinv₀.separated hext
  refine ⟨hlist.trans (bootPmm_blocks hr hres hboot).1, hlist, hsizes, ?_⟩
  rw [hinv.count, hinv₀.count, hinv.separated.total_eq_ncard, hinv₀.separated.total_eq_ncard, hext]

/-- On a machine with ranges of four pages and of one page: three pages are handed out, and given back in two chunks, the last
of them first. -/
theorem pmm_runs_confluent_chunks :
    ∃ s, PmmReach (fun _ => ⟨0, ⟨true, false⟩, 0⟩) [(1, 4), (6, 1)] s ∅ ∧ s.freeList = [1, 6] ∧ s.nrFree = 5 := by
  have hboot : PmmReach (fun _ => ⟨0, ⟨true, false⟩, 0⟩) [(1, 4), (6, 1)] _ ∅ := PmmReach.boot rfl
  have htaken := PmmReach.alloc (n := 3) (p := 1) hboot (by decide) rfl
  have hpart := PmmReach.free (n := 2) htaken (by decide)
    (fun p (hp : p ∈ Set.Ico 2 (2 + 2)) => Or.inr (Set.Ico_subset_Ico (by decide) (by decide) hp)) rfl
  have hall := PmmReach.free (n := 1) hpart (by decide)
    (fun p (hp : p ∈ Set.Ico 1 (1 + 1)) => ⟨Or.inr (Set.Ico_subset_Ico (by decide) (by decide) hp), by
      rw [Set.mem_Ico] at hp ⊢
      omega⟩) rfl
  have hempty : (((∅ : Set Nat) ∪ Set.Ico 1 (1 + 3)) \ Set.Ico 2 (2 + 2)) \ Set.Ico 1 (1 + 1) = ∅ := by
    ext p
    simp only [Set.mem_sdiff, Set.mem_union, Set.mem_Ico, Set.mem_empty_iff_false, false_or, iff_false]
    omega
  rw [hempty] at hall
  have hconf := (pmm_runs_confluent _ _ (by decide) (by simp) (fun _ _ => rfl) rfl _ _ hall).2 rfl
  exact ⟨_, hall, hconf.1, hconf.2.2.2⟩

/-! ## First fit -/

/-- What `default_alloc_pages(n)` does where it returns `p`: the block of `p` is the lowest that is large enough, its first `n`
pages leave the free set, and what is left of it stands where it stood. -/
structure FirstFit (n p : Nat) (s s' : FreeArea) : Prop where
  mem : p ∈ s.freeList
  fits : n ≤ (s.pages p).property
  lowest : ∀ b ∈ s.freeList, n ≤ (s.pages b).property → p ≤ b
  taken : Set.Ico p (p + n) ⊆ extent s.size s.freeList
  free : extent s'.size s'.freeList = extent s.size s.freeList \ Set.Ico p (p + n)
  place : ∃ l₁ l₂, s.freeList = l₁ ++ p :: l₂ ∧
    s'.freeList = l₁ ++ (if n < (s.pages p).property then [p + n] else []) ++ l₂
  rest : n < (s.pages p).property →
    (s'.pages (p + n)).flags.property = true ∧ (s'.pages (p + n)).property = (s.pages p).property - n
  count : s'.nrFree + n = s.nrFree
  others : ∀ b ∈ s.freeList, b ≠ p → b ∈ s'.freeList ∧ s'.pages b = s.pages b

namespace PmmAux

variable {pg0 : Nat → Page} {I A : Set Nat} {s s' : FreeArea} {n page : Nat}

/-- The free pages after pages were handed out are those that were free before, less the pages handed out. -/
theorem extent_handed {D : Set Nat} (h : s.Inv pg0 I A) (h' : s'.Inv pg0 I (A ∪ D)) :
    extent s'.size s'.freeList = extent s.size s.freeList \ D := by
  have hs : extent s'.size s'.freeList ∪ (A ∪ D) = extent s.size s.freeList ∪ A := h'.cover.trans h.cover.symm
  ext q
  have hq : (q ∈ extent s'.size s'.freeList ∨ q ∈ A ∨ q ∈ D) ↔ (q ∈ extent s.size s.freeList ∨ q ∈ A) :=
    Set.ext_iff.mp hs q
  have hf : q ∈ extent s.size s.freeList → q ∉ A := fun hm => Set.disjoint_left.mp h.disjoint hm
  have hf' : q ∈ extent s'.size s'.freeList → ¬(q ∈ A ∨ q ∈ D) := fun hm => Set.disjoint_left.mp h'.disjoint hm
  rw [Set.mem_sdiff]
  tauto

/-- A page that `default_alloc_pages` returns is the first fit. -/
theorem firstFit_of_alloc (h : s.Inv pg0 I A) (hn : 0 < n) (hr : defaultAllocPages n s = .ok (some page, s')) :
    FirstFit n page s s' := by
  have hs := defaultAllocPages_spec h hn
  rw [hr] at hs
  rcases hs with hno | ⟨p, t, hso, ht, -, hi'⟩
  · cases hno
  cases hso
  obtain ⟨-, hr⟩ := ensure_bind_eq_ok.mp hr
  by_cases hlt : s.nrFree < n
  · rw [if_pos hlt] at hr
    cases hr
  rw [if_neg hlt] at hr
  cases hf : s.freeList.find? (fun p => decide (n ≤ (s.pages p).property)) with
  | none =>
    rw [hf] at hr
    cases hr
  | some page =>
    rw [hf] at hr
    cases hr
    obtain ⟨hle, l1, l2, hl, hsm⟩ := List.find?_eq_some_iff_append.mp hf
    have hle : n ≤ (s.pages page).property := of_decide_eq_true hle
    have hn1 : page ∉ l1 := not_mem_of_nodup_middle (hl ▸ h.separated.nodup)
    have hsep := h.separated
    rw [hl] at hsep
    have hm : page ∈ s.freeList := by
      rw [hl]
      exact List.mem_append_cons_self
    have hli := takeBlock_freeList hl hn1 hn
    refine ⟨hm, hle, ?_, ht, extent_handed h hi', ⟨l1, l2, hl, hli⟩, takeBlock_rest hn, ?_, ?_⟩
    · -- the blocks before it in the list are too small, those behind it lie above it
      intro b hb hfit
      rw [hl] at hb
      rcases List.mem_append.mp hb with hb | hb
      · have := hsm b hb
        rw [Bool.not_eq_true', decide_eq_false_iff_not] at this
        exact absurd hfit this
      · rcases List.mem_cons.mp hb with rfl | hb
        · exact le_rfl
        · have := (separated_middle.mp hsep).2.2.2.2.1 b hb
          omega
    · rw [takeBlock_nrFree hn]
      omega
    · intro b hb hne
      rw [hl] at hb
      have hb' : b ∈ l1 ++ l2 := by
        rcases List.mem_append.mp hb with hb | hb
        · exact List.mem_append_left _ hb
        · exact List.mem_append_right _ ((List.mem_cons.mp hb).resolve_left hne)
      refine ⟨?_, ?_⟩
      · rw [hli]
        rcases List.mem_append.mp hb' with hb' | hb'
        · exact List.mem_append_left _ (List.mem_append_left _ hb')
        · exact List.mem_append_right _ hb'
      · by_cases hre : n < (s.pages page).property
        · exact takeBlock_pages_of_ne hn hne (ne_of_inside hsep (Nat.le_add_right _ _) (Nat.add_lt_add_left hre _) hb')
        · rw [takeBlock_whole hre]
          exact Function.update_of_ne hne _ _

end PmmAux

/-- First fit. In every state a run of the allocator reaches, `default_alloc_pages(n)` trips no assertion; it returns no page
exactly where no free block has `n` pages, and then changes nothing; a page it returns is that of the lowest block that has. -/
theorem alloc_first_fit (pages : Nat → Page) (ranges : List (Nat × Nat)) (hr : Ascending ranges)
    (hres : ∀ p ∈ rangePages ranges, (pages p).flags.reserved = true) (s : FreeArea) (A : Set Nat)
    (h : PmmReach pages ranges s A) (n : Nat) (hn : 0 < n) :
    ∃ r s', defaultAllocPages n s = .ok (r, s') ∧
      (r = none ↔ ¬∃ b ∈ s.freeList, n ≤ (s.pages b).property) ∧
      (r = none → s' = s) ∧
      ∀ p, r = some p → FirstFit n p s s' := by
  have hinv := inv_of_reach hr hres h
  rcases defaultAllocPages_spec hinv hn with hrun | ⟨p, s', hrun, -⟩
  · refine ⟨none, s, hrun, ⟨fun _ => ?_, fun _ => rfl⟩, fun _ => rfl, nofun⟩
    rintro ⟨b, hb, hfit⟩
    exact absurd hfit (Nat.not_le_of_lt (defaultAllocPages_none hinv hrun b hb))
  · have hfit := firstFit_of_alloc hinv hn hrun
    refine ⟨some p, s', hrun, ⟨nofun, fun hno => absurd ⟨p, hfit.mem, hfit.fits⟩ hno⟩, nofun, ?_⟩
    intro q hq
    cases hq
    exact hfit

/-- On a machine with ranges of one page and of four pages, a request for two pages passes over the block of one page. -/
theorem alloc_first_fit_second :
    ∃ s s', PmmReach (fun _ => ⟨0, ⟨true, false⟩, 0⟩) [(1, 1), (3, 4)] s ∅ ∧ defaultAllocPages 2 s = .ok (some 3, s') ∧
      FirstFit 2 3 s s' ∧ s'.freeList = [1, 5] := by
  have hboot : PmmReach (fun _ => ⟨0, ⟨true, false⟩, 0⟩) [(1, 1), (3, 4)] _ ∅ := PmmReach.boot rfl
  obtain ⟨r, s', hr, -, -, hfit⟩ :=
    alloc_first_fit _ _ (by simp [Ascending]) (fun _ _ => rfl) _ _ hboot 2 (by decide)
  cases hr
  exact ⟨_, _, hboot, rfl, hfit 3 rfl, rfl⟩

end Ucore
