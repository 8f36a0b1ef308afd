import Ucore.Lemmas.Pmm

/-!
# Giving pages back

`default_free_pages` makes a block of the pages it is given and lets it swallow its neighbours: `Merging` is the invariant of
that loop, over the list it has passed (`pre`), the list it has before it (`rest`) and the block it builds (`base`), which may
take over the head of a block below it on the way. What the loop passes and leaves above the block stands off from it by at
least one page, which is what the assertion of the insertion loop asks for.
-/

namespace Ucore

open Checked Blocks Function

variable {pg0 pages : Nat → Page} {I A : Set Nat} {s s' : FreeArea} {n base : Nat}

namespace PmmAux

/-- The state of the second loop of `default_free_pages`, begun in `s0`: the block at `base` and the blocks of the list hold
the pages of `U`, `N` of them. -/
structure Merging (s0 : FreeArea) (U : Set Nat) (N : Nat) (pre rest : List Nat) (base : Nat) (s : FreeArea) : Prop where
  list : s.freeList = pre ++ rest
  separated : Separated s.size (pre ++ rest)
  pos : 0 < s.size base
  apart : ∀ p ∈ pre ++ rest, p + s.size p ≤ base ∨ base + s.size base ≤ p
  gap : ∀ p ∈ pre, base < p → base + s.size base < p
  cover : Set.Ico base (base + s.size base) ∪ extent s.size (pre ++ rest) = U
  count : s.size base + total s.size (pre ++ rest) = N
  property_iff : ∀ p ∈ U, (s.pages p).flags.property = true ↔ p = base ∨ p ∈ pre ++ rest
  keep : ∀ p, (s.pages p).ref = (s0.pages p).ref ∧ (s.pages p).flags.reserved = (s0.pages p).flags.reserved
  frame : ∀ p, p ∉ U → s.pages p = s0.pages p
  nrFree : s.nrFree = s0.nrFree

variable {s0 s s1 : FreeArea} {U I A : Set Nat} {N b c q n stop base1 : Nat} {pre le l l1 l2 : List Nat} {base p : Nat}
  {pg0 : Nat → Page}

/-- One block of two takes the other over: `b` keeps its head and grows by the size of `c`, which loses its flag. -/
def swallow (s : FreeArea) (b c : Nat) : FreeArea :=
  (s.modify b (fun q => { q with property := q.property + (s.pages c).property })).modify c Page.clearProperty

theorem swallow_pages_of_ne (hb : q ≠ b) (hc : q ≠ c) : (swallow s b c).pages q = s.pages q := by
  simp only [swallow, FreeArea.modify_pages_of_ne _ hc, FreeArea.modify_pages_of_ne _ hb]

theorem swallow_size (hne : b ≠ c) : (swallow s b c).size b = s.size b + s.size c := by
  simp only [FreeArea.size, swallow, FreeArea.modify_pages_of_ne _ hne, FreeArea.modify_pages_self]

theorem swallow_size_of_ne (hb : q ≠ b) : (swallow s b c).size q = s.size q := by
  by_cases hc : q = c
  · subst hc
    simp only [FreeArea.size, swallow, FreeArea.modify_pages_self, Page.clearProperty, FreeArea.modify_pages_of_ne _ hb]
  · simp only [FreeArea.size, swallow_pages_of_ne hb hc]

theorem swallow_keep (hne : b ≠ c) (q : Nat) : ((swallow s b c).pages q).ref = (s.pages q).ref ∧
      ((swallow s b c).pages q).flags.reserved = (s.pages q).flags.reserved := by
  by_cases hc : q = c
  · subst hc
    simp [swallow, FreeArea.modify_pages_of_ne _ (Ne.symm hne), Page.clearProperty]
  · by_cases hb : q = b
    · subst hb
      simp [swallow, FreeArea.modify_pages_of_ne _ hne]
    · simp [swallow_pages_of_ne hb hc]

theorem swallow_property (hne : b ≠ c) (q : Nat) :
    ((swallow s b c).pages q).flags.property = true ↔ q ≠ c ∧ (s.pages q).flags.property = true := by
  by_cases hc : q = c
  · subst hc
    simp [swallow, Page.clearProperty]
  · by_cases hb : q = b
    · subst hb
      simp [swallow, FreeArea.modify_pages_of_ne _ hne, hne]
    · simp [swallow_pages_of_ne hb hc, hc]

section Swallow

variable (h : Merging s0 U N pre (p :: le) base s) (hbc : b + s.size b = c) (hor : (b = base ∧ c = p) ∨ (b = p ∧ c = base))
include h hbc hor

/-- The two blocks are not empty, and the other ones lie below the first or above the second. -/
theorem swallow_apart : b ≠ c ∧ 0 < s.size b ∧ 0 < s.size c ∧ (∀ q ∈ pre, q + s.size q ≤ b ∧ 0 < s.size q) ∧
    ∀ q ∈ le, c + s.size c ≤ q := by
  obtain ⟨hs1, hs2, hp, hbl, hbr, -⟩ := separated_middle.mp h.separated
  have hb := h.pos
  refine ⟨?_, ?_, ?_, ?_, ?_⟩
  · rcases hor with ⟨rfl, rfl⟩ | ⟨rfl, rfl⟩ <;> omega
  · rcases hor with ⟨rfl, -⟩ | ⟨rfl, -⟩
    · exact hb
    · exact hp
  · rcases hor with ⟨-, rfl⟩ | ⟨-, rfl⟩
    · exact hp
    · exact hb
  · intro q hq
    have h1 := hbl q hq
    have h2 := hs1.2 q hq
    have h3 := h.apart q (List.mem_append_left _ hq)
    have h4 := h.gap q hq
    rcases hor with ⟨rfl, rfl⟩ | ⟨rfl, rfl⟩ <;> omega
  · intro q hq
    have h1 := hbr q hq
    rcases hor with ⟨rfl, rfl⟩ | ⟨rfl, rfl⟩
    · exact h1
    · have h2 := hs2.2 q hq
      have h3 := h.apart q (List.mem_append_right _ (List.mem_cons_of_mem _ hq))
      omega

/-- The pages of the two blocks and of the other ones are those of before. -/
theorem swallow_cover : Set.Ico b (b + (s.size b + s.size c)) ∪ extent s.size (pre ++ le) = U := by
  rw [← h.cover, extent_middle]
  ext x
  have hi : x ∈ Set.Ico b (b + (s.size b + s.size c)) ↔
      x ∈ Set.Ico base (base + s.size base) ∨ x ∈ Set.Ico p (p + s.size p) := by
    simp only [Set.mem_Ico]
    rcases hor with ⟨rfl, rfl⟩ | ⟨rfl, rfl⟩ <;> omega
  simp only [Set.mem_union, hi]
  tauto

/-- The block of `b` has taken over the block of `c` right behind it, one of the two being the block freed and the other `p`,
which leaves the list. -/
theorem merging_swallow : Merging s0 U N pre le b ((swallow s b c).listDel p) := by
  obtain ⟨hs1, hs2, -, -, -, hlr⟩ := separated_middle.mp h.separated
  obtain ⟨hne, hb, hcpos, hp, hle⟩ := swallow_apart h hbc hor
  have hcov := swallow_cover h hbc hor
  have hs : s.size b + s.size c = s.size base + s.size p := by
    rcases hor with ⟨rfl, rfl⟩ | ⟨rfl, rfl⟩
    · rfl
    · exact Nat.add_comm _ _
  have hnb : ∀ q ∈ pre ++ le, q ≠ b ∧ q ≠ c := by
    intro q hq
    rcases List.mem_append.mp hq with hq | hq
    · have h1 := hp q hq
      omega
    · have h1 := hle q hq
      omega
  have hsz : ∀ q ∈ pre ++ le, ((swallow s b c).listDel p).size q = s.size q :=
    fun q hq => swallow_size_of_ne (hnb q hq).1
  have hszb : ((swallow s b c).listDel p).size b = s.size b + s.size c := swallow_size hne
  have hnp : p ∉ pre := by
    intro hm
    have h1 := hnb p (List.mem_append_left _ hm)
    rcases hor with ⟨-, rfl⟩ | ⟨rfl, -⟩
    · exact h1.2 rfl
    · exact h1.1 rfl
  have hsepm : Separated s.size (pre ++ le) := by
    rw [separated_append]
    exact ⟨hs1, hs2, hlr⟩
  have hin : ∀ q, (q = b ∨ q = c) → q ∈ U := by
    intro q hq
    rw [← hcov]
    refine Or.inl ?_
    rw [Set.mem_Ico]
    omega
  refine ⟨?_, hsepm.congr hsz, by omega, ?_, ?_, ?_, ?_, ?_, ?_, ?_, ?_⟩
  · show s.freeList.erase p = pre ++ le
    rw [h.list, erase_middle _ hnp]
  · intro q hq
    rw [hsz q hq, hszb]
    rcases List.mem_append.mp hq with hq | hq
    · exact Or.inl (hp q hq).1
    · have h1 := hle q hq
      omega
  · intro q hq hbq
    have h1 := hp q hq
    omega
  · rw [hszb, extent_congr hsz]
    exact hcov
  · have hc := h.count
    rw [total_append, total_cons] at hc
    rw [hszb, total_congr hsz, total_append]
    omega
  · intro q hq
    rw [FreeArea.listDel_pages, swallow_property hne, h.property_iff q hq]
    simp only [List.mem_append, List.mem_cons]
    constructor
    · rintro ⟨hqc, h1⟩
      rcases hor with ⟨rfl, rfl⟩ | ⟨rfl, rfl⟩ <;> tauto
    · intro h1
      refine ⟨?_, ?_⟩
      · rintro rfl
        rcases h1 with h1 | h1
        · exact hne h1.symm
        · exact (hnb q (List.mem_append.mpr h1)).2 rfl
      · rcases hor with ⟨rfl, rfl⟩ | ⟨rfl, rfl⟩ <;> tauto
  · intro q
    have h1 := swallow_keep (s := s) hne q
    have h2 := h.keep q
    exact ⟨h1.1.trans h2.1, h1.2.trans h2.2⟩
  · intro q hq
    rw [FreeArea.listDel_pages, swallow_pages_of_ne, h.frame q hq]
    · exact fun hqb => hq (hin q (Or.inl hqb))
    · exact fun hqc => hq (hin q (Or.inr hqc))
  · exact h.nrFree

end Swallow
/-- A block that the freed one does not touch is passed by. -/
theorem merging_skip (h : Merging s0 U N pre (p :: le) base s) (h1 : base + s.size base ≠ p) (h2 : p + s.size p ≠ base) :
    Merging s0 U N (pre ++ [p]) le base s := by
  have e : pre ++ [p] ++ le = pre ++ p :: le := by simp
  obtain ⟨hl, hs, hp, hap, hg, hc, hcnt, hfl, hk, hf, hnr⟩ := h
  refine ⟨by rw [e]; exact hl, by rw [e]; exact hs, hp, by rw [e]; exact hap, ?_, by rw [e]; exact hc,
    by rw [e]; exact hcnt, by rw [e]; exact hfl, hk, hf, hnr⟩
  intro q hq hbq
  rcases List.mem_append.mp hq with hq | hq
  · exact hg q hq hbq
  · rw [List.mem_singleton] at hq
    subst hq
    have h3 := hap q List.mem_append_cons_self
    omega

/-- What the second loop keeps besides, if no two blocks of the list touched when it began: they still do not, and no block
that it has passed touches the block freed from below. -/
structure Clear (pre rest : List Nat) (base : Nat) (s : FreeArea) : Prop where
  gapped : Gapped s.size (pre ++ rest)
  below : ∀ q ∈ pre, q < base → q + s.size q < base

theorem clear_swallow (h : Merging s0 U N pre (p :: le) base s) (hc : Clear pre (p :: le) base s)
    (hbc : b + s.size b = c) (hor : (b = base ∧ c = p) ∨ (b = p ∧ c = base)) : Clear pre le b ((swallow s b c).listDel p) := by
  obtain ⟨hr, hb, -⟩ := gapped_middle.mp hc.gapped
  have hm := merging_swallow h hbc hor
  have hs : ∀ q ∈ pre ++ le, ((swallow s b c).listDel p).size q = s.size q := by
    intro q hq
    have h1 := hm.apart q hq
    have h2 := hm.separated.2 q hq
    have h3 := hm.pos
    exact swallow_size_of_ne (by omega)
  refine ⟨hr.congr hs, ?_⟩
  intro q hq hlt
  rw [hs q (List.mem_append_left _ hq)]
  rcases hor with ⟨rfl, -⟩ | ⟨rfl, -⟩
  · exact hc.below q hq hlt
  · exact hb q hq

theorem clear_skip (h : Merging s0 U N pre (p :: le) base s) (hc : Clear pre (p :: le) base s) (h2 : p + s.size p ≠ base) :
    Clear (pre ++ [p]) le base s := by
  refine ⟨by rw [List.append_assoc]; exact hc.gapped, ?_⟩
  intro q hq hlt
  rcases List.mem_append.mp hq with hq | hq
  · exact hc.below q hq hlt
  · obtain rfl := List.mem_singleton.mp hq
    have h3 := h.apart q List.mem_append_cons_self
    omega

/-- The second loop of `default_free_pages` keeps its invariant to the end of the list, and merges all that touches. -/
theorem mergeLoop_merging : ∀ (rest pre : List Nat) (base : Nat) (s : FreeArea), Merging s0 U N pre rest base s →
    ∃ pre', Merging s0 U N pre' [] (mergeLoop rest base s).1 (mergeLoop rest base s).2 ∧
      (Clear pre rest base s → Clear pre' [] (mergeLoop rest base s).1 (mergeLoop rest base s).2) := by
  intro rest
  induction rest with
  | nil =>
    intro pre base s h
    exact ⟨pre, h, id⟩
  | cons p le ih =>
    intro pre base s h
    rw [mergeLoop]
    by_cases h1 : base + (s.pages base).property = p
    · obtain ⟨pre', hm, hc⟩ := ih _ _ _ (merging_swallow h h1 (Or.inl ⟨rfl, rfl⟩))
      rw [if_pos h1]
      exact ⟨pre', hm, fun hcl => hc (clear_swallow h hcl h1 (Or.inl ⟨rfl, rfl⟩))⟩
    · rw [if_neg h1]
      by_cases h2 : p + (s.pages p).property = base
      · obtain ⟨pre', hm, hc⟩ := ih _ _ _ (merging_swallow h h2 (Or.inr ⟨rfl, rfl⟩))
        rw [if_pos h2]
        exact ⟨pre', hm, fun hcl => hc (clear_swallow h hcl h2 (Or.inr ⟨rfl, rfl⟩))⟩
      · obtain ⟨pre', hm, hc⟩ := ih _ _ _ (merging_skip h h1 h2)
        rw [if_neg h2]
        exact ⟨pre', hm, fun hcl => hc (clear_skip h hcl h2)⟩

/-- The third loop of `default_free_pages`, among blocks none of which touches the end of the block freed. -/
theorem insertLoop_spec {sz : Nat → Nat} (hs : Separated sz l) (h : ∀ q ∈ l, q + sz q ≤ base ∨ stop < q) (hlt : base < stop) :
    ∃ l1 l2, l = l1 ++ l2 ∧ insertLoop base stop l = .ok (l1 ++ base :: l2) ∧ (∀ q ∈ l1, q + sz q ≤ base) ∧
      ∀ q ∈ l2, stop < q := by
  induction l with
  | nil => exact ⟨[], [], rfl, rfl, by simp, by simp⟩
  | cons q l ih =>
    obtain ⟨hq, hbr, hs'⟩ := separated_cons.mp hs
    rw [insertLoop]
    by_cases hle : stop ≤ q
    · have hq' : stop < q := by
        rcases h q List.mem_cons_self with h1 | h1
        · omega
        · exact h1
      rw [if_pos hle, ensure_of hq'.ne]
      refine ⟨[], q :: l, rfl, rfl, by simp, ?_⟩
      intro r hr
      rcases List.mem_cons.mp hr with rfl | hr
      · exact hq'
      · have h1 := hbr r hr
        omega
    · rw [if_neg hle]
      have hqb : q + sz q ≤ base := by
        rcases h q List.mem_cons_self with h1 | h1
        · exact h1
        · omega
      obtain ⟨l1, l2, rfl, hi, h1, h2⟩ := ih hs' (fun r hr => h r (List.mem_cons_of_mem _ hr))
      refine ⟨q :: l1, l2, rfl, by rw [hi]; rfl, ?_, h2⟩
      intro r hr
      rcases List.mem_cons.mp hr with rfl | hr
      · exact hqb
      · exact h1 r hr

/-- The state in which the second loop of `default_free_pages` begins, with the `n` pages from `base` on made a block. -/
def freed (base n : Nat) (s : FreeArea) : FreeArea :=
  { s with pages := rewritePages (fun q => { q with ref := 0, flags := ⟨false, false⟩ }) s.pages base n }.modify base
    (fun p => { p.setProperty with property := n })

theorem freed_pages_of_ne (hq : ¬(base ≤ q ∧ q < base + n)) (hn : 0 < n) : (freed base n s).pages q = s.pages q := by
  have hne : q ≠ base := by omega
  simp only [freed, FreeArea.modify_pages_of_ne _ hne, rewritePages, if_neg hq]

theorem freed_size : (freed base n s).size base = n := by
  simp [freed, FreeArea.size]

/-- `default_free_pages` behind its first loop. -/
theorem defaultFreePages_eq (hn : 0 < n)
    (hf : ∀ q, base ≤ q → q < base + n → (s.pages q).flags.reserved = false ∧ (s.pages q).flags.property = false)
    (hm : mergeLoop s.freeList base (freed base n s) = (base1, s1)) : defaultFreePages base n s =
      insertLoop base1 (base1 + s1.size base1) s1.freeList >>= fun l =>
        .ok { s1 with nrFree := s1.nrFree + n, freeList := l } := by
  unfold defaultFreePages
  rw [ensure_of hn, bind_ok, freePages_eq s.pages base n hf, bind_ok]
  unfold freed at hm
  simp only [FreeArea.modify_freeList, hm, FreeArea.size]

/-- The descriptors of the pages freed. -/
theorem freed_pages_inside (hq : base ≤ q ∧ q < base + n) :
    ((freed base n s).pages q).ref = 0 ∧ ((freed base n s).pages q).flags.reserved = false ∧
      (((freed base n s).pages q).flags.property = true ↔ q = base) := by
  by_cases hqb : q = base
  · subst hqb
    simp [freed, rewritePages, hq, Page.setProperty]
  · simp [freed, FreeArea.modify_pages_of_ne _ hqb, rewritePages, hq, hqb]

/-- The second loop of `default_free_pages` begins in a state that satisfies its invariant. -/
theorem merging_freed (h : s.Inv pg0 I A) (hn : 0 < n) (hA : Set.Ico base (base + n) ⊆ A) :
    Merging (freed base n s) (Set.Ico base (base + n) ∪ extent s.size s.freeList)
      (n + total s.size s.freeList) [] s.freeList base (freed base n s) := by
  have ho : ∀ p ∈ s.freeList, p + s.size p ≤ base ∨ base + n ≤ p := by
    intro p hp
    by_contra hc
    have hpos := h.separated.2 p hp
    have hx : max p base ∈ extent s.size s.freeList := ⟨p, hp, by omega, by omega⟩
    have hx' : max p base ∈ A := hA (Set.mem_Ico.mpr (by omega))
    exact Set.disjoint_left.mp h.disjoint hx hx'
  have hsz : ∀ p ∈ s.freeList, (freed base n s).size p = s.size p := by
    intro p hp
    have h1 := ho p hp
    have h2 := h.separated.2 p hp
    simp only [FreeArea.size, freed_pages_of_ne (show ¬(base ≤ p ∧ p < base + n) by omega) hn]
  refine ⟨rfl, h.separated.congr hsz, by rw [freed_size]; exact hn, ?_, by simp, ?_, ?_, ?_, fun _ => ⟨rfl, rfl⟩,
    fun _ _ => rfl, rfl⟩
  · intro p hp
    rw [hsz p hp, freed_size]
    exact ho p hp
  · rw [freed_size, List.nil_append, extent_congr hsz]
  · rw [freed_size, List.nil_append, total_congr hsz]
  · intro p hp
    rw [List.nil_append]
    by_cases hin : base ≤ p ∧ p < base + n
    · rw [(freed_pages_inside hin).2.2]
      have hno : p ∉ s.freeList := by
        intro hm
        have h1 := ho p hm
        have h2 := h.separated.2 p hm
        omega
      simp only [hno, or_false]
    · have hne : p ≠ base := by omega
      have hpI : p ∈ I := by
        rw [← h.cover]
        rcases hp with hp | hp
        · exact absurd hp hin
        · exact Or.inl hp
      rw [freed_pages_of_ne hin hn, h.property_iff p hpI]
      simp only [hne, false_or]

/-- The block built by the second loop goes back into the list between the blocks below and above it. -/
theorem inv_of_merging (h : s.Inv pg0 I A) (hn : 0 < n) (hA : Set.Ico base (base + n) ⊆ A)
    (hm : Merging (freed base n s) (Set.Ico base (base + n) ∪ extent s.size s.freeList) (n + total s.size s.freeList)
      (l1 ++ l2) [] base1 s1) (h1 : ∀ q ∈ l1, q + s1.size q ≤ base1) (h2 : ∀ q ∈ l2, base1 + s1.size base1 < q) :
    ({ s1 with nrFree := s1.nrFree + n, freeList := l1 ++ base1 :: l2 } : FreeArea).Inv pg0 I
      (A \ Set.Ico base (base + n)) := by
  obtain ⟨-, hs, hp, -, -, hcov, hcnt, hfl, hk, hf, hnr⟩ := hm
  simp only [List.append_nil] at hs hcov hcnt hfl
  have hsi : ({ s1 with nrFree := s1.nrFree + n, freeList := l1 ++ base1 :: l2 } : FreeArea).size = s1.size := rfl
  obtain ⟨hs1, hs2, hlr⟩ := separated_append.mp hs
  have he : extent s1.size (l1 ++ base1 :: l2) = Set.Ico base (base + n) ∪ extent s.size s.freeList := by
    rw [extent_middle]
    exact hcov
  have hAI : A ⊆ I := by
    rw [← h.cover]
    exact Set.subset_union_right
  refine ⟨?_, ?_, ?_, ?_, ?_, ?_, ?_, ?_⟩
  · rw [separated_middle]
    exact ⟨hs1, hs2, hp, h1, fun q hq => (h2 q hq).le, hlr⟩
  · intro q hq
    by_cases hqU : q ∈ Set.Ico base (base + n) ∪ extent s.size s.freeList
    · show (s1.pages q).flags.property = true ↔ q ∈ l1 ++ base1 :: l2
      rw [hfl q hqU]
      simp only [List.mem_append, List.mem_cons]
      tauto
    · have hno : q ∉ l1 ++ base1 :: l2 := by
        intro hm
        refine hqU ?_
        rw [← he]
        refine ⟨q, hm, Nat.le_refl q, ?_⟩
        have h3 := (separated_middle.mpr ⟨hs1, hs2, hp, h1, fun q hq => (h2 q hq).le, hlr⟩).2 q hm
        omega
      have hno' : q ∉ s.freeList := by
        intro hm
        refine hqU (Or.inr ⟨q, hm, Nat.le_refl q, ?_⟩)
        have h3 := h.separated.2 q hm
        omega
      have ho : ¬(base ≤ q ∧ q < base + n) := fun hc => hqU (Or.inl hc)
      show (s1.pages q).flags.property = true ↔ q ∈ l1 ++ base1 :: l2
      rw [hf q hqU, freed_pages_of_ne ho hn, h.property_iff q hq]
      exact iff_of_false hno' hno
  · intro q hq
    show (s1.pages q).flags.reserved = false
    rw [(hk q).2]
    by_cases hin : base ≤ q ∧ q < base + n
    · exact (freed_pages_inside hin).2.1
    · rw [freed_pages_of_ne hin hn]
      exact h.reserved q hq
  · show s1.nrFree + n = total s1.size (l1 ++ base1 :: l2)
    have hc := h.count
    have hnr' : (freed base n s).nrFree = s.nrFree := rfl
    rw [total_append] at hcnt
    rw [total_append, total_cons, hnr, hnr']
    omega
  · show Disjoint (extent s1.size (l1 ++ base1 :: l2)) (A \ Set.Ico base (base + n))
    rw [he, Set.disjoint_union_left]
    exact ⟨Set.disjoint_sdiff_right, h.disjoint.mono_right Set.sdiff_subset⟩
  · show extent s1.size (l1 ++ base1 :: l2) ∪ A \ Set.Ico base (base + n) = I
    rw [he, ← h.cover, Set.union_right_comm, Set.union_sdiff_cancel hA, Set.union_comm]
  · intro q hq
    show (s1.pages q).ref = 0
    rw [(hk q).1]
    by_cases hin : base ≤ q ∧ q < base + n
    · exact (freed_pages_inside hin).1
    · rw [freed_pages_of_ne hin hn]
      change q ∈ extent s1.size (l1 ++ base1 :: l2) at hq
      rw [he] at hq
      rcases hq with hq | hq
      · exact absurd hq hin
      · exact h.ref_zero q hq
  · intro q hq
    have hqU : q ∉ Set.Ico base (base + n) ∪ extent s.size s.freeList := by
      rintro (hq' | hq')
      · exact hq (hAI (hA hq'))
      · refine hq ?_
        rw [← h.cover]
        exact Or.inl hq'
    have ho : ¬(base ≤ q ∧ q < base + n) := fun hc => hqU (Or.inl hc)
    show s1.pages q = pg0 q
    rw [hf q hqU, freed_pages_of_ne ho hn, h.outside q hq]

end PmmAux

open PmmAux

/-- `default_free_pages` of pages that are handed out trips no assertion: the block that its second loop builds goes back into
the list, between the blocks below and above it. -/
theorem defaultFreePages_runs (base : Nat) (h : s.Inv pg0 I A) (hn : 0 < n) (hA : Set.Ico base (base + n) ⊆ A) :
    ∃ base1 s1 l1 l2, mergeLoop s.freeList base (freed base n s) = (base1, s1) ∧
      Merging (freed base n s) (Set.Ico base (base + n) ∪ extent s.size s.freeList) (n + total s.size s.freeList) (l1 ++ l2) []
        base1 s1 ∧
      (∀ q ∈ l1, q + s1.size q ≤ base1) ∧ (∀ q ∈ l2, base1 + s1.size base1 < q) ∧
      defaultFreePages base n s = .ok { s1 with nrFree := s1.nrFree + n, freeList := l1 ++ base1 :: l2 } := by
  have hAI : A ⊆ I := by
    rw [← h.cover]
    exact Set.subset_union_right
  have hf : ∀ q, base ≤ q → q < base + n →
      (s.pages q).flags.reserved = false ∧ (s.pages q).flags.property = false := by
    intro q hq hq'
    have hqA : q ∈ A := hA ⟨hq, hq'⟩
    refine ⟨h.reserved q (hAI hqA), ?_⟩
    rw [← Bool.not_eq_true, h.property_iff q (hAI hqA)]
    intro hm
    refine Set.disjoint_left.mp h.disjoint ⟨q, hm, Nat.le_refl q, ?_⟩ hqA
    have := h.separated.2 q hm
    omega
  obtain ⟨pre, hm, -⟩ := mergeLoop_merging s.freeList [] base (freed base n s) (merging_freed h hn hA)
  obtain ⟨⟨base1, s1⟩, hl⟩ : ∃ r, mergeLoop s.freeList base (freed base n s) = r := ⟨_, rfl⟩
  rw [hl] at hm
  dsimp only at hm
  have hp := hm.pos
  have hg : ∀ q ∈ pre, q + s1.size q ≤ base1 ∨ base1 + s1.size base1 < q := by
    intro q hq
    rcases hm.apart q (List.mem_append_left _ hq) with h1 | h1
    · exact Or.inl h1
    · exact Or.inr (hm.gap q hq (by omega))
  have hs := hm.separated
  have hli := hm.list
  rw [List.append_nil] at hs hli
  obtain ⟨l1, l2, rfl, hi, h1, h2⟩ := insertLoop_spec hs hg (by omega)
  refine ⟨base1, s1, l1, l2, hl, hm, h1, h2, ?_⟩
  rw [defaultFreePages_eq hn hf hl, hli, hi, bind_ok]

/-- `default_free_pages` of pages that are handed out trips no assertion and makes them free. Their reference counters are
reset, no other is touched. -/
theorem defaultFreePages_spec (base : Nat) (h : s.Inv pg0 I A) (hn : 0 < n) (hA : Set.Ico base (base + n) ⊆ A) :
    ∃ s', defaultFreePages base n s = .ok s' ∧ s'.Inv pg0 I (A \ Set.Ico base (base + n)) ∧
      (∀ q, (s'.pages q).ref = if base ≤ q ∧ q < base + n then 0 else (s.pages q).ref) := by
  obtain ⟨base1, s1, l1, l2, -, hm, h1, h2, hr⟩ := defaultFreePages_runs base h hn hA
  refine ⟨_, hr, inv_of_merging h hn hA hm h1 h2, ?_⟩
  intro q
  rw [(hm.keep q).1]
  by_cases hin : base ≤ q ∧ q < base + n
  · rw [if_pos hin]
    exact (freed_pages_inside hin).1
  · rw [if_neg hin, freed_pages_of_ne hin hn]

/-- `default_free_pages` leaves no two free blocks that touch. -/
theorem defaultFreePages_gapped (h : s.Inv pg0 I A) (hg : Gapped s.size s.freeList) (hn : 0 < n)
    (hA : Set.Ico base (base + n) ⊆ A) (hr : defaultFreePages base n s = .ok s') : Gapped s'.size s'.freeList := by
  obtain ⟨base1, s1, l1, l2, hl, hm, h1, h2, hr'⟩ := defaultFreePages_runs base h hn hA
  rw [hr'] at hr
  cases hr
  have hs := merging_freed h hn hA
  have hsi : ∀ q ∈ s.freeList, (freed base n s).size q = s.size q := by
    intro q hq
    refine congrArg Page.property (freed_pages_of_ne ?_ hn)
    intro hin
    refine Set.disjoint_left.mp h.disjoint ⟨q, hq, Nat.le_refl q, ?_⟩ (hA hin)
    have := h.separated.2 q hq
    omega
  obtain ⟨pre, hm', hc⟩ := mergeLoop_merging _ [] base _ hs
  replace hc := hc ⟨hg.congr hsi, by simp⟩
  rw [hl] at hm' hc
  obtain rfl : pre = l1 ++ l2 := List.append_cancel_right (hm'.list.symm.trans hm.list)
  have hgapped := hc.gapped
  rw [List.append_nil] at hgapped
  refine gapped_middle.mpr ⟨hgapped, ?_, h2⟩
  intro q hq
  refine hc.below q (List.mem_append_left _ hq) ?_
  have h3 := h1 q hq
  have h4 := hm.separated.2 q (List.mem_append_left _ (List.mem_append_left _ hq))
  omega

/-! ## Initialisation -/

/-- The pages of a list of ranges. -/
def rangePages (ranges : List (Nat × Nat)) : Set Nat := {p | ∃ r ∈ ranges, r.1 ≤ p ∧ p < r.1 + r.2}

theorem rangePages_append (l : List (Nat × Nat)) (r : Nat × Nat) :
    rangePages (l ++ [r]) = rangePages l ∪ Set.Ico r.1 (r.1 + r.2) := by
  ext p
  simp only [rangePages, List.mem_append, List.mem_singleton, Set.mem_ofPred_eq, Set.mem_union, Set.mem_Ico]
  constructor
  · rintro ⟨q, hq | rfl, h⟩
    · exact Or.inl ⟨q, hq, h⟩
    · exact Or.inr h
  · rintro (⟨q, hq, h⟩ | h)
    · exact ⟨q, Or.inl hq, h⟩
    · exact ⟨r, Or.inr rfl, h⟩

/-- An allocator that was given nothing yet. -/
theorem inv_defaultInit (pages : Nat → Page) : (defaultInit pages).Inv pages ∅ ∅ := by
  refine ⟨separated_nil _, by simp, by simp, rfl, by simp, by simp [defaultInit], ?_, fun _ _ => rfl⟩
  intro p hp
  simp [defaultInit] at hp

namespace PmmAux

variable {s : FreeArea} {base n q : Nat}

/-- The allocator with the `n` pages from `base` on added as one free block. -/
def initialised (base n : Nat) (s : FreeArea) : FreeArea :=
  { pages := update (rewritePages (fun _ => ⟨0, ⟨false, false⟩, 0⟩) s.pages base n) base ⟨0, ⟨false, true⟩, n⟩,
    freeList := s.freeList ++ [base], nrFree := s.nrFree + n }

theorem defaultInitMemmap_eq (hn : 0 < n) (hr : ∀ q, base ≤ q → q < base + n → (s.pages q).flags.reserved = true) :
    defaultInitMemmap base n s = .ok (initialised base n s) := by
  unfold defaultInitMemmap
  rw [ensure_of hn, bind_ok, initPages_eq s.pages base n hr, bind_ok]
  have hin : base ≤ base ∧ base < base + n := by omega
  simp only [FreeArea.modify, rewritePages, if_pos hin, Page.setProperty, initialised]

theorem initialised_pages_outside (hn : 0 < n) (hq : ¬(base ≤ q ∧ q < base + n)) :
    (initialised base n s).pages q = s.pages q := by
  have hne : q ≠ base := by omega
  simp only [initialised, update_of_ne hne, rewritePages, if_neg hq]

theorem initialised_pages_inside (hq : base ≤ q ∧ q < base + n) :
    ((initialised base n s).pages q).ref = 0 ∧ ((initialised base n s).pages q).flags.reserved = false ∧
      (((initialised base n s).pages q).flags.property = true ↔ q = base) := by
  by_cases hqb : q = base
  · subst hqb
    simp [initialised]
  · simp [initialised, hqb, rewritePages, hq]

theorem initialised_size : (initialised base n s).size base = n := by
  simp [initialised, FreeArea.size]

end PmmAux

/-- `default_init_memmap` of reserved pages above everything the allocator was given before adds them to its free pages. -/
theorem defaultInitMemmap_spec (h : s.Inv pg0 I ∅) (hn : 0 < n)
    (hr : ∀ q, base ≤ q → q < base + n → (pg0 q).flags.reserved = true) (hI : ∀ q ∈ I, q < base) :
    ∃ s', defaultInitMemmap base n s = .ok s' ∧ s'.Inv pg0 (I ∪ Set.Ico base (base + n)) ∅ := by
  have hp : ∀ q, base ≤ q → s.pages q = pg0 q := by
    intro q hq
    refine h.outside q (fun hm => ?_)
    have := hI q hm
    omega
  have hc := h.cover
  rw [Set.union_empty] at hc
  have hl : ∀ q ∈ s.freeList, q + s.size q ≤ base ∧ 0 < s.size q := by
    intro q hq
    have h1 := h.separated.2 q hq
    have h2 := hI (q + s.size q - 1) (hc ▸ ⟨q, hq, by omega, by omega⟩)
    omega
  have hsz : ∀ q ∈ s.freeList, (initialised base n s).size q = s.size q := by
    intro q hq
    have h1 := hl q hq
    simp only [FreeArea.size, initialised_pages_outside hn (show ¬(base ≤ q ∧ q < base + n) by omega)]
  have he : extent (initialised base n s).size (s.freeList ++ [base]) = I ∪ Set.Ico base (base + n) := by
    rw [extent_append, extent_congr hsz, extent_cons, extent_nil, Set.union_empty, initialised_size, hc]
  refine ⟨initialised base n s, defaultInitMemmap_eq hn ?_, ?_, ?_, ?_, ?_, by simp, ?_, ?_, ?_⟩
  · intro q hq hq'
    rw [hp q hq]
    exact hr q hq hq'
  · show Separated (initialised base n s).size (s.freeList ++ [base])
    rw [separated_append]
    refine ⟨h.separated.congr hsz, ?_, ?_⟩
    · rw [separated_cons, initialised_size]
      exact ⟨hn, by simp, separated_nil _⟩
    · intro q hq b hb
      rw [List.mem_singleton] at hb
      subst hb
      rw [hsz q hq]
      exact (hl q hq).1
  · intro q hq
    show _ ↔ q ∈ s.freeList ++ [base]
    rw [List.mem_append, List.mem_singleton]
    by_cases hin : base ≤ q ∧ q < base + n
    · have hno : q ∉ s.freeList := fun hm => by
        have h1 := hl q hm
        omega
      rw [(initialised_pages_inside hin).2.2]
      simp only [hno, false_or]
    · have hne : q ≠ base := by omega
      have hqI : q ∈ I := hq.resolve_right hin
      rw [initialised_pages_outside hn hin, h.property_iff q hqI]
      simp only [hne, or_false]
  · intro q hq
    by_cases hin : base ≤ q ∧ q < base + n
    · exact (initialised_pages_inside hin).2.1
    · rw [initialised_pages_outside hn hin]
      exact h.reserved q (hq.resolve_right hin)
  · show s.nrFree + n = total (initialised base n s).size (s.freeList ++ [base])
    rw [total_append, total_congr hsz, total_cons, initialised_size, h.count]
    rfl
  · rw [Set.union_empty]
    exact he
  · intro q hq
    change q ∈ extent (initialised base n s).size (s.freeList ++ [base]) at hq
    by_cases hin : base ≤ q ∧ q < base + n
    · exact (initialised_pages_inside hin).1
    · rw [initialised_pages_outside hn hin]
      rw [he] at hq
      exact h.ref_zero q (hc ▸ hq.resolve_right hin)
  · intro q hq
    rw [Set.mem_union, not_or] at hq
    rw [initialised_pages_outside hn hq.2]
    exact h.outside q hq.1

/-- The ranges a machine gives to the allocator: none is empty, and they stand in increasing order without overlap. -/
def Ascending (ranges : List (Nat × Nat)) : Prop :=
  ranges.Pairwise (fun a b => a.1 + a.2 ≤ b.1) ∧ ∀ r ∈ ranges, 0 < r.2

/-- From `default_init` on, `default_init_memmap` on ascending ranges of reserved pages fails nowhere and leaves every page of
the ranges free. -/
theorem bootPmm_spec (pages : Nat → Page) (ranges : List (Nat × Nat)) (hr : Ascending ranges)
    (hres : ∀ p ∈ rangePages ranges, (pages p).flags.reserved = true) :
    ∃ s, bootPmm pages ranges = .ok s ∧ s.Inv pages (rangePages ranges) ∅ := by
  unfold bootPmm
  -- the ranges initialised so far grow at the end, so the induction takes the last range off
  induction ranges using List.reverseRecOn with
  | nil =>
    refine ⟨defaultInit pages, rfl, ?_⟩
    have : rangePages [] = ∅ := by
      ext p
      simp [rangePages]
    rw [this]
    exact inv_defaultInit pages
  | append_singleton l r ih =>
    obtain ⟨hp, hpos⟩ := hr
    rw [List.pairwise_append] at hp
    have hrl : rangePages (l ++ [r]) = rangePages l ∪ Set.Ico r.1 (r.1 + r.2) := rangePages_append l r
    rw [hrl] at hres ⊢
    obtain ⟨s, hs, hinv⟩ := ih ⟨hp.1, fun q hq => hpos q (List.mem_append_left _ hq)⟩ (fun p hp => hres p (Or.inl hp))
    have hb : ∀ q ∈ rangePages l, q < r.1 := by
      rintro q ⟨t, ht, hq⟩
      have := hp.2.2 t ht r (List.mem_singleton_self r)
      omega
    obtain ⟨s', hs', hi'⟩ := defaultInitMemmap_spec hinv (hpos r (by simp))
      (fun q hq hq' => hres q (Or.inr ⟨hq, hq'⟩)) hb
    refine ⟨s', ?_, hi'⟩
    rw [List.foldlM_append, hs]
    simp only [List.foldlM_cons, List.foldlM_nil, hs', bind_ok, pure_eq_ok]

/-- The free blocks after booting are the ranges. -/
theorem bootPmm_blocks {ranges : List (Nat × Nat)} (hr : Ascending ranges)
    (hres : ∀ p ∈ rangePages ranges, (pages p).flags.reserved = true) (hrun : bootPmm pages ranges = .ok s) :
    s.freeList = ranges.map Prod.fst ∧ ∀ r ∈ ranges, (s.pages r.1).property = r.2 := by
  induction ranges using List.reverseRecOn generalizing s with
  | nil =>
    cases hrun
    exact ⟨rfl, by simp⟩
  | append_singleton l r ih =>
    obtain ⟨hp, hpos⟩ := hr
    rw [List.pairwise_append] at hp
    have hl : Ascending l := ⟨hp.1, fun q hq => hpos q (List.mem_append_left _ hq)⟩
    have hresl : ∀ p ∈ rangePages l, (pages p).flags.reserved = true := by
      intro p hp
      exact hres p (by rw [rangePages_append]; exact Or.inl hp)
    obtain ⟨s1, hs1, hinv⟩ := bootPmm_spec pages l hl hresl
    obtain ⟨hli, hs⟩ := ih hl hresl hs1
    have hb : ∀ t ∈ l, t.1 + t.2 ≤ r.1 := fun t ht => hp.2.2 t ht r (List.mem_singleton_self r)
    have hrp : 0 < r.2 := hpos r (by simp)
    have hresr : ∀ q, r.1 ≤ q → q < r.1 + r.2 → (s1.pages q).flags.reserved = true := by
      intro q hq hq'
      have hno : q ∉ rangePages l := by
        rintro ⟨t, ht, hle, hlt⟩
        have := hb t ht
        omega
      rw [hinv.outside q hno]
      exact hres q (by rw [rangePages_append]; exact Or.inr ⟨hq, hq'⟩)
    unfold bootPmm at hrun hs1
    rw [List.foldlM_append, hs1] at hrun
    simp only [List.foldlM_cons, List.foldlM_nil, defaultInitMemmap_eq hrp hresr, bind_ok, pure_eq_ok] at hrun
    cases hrun
    refine ⟨by rw [List.map_append, ← hli]; rfl, ?_⟩
    intro t ht
    rcases List.mem_append.mp ht with ht | ht
    · have h1 := hb t ht
      have h2 := hl.2 t ht
      rw [initialised_pages_outside hrp (by omega), hs t ht]
    · obtain rfl := List.mem_singleton.mp ht
      exact initialised_size

end Ucore
