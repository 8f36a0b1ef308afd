import Ucore.Pmm
import Ucore.Lib.Blocks

/-!
# What the page allocator keeps

`FreeArea.Inv` is the invariant of the allocator: the free blocks are separated, `PG_property` marks their heads, `nr_free`
counts their pages, and together with the pages handed out they make up the pages the allocator was given. Each function has
one lemma that says what it does to a state in which the invariant holds: `defaultInitMemmap_spec`, `defaultAllocPages_spec`
and `defaultFreePages_spec`.
-/

namespace Ucore

open Checked Blocks Function

variable {p q x n : Nat} {l1 l2 : List Nat} {pg0 : Nat → Page} {I A : Set Nat} {s s' : FreeArea}

/-- The size of the block a page heads. -/
def FreeArea.size (s : FreeArea) (p : Nat) : Nat := (s.pages p).property

/-- The invariant of the allocator over the pages `I` it was given, with the pages of `A` handed out. Every other page still
has the descriptor it had in `pg0`. -/
structure FreeArea.Inv (pg0 : Nat → Page) (I A : Set Nat) (s : FreeArea) : Prop where
  separated : Separated s.size s.freeList
  property_iff : ∀ p ∈ I, (s.pages p).flags.property = true ↔ p ∈ s.freeList
  reserved : ∀ p ∈ I, (s.pages p).flags.reserved = false
  count : s.nrFree = total s.size s.freeList
  disjoint : Disjoint (extent s.size s.freeList) A
  cover : extent s.size s.freeList ∪ A = I
  ref_zero : ∀ p ∈ extent s.size s.freeList, (s.pages p).ref = 0
  outside : ∀ p, p ∉ I → s.pages p = pg0 p

/-! ## The loops over descriptors -/

/-- The descriptors of the pages from `p` on, `n` of them, rewritten by `f`. -/
def rewritePages (f : Page → Page) (pages : Nat → Page) (p n : Nat) : Nat → Page :=
  fun q => if p ≤ q ∧ q < p + n then f (pages q) else pages q

theorem rewritePages_succ (f : Page → Page) (pages : Nat → Page) (p n : Nat) :
    rewritePages f (update pages p (f (pages p))) (p + 1) n = rewritePages f pages p (n + 1) := by
  funext q
  by_cases hq : q = p
  · subst hq
    have h1 : ¬(q + 1 ≤ q ∧ q < q + 1 + n) := by omega
    have h2 : q ≤ q ∧ q < q + (n + 1) := by omega
    simp only [rewritePages, if_neg h1, if_pos h2, update_self]
  · have h : (p + 1 ≤ q ∧ q < p + 1 + n) ↔ (p ≤ q ∧ q < p + (n + 1)) := by omega
    simp only [rewritePages, h, update_of_ne hq]

/-- The loop of `default_init_memmap` over reserved pages. -/
theorem initPages_eq (pages : Nat → Page) (p n : Nat) (h : ∀ q, p ≤ q → q < p + n → (pages q).flags.reserved = true) :
    initPages pages p n = .ok (rewritePages (fun _ => ⟨0, ⟨false, false⟩, 0⟩) pages p n) := by
  induction n generalizing pages p with
  | zero =>
    have : rewritePages (fun _ => ⟨0, ⟨false, false⟩, 0⟩) pages p 0 = pages := by
      funext q
      exact if_neg (by omega)
    rw [this, initPages]
  | succ n ih =>
    rw [initPages, ensure_of (h p (by omega) (by omega)), bind_ok, ih, rewritePages_succ]
    intro q hq hq'
    rw [update_of_ne (by omega)]
    exact h q (by omega) (by omega)

/-- The first loop of `default_free_pages` over pages that are neither reserved nor the head of a free block. -/
theorem freePages_eq (pages : Nat → Page) (p n : Nat)
    (h : ∀ q, p ≤ q → q < p + n → (pages q).flags.reserved = false ∧ (pages q).flags.property = false) :
    freePages pages p n = .ok (rewritePages (fun q => { q with ref := 0, flags := ⟨false, false⟩ }) pages p n) := by
  induction n generalizing pages p with
  | zero =>
    have : rewritePages (fun q => { q with ref := 0, flags := ⟨false, false⟩ }) pages p 0 = pages := by
      funext q
      exact if_neg (by omega)
    rw [this, freePages]
  | succ n ih =>
    rw [freePages, ensure_of (h p (by omega) (by omega)), bind_ok, ih, rewritePages_succ]
    intro q hq hq'
    rw [update_of_ne (by omega)]
    exact h q (by omega) (by omega)

/-! ## One descriptor rewritten -/

@[simp] theorem FreeArea.modify_freeList (s : FreeArea) (p : Nat) (f : Page → Page) : (s.modify p f).freeList = s.freeList := rfl

@[simp] theorem FreeArea.modify_pages_self (s : FreeArea) (p : Nat) (f : Page → Page) :
    (s.modify p f).pages p = f (s.pages p) := by
  simp [FreeArea.modify]

theorem FreeArea.modify_pages_of_ne (s : FreeArea) (h : q ≠ p) (f : Page → Page) : (s.modify p f).pages q = s.pages q := by
  simp [FreeArea.modify, h]


@[simp] theorem FreeArea.listDel_pages (s : FreeArea) (p : Nat) : (s.listDel p).pages = s.pages := rfl

theorem listAddAfter_middle (y : Nat) (l2 : List Nat) (h : x ∉ l1) : listAddAfter x y (l1 ++ x :: l2) = l1 ++ x :: y :: l2 := by
  induction l1 with
  | nil => simp [listAddAfter]
  | cons a l ih =>
    rw [List.mem_cons, not_or] at h
    rw [List.cons_append, listAddAfter, if_neg (Ne.symm h.1), ih h.2, List.cons_append]

theorem not_mem_of_nodup_middle (h : (l1 ++ x :: l2).Nodup) : x ∉ l1 := by
  rw [List.nodup_append] at h
  exact fun hm => h.2.2 x hm x List.mem_cons_self rfl

theorem erase_middle (l2 : List Nat) (h : x ∉ l1) : (l1 ++ x :: l2).erase x = l1 ++ l2 := by
  rw [List.erase_append_right _ h, List.erase_cons_head]

/-! ## Allocation -/

namespace PmmAux

variable {pg0 : Nat → Page} {I A : Set Nat} {s s' : FreeArea} {l1 l2 : List Nat} {page n q : Nat}

/-- A page inside the block of a head is no other head. -/
theorem ne_of_inside (h : Separated s.size (l1 ++ page :: l2)) {b : Nat} (hq : page ≤ q) (hq' : q < page + s.size page)
    (hb : b ∈ l1 ++ l2) : b ≠ q := by
  obtain ⟨-, hr, hp, hl, hr', -⟩ := separated_middle.mp h
  rcases List.mem_append.mp hb with hb | hb
  · have h1 := hl b hb
    have h2 := (separated_middle.mp h).1.2 b hb
    omega
  · have h1 := hr' b hb
    omega

/-- The state after a block has been taken: the heads of `mid`, inside the block of `page` behind its first `n` pages, replace
`page` in the list, and only the descriptors of pages of the block have changed. -/
theorem inv_of_taken (h : s.Inv pg0 I A) (hl : s.freeList = l1 ++ page :: l2) (mid : List Nat)
    (hl' : s'.freeList = l1 ++ mid ++ l2) (hn : n ≤ s.size page) (hnr : s'.nrFree = s.nrFree - n)
    (hmid : extent s'.size mid = Set.Ico (page + n) (page + s.size page)) (hsep : Separated s'.size mid)
    (hin : ∀ q ∈ mid, page ≤ q ∧ q + s'.size q ≤ page + s.size page) (htot : total s'.size mid = s.size page - n)
    (hf : ∀ q, (q < page ∨ page + s.size page ≤ q) → s'.pages q = s.pages q)
    (hk : ∀ q, (s'.pages q).ref = (s.pages q).ref ∧ (s'.pages q).flags.reserved = (s.pages q).flags.reserved)
    (hfl : ∀ q, page ≤ q → q < page + s.size page → ((s'.pages q).flags.property = true ↔ q ∈ mid)) :
    s'.Inv pg0 I (A ∪ Set.Ico page (page + n)) := by
  have hs := h.separated
  rw [hl] at hs
  obtain ⟨hs1, hs2, hp, hbl, hbr, hlr⟩ := separated_middle.mp hs
  have hsz : ∀ b ∈ l1 ++ l2, s'.size b = s.size b := by
    intro b hb
    have hb' : b < page ∨ page + s.size page ≤ b := by
      rcases List.mem_append.mp hb with hb | hb
      · have h1 := hbl b hb
        have h2 := hs1.2 b hb
        omega
      · exact Or.inr (hbr b hb)
    simp only [FreeArea.size, hf b hb']
  have hsz1 : ∀ b ∈ l1, s'.size b = s.size b := fun b hb => hsz b (List.mem_append_left _ hb)
  have hsz2 : ∀ b ∈ l2, s'.size b = s.size b := fun b hb => hsz b (List.mem_append_right _ hb)
  have he : extent s.size s.freeList = Set.Ico page (page + s.size page) ∪ extent s.size (l1 ++ l2) := by
    rw [hl, extent_middle]
  have he' : extent s'.size s'.freeList = Set.Ico (page + n) (page + s.size page) ∪ extent s.size (l1 ++ l2) := by
    rw [hl', extent_append, extent_append, hmid, extent_append, extent_congr hsz1, extent_congr hsz2, Set.union_assoc, Set.union_left_comm]
  have hsp : Set.Ico page (page + s.size page) = Set.Ico page (page + n) ∪ Set.Ico (page + n) (page + s.size page) := by
    rw [Set.Ico_union_Ico_eq_Ico (by omega) (by omega)]
  have hsub : extent s'.size s'.freeList ⊆ extent s.size s.freeList := by
    rw [he, he', hsp]
    exact Set.union_subset_union_left _ Set.subset_union_right
  have hd := hs.disjoint_middle
  have hpI : ∀ q, page ≤ q → q < page + s.size page → q ∈ I := by
    intro q hq hq'
    rw [← h.cover, he]
    exact Or.inl (Or.inl ⟨hq, hq'⟩)
  refine ⟨?_, ?_, ?_, ?_, ?_, ?_, ?_, ?_⟩
  · rw [hl', List.append_assoc, separated_append, separated_append]
    refine ⟨hs1.congr hsz1, ⟨hsep, hs2.congr hsz2, ?_⟩, ?_⟩
    · intro q hq b hb
      have h1 := (hin q hq).2
      have h2 := hbr b hb
      omega
    · intro b hb c hc
      rw [hsz1 b hb]
      rcases List.mem_append.mp hc with hc | hc
      · have h1 := hbl b hb
        have h2 := (hin c hc).1
        omega
      · exact hlr b hb c hc
  · intro q hq
    by_cases hqp : page ≤ q ∧ q < page + s.size page
    · rw [hfl q hqp.1 hqp.2, hl']
      have hno : q ∉ l1 ++ l2 := fun hm => ne_of_inside hs hqp.1 hqp.2 hm rfl
      simp only [List.mem_append] at hno ⊢
      tauto
    · have hq' : q < page ∨ page + s.size page ≤ q := by omega
      have hne : q ≠ page := by
        rintro rfl
        omega
      have hnm : q ∉ mid := by
        intro hm
        have h1 := hin q hm
        have h2 := hsep.2 q hm
        omega
      rw [hf q hq', h.property_iff q hq, hl, hl']
      simp only [List.mem_append, List.mem_cons, hne, hnm, false_or, or_false]
  · intro q hq
    rw [(hk q).2]
    exact h.reserved q hq
  · have hc := h.count
    rw [hl, total_append, total_cons] at hc
    rw [hl', total_append, total_append, total_congr hsz1, total_congr hsz2, hnr, hc]
    omega
  · rw [Set.disjoint_union_right]
    refine ⟨h.disjoint.mono_left hsub, ?_⟩
    rw [he', Set.disjoint_union_left]
    constructor
    · rw [Set.disjoint_left]
      intro x hx hx'
      simp only [Set.mem_Ico] at hx hx'
      omega
    · refine (hd.mono_left ?_).symm
      rw [hsp]
      exact Set.subset_union_left
  · rw [← h.cover, he, he', hsp]
    ext x
    simp only [Set.mem_union]
    tauto
  · intro q hq
    rw [(hk q).1]
    exact h.ref_zero q (hsub hq)
  · intro q hq
    rw [hf q ?_]
    · exact h.outside q hq
    · by_contra hc
      exact hq (hpI q (by omega) (by omega))

/-- The state after the whole block has been taken. -/
theorem takeBlock_whole (hgt : ¬n < (s.pages page).property) : s.takeBlock page n =
      { pages := update s.pages page (s.pages page).clearProperty, freeList := s.freeList.erase page,
        nrFree := s.nrFree - n } := by
  simp only [FreeArea.takeBlock, if_neg hgt]
  rfl

/-- The state after the front of the block has been taken. -/
theorem takeBlock_front (hn : 0 < n) (hgt : n < (s.pages page).property) : s.takeBlock page n =
      { pages := update
          (update s.pages (page + n)
            { (s.pages (page + n)).setProperty with property := (s.pages page).property - n })
          page (s.pages page).clearProperty,
        freeList := (listAddAfter page (page + n) s.freeList).erase page, nrFree := s.nrFree - n } := by
  have hne : page ≠ page + n := by omega
  simp only [FreeArea.takeBlock, if_pos hgt, FreeArea.modify, FreeArea.listDel, update_of_ne hne]

theorem inv_takeBlock_whole (h : s.Inv pg0 I A) (hl : s.freeList = l1 ++ page :: l2) (hn1 : page ∉ l1)
    (heq : (s.pages page).property = n) : (s.takeBlock page n).Inv pg0 I (A ∪ Set.Ico page (page + n)) := by
  have hle : n ≤ s.size page := heq.symm.le
  rw [takeBlock_whole (by omega)]
  refine inv_of_taken h hl [] ?_ hle rfl ?_ (separated_nil _) (by simp) ?_ ?_ ?_ ?_
  · rw [hl, erase_middle _ hn1, List.append_nil]
  · rw [extent_nil, FreeArea.size, heq, Set.Ico_self]
  · rw [total_nil, FreeArea.size]
    omega
  · intro q hq
    have hne : q ≠ page := by
      have := (separated_middle.mp (hl ▸ h.separated)).2.2.1
      omega
    simp only [update_of_ne hne]
  · intro q
    by_cases hq : q = page
    · subst hq
      simp [Page.clearProperty]
    · simp [hq]
  · intro q hq hq'
    have hne : q ∉ l1 ++ l2 := fun hm => ne_of_inside (hl ▸ h.separated) hq hq' hm rfl
    by_cases hqp : q = page
    · subst hqp
      simp [Page.clearProperty]
    · have hqI : q ∈ I := by
        rw [← h.cover, hl, extent_middle]
        exact Or.inl (Or.inl ⟨hq, hq'⟩)
      have hno : q ∉ s.freeList := by
        rw [hl]
        simp only [List.mem_append, List.mem_cons, not_or] at hne ⊢
        exact ⟨hne.1, hqp, hne.2⟩
      simp only [update_of_ne hqp, List.not_mem_nil, iff_false]
      exact fun hp => hno ((h.property_iff q hqI).mp hp)

theorem inv_takeBlock_front (h : s.Inv pg0 I A) (hl : s.freeList = l1 ++ page :: l2) (hn1 : page ∉ l1) (hn : 0 < n)
    (hgt : n < (s.pages page).property) : (s.takeBlock page n).Inv pg0 I (A ∪ Set.Ico page (page + n)) := by
  have hne : page + n ≠ page := by omega
  rw [takeBlock_front hn hgt]
  refine inv_of_taken h hl [page + n] ?_ hgt.le rfl ?_ ?_ ?_ ?_ ?_ ?_ ?_
  · rw [hl, listAddAfter_middle _ _ hn1, erase_middle _ hn1, List.append_assoc, List.singleton_append]
  · rw [extent_cons, extent_nil, Set.union_empty]
    simp only [FreeArea.size, update_of_ne hne, update_self]
    rw [show page + n + ((s.pages page).property - n) = page + (s.pages page).property by omega]
  · rw [separated_cons]
    refine ⟨?_, by simp, separated_nil _⟩
    simp only [FreeArea.size, update_of_ne hne, update_self]
    omega
  · intro q hq
    rw [List.mem_singleton] at hq
    subst hq
    simp only [FreeArea.size, update_of_ne hne, update_self]
    omega
  · rw [total_cons, total_nil]
    simp only [FreeArea.size, update_of_ne hne, update_self]
    omega
  · intro q hq
    simp only [FreeArea.size] at hq
    dsimp only
    rw [update_of_ne (by omega), update_of_ne (by omega)]
  · intro q
    by_cases hq : q = page
    · subst hq
      simp [Page.clearProperty]
    · by_cases hq' : q = page + n
      · subst hq'
        simp [update_of_ne hne, Page.setProperty]
      · simp [hq, hq']
  · intro q hq hq'
    have hno : q ∉ l1 ++ l2 := fun hm => ne_of_inside (hl ▸ h.separated) hq hq' hm rfl
    by_cases hqp : q = page
    · subst hqp
      simp [Page.clearProperty, hn.ne']
    · by_cases hqn : q = page + n
      · subst hqn
        simp [update_of_ne hne, Page.setProperty]
      · have hqI : q ∈ I := by
          rw [← h.cover, hl, extent_middle]
          exact Or.inl (Or.inl ⟨hq, hq'⟩)
        have hno' : q ∉ s.freeList := by
          rw [hl]
          simp only [List.mem_append, List.mem_cons, not_or] at hno ⊢
          exact ⟨hno.1, hqp, hno.2⟩
        simp only [update_of_ne hqp, update_of_ne hqn, List.mem_singleton, hqn, iff_false]
        exact fun hp => hno' ((h.property_iff q hqI).mp hp)

/-- The descriptors of other pages than the block's and the remainder's head are left alone. -/
theorem takeBlock_pages_of_ne (hn : 0 < n) (hq : q ≠ page) (hq' : q ≠ page + n) : (s.takeBlock page n).pages q = s.pages q := by
  by_cases hgt : n < (s.pages page).property
  · rw [takeBlock_front hn hgt]
    simp only [update_of_ne hq, update_of_ne hq']
  · rw [takeBlock_whole hgt]
    simp only [update_of_ne hq]

theorem takeBlock_size_of_ne (hn : 0 < n) (hq : q ≠ page) (hq' : q ≠ page + n) : (s.takeBlock page n).size q = s.size q := by
  rw [FreeArea.size, takeBlock_pages_of_ne hn hq hq', FreeArea.size]

/-- What a block holds beyond `n` pages stands in the list where the block stood. -/
theorem takeBlock_freeList (hl : s.freeList = l1 ++ page :: l2) (hn1 : page ∉ l1) (hn : 0 < n) :
    (s.takeBlock page n).freeList = l1 ++ (if n < (s.pages page).property then [page + n] else []) ++ l2 := by
  by_cases hgt : n < (s.pages page).property
  · rw [takeBlock_front hn hgt, hl, listAddAfter_middle _ _ hn1, erase_middle _ hn1, if_pos hgt]
    simp
  · rw [takeBlock_whole hgt, hl, erase_middle _ hn1, if_neg hgt, List.append_nil]

/-- The remainder is a free block of the pages beyond the first `n`. -/
theorem takeBlock_rest (hn : 0 < n) (hgt : n < (s.pages page).property) :
    ((s.takeBlock page n).pages (page + n)).flags.property = true ∧
      ((s.takeBlock page n).pages (page + n)).property = (s.pages page).property - n := by
  have hne : page + n ≠ page := by omega
  rw [takeBlock_front hn hgt]
  simp only [update_of_ne hne, update_self, Page.setProperty, and_self]

theorem takeBlock_nrFree (hn : 0 < n) : (s.takeBlock page n).nrFree = s.nrFree - n := by
  by_cases hgt : n < (s.pages page).property
  · rw [takeBlock_front hn hgt]
  · rw [takeBlock_whole hgt]

/-- Taking pages from a block leaves no two blocks that touch. -/
theorem gapped_takeBlock (hg : Gapped s.size s.freeList) (hl : s.freeList = l1 ++ page :: l2) (hn1 : page ∉ l1) (hn : 0 < n)
    (hle : n ≤ s.size page) : Gapped (s.takeBlock page n).size (s.takeBlock page n).freeList := by
  rw [takeBlock_freeList hl hn1 hn]
  rw [hl] at hg
  obtain ⟨hr, hb, habove⟩ := gapped_middle.mp hg
  have hs : ∀ q ∈ l1 ++ l2, (s.takeBlock page n).size q = s.size q := by
    intro q hq
    rcases List.mem_append.mp hq with hq | hq
    · have := hb q hq
      exact takeBlock_size_of_ne hn (by omega) (by omega)
    · have := habove q hq
      exact takeBlock_size_of_ne hn (by omega) (by omega)
  rcases Nat.eq_or_lt_of_le hle with heq | hgt
  · rw [if_neg (show ¬n < (s.pages page).property from Nat.not_lt_of_le heq.symm.le), List.append_nil]
    exact hr.congr hs
  · have hrem : (s.takeBlock page n).size (page + n) = s.size page - n := (takeBlock_rest hn hgt).2
    rw [if_pos (show n < (s.pages page).property from hgt), List.append_assoc, List.singleton_append, gapped_middle]
    refine ⟨hr.congr hs, ?_, ?_⟩
    · intro q hq
      rw [hs q (List.mem_append_left _ hq)]
      exact Nat.lt_add_right n (hb q hq)
    · intro q hq
      have := habove q hq
      omega

theorem takeBlock_ref (hn : 0 < n) (q : Nat) : ((s.takeBlock page n).pages q).ref = (s.pages q).ref := by
  by_cases hgt : n < (s.pages page).property
  · rw [takeBlock_front hn hgt]
    by_cases hq : q = page
    · subst hq
      simp [Page.clearProperty]
    · by_cases hq' : q = page + n
      · subst hq'
        simp [update_of_ne hq, Page.setProperty]
      · simp [hq, hq']
  · rw [takeBlock_whole hgt]
    by_cases hq : q = page
    · subst hq
      simp [Page.clearProperty]
    · simp [hq]

end PmmAux

open PmmAux

/-- `default_alloc_pages` does not fail. Where it returns a page, that page and the `n - 1` behind it were free and are handed
out now; otherwise nothing has changed. No reference counter changes. -/
theorem defaultAllocPages_spec (h : s.Inv pg0 I A) (hn : 0 < n) : (defaultAllocPages n s = .ok (none, s)) ∨
      ∃ p s', defaultAllocPages n s = .ok (some p, s') ∧ Set.Ico p (p + n) ⊆ extent s.size s.freeList ∧
        (∀ q, (s'.pages q).ref = (s.pages q).ref) ∧ s'.Inv pg0 I (A ∪ Set.Ico p (p + n)) := by
  unfold defaultAllocPages
  rw [ensure_of hn]
  by_cases hlt : s.nrFree < n
  · rw [if_pos hlt]
    exact Or.inl rfl
  rw [if_neg hlt]
  cases hf : s.freeList.find? (fun p => decide (n ≤ (s.pages p).property)) with
  | none => exact Or.inl rfl
  | some page =>
    right
    obtain ⟨hle, l1, l2, hl, -⟩ := List.find?_eq_some_iff_append.mp hf
    rw [decide_eq_true_iff] at hle
    have hn1 : page ∉ l1 := not_mem_of_nodup_middle (hl ▸ h.separated.nodup)
    refine ⟨page, _, rfl, ?_, takeBlock_ref hn, ?_⟩
    · rw [hl, extent_middle]
      exact (Set.Ico_subset_Ico_right (Nat.add_le_add_left hle page)).trans Set.subset_union_left
    · rcases Nat.eq_or_lt_of_le hle with heq | hgt
      · exact inv_takeBlock_whole h hl hn1 heq.symm
      · exact inv_takeBlock_front h hl hn1 hn hgt

/-- A request for one page takes the first page of the first block, the lowest that is free. -/
theorem defaultAllocPages_least {p : Nat} {s' : FreeArea} (h : s.Inv pg0 I A) (hr : defaultAllocPages 1 s = .ok (some p, s'))
    (hq : q ∈ extent s.size s.freeList) : p ≤ q := by
  obtain ⟨-, hr⟩ := ensure_bind_eq_ok.mp hr
  split at hr
  · cases hr
  obtain ⟨b, hb, hbq, -⟩ := hq
  cases hl : s.freeList with
  | nil =>
    rw [hl] at hb
    cases hb
  | cons a l =>
    have hp : 1 ≤ (s.pages a).property := h.separated.2 a (hl ▸ List.mem_cons_self)
    have hf : (a :: l).find? (fun p => decide (1 ≤ (s.pages p).property)) = some a :=
      List.find?_cons_of_pos (decide_eq_true hp)
    rw [hl, hf] at hr
    cases hr
    rw [hl] at hb
    rcases List.mem_cons.mp hb with rfl | hb
    · exact hbq
    · have hlt := List.rel_of_pairwise_cons (hl ▸ h.separated.strictlyIncreasing) hb
      exact hlt.le.trans hbq

/-- `default_alloc_pages` leaves no two free blocks that touch. -/
theorem defaultAllocPages_gapped {r : Option Nat} (hs : s.freeList.Nodup) (hg : Gapped s.size s.freeList)
    (hr : defaultAllocPages n s = .ok (r, s')) : Gapped s'.size s'.freeList := by
  obtain ⟨hn, hr⟩ := ensure_bind_eq_ok.mp hr
  by_cases hlt : s.nrFree < n
  · rw [if_pos hlt] at hr
    cases hr
    exact hg
  rw [if_neg hlt] at hr
  cases hf : s.freeList.find? (fun p => decide (n ≤ (s.pages p).property)) with
  | none =>
    rw [hf] at hr
    cases hr
    exact hg
  | some page =>
    rw [hf] at hr
    cases hr
    obtain ⟨hle, l1, l2, hl, -⟩ := List.find?_eq_some_iff_append.mp hf
    exact gapped_takeBlock hg hl (not_mem_of_nodup_middle (hl ▸ hs)) hn (of_decide_eq_true hle)

/-- `default_alloc_pages` returns no page only where no free block is large enough. -/
theorem defaultAllocPages_none (h : s.Inv pg0 I A) (hr : defaultAllocPages n s = .ok (none, s')) :
    ∀ p ∈ s.freeList, s.size p < n := by
  obtain ⟨-, hr⟩ := ensure_bind_eq_ok.mp hr
  intro p hp
  by_cases hlt : s.nrFree < n
  · exact (h.count ▸ le_total hp).trans_lt hlt
  · rw [if_neg hlt] at hr
    cases hf : s.freeList.find? (fun p => decide (n ≤ (s.pages p).property)) with
    | none => simpa [FreeArea.size] using List.find?_eq_none.mp hf p hp
    | some page =>
      rw [hf] at hr
      cases hr

end Ucore
