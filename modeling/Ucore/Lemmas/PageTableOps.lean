import Ucore.Lemmas.PageTable

/-!
# What the functions on page tables do

One lemma for each function of `kern/mm/pmm.c`, over a memory in which `Memory.Inv` holds. `Cleared` is what the functions that
remove mappings have in common: pages of one directory are unmapped, and the frames that lose their last reference by it go back
to the allocator.
-/

namespace Ucore

open Checked SlotCount Blocks

namespace PageAux

variable {pg0 : Nat → Page} {I A : Set Nat} {held : Nat → Nat} {s s' : Memory} {d i t n p w la : Nat} {area : FreeArea}
  {R : Nat → Prop}

/-! ## Pages taken and given back -/

/-- The free blocks hold the pages that are not handed out. -/
theorem extent_eq (h : area.Inv pg0 I A) : extent area.size area.freeList = I \ A := by
  rw [← h.cover, Set.union_sdiff_right]
  exact (h.disjoint.sdiff_eq_left).symm

/-- The pages that are not handed out are counted by `nr_free`. -/
theorem nrFree_eq (h : area.Inv pg0 I A) : area.nrFree = (I \ A).ncard := by
  rw [h.count, h.separated.total_eq_ncard, extent_eq h]

theorem finite_pages (h : s.Inv pg0 I A held) : I.Finite := (Set.finite_Iio s.npage).subset fun p hp => h.inside p hp

/-- No page is free when all but those of a set are handed out. -/
theorem nrFree_le {B : Set Nat} (h : s.Inv pg0 I A held) (hf : I ⊆ A ∪ B) (hB : B.Finite) : s.area.nrFree ≤ B.ncard := by
  rw [nrFree_eq h.area]
  refine Set.ncard_le_ncard ?_ hB
  rintro p ⟨hp, hpA⟩
  exact (hf hp).resolve_left hpA

/-- `alloc_page`: no page, because none is free, and then `swap_out` where swapping is initialised, or the lowest page
that is free. -/
theorem allocPage_spec (h : s.Inv pg0 I A held) : (s.swapInitOk = true ∧ allocPage s = .error .swapOut ∧ I ⊆ A) ∨
      (s.swapInitOk = false ∧ allocPage s = .ok (none, s) ∧ I ⊆ A) ∨
      ∃ p area, allocPage s = .ok (some p, { s with area := area }) ∧ IsLeast (I \ A) p ∧ area.Inv pg0 I (A ∪ {p}) ∧
        ∀ q, (area.pages q).ref = (s.area.pages q).ref := by
  unfold allocPage
  rcases defaultAllocPages_spec h.area Nat.one_pos with hn | ⟨p, area, ha, hs, hr, hinv⟩
  · have hf : I ⊆ A := by
      rw [← h.area.cover]
      rintro q (⟨p, hp, -⟩ | hq)
      · have hsi := defaultAllocPages_none h.area hn p hp
        have hpos := h.area.separated.2 p hp
        omega
      · exact hq
    rw [hn, mapError_ok]
    by_cases hsw : s.swapInitOk = true
    · exact Or.inl ⟨hsw, if_pos hsw, hf⟩
    · exact Or.inr (Or.inl ⟨Bool.not_eq_true _ ▸ hsw, if_neg hsw, hf⟩)
  · have ho : Set.Ico p (p + 1) = {p} := by
      ext q
      rw [Set.mem_Ico, Set.mem_singleton_iff]
      omega
    rw [ho] at hs hinv
    have hfr := hs (Set.mem_singleton p)
    rw [ha, mapError_ok]
    rw [extent_eq h.area] at hfr
    refine Or.inr (Or.inr ⟨p, area, rfl, ⟨hfr, fun q hq => ?_⟩, hinv, hr⟩)
    rw [← extent_eq h.area] at hq
    exact defaultAllocPages_least h.area ha hq

/-- A page taken from the allocator and not used yet. -/
theorem inv_alloc (h : s.Inv pg0 I A held) (ha : area.Inv pg0 I (A ∪ {p}))
    (hr : ∀ q, (area.pages q).ref = (s.area.pages q).ref) : Memory.Inv pg0 I (A ∪ {p}) held { s with area := area } := by
  refine ⟨ha, h.inside, h.small, h.boot, h.boot_empty, fun d hd => Or.inl (h.dirs d hd), ?_, h.tables_inj, ?_, ?_⟩
  · intro d hd i hi t ht
    have := h.tables d hd i hi t ht
    exact ⟨Or.inl this.1, this.2⟩
  · intro d hd n hn e he
    have := h.mapped d hd n hn e he
    exact ⟨Or.inl this.1, this.2⟩
  · intro q hq hqd
    exact (hr q).trans (h.ref q hq hqd)

/-- `free_page` of a page that is handed out, as the allocator sees it. -/
theorem freePage_area (h : s.area.Inv pg0 I A) (hp : p ∈ A) :
    ∃ area, freePage p s = .ok { s with area := area } ∧ area.Inv pg0 I (A \ {p}) ∧
      ∀ q, (area.pages q).ref = if q = p then 0 else (s.area.pages q).ref := by
  have ho : Set.Ico p (p + 1) = {p} := by
    ext q
    rw [Set.mem_Ico, Set.mem_singleton_iff]
    omega
  obtain ⟨area, hf, hinv, hr⟩ := defaultFreePages_spec p h Nat.one_pos (by
    rw [ho, Set.singleton_subset_iff]
    exact hp)
  rw [ho] at hinv
  refine ⟨area, ?_, hinv, ?_⟩
  · unfold freePage
    rw [hf, mapError_ok, bind_ok]
  · intro q
    rw [hr q]
    by_cases hqp : q = p
    · rw [if_pos (by omega), if_pos hqp]
    · rw [if_neg (by omega), if_neg hqp]

/-- `free_page` of a page that no entry names. -/
theorem freePage_spec (h : s.Inv pg0 I A held) (hp : p ∈ A) (hd : p ∉ s.pgdirs) (hre : s.refs p = 0) (hh : held p = 0) :
    ∃ area, freePage p s = .ok { s with area := area } ∧ Memory.Inv pg0 I (A \ {p}) held { s with area := area } := by
  obtain ⟨area, hfr, hinv, hr⟩ := freePage_area h.area hp
  refine ⟨area, hfr, hinv, h.inside, h.small, h.boot, h.boot_empty, ?_, ?_, h.tables_inj, ?_, ?_⟩
  · intro f hf
    exact ⟨h.dirs f hf, fun he => hd (he ▸ hf)⟩
  · intro f hf i hi t ht
    have := h.tables f hf i hi t ht
    exact ⟨⟨this.1, fun he => (not_named h hre hf).1 i hi (he ▸ ht)⟩, this.2⟩
  · intro f hf n hn e he
    have := h.mapped f hf n hn e he
    exact ⟨⟨this.1, (not_named h hre hf).2 n hn e he⟩, this.2⟩
  · intro q hq hqd
    have hq' := hr q
    by_cases hqp : q = p
    · subst hqp
      rw [if_pos rfl] at hq'
      have hs : Memory.refs { s with area := area } q = s.refs q := rfl
      rw [hs, hre, hh]
      exact hq'
    · rw [if_neg hqp] at hq'
      exact hq'.trans (h.ref q hq hqd)

/-- `free_page` reads and writes no frame. -/
theorem freePage_store (p : Nat) (s : Memory) (e : Nat × Nat) (w : Nat)
    (h : freePage p (s.store e w) = .ok { s.store e w with area := area }) : freePage p s = .ok { s with area := area } := by
  unfold freePage at h ⊢
  have hs : (s.store e w).area = s.area := rfl
  rw [hs] at h
  cases hf : defaultFreePages p 1 s.area with
  | error a =>
    rw [hf] at h
    cases h
  | ok a =>
    rw [hf, mapError_ok] at h
    have := congrArg Memory.area (Except.ok.inj h)
    exact congrArg (fun b => Except.ok { s with area := b }) this

/-! ## Entries found -/

theorem addr_lt (h : la < kernBase) : la < addrSize ∧ la / 4096 < userPages := by
  unfold kernBase at h
  unfold addrSize userPages userSlots
  omega

/-- The last line of `get_pte` when the directory has a table. -/
theorem tableEntry_spec (h : s.Inv pg0 I A held) (hd : d ∈ s.pgdirs) (hla : la < kernBase)
    (ht : s.table d (la / 4096 / 1024) = some t) : tableEntry d la s = .ok (t, la / 4096 % 1024) := by
  obtain ⟨hlt, hn⟩ := addr_lt hla
  obtain ⟨htA, -⟩ := h.tables d hd _ (slot_lt hn) t ht
  obtain ⟨e, he, rfl⟩ := Option.map_eq_some_iff.mp ht
  obtain ⟨-, hf, -⟩ := decode_eq_some he
  unfold tableEntry kaddr
  have hl : s.load (d, pdx la) = s.frames d (la / 4096 / 1024) := by
    rw [Memory.load, pdx_eq hlt]
  rw [hl, hf, ensure_of (lt_npage h htA), bind_ok, bind_ok, ptx_eq]

/-- `get_pte` that creates nothing. -/
theorem getPte_false (h : s.Inv pg0 I A held) (hd : d ∈ s.pgdirs) (hla : la < kernBase) :
    getPte d la false s = .ok ((s.table d (la / 4096 / 1024)).map (fun t => (t, la / 4096 % 1024)), s) := by
  obtain ⟨hlt, hn⟩ := addr_lt hla
  have hl : s.load (d, pdx la) = s.frames d (la / 4096 / 1024) := by
    rw [Memory.load, pdx_eq hlt]
  unfold getPte
  rw [hl]
  cases ht : s.table d (la / 4096 / 1024) with
  | none =>
    rw [if_pos (decode_eq_none.mp (Option.map_eq_none_iff.mp ht))]
    rfl
  | some t =>
    obtain ⟨e, he, -⟩ := Option.map_eq_some_iff.mp ht
    rw [if_neg (decode_eq_some he).1, tableEntry_spec h hd hla ht]
    rfl

/-! ## Mappings removed -/

/-- The pages of `d` in `R` are unmapped, nothing else changes, and the frames that lose their last reference go back to the
allocator. -/
structure Cleared (pg0 : Nat → Page) (I : Set Nat) (held : Nat → Nat) (d : Nat) (R : Nat → Prop) (A : Set Nat) (s : Memory)
    (A' : Set Nat) (s' : Memory) : Prop where
  inv : s'.Inv pg0 I A' held
  pgdirs : s'.pgdirs = s.pgdirs
  swapInitOk : s'.swapInitOk = s.swapInitOk
  tables : ∀ f ∈ s.pgdirs, ∀ i < userSlots, s'.table f i = s.table f i
  cleared : ∀ n < userPages, R n → s'.walk d n = none
  entries : ∀ f ∈ s.pgdirs, ∀ n < userPages, ¬(f = d ∧ R n) → s'.pte f n = s.pte f n
  subset : A' ⊆ A
  fewer : ∀ p, s'.refs p ≤ s.refs p
  returned : ∀ p ∈ A, p ∉ A' ↔ 0 < s.refs p ∧ s'.refs p + held p = 0
  frame : ∀ p, (∀ i < userSlots, s.table d i ≠ some p) → s'.frames p = s.frames p

theorem Cleared.others {A' : Set Nat} (h : Cleared pg0 I held d R A s A' s') :
    ∀ f ∈ s.pgdirs, ∀ n < userPages, ¬(f = d ∧ R n) → s'.walk f n = s.walk f n := by
  intro f hf n hn hno
  rw [walk_eq_pte, walk_eq_pte, h.entries f hf n hn hno]

/-- Nothing to do: the pages are not mapped. -/
theorem Cleared.refl (h : s.Inv pg0 I A held) (hR : ∀ n < userPages, R n → s.walk d n = none) :
    Cleared pg0 I held d R A s A s := by
  refine ⟨h, rfl, rfl, fun _ _ _ _ => rfl, hR, fun _ _ _ _ _ => rfl, subset_rfl, fun _ => le_rfl, ?_, fun _ _ => rfl⟩
  intro p hp
  constructor
  · intro hn
    exact absurd hp hn
  · rintro ⟨h0, h1⟩
    omega

theorem Cleared.trans {R' : Nat → Prop} {A1 A2 : Set Nat} {s1 s2 : Memory} (hd : d ∈ s.pgdirs)
    (h : Cleared pg0 I held d R A s A1 s1) (h' : Cleared pg0 I held d R' A1 s1 A2 s2) :
    Cleared pg0 I held d (fun n => R n ∨ R' n) A s A2 s2 := by
  refine ⟨h'.inv, h'.pgdirs.trans h.pgdirs, h'.swapInitOk.trans h.swapInitOk, ?_, ?_, ?_, h'.subset.trans h.subset,
    fun p => (h'.fewer p).trans (h.fewer p), ?_, ?_⟩
  · intro f hf i hi
    rw [h'.tables f (h.pgdirs ▸ hf) i hi, h.tables f hf i hi]
  · intro n hn hR
    by_cases hR' : R' n
    · exact h'.cleared n hn hR'
    · rw [h'.others d (h.pgdirs ▸ hd) n hn (fun hc => hR' hc.2)]
      exact h.cleared n hn (hR.resolve_right hR')
  · intro f hf n hn hno
    rw [h'.entries f (h.pgdirs ▸ hf) n hn (fun hc => hno ⟨hc.1, Or.inr hc.2⟩),
      h.entries f hf n hn (fun hc => hno ⟨hc.1, Or.inl hc.2⟩)]
  · intro p hp
    have hle := h.fewer p
    have hle' := h'.fewer p
    by_cases hp1 : p ∈ A1
    · have hk : ¬(0 < s.refs p ∧ s1.refs p + held p = 0) := fun hc => (h.returned p hp).mpr hc hp1
      rw [h'.returned p hp1]
      omega
    · obtain ⟨h0, h1⟩ := (h.returned p hp).mp hp1
      constructor
      · intro _
        omega
      · intro _ hp2
        exact hp1 (h'.subset hp2)
  · intro p hp
    rw [h'.frame p (fun i hi => h.tables d hd i hi ▸ hp i hi), h.frame p hp]

/-- `page_remove_pte` of the entry of a linear page. -/
theorem pageRemovePte_spec (h : s.Inv pg0 I A held) (hd : d ∈ s.pgdirs) (hn : n < userPages)
    (ht : s.table d (n / 1024) = some t) :
    ∃ s' A', pageRemovePte (t, n % 1024) s = .ok s' ∧ Cleared pg0 I held d (· = n) A s A' s' := by
  have hw := walk_of_table ht
  have hl : s.load (t, n % 1024) = s.frames t (n % 1024) := rfl
  unfold pageRemovePte
  rw [hl]
  cases he : decode (s.frames t (n % 1024)) with
  | none =>
    rw [if_neg (by simpa using decode_eq_none.mp he)]
    refine ⟨s, A, rfl, Cleared.refl h ?_⟩
    rintro m - rfl
    rw [hw, he]
  | some e =>
    obtain ⟨q, low⟩ := e
    obtain ⟨hqA, hqd⟩ := h.mapped d hd n hn (q, low) (hw.trans he)
    simp only at hqA hqd
    rw [if_pos (decode_eq_some he).1, pte2page_of_decode he (lt_npage h hqA), bind_ok]
    -- the code drops the reference first and clears the entry last; the invariant is followed through the other order
    have hstored : (s.store (t, n % 1024) 0).Inv pg0 I A (hold held q) := by
      refine inv_store h hd hn ht ?_ ?_
      · intro e he
        cases he
      · intro p
        rw [hw, he, decode_zero, Option.map_some, Option.map_none, holds_none, hold, Nat.zero_add, Nat.add_comm]
    obtain ⟨hinv, hr⟩ := inv_pageRefDec hstored hqA hqd
    have hre := refs_store (w := 0) h hd hn ht
    rw [hw, he] at hre
    simp only [Option.map_some, decode_zero, Option.map_none, holds_none, Nat.add_zero] at hre
    have hpr : (s.pageRefDec q).pageRef q = (((s.store (t, n % 1024) 0).refs q + held q : Nat) : Int) := hr
    have hcleared : ∀ (area : FreeArea) (A' : Set Nat),
        Memory.Inv pg0 I A' held { (s.store (t, n % 1024) 0).pageRefDec q with area := area } → A' ⊆ A →
        (∀ p ∈ A, p ∉ A' ↔ 0 < s.refs p ∧ (s.store (t, n % 1024) 0).refs p + held p = 0) →
        Cleared pg0 I held d (· = n) A s A' { (s.store (t, n % 1024) 0).pageRefDec q with area := area } := by
      intro area A' hi hs hret
      refine ⟨hi, rfl, rfl, ?_, ?_, ?_, hs, ?_, hret, ?_⟩
      · intro f hf i _
        exact table_store h hd hn ht (Or.inl hf) i
      · rintro m hm rfl
        exact (walk_store h hd hn ht hd hm).trans (if_pos ⟨rfl, rfl⟩)
      · intro f hf m hm hno
        exact (pte_store h hd hn ht hf hm).trans (if_neg hno)
      · intro p
        change (s.store (t, n % 1024) 0).refs p ≤ s.refs p
        have := hre p
        omega
      · intro p hp
        refine frames_store_of_ne s ?_
        rintro rfl
        exact hp _ (slot_lt hn) ht
    by_cases hz : (s.store (t, n % 1024) 0).refs q + held q = 0
    · rw [if_pos (by rw [hpr, hz]; rfl)]
      obtain ⟨area, hfr, hfinv⟩ := freePage_spec hinv hqA hqd (show (s.store (t, n % 1024) 0).refs q = 0 by omega) (by omega)
      have hf' := freePage_store q (s.pageRefDec q) (t, n % 1024) 0 hfr
      rw [hf']
      refine ⟨_, A \ {q}, rfl, hcleared area _ hfinv Set.sdiff_subset ?_⟩
      intro p hp
      have hqp := hre p
      constructor
      · intro hno
        have hpq : p = q := by
          by_contra hne
          exact hno ⟨hp, hne⟩
        subst hpq
        rw [holds_self] at hqp
        omega
      · rintro ⟨h0, h1⟩ ⟨-, hne⟩
        have hne' : some q ≠ some p := fun he => hne (Option.some.inj he).symm
        rw [holds_of_ne hne'] at hqp
        omega
    · rw [if_neg (by rw [hpr]; exact_mod_cast hz)]
      refine ⟨_, A, rfl, hcleared ((s.pageRefDec q).area) A hinv subset_rfl ?_⟩
      intro p hp
      have hqp := hre p
      constructor
      · intro hno
        exact absurd hp hno
      · rintro ⟨h0, h1⟩
        exfalso
        by_cases hpq : p = q
        · subst hpq
          exact hz h1
        · have hne : some q ≠ some p := fun he => hpq (Option.some.inj he).symm
          rw [holds_of_ne hne] at hqp
          omega

end PageAux

open PageAux

variable {pg0 : Nat → Page} {I A : Set Nat} {s : Memory} {d : Nat}

/-- `page_remove`. -/
theorem pageRemove_spec (h : s.Inv pg0 I A (fun _ => 0)) (hd : d ∈ s.pgdirs) {la : Nat} (hla : la < kernBase) :
    ∃ s' A', pageRemove d la s = .ok s' ∧ Cleared pg0 I (fun _ => 0) d (· = la / 4096) A s A' s' := by
  obtain ⟨-, hn⟩ := addr_lt hla
  unfold pageRemove
  rw [getPte_false h hd hla]
  cases ht : s.table d (la / 4096 / 1024) with
  | none =>
    refine ⟨s, A, rfl, Cleared.refl h ?_⟩
    rintro n - rfl
    rw [Memory.walk, ht, Option.bind_none]
  | some t => exact pageRemovePte_spec h hd hn ht

/-! ## Ranges unmapped -/

namespace PageAux

theorem Cleared.congr {R R' : Nat → Prop} {A' : Set Nat} {s' : Memory} {held : Nat → Nat}
    (h : Cleared pg0 I held d R A s A' s') (hR : ∀ n, R n ↔ R' n) : Cleared pg0 I held d R' A s A' s' := by
  have : R = R' := funext (fun n => propext (hR n))
  rw [← this]
  exact h

/-- The addresses of a linear page below the end of a range: its own, that of the next page and that of the next table. -/
theorem linear_page {n m : Nat} (hn : n < m) (hm : m * 4096 ≤ userTop) : n * 4096 < kernBase ∧ n * 4096 / 4096 = n ∧
    n < userPages ∧ (n * 4096 + pgSize) % addrSize = (n + 1) * 4096 ∧
      roundDown ((n * 4096 + ptSize) % addrSize) ptSize = ((n / 1024 + 1) * 1024) * 4096 := by
  have hm' : m * 4096 ≤ 2952790016 := hm
  unfold kernBase userPages userSlots roundDown ptSize pgSize addrSize
  omega

/-- Where the loops over a range go on. -/
theorem goes_on {n m n1 : Nat} (hlt : n < n1) : (n1 * 4096 ≠ 0 ∧ n1 * 4096 < m * 4096) ↔ n1 < m := by omega

/-- One round of the loop of `unmap_range`, at the linear page `n`: the next round is at a later page, and the pages between are
unmapped. -/
theorem unmapLoop_round (h : s.Inv pg0 I A (fun _ => 0)) (hd : d ∈ s.pgdirs) {n m : Nat} (hn : n < m)
    (hm : m * 4096 ≤ userTop) (rounds : Nat) :
    ∃ n1 s1 A1, n < n1 ∧ Cleared pg0 I (fun _ => 0) d (fun k => n ≤ k ∧ k < n1 ∧ k < m) A s A1 s1 ∧
      unmapLoop d (m * 4096) (rounds + 1) (n * 4096) s =
        if n1 < m then unmapLoop d (m * 4096) rounds (n1 * 4096) s1 else .ok s1 := by
  obtain ⟨hla, hdiv, hnu, hst, hsk⟩ := linear_page hn hm
  rw [unmapLoop, getPte_false h hd hla, bind_ok, hdiv]
  cases ht : s.table d (n / 1024) with
  | none =>
    have hlt : n < (n / 1024 + 1) * 1024 := by omega
    refine ⟨(n / 1024 + 1) * 1024, s, A, hlt, Cleared.refl h ?_, ?_⟩
    · rintro k - ⟨hk, hk', -⟩
      have hs : k / 1024 = n / 1024 := by omega
      rw [Memory.walk, hs, ht, Option.bind_none]
    · rw [Option.map_none]
      dsimp only
      rw [bind_ok, hsk]
      simp only [goes_on hlt]
  | some t =>
    obtain ⟨s1, A1, hs1, hc⟩ := pageRemovePte_spec h hd hnu ht
    refine ⟨n + 1, s1, A1, Nat.lt_succ_self n, hc.congr ?_, ?_⟩
    · intro k
      omega
    · rw [Option.map_some]
      dsimp only
      by_cases hz : s.load (t, n % 1024) = 0
      · -- an entry that is zero is left alone, and `page_remove_pte` would have left it alone too
        have hs : s1 = s := by
          unfold pageRemovePte at hs1
          rw [hz] at hs1
          exact (Except.ok.inj hs1).symm
        rw [if_neg (by simpa using hz), bind_ok, bind_ok, hst, hs]
        simp only [goes_on (Nat.lt_succ_self n)]
      · rw [if_pos hz, hs1, bind_ok, bind_ok, hst]
        simp only [goes_on (Nat.lt_succ_self n)]

/-- The loop of `unmap_range` from a linear page on. -/
theorem unmapLoop_spec {m : Nat} (hm : m * 4096 ≤ userTop) :
    ∀ (rounds n : Nat) (s : Memory) (A : Set Nat), s.Inv pg0 I A (fun _ => 0) → d ∈ s.pgdirs → n < m → m - n ≤ rounds →
      ∃ s' A', unmapLoop d (m * 4096) rounds (n * 4096) s = .ok s' ∧
        Cleared pg0 I (fun _ => 0) d (fun k => n ≤ k ∧ k < m) A s A' s' := by
  intro rounds
  induction rounds with
  | zero =>
    intro n s A _ _ hn hr
    omega
  | succ rounds ih =>
    intro n s A h hd hn hr
    obtain ⟨n1, s1, A1, hlt, hc, heq⟩ := unmapLoop_round h hd hn hm rounds
    rw [heq]
    by_cases hn1 : n1 < m
    · rw [if_pos hn1]
      obtain ⟨s', A', hs', hc'⟩ := ih n1 s1 A1 hc.inv (hc.pgdirs ▸ hd) hn1 (by omega)
      refine ⟨s', A', hs', (hc.trans hd hc').congr ?_⟩
      intro k
      omega
    · rw [if_neg hn1]
      refine ⟨s1, A1, rfl, hc.congr ?_⟩
      intro k
      omega

end PageAux

/-- `unmap_range` of a page-aligned range of the user's addresses. -/
theorem unmapRange_spec (h : s.Inv pg0 I A (fun _ => 0)) (hd : d ∈ s.pgdirs) {start stop : Nat}
    (hal : start % pgSize = 0 ∧ stop % pgSize = 0) (ha : UserAccess start stop) : ∃ s' A', unmapRange d start stop s = .ok s' ∧
      Cleared pg0 I (fun _ => 0) d (fun n => start ≤ n * 4096 ∧ n * 4096 < stop) A s A' s' := by
  unfold unmapRange
  rw [ensure_of hal, ensure_of ha]
  obtain ⟨-, hlt, htop⟩ := ha
  unfold pgSize at hal ⊢
  have hs : start = start / 4096 * 4096 := by omega
  have ht : stop = stop / 4096 * 4096 := by omega
  rw [ht] at htop
  obtain ⟨s', A', hs', hc⟩ := unmapLoop_spec htop ((stop - start) / 4096) (start / 4096) s A h hd (by omega) (by omega)
  rw [← hs, ← ht] at hs'
  refine ⟨s', A', hs', hc.congr ?_⟩
  intro k
  omega

/-! ## Tables made -/

namespace PageAux

/-- The memory after `get_pte` made the page table `p` for the slot `i` of the directory `d`. -/
def tabled (s : Memory) (area : FreeArea) (d i p : Nat) : Memory :=
  ((({ s with area := area } : Memory).setPageRef p 1).fill p (fun _ => 0)).store (d, i) (page2pa p ||| pteUser)

variable {i p : Nat} {area : FreeArea}

theorem decode_table (hp : p < 2 ^ 20) : decode (page2pa p ||| pteUser) = some (p, pteUser) :=
  decode_entry hp (by decide) (by decide)

/-- The new table is in its slot, and the other slots are as they were. -/
theorem table_tabled (hp : p < 2 ^ 20) {f : Nat} (hf : f ≠ p) (k : Nat) :
    (tabled s area d i p).table f k = if f = d ∧ k = i then some p else s.table f k := by
  have hfill : ∀ j, ((({ s with area := area } : Memory).setPageRef p 1).fill p (fun _ => 0)).frames f j = s.frames f j := by
    intro j
    simp [Memory.fill, Memory.setPageRef, hf]
  by_cases hfd : f = d
  · subst hfd
    by_cases hk : k = i
    · subst hk
      rw [if_pos ⟨rfl, rfl⟩, Memory.table, tabled, frames_store_self, decode_table hp, Option.map_some]
    · rw [if_neg (fun hc => hk hc.2), Memory.table, tabled, frames_store_index _ hk, hfill, Memory.table]
  · rw [if_neg (fun hc => hfd hc.1), Memory.table, tabled, frames_store_of_ne _ hfd, hfill, Memory.table]

/-- The table that `get_pte` makes is empty: it maps nothing, and the other tables are as they were. -/
theorem walk_tabled (h : s.Inv pg0 I A (fun _ => 0)) (hd : d ∈ s.pgdirs) (hpI : p ∈ I) (hp : p ∉ A)
    (hno : s.table d i = none) {f n : Nat} (hf : f ∈ s.pgdirs) (hn : n < userPages) :
    (tabled s area d i p).walk f n = s.walk f n := by
  have hlt : p < 2 ^ 20 := (h.inside p hpI).trans_le h.small
  have hne : ∀ g ∈ s.pgdirs, g ≠ p := fun g hg he => hp (he ▸ h.dirs g hg)
  rw [Memory.walk, table_tabled hlt (hne f hf), Memory.walk]
  by_cases hc : f = d ∧ n / 1024 = i
  · obtain ⟨rfl, rfl⟩ := hc
    have hz : (tabled s area f (n / 1024) p).frames p (n % 1024) = 0 := by
      rw [tabled, frames_store_of_ne _ (Ne.symm (hne f hf))]
      simp [Memory.fill]
    rw [if_pos ⟨rfl, rfl⟩, hno, Option.bind_some, Option.bind_none, hz, decode_zero]
  · rw [if_neg hc]
    cases ht : s.table f (n / 1024) with
    | none => rfl
    | some t =>
      obtain ⟨htA, htd⟩ := h.tables f hf _ (slot_lt hn) t ht
      have htp : t ≠ p := fun he => hp (he ▸ htA)
      have htdir : t ≠ d := fun he => htd (he ▸ hd)
      have hs : (tabled s area d i p).frames t = s.frames t := by
        rw [tabled, frames_store_of_ne _ htdir]
        simp [Memory.fill, Memory.setPageRef, htp]
      rw [Option.bind_some, Option.bind_some, hs]

/-- What the new table does to the count of entries: there is one more that names it. -/
theorem refs_tabled (area : FreeArea) (h : s.Inv pg0 I A (fun _ => 0)) (hd : d ∈ s.pgdirs) (hi : i < userSlots) (hpI : p ∈ I) (hp : p ∉ A)
    (hnone : s.table d i = none) (q : Nat) : (tabled s area d i p).refs q = s.refs q + holds (some p) q := by
  have hlt : p < 2 ^ 20 := (h.inside p hpI).trans_le h.small
  have hne : ∀ g ∈ s.pgdirs, g ≠ p := fun g hg he => hp (he ▸ h.dirs g hg)
  have ht : ∀ f ∈ s.pgdirs, ∀ k, ¬(f = d ∧ k = i) → (tabled s area d i p).table f k = s.table f k :=
    fun f hf k hno => (table_tabled hlt (hne f hf) k).trans (if_neg hno)
  have hw : ∀ f ∈ s.pgdirs, ∀ n < userPages, (tabled s area d i p).walk f n = s.walk f n :=
    fun f hf n hn => walk_tabled h hd hpI hp hnone hf hn
  have hpte := pteRefs_congr hw rfl rfl q
  have hpde := pdeRefs_update hd (lt_npage h (h.dirs d hd)) hi ht rfl rfl q
  rw [hnone, table_tabled hlt (hne d hd), if_pos ⟨rfl, rfl⟩, holds_none, Nat.add_zero] at hpde
  rw [Memory.refs, Memory.refs]
  omega

theorem inv_tabled (h : s.Inv pg0 I A (fun _ => 0)) (hd : d ∈ s.pgdirs) (hi : i < userSlots) (hpI : p ∈ I) (hp : p ∉ A)
    (hno : s.table d i = none) (ha : area.Inv pg0 I (A ∪ {p})) (href : ∀ q, (area.pages q).ref = (s.area.pages q).ref) :
    (tabled s area d i p).Inv pg0 I (A ∪ {p}) (fun _ => 0) := by
  have hlt : p < 2 ^ 20 := (h.inside p hpI).trans_le h.small
  have hne : ∀ g ∈ s.pgdirs, g ≠ p := fun g hg he => hp (he ▸ h.dirs g hg)
  have hpd : p ∉ s.pgdirs := fun hc => hne p hc rfl
  refine ⟨ha.setRef (Or.inr rfl) 1, h.inside, h.small, h.boot, ?_, fun f hf => Or.inl (h.dirs f hf), ?_, ?_, ?_, ?_⟩
  · intro k hk
    have hb : s.bootPgdir ≠ p := fun he => h.boot (he ▸ hpI)
    have hbd : s.bootPgdir ≠ d := fun he => h.boot (he ▸ allocated_subset h (h.dirs d hd))
    have hbo : (tabled s area d i p).bootPgdir = s.bootPgdir := rfl
    rw [hbo, table_tabled hlt hb, if_neg (fun hc => hbd hc.1)]
    exact h.boot_empty k hk
  · intro f hf k hk t ht
    rw [table_tabled hlt (hne f hf)] at ht
    split at ht
    · cases ht
      exact ⟨Or.inr rfl, hpd⟩
    · have := h.tables f hf k hk t ht
      exact ⟨Or.inl this.1, this.2⟩
  · intro f hf k hk f' hf' k' hk' t ht ht'
    rw [table_tabled hlt (hne f hf)] at ht
    rw [table_tabled hlt (hne f' hf')] at ht'
    split at ht
    · rename_i hc
      cases ht
      split at ht'
      · rename_i hc'
        exact ⟨hc.1.trans hc'.1.symm, hc.2.trans hc'.2.symm⟩
      · exact absurd (h.tables f' hf' k' hk' p ht').1 hp
    · split at ht'
      · cases ht'
        exact absurd (h.tables f hf k hk p ht).1 hp
      · exact h.tables_inj f hf k hk f' hf' k' hk' t ht ht'
  · intro f hf n hn e he
    rw [walk_tabled h hd hpI hp hno hf hn] at he
    have := h.mapped f hf n hn e he
    exact ⟨Or.inl this.1, this.2⟩
  · intro q hq hqd
    have hr := refs_tabled area h hd hi hpI hp hno q
    have hs : (tabled s area d i p).pageRef q = (({ s with area := area } : Memory).setPageRef p 1).pageRef q := rfl
    rw [hs, hr]
    by_cases hqp : q = p
    · subst hqp
      rw [pageRef_setPageRef_self, holds_self, refs_eq_zero h hp]
      rfl
    · rw [pageRef_setPageRef_of_ne _ hqp, holds_of_ne (by simpa using Ne.symm hqp)]
      exact (href q).trans (h.ref q hq hqd)

/-- What `get_pte` does to have the table `t` in the slot `i` of the directory `d`: nothing, or the table is made. The map stays
as it was. -/
structure Tabled (pg0 : Nat → Page) (I : Set Nat) (d i t : Nat) (A : Set Nat) (s : Memory) (A₁ : Set Nat) (s₁ : Memory) :
    Prop where
  inv : s₁.Inv pg0 I A₁ (fun _ => 0)
  table : s₁.table d i = some t
  made : (A₁ = A ∧ s₁ = s) ∨ (s.table d i = none ∧ IsLeast (I \ A) t ∧ A₁ = A ∪ {t})
  pgdirs : s₁.pgdirs = s.pgdirs
  swapInitOk : s₁.swapInitOk = s.swapInitOk
  walks : ∀ f ∈ s.pgdirs, ∀ n < userPages, s₁.walk f n = s.walk f n
  slots : ∀ f ∈ s.pgdirs, ∀ k < userSlots, ¬(f = d ∧ k = i) → s₁.table f k = s.table f k
  refs : ∀ p ∈ A, s₁.refs p = s.refs p
  frame : ∀ p ∈ A, p ≠ d → s₁.frames p = s.frames p
  rest : ∀ p, p ≠ d → p ≠ t → s₁.frames p = s.frames p

theorem Tabled.subset {A1 : Set Nat} {s1 : Memory} (h : Tabled pg0 I d i t A s A1 s1) : A ⊆ A1 := by
  rcases h.made with ⟨hA, -⟩ | ⟨-, -, hA⟩
  · rw [hA]
  · rw [hA]
    exact Set.subset_union_left

/-- `get_pte` that may create a table: `swap_out`, no page for a table, or the entry, in a memory that maps the same. -/
theorem getPte_true (h : s.Inv pg0 I A (fun _ => 0)) (hd : d ∈ s.pgdirs) {la : Nat} (hla : la < kernBase) :
    (s.swapInitOk = true ∧ getPte d la true s = .error .swapOut ∧ s.table d (la / 4096 / 1024) = none ∧ I ⊆ A) ∨
    (s.swapInitOk = false ∧ getPte d la true s = .ok (none, s) ∧ s.table d (la / 4096 / 1024) = none ∧ I ⊆ A) ∨
    ∃ t s1 A1, getPte d la true s = .ok (some (t, la / 4096 % 1024), s1) ∧
      Tabled pg0 I d (la / 4096 / 1024) t A s A1 s1 := by
  obtain ⟨hlt, hn⟩ := addr_lt hla
  have hl : s.load (d, pdx la) = s.frames d (la / 4096 / 1024) := by
    rw [Memory.load, pdx_eq hlt]
  unfold getPte
  rw [hl]
  cases ht : s.table d (la / 4096 / 1024) with
  | some t =>
    obtain ⟨e, he, -⟩ := Option.map_eq_some_iff.mp ht
    rw [if_neg (decode_eq_some he).1, tableEntry_spec h hd hla ht]
    exact Or.inr (Or.inr ⟨t, s, A, rfl, h, ht, Or.inl ⟨rfl, rfl⟩, rfl, rfl, fun _ _ _ _ => rfl, fun _ _ _ _ _ => rfl,
      fun _ _ => rfl, fun _ _ _ => rfl, fun _ _ _ => rfl⟩)
  | none =>
    rw [if_pos (decode_eq_none.mp (Option.map_eq_none_iff.mp ht))]
    unfold createTable
    rcases allocPage_spec h with ⟨hsw, ha, hfu⟩ | ⟨hsw, ha, hfu⟩ | ⟨p, area, ha, hle, har, href⟩
    · rw [ha]
      exact Or.inl ⟨hsw, rfl, rfl, hfu⟩
    · rw [ha]
      exact Or.inr (Or.inl ⟨hsw, rfl, rfl, hfu⟩)
    · obtain ⟨hpI, hp⟩ := hle.1
      have hk : kaddr (({ s with area := area } : Memory).setPageRef p 1) (page2pa p) = .ok p := by
        have hpn : p < (({ s with area := area } : Memory).setPageRef p 1).npage := h.inside p hpI
        unfold kaddr
        rw [ppn_page2pa, ensure_of hpn, bind_ok]
      have hinv := inv_tabled h hd (slot_lt hn) hpI hp ht har href
      have hlt20 : p < 2 ^ 20 := (h.inside p hpI).trans_le h.small
      have hne : ∀ f ∈ s.pgdirs, f ≠ p := fun f hf he => hp (he ▸ h.dirs f hf)
      have htab : (tabled s area d (la / 4096 / 1024) p).table d (la / 4096 / 1024) = some p := by
        rw [table_tabled hlt20 (hne d hd), if_pos ⟨rfl, rfl⟩]
      rw [ha, bind_ok]
      dsimp only
      rw [hk, bind_ok, bind_ok, pdx_eq hlt]
      change _ ∨ _ ∨ ∃ t s1 A1, (tableEntry d la (tabled s area d (la / 4096 / 1024) p) >>= _) = _ ∧ _
      rw [tableEntry_spec hinv hd hla htab]
      have hr : ∀ q, q ≠ d → q ≠ p → (tabled s area d (la / 4096 / 1024) p).frames q = s.frames q := by
        intro q hqd hqp
        rw [tabled, frames_store_of_ne _ hqd]
        simp [Memory.fill, Memory.setPageRef, hqp]
      refine Or.inr (Or.inr ⟨p, tabled s area d (la / 4096 / 1024) p, A ∪ {p}, rfl, hinv, htab,
        Or.inr ⟨ht, hle, rfl⟩, rfl, rfl, ?_, ?_, ?_, ?_, hr⟩)
      · intro f hf n hn'
        exact walk_tabled h hd hpI hp ht hf hn'
      · intro f hf k _ hno
        rw [table_tabled hlt20 (hne f hf), if_neg hno]
      · intro q hq
        have hqp : some p ≠ some q := fun he => hp ((Option.some.inj he).symm ▸ hq)
        rw [refs_tabled _ h hd (slot_lt hn) hpI hp ht q, holds_of_ne hqp, Nat.add_zero]
      · exact fun q hq hqd => hr q hqd (fun he => hp (he ▸ hq))

end PageAux

end Ucore
