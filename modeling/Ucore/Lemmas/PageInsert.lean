import Ucore.Lemmas.PageTableOps

/-!
# What `page_insert` and its callers do

`Inserted` says that one linear page of one directory is mapped anew and nothing else changes. `page_insert` counts its reference
before it stores the entry, and drops the page that the entry named before, if any; between the two the invariant holds with one
reference held.
-/

namespace Ucore

open Checked SlotCount Function

namespace PageAux

/-- The linear page `n` of `d` is mapped to `e`, no other page of any directory is mapped otherwise than before, and a frame goes
back to the allocator exactly if it loses its last reference. -/
structure Inserted (pg0 : Nat → Page) (I : Set Nat) (d n : Nat) (e : Nat × Nat) (A : Set Nat) (s : Memory) (A' : Set Nat)
    (s' : Memory) : Prop where
  inv : s'.Inv pg0 I A' (fun _ => 0)
  pgdirs : s'.pgdirs = s.pgdirs
  swapInitOk : s'.swapInitOk = s.swapInitOk
  inserted : s'.walk d n = some e
  others : ∀ f ∈ s.pgdirs, ∀ m < userPages, ¬(f = d ∧ m = n) → s'.walk f m = s.walk f m
  returned : ∀ p ∈ A, p ∉ A' ↔ 0 < s.refs p ∧ s'.refs p = 0
  slots : ∀ f ∈ s.pgdirs, ∀ i < userSlots, ¬(f = d ∧ i = n / 1024) → s'.table f i = s.table f i
  slot : ∃ t, s'.table d (n / 1024) = some t ∧
    (s.table d (n / 1024) = some t ∨ s.table d (n / 1024) = none ∧ t ∈ I ∧ t ∉ A ∧ t ≠ e.1)
  gained : ∀ p ∈ A', p ∈ A ∨ p = e.1 ∨ s'.table d (n / 1024) = some p
  frame : ∀ p ∈ A, p ≠ d → (∀ i < userSlots, s.table d i ≠ some p) → s'.frames p = s.frames p
  rest : ∀ p, p ≠ d → p ≠ e.1 → (∀ i < userSlots, s'.table d i ≠ some p) → s'.frames p = s.frames p

variable {pg0 : Nat → Page} {I A A1 A' : Set Nat} {s s' s1 : Memory} {d t n page w flags : Nat}

/-- The last store of `page_insert`, with the reference counted already and the entry free. -/
theorem inserted_fresh (h1 : s1.Inv pg0 I A1 (hold (fun _ => 0) page)) (hd : d ∈ s.pgdirs) (hn : n < userPages)
    (hdi : s1.pgdirs = s.pgdirs) (hsw : s1.swapInitOk = s.swapInitOk) (ht : s1.table d (n / 1024) = some t)
    (hfr : s1.walk d n = none) (hw : decode w = some (page, flags)) (hp : page ∈ A1) (hpd : page ∉ s.pgdirs)
    (ho : ∀ f ∈ s.pgdirs, ∀ m < userPages, ¬(f = d ∧ m = n) → s1.walk f m = s.walk f m)
    (hr : ∀ p ∈ A, p ∉ A1 ↔ 0 < s.refs p ∧ s1.refs p + hold (fun _ => 0) page p = 0)
    (hsl : ∀ f ∈ s.pgdirs, ∀ i < userSlots, s1.table f i = s.table f i) (hs : A1 ⊆ A)
    (hfe : ∀ p, (∀ i < userSlots, s.table d i ≠ some p) → s1.frames p = s.frames p) :
    Inserted pg0 I d n (page, flags) A s A1 (s1.store (t, n % 1024) w) := by
  have hd1 : d ∈ s1.pgdirs := hdi ▸ hd
  have htab : s.table d (n / 1024) = some t := hsl d hd _ (slot_lt hn) ▸ ht
  have ha : ∀ p, (∀ i < userSlots, s.table d i ≠ some p) → (s1.store (t, n % 1024) w).frames p = s.frames p := by
    intro p hp
    have hpt : p ≠ t := fun he => hp _ (slot_lt hn) (he ▸ htab)
    rw [frames_store_of_ne _ hpt, hfe p hp]
  refine ⟨inv_store h1 hd1 hn ht ?_ ?_, hdi, hsw, ?_, ?_, ?_, ?_, ?_, fun p hp => Or.inl (hs hp),
    fun p _ _ hp => ha p hp, ?_⟩
  · intro e' he'
    rw [hw] at he'
    cases he'
    exact ⟨hp, hdi ▸ hpd⟩
  · intro q
    simp only [hfr, hw, Option.map_none, Option.map_some, holds_none, hold]
    omega
  · rw [walk_store h1 hd1 hn ht hd1 hn, if_pos ⟨rfl, rfl⟩, hw]
  · intro f hf m hm hno
    rw [walk_store h1 hd1 hn ht (hdi ▸ hf) hm, if_neg hno, ho f hf m hm hno]
  · intro p hpA
    have hre := refs_store (w := w) h1 hd1 hn ht p
    rw [hfr, hw, Option.map_none, Option.map_some, holds_none, Nat.add_zero] at hre
    rw [hr p hpA, hre, hold, Nat.zero_add]
  · intro f hf i hi _
    rw [table_store h1 hd1 hn ht (Or.inl (hdi ▸ hf)), hsl f hf i hi]
  · refine ⟨t, ?_, Or.inl htab⟩
    rw [table_store h1 hd1 hn ht (Or.inl hd1)]
    exact ht
  · intro p _ _ hp
    refine ha p fun i hi => ?_
    rw [← hsl d hd i hi, ← table_store h1 hd1 hn ht (Or.inl hd1)]
    exact hp i hi

/-- The last store of `page_insert` when the entry names the page already: only the flags change. -/
theorem inserted_again (h : s.Inv pg0 I A (fun _ => 0)) (hd : d ∈ s.pgdirs) (hn : n < userPages)
    (ht : s.table d (n / 1024) = some t) {low : Nat} (hold : s.walk d n = some (page, low)) (hw : decode w = some (page, flags)) :
    Inserted pg0 I d n (page, flags) A s A (s.store (t, n % 1024) w) := by
  refine ⟨inv_store h hd hn ht ?_ ?_, rfl, rfl, ?_, ?_, ?_, ?_, ?_, fun p hp => Or.inl hp, ?_, ?_⟩
  · intro e' he'
    rw [hw] at he'
    cases he'
    exact h.mapped d hd n hn (page, low) hold
  · intro q
    rw [hold, hw]
    rfl
  · rw [walk_store h hd hn ht hd hn, if_pos ⟨rfl, rfl⟩, hw]
  · intro f hf m hm hno
    rw [walk_store h hd hn ht hf hm, if_neg hno]
  · intro p hpA
    have hr := refs_store (w := w) h hd hn ht p
    simp only [hold, hw, Option.map_some] at hr
    constructor
    · intro hno
      exact absurd hpA hno
    · rintro ⟨h0, h1⟩
      omega
  · intro f hf i _ _
    exact table_store h hd hn ht (Or.inl hf) i
  · exact ⟨t, (table_store h hd hn ht (Or.inl hd) _).trans ht, Or.inl ht⟩
  · intro p _ _ hp
    exact frames_store_of_ne s (fun he => hp _ (slot_lt hn) (he ▸ ht))
  · intro p _ _ hp
    refine frames_store_of_ne s fun he => hp _ (slot_lt hn) ?_
    rw [he, table_store h hd hn ht (Or.inl hd)]
    exact ht

/-- A counter that goes up and down again. -/
theorem pageRefDec_pageRefInc (s : Memory) (p : Nat) : (s.pageRefInc p).pageRefDec p = s := by
  unfold Memory.pageRefInc Memory.pageRefDec
  simp only [Memory.setPageRef, FreeArea.modify, update_self, update_idem, Memory.pageRef,
    Int.add_sub_cancel, update_eq_self]

/-- `page_insert` from the entry on. -/
theorem releaseEntry_spec (h : s.Inv pg0 I A (fun _ => 0)) (hd : d ∈ s.pgdirs) (hn : n < userPages)
    (ht : s.table d (n / 1024) = some t) (hp : page ∈ A) (hpd : page ∉ s.pgdirs) (hpe : perm < 4096) :
    ∃ s1 A', releaseEntry page (t, n % 1024) (s.pageRefInc page) = .ok s1 ∧
      Inserted pg0 I d n (page, pteP ||| perm) A s A' (s1.store (t, n % 1024) (page2pa page ||| pteP ||| perm)) := by
  obtain ⟨hfl, hodd⟩ := perm_flags hpe
  have hw : decode (page2pa page ||| pteP ||| perm) = some (page, pteP ||| perm) := by
    rw [Nat.or_assoc]
    exact decode_entry ((lt_npage h hp).trans_le h.small) hfl hodd
  have hl : (s.pageRefInc page).load (t, n % 1024) = s.frames t (n % 1024) := rfl
  have hwa := walk_of_table ht
  have hinc := inv_pageRefInc h hp hpd
  unfold releaseEntry
  rw [hl]
  cases he : decode (s.frames t (n % 1024)) with
  | none =>
    rw [if_neg (by simpa using decode_eq_none.mp he)]
    refine ⟨_, A, rfl, inserted_fresh hinc hd hn rfl rfl ht (hwa.trans he) hw hp hpd
      (fun _ _ _ _ _ => rfl) ?_ (fun _ _ _ _ => rfl) subset_rfl (fun _ _ => rfl)⟩
    intro p hpA
    constructor
    · intro hno
      exact absurd hpA hno
    · rintro ⟨h0, h1⟩
      change s.refs p + _ = 0 at h1
      omega
  | some e =>
    obtain ⟨q, low⟩ := e
    obtain ⟨hqA, hqd⟩ := h.mapped d hd n hn (q, low) (hwa.trans he)
    rw [if_pos (decode_eq_some he).1, pte2page_of_decode he (lt_npage hinc hqA), bind_ok]
    by_cases hqp : q = page
    · subst hqp
      rw [if_pos rfl, pageRefDec_pageRefInc]
      exact ⟨s, A, rfl, inserted_again h hd hn ht (hwa.trans he) hw⟩
    · rw [if_neg hqp]
      obtain ⟨s2, A2, hs2, hc⟩ := pageRemovePte_spec hinc hd hn ht
      have hp2 : page ∈ A2 := by
        by_contra hno
        have := ((hc.returned page hp).mp hno).2
        rw [hold_self] at this
        omega
      refine ⟨s2, A2, hs2, inserted_fresh hc.inv hd hn hc.pgdirs hc.swapInitOk ?_ ?_ hw hp2 hpd ?_
        hc.returned hc.tables hc.subset hc.frame⟩
      · rw [hc.tables d hd _ (slot_lt hn)]
        exact ht
      · exact hc.cleared n hn rfl
      · intro f hf m hm hno
        exact hc.others f hf m hm hno

/-- A page that was free is taken, perhaps written, and mapped: the whole seen from before it was taken. -/
theorem Inserted.of_alloc {e : Nat × Nat} (h : Inserted pg0 I d n e (A ∪ {e.1}) s1 A' s') (hd : d ∈ s.pgdirs)
    (hn : n < userPages) (hdi : s1.pgdirs = s.pgdirs) (hsw : s1.swapInitOk = s.swapInitOk)
    (hta : ∀ f ∈ s.pgdirs, ∀ i < userSlots, s1.table f i = s.table f i)
    (hw : ∀ f ∈ s.pgdirs, ∀ m < userPages, s1.walk f m = s.walk f m) (hr : ∀ p ∈ A, s1.refs p = s.refs p)
    (hnew : e.1 ∉ A) (hframes : ∀ p, p ≠ e.1 → s1.frames p = s.frames p) : Inserted pg0 I d n e A s A' s' := by
  obtain ⟨t, ht, hs⟩ := h.slot
  rw [hta d hd _ (slot_lt hn)] at hs
  refine ⟨h.inv, h.pgdirs.trans hdi, h.swapInitOk.trans hsw, h.inserted, ?_, ?_, ?_, ⟨t, ht, ?_⟩, ?_, ?_, ?_⟩
  · intro f hf m hm hno
    rw [h.others f (hdi ▸ hf) m hm hno, hw f hf m hm]
  · intro p hp
    rw [h.returned p (Or.inl hp), hr p hp]
  · intro f hf i hi hno
    rw [h.slots f (hdi ▸ hf) i hi hno, hta f hf i hi]
  · exact hs.imp id (fun hno => ⟨hno.1, hno.2.1, fun htA => hno.2.2.1 (Or.inl htA), hno.2.2.2⟩)
  · intro p hp
    rcases h.gained p hp with (hp | hp) | hp
    · exact Or.inl hp
    · exact Or.inr (Or.inl hp)
    · exact Or.inr hp
  · intro p hp hpd hno
    rw [h.frame p (Or.inl hp) hpd (fun i hi => hta d hd i hi ▸ hno i hi), hframes p (fun he => hnew (he ▸ hp))]
  · intro p hpd hpe hno
    rw [h.rest p hpd hpe hno, hframes p hpe]

end PageAux

open PageAux

/-- The pages that a mapping takes for a page table: one where the slot of the directory has none. -/
def Memory.tableNeeds (s : Memory) (d i : Nat) : Nat := if s.table d i = none then 1 else 0

variable {pg0 : Nat → Page} {I A : Set Nat} {s : Memory} {d page la perm : Nat}

section

variable (h : s.Inv pg0 I A (fun _ => 0))
include h

/-- With every page handed out, none is free. -/
theorem nrFree_full (hf : I ⊆ A) (n : Nat) : s.area.nrFree ≤ n := by
  have hle := nrFree_le h (Set.subset_union_of_subset_left hf ∅) Set.finite_empty
  rw [Set.ncard_empty] at hle
  omega

/-- With one page left and no table, a table takes it. -/
theorem nrFree_taken {p i : Nat} (hn : s.table d i = none) (hf : I ⊆ A ∪ {p}) : s.area.nrFree ≤ s.tableNeeds d i := by
  rw [Memory.tableNeeds, if_pos hn, ← Set.ncard_singleton p]
  exact nrFree_le h hf (Set.finite_singleton p)

/-- What a mapping takes: a page, and one for the table if there is none. -/
theorem nrFree_inserted {n : Nat} {e : Nat × Nat} {A' : Set Nat} {s' : Memory} (hd : d ∈ s.pgdirs) (hn : n < userPages)
    (hi : Inserted pg0 I d n e A s A' s') : s.area.nrFree ≤ s'.area.nrFree + 1 + s.tableNeeds d (n / 1024) := by
  have hf : (I \ A').Finite := (finite_pages h).subset Set.sdiff_subset
  obtain ⟨t, ht, hsl⟩ := hi.slot
  -- a page that is taken is the one that is mapped or the table
  have hta : ∀ p ∈ I \ A, p = e.1 ∨ p = t ∨ p ∈ I \ A' := by
    rintro p ⟨hpI, hpA⟩
    by_cases hpA' : p ∈ A'
    · rcases hi.gained p hpA' with hp | hp | hp
      · exact absurd hp hpA
      · exact Or.inl hp
      · exact Or.inr (Or.inl (Option.some.inj (hp.symm.trans ht)))
    · exact Or.inr (Or.inr ⟨hpI, hpA'⟩)
  rw [nrFree_eq h.area, nrFree_eq hi.inv.area, Memory.tableNeeds]
  rcases hsl with hso | ⟨hno, -⟩
  · have hs : I \ A ⊆ insert e.1 (I \ A') := by
      intro p hp
      rcases hta p hp with he | rfl | hp'
      · exact Or.inl he
      · exact absurd (h.tables d hd _ (slot_lt hn) p hso).1 hp.2
      · exact Or.inr hp'
    have hle := Set.ncard_le_ncard hs (hf.insert _)
    have ho := Set.ncard_insert_le e.1 (I \ A')
    omega
  · have hs : I \ A ⊆ insert e.1 (insert t (I \ A')) := hta
    have hle := Set.ncard_le_ncard hs ((hf.insert t).insert e.1)
    have ho := Set.ncard_insert_le e.1 (insert t (I \ A'))
    have htwo := Set.ncard_insert_le t (I \ A')
    rw [if_pos hno]
    omega

end

section

variable (h : s.Inv pg0 I A (fun _ => 0)) (hd : d ∈ s.pgdirs) (hla : la < kernBase)
include h hd hla

/-- `page_insert` of a page that is handed out and is no directory: `swap_out`, or nothing done for want of a table, or the
linear page mapped. -/
theorem pageInsert_spec (hp : page ∈ A) (hpd : page ∉ s.pgdirs) (hpm : perm < 4096) :
    (s.swapInitOk = true ∧ pageInsert d page la perm s = .error .swapOut ∧ s.table d (la / 4096 / 1024) = none ∧ I ⊆ A) ∨
    (s.swapInitOk = false ∧ pageInsert d page la perm s = .ok (-eNoMem, s) ∧ s.table d (la / 4096 / 1024) = none ∧ I ⊆ A) ∨
    ∃ s' A', pageInsert d page la perm s = .ok (0, s') ∧
      Inserted pg0 I d (la / 4096) (page, pteP ||| perm) A s A' s' := by
  obtain ⟨-, hn⟩ := addr_lt hla
  unfold pageInsert
  rcases getPte_true h hd hla with ⟨hsw, hg, hne⟩ | ⟨hsw, hg, hne⟩ | ⟨t, s1, A1, hg, ht⟩
  · rw [hg]
    exact Or.inl ⟨hsw, rfl, hne⟩
  · rw [hg]
    exact Or.inr (Or.inl ⟨hsw, rfl, hne⟩)
  · have hdi := ht.pgdirs
    obtain ⟨s2, A2, hs2, hins⟩ :=
      releaseEntry_spec ht.inv (hdi ▸ hd) hn ht.table (ht.subset hp) (hdi ▸ hpd) hpm
    rw [hg, bind_ok]
    dsimp only
    rw [hs2]
    -- the table of the slot stays the one that `get_pte` found or made
    obtain ⟨t', ht', hsl⟩ := hins.slot
    obtain rfl : t = t' := by
      rcases hsl with hso | ⟨hno, -⟩
      · exact Option.some.inj (ht.table.symm.trans hso)
      · rw [ht.table] at hno
        cases hno
    refine Or.inr (Or.inr ⟨_, A2, rfl, hins.inv, hins.pgdirs.trans hdi, hins.swapInitOk.trans ht.swapInitOk, hins.inserted,
      ?_, ?_, ?_, ⟨t, ht', ?_⟩, ?_, ?_, ?_⟩)
    · intro f hf m hm hno
      rw [hins.others f (hdi ▸ hf) m hm hno, ht.walks f hf m hm]
    · intro p hpA
      rw [hins.returned p (ht.subset hpA), ht.refs p hpA]
    · intro f hf i hi hno
      rw [hins.slots f (hdi ▸ hf) i hi hno, ht.slots f hf i hi hno]
    · rcases ht.made with ⟨-, hs⟩ | ⟨hne, ⟨⟨htI, htA⟩, -⟩, -⟩
      · exact Or.inl (hs ▸ ht.table)
      · exact Or.inr ⟨hne, htI, htA, fun he => htA (he ▸ hp)⟩
    · intro p hpA
      rcases hins.gained p hpA with hpA | hpA | hpA
      · rcases ht.made with ⟨hA, -⟩ | ⟨-, -, hA⟩
        · exact Or.inl (hA ▸ hpA)
        · rw [hA] at hpA
          refine hpA.imp id ?_
          rintro rfl
          exact Or.inr ht'
      · exact Or.inr (Or.inl hpA)
      · exact Or.inr (Or.inr hpA)
    · intro p hpA hpd' hno
      rw [hins.frame p (ht.subset hpA) hpd' ?_, ht.frame p hpA hpd']
      intro i hi hpi
      by_cases his : i = la / 4096 / 1024
      · rw [his, ht.table] at hpi
        rcases ht.made with ⟨-, hs⟩ | ⟨-, ⟨⟨-, htA⟩, -⟩, -⟩
        · exact hno _ (slot_lt hn) (hpi ▸ hs ▸ ht.table)
        · exact htA (Option.some.inj hpi ▸ hpA)
      · rw [ht.slots d hd i hi (fun hc => his hc.2)] at hpi
        exact hno i hi hpi
    · intro p hpd' hpe hno
      rw [hins.rest p hpd' hpe hno, ht.rest p hpd' fun he => hno _ (slot_lt hn) (he ▸ ht')]

/-- `pgdir_alloc_page`: `swap_out`, or nothing done for want of a page, or a page that was free mapped, with what it held. -/
theorem pgdirAllocPage_fresh (hpe : perm < 4096) : (s.swapInitOk = true ∧ pgdirAllocPage d la perm s = .error .swapOut ∧
      s.area.nrFree ≤ s.tableNeeds d (la / 4096 / 1024)) ∨
    (∃ area, s.swapInitOk = false ∧ pgdirAllocPage d la perm s = .ok (none, { s with area := area }) ∧
      Memory.Inv pg0 I A (fun _ => 0) { s with area := area } ∧ s.area.nrFree ≤ s.tableNeeds d (la / 4096 / 1024)) ∨
    ∃ p s' A', pgdirAllocPage d la perm s = .ok (some p, s') ∧ IsLeast (I \ A) p ∧
      Inserted pg0 I d (la / 4096) (p, pteP ||| perm) A s A' s' ∧
      s'.frames p = s.frames p := by
  unfold pgdirAllocPage
  rcases allocPage_spec h with ⟨hsw, ha, hfu⟩ | ⟨hsw, ha, hfu⟩ | ⟨p, area, ha, ⟨⟨hpI, hp⟩, hl⟩, har, hr⟩
  · rw [ha]
    exact Or.inl ⟨hsw, rfl, nrFree_full h hfu _⟩
  · rw [ha]
    exact Or.inr (Or.inl ⟨s.area, hsw, rfl, h, nrFree_full h hfu _⟩)
  · rw [ha, bind_ok]
    dsimp only
    have hinv := inv_alloc h har hr
    have hpd : p ∉ s.pgdirs := fun hc => hp (h.dirs p hc)
    have hpA : p ∈ A ∪ {p} := Or.inr rfl
    rcases pageInsert_spec hinv hd hla hpA hpd hpe with ⟨hsw, hi, hs⟩ | ⟨hsw, hi, hs⟩ | ⟨s', A', hi, hins⟩
    · rw [hi]
      exact Or.inl ⟨hsw, rfl, nrFree_taken h hs.1 hs.2⟩
    · have hu : Memory.refs { s with area := area } p = 0 := (refs_eq_zero h hp :)
      obtain ⟨area', hf, hin'⟩ := freePage_spec hinv hpA hpd hu rfl
      rw [hi, bind_ok, hf]
      have hb : (A ∪ {p}) \ {p} = A := by
        rw [Set.union_sdiff_right, Set.sdiff_singleton_eq_self hp]
      rw [hb] at hin'
      exact Or.inr (Or.inl ⟨area', hsw, rfl, hin', nrFree_taken h hs.1 hs.2⟩)
    · rw [hi, bind_ok]
      obtain ⟨-, hn⟩ := addr_lt hla
      refine Or.inr (Or.inr ⟨p, s', A', rfl, ⟨⟨hpI, hp⟩, hl⟩, hins.of_alloc hd hn rfl rfl (fun _ _ _ _ => rfl) (fun _ _ _ _ => rfl)
        (fun _ _ => rfl) hp (fun _ _ => rfl), hins.frame p hpA (fun he => hpd (he ▸ hd)) ?_⟩)
      exact fun i hi' hc => hp (h.tables d hd i hi' p hc).1

end

/-! ## Directories made -/

namespace PageAux

/-- The memory with the frame `p` made a page directory. -/
def withPgdir (s : Memory) (area : FreeArea) (p : Nat) : Memory :=
  { ((({ s with area := area } : Memory).fill p (s.frames s.bootPgdir)).store (p, pdx vpt) (page2pa p ||| pteP ||| pteW)) with
    pgdirs := p :: s.pgdirs }

variable {p : Nat} {area : FreeArea}

theorem frames_withPgdir {f : Nat} (hf : f ≠ p) : (withPgdir s area p).frames f = s.frames f := by
  have : (withPgdir s area p).frames f = ((({ s with area := area } : Memory).fill p (s.frames s.bootPgdir)).store (p, pdx vpt)
      (page2pa p ||| pteP ||| pteW)).frames f := rfl
  rw [this, frames_store_of_ne _ hf]
  simp [Memory.fill, hf]

section

variable (h : s.Inv pg0 I A (fun _ => 0))
include h

/-- The user half of a new directory is empty. -/
theorem table_withPgdir {i : Nat} (hi : i < userSlots) : (withPgdir s area p).table p i = none := by
  have hvpt : i ≠ pdx vpt := by
    rw [show pdx vpt = 1003 from rfl]
    unfold userSlots at hi
    omega
  have hf : (withPgdir s area p).frames p i = s.frames s.bootPgdir i := by
    have : (withPgdir s area p).frames p i = ((({ s with area := area } : Memory).fill p (s.frames s.bootPgdir)).store (p, pdx vpt)
        (page2pa p ||| pteP ||| pteW)).frames p i := rfl
    rw [this, frames_store_index _ hvpt]
    simp [Memory.fill]
  rw [Memory.table, hf]
  exact h.boot_empty i hi

/-- The directories that were there map what they mapped. -/
theorem walk_withPgdir (hp : p ∉ A) {f n : Nat} (hf : f ∈ s.pgdirs) (hn : n < userPages) :
    (withPgdir s area p).walk f n = s.walk f n := by
  have hne : f ≠ p := fun he => hp (he ▸ h.dirs f hf)
  have htab : (withPgdir s area p).table f (n / 1024) = s.table f (n / 1024) := by
    rw [Memory.table, frames_withPgdir hne, Memory.table]
  rw [Memory.walk, htab, Memory.walk]
  cases ht : s.table f (n / 1024) with
  | none => rfl
  | some t =>
    have htp : t ≠ p := fun he => hp (he ▸ (h.tables f hf _ (slot_lt hn) t ht).1)
    rw [Option.bind_some, Option.bind_some, frames_withPgdir htp]

theorem walk_withPgdir_self {n : Nat} (hn : n < userPages) : (withPgdir s area p).walk p n = none := by
  rw [Memory.walk, table_withPgdir h (slot_lt hn), Option.bind_none]

theorem refs_withPgdir (hp : p ∉ A) (q : Nat) : (withPgdir s area p).refs q = s.refs q := by
  have hpd : p ∉ s.pgdirs := fun hc => hp (h.dirs p hc)
  have hdi : (withPgdir s area p).pgdirs = p :: s.pgdirs := rfl
  have h1 : (withPgdir s area p).pdeRefs q = s.pdeRefs q := by
    refine slotCount_congr ?_ q
    rintro ⟨f, i⟩ hk
    rw [Memory.pdeSlot, hdi, Memory.pdeSlot]
    by_cases hfp : f = p
    · subst hfp
      rw [if_pos List.mem_cons_self, if_neg hpd]
      exact table_withPgdir h (mem_pdeKeys.mp hk).2
    · simp only [List.mem_cons, hfp, false_or]
      rw [Memory.table, frames_withPgdir hfp, Memory.table]
  have h2 : (withPgdir s area p).pteRefs q = s.pteRefs q := by
    refine slotCount_congr ?_ q
    rintro ⟨f, n⟩ hk
    have hn := (mem_pteKeys.mp hk).2
    rw [Memory.pteSlot, hdi, Memory.pteSlot]
    by_cases hfp : f = p
    · subst hfp
      rw [if_pos List.mem_cons_self, if_neg hpd, walk_withPgdir_self h hn, Option.map_none]
    · simp only [List.mem_cons, hfp, false_or]
      by_cases hf : f ∈ s.pgdirs
      · rw [if_pos hf, if_pos hf, walk_withPgdir h hp hf hn]
      · rw [if_neg hf, if_neg hf]
  rw [Memory.refs, Memory.refs, h1, h2]

theorem inv_withPgdir (hpI : p ∈ I) (hp : p ∉ A) (ha : area.Inv pg0 I (A ∪ {p}))
    (hr : ∀ q, (area.pages q).ref = (s.area.pages q).ref) : (withPgdir s area p).Inv pg0 I (A ∪ {p}) (fun _ => 0) := by
  have hne : ∀ t ∈ A, t ≠ p := fun t ht he => hp (he ▸ ht)
  have htab : ∀ f ∈ s.pgdirs, ∀ i, (withPgdir s area p).table f i = s.table f i := by
    intro f hf i
    rw [Memory.table, frames_withPgdir (hne f (h.dirs f hf)), Memory.table]
  refine ⟨ha, h.inside, h.small, h.boot, ?_, ?_, ?_, ?_, ?_, ?_⟩
  · intro i hi
    have hb : s.bootPgdir ≠ p := fun he => h.boot (he ▸ hpI)
    have hbo : (withPgdir s area p).bootPgdir = s.bootPgdir := rfl
    rw [hbo, Memory.table, frames_withPgdir hb]
    exact h.boot_empty i hi
  · intro f hf
    rcases List.mem_cons.mp hf with rfl | hf
    · exact Or.inr rfl
    · exact Or.inl (h.dirs f hf)
  · intro f hf i hi t ht
    rcases List.mem_cons.mp hf with rfl | hf
    · rw [table_withPgdir h hi] at ht
      cases ht
    · rw [htab f hf] at ht
      obtain ⟨htA, htd⟩ := h.tables f hf i hi t ht
      refine ⟨Or.inl htA, ?_⟩
      intro hc
      rcases List.mem_cons.mp hc with he | hc
      · exact hne t htA he
      · exact htd hc
  · intro f hf i hi f' hf' i' hi' t ht ht'
    rcases List.mem_cons.mp hf with rfl | hf
    · rw [table_withPgdir h hi] at ht
      cases ht
    · rcases List.mem_cons.mp hf' with rfl | hf'
      · rw [table_withPgdir h hi'] at ht'
        cases ht'
      · rw [htab f hf] at ht
        rw [htab f' hf'] at ht'
        exact h.tables_inj f hf i hi f' hf' i' hi' t ht ht'
  · intro f hf n hn e he
    rcases List.mem_cons.mp hf with rfl | hf
    · rw [walk_withPgdir_self h hn] at he
      cases he
    · rw [walk_withPgdir h hp hf hn] at he
      obtain ⟨heA, hed⟩ := h.mapped f hf n hn e he
      refine ⟨Or.inl heA, ?_⟩
      intro hc
      rcases List.mem_cons.mp hc with he | hc
      · exact hne _ heA he
      · exact hed hc
  · intro q hq hqd
    have hqd' : q ∉ s.pgdirs := fun hc => hqd (List.mem_cons_of_mem _ hc)
    rw [refs_withPgdir h hp q]
    exact (hr q).trans (h.ref q hq hqd')

end

end PageAux

/-- `setup_pgdir`: `swap_out`, no page, or a new directory with an empty user half. -/
theorem setupPgdir_spec (h : s.Inv pg0 I A (fun _ => 0)) : (s.swapInitOk = true ∧ setupPgdir s = .error .swapOut ∧ I ⊆ A) ∨
    (s.swapInitOk = false ∧ setupPgdir s = .ok (none, s) ∧ I ⊆ A) ∨
    ∃ p area, setupPgdir s = .ok (some p, withPgdir s area p) ∧ p ∈ I ∧ p ∉ A ∧
      (withPgdir s area p).Inv pg0 I (A ∪ {p}) (fun _ => 0) := by
  unfold setupPgdir
  rcases allocPage_spec h with ⟨hsw, ha, hf⟩ | ⟨hsw, ha, hf⟩ | ⟨p, area, ha, ⟨⟨hpI, hp⟩, -⟩, har, hr⟩
  · rw [ha]
    exact Or.inl ⟨hsw, rfl, hf⟩
  · rw [ha]
    exact Or.inr (Or.inl ⟨hsw, rfl, hf⟩)
  · have hk : kaddr { s with area := area } (page2pa p) = .ok p := by
      have hpn : p < ({ s with area := area } : Memory).npage := h.inside p hpI
      unfold kaddr
      rw [ppn_page2pa, ensure_of hpn, bind_ok]
    rw [ha, bind_ok]
    dsimp only
    rw [hk]
    exact Or.inr (Or.inr ⟨p, area, rfl, hpI, hp, inv_withPgdir h hpI hp har hr⟩)

end Ucore
