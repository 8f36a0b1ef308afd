import Ucore.Lemmas.PageInsert

/-!
# The pages of one address space

An address space gets its directory from `setup_pgdir`, its page tables from `get_pte` and its frames from `pgdir_alloc_page`, so
every page it has is named by one entry of its own and by nothing else. `Private base d A s` says so: of the pages `A` that are
handed out, `base` are those of others, and each of the rest is the directory `d`, one of its tables or one of the frames it maps.
Each function that works on the directory keeps this; nothing is handed out that the directory does not name, so nothing can be
lost while it is in use.
-/

namespace Ucore

open Checked SlotCount

namespace PageAux

variable {pg0 : Nat → Page} {I A : Set Nat} {s : Memory} {p : Nat}

/-- A frame with a reference is a table or is mapped. -/
theorem refs_pos_iff (h : s.Inv pg0 I A (fun _ => 0)) : 0 < s.refs p ↔
    (∃ f ∈ s.pgdirs, ∃ i < userSlots, s.table f i = some p) ∨
      ∃ f ∈ s.pgdirs, ∃ m < userPages, ∃ e, s.walk f m = some e ∧ e.1 = p := by
  constructor
  · intro hp
    by_contra hno
    rw [not_or] at hno
    rw [refs_zero_of (fun f hf i hi ht => hno.1 ⟨f, hf, i, hi, ht⟩)
      fun f hf m hm e he hep => hno.2 ⟨f, hf, m, hm, e, he, hep⟩] at hp
    exact lt_irrefl 0 hp
  · intro hex
    refine Nat.pos_of_ne_zero fun hz => ?_
    rcases hex with ⟨f, hf, i, hi, ht⟩ | ⟨f, hf, m, hm, e, he, hep⟩
    · exact (not_named h hz hf).1 i hi ht
    · exact (not_named h hz hf).2 m hm e he hep

end PageAux

open PageAux

/-- Of the pages `A` that are handed out, those of `base` belong to others; the rest is the directory `d`, its tables and the
frames it maps, each named once. -/
structure Private (pg0 : Nat → Page) (I base : Set Nat) (d : Nat) (A : Set Nat) (s : Memory) : Prop where
  inv : s.Inv pg0 I A (fun _ => 0)
  dir : d ∈ s.pgdirs
  dir_new : d ∉ base
  kept : base ⊆ A
  others : ∀ f ∈ s.pgdirs, f ≠ d → (∀ i < userSlots, ∀ t, s.table f i = some t → t ∈ base) ∧
    ∀ n < userPages, ∀ e, s.walk f n = some e → e.1 ∈ base
  table_new : ∀ i < userSlots, ∀ t, s.table d i = some t → t ∉ base
  page_new : ∀ n < userPages, ∀ e, s.walk d n = some e → e.1 ∉ base ∧ ∀ i < userSlots, s.table d i ≠ some e.1
  page_once : ∀ n < userPages, ∀ e, s.walk d n = some e → ∀ m < userPages, ∀ e', s.walk d m = some e' → e'.1 = e.1 → m = n
  owned : ∀ p ∈ A, p ∈ base ∨ p = d ∨ (∃ i < userSlots, s.table d i = some p) ∨
    ∃ n < userPages, ∃ e, s.walk d n = some e ∧ e.1 = p

variable {pg0 : Nat → Page} {I A A' base : Set Nat} {s s' : Memory} {d n p : Nat} {area : FreeArea} {e : Nat × Nat}

/-- A new directory. -/
theorem private_setup (h : s.Inv pg0 I A (fun _ => 0)) (hp : p ∉ A)
    (hinv : (withPgdir s area p).Inv pg0 I (A ∪ {p}) (fun _ => 0)) : Private pg0 I A p (A ∪ {p}) (withPgdir s area p) := by
  have hno : ∀ i < userSlots, (withPgdir s area p).table p i = none := fun i hi => table_withPgdir h hi
  have hw : ∀ n < userPages, (withPgdir s area p).walk p n = none := fun n hn => walk_withPgdir_self h hn
  refine ⟨hinv, List.mem_cons_self, hp, Set.subset_union_left, ?_, ?_, ?_, ?_, ?_⟩
  · intro f hf hfp
    have hf' : f ∈ s.pgdirs := (List.mem_cons.mp hf).resolve_left hfp
    refine ⟨?_, ?_⟩
    · intro i hi t ht
      rw [Memory.table, frames_withPgdir hfp] at ht
      exact (h.tables f hf' i hi t ht).1
    · intro n hn e he
      rw [walk_withPgdir h hp hf' hn] at he
      exact (h.mapped f hf' n hn e he).1
  · intro i hi t ht
    rw [hno i hi] at ht
    cases ht
  · intro n hn e he
    rw [hw n hn] at he
    cases he
  · intro n hn e he
    rw [hw n hn] at he
    cases he
  · rintro q (hq | rfl)
    · exact Or.inl hq
    · exact Or.inr (Or.inl rfl)

section

variable (h : Private pg0 I base d A s)
include h

/-- A page that someone else takes. -/
theorem private_alloc (hp : p ∉ A) (ha : area.Inv pg0 I (A ∪ {p})) (hr : ∀ q, (area.pages q).ref = (s.area.pages q).ref) :
    Private pg0 I (base ∪ {p}) d (A ∪ {p}) { s with area := area } := by
  have hne : ∀ q ∈ A, q ≠ p := fun q hq he => hp (he ▸ hq)
  have hd := h.dir
  refine ⟨inv_alloc h.inv ha hr, hd, ?_, Set.union_subset_union_left _ h.kept, ?_, ?_, ?_, h.page_once, ?_⟩
  · rintro (hb | hdp)
    · exact h.dir_new hb
    · exact hne d (h.inv.dirs d hd) hdp
  · intro f hf hfd
    exact ⟨fun i hi t ht => Or.inl ((h.others f hf hfd).1 i hi t ht), fun n hn e he => Or.inl ((h.others f hf hfd).2 n hn e he)⟩
  · rintro i hi t ht (hb | htp)
    · exact h.table_new i hi t ht hb
    · exact hne t (h.inv.tables d hd i hi t ht).1 htp
  · intro n hn e he
    refine ⟨?_, (h.page_new n hn e he).2⟩
    rintro (hb | hep)
    · exact (h.page_new n hn e he).1 hb
    · exact hne e.1 (h.inv.mapped d hd n hn e he).1 hep
  · rintro q (hq | rfl)
    · exact (h.owned q hq).imp_left Or.inl
    · exact Or.inl (Or.inr rfl)

/-- The allocator has changed, and not what is handed out. -/
theorem private_area (hinv : Memory.Inv pg0 I A (fun _ => 0) { s with area := area }) :
    Private pg0 I base d A { s with area := area } :=
  ⟨hinv, h.dir, h.dir_new, h.kept, h.others, h.table_new, h.page_new, h.page_once, h.owned⟩

omit h in
/-- What was named is still named. -/
theorem owned_mono (hta : ∀ i < userSlots, ∀ t, s.table d i = some t → s'.table d i = some t)
    (hw : ∀ n < userPages, ∀ e, s.walk d n = some e → s'.walk d n = some e)
    (h : p ∈ base ∨ p = d ∨ (∃ i < userSlots, s.table d i = some p) ∨ ∃ n < userPages, ∃ e, s.walk d n = some e ∧ e.1 = p) :
    p ∈ base ∨ p = d ∨ (∃ i < userSlots, s'.table d i = some p) ∨ ∃ n < userPages, ∃ e, s'.walk d n = some e ∧ e.1 = p := by
  rcases h with hb | hb | ⟨i, hi, ht⟩ | ⟨n, hn, e, he, hep⟩
  · exact Or.inl hb
  · exact Or.inr (Or.inl hb)
  · exact Or.inr (Or.inr (Or.inl ⟨i, hi, hta i hi p ht⟩))
  · exact Or.inr (Or.inr (Or.inr ⟨n, hn, e, hw n hn e he, hep⟩))

/-- The other directories name what they named. This one names, beyond what it named, only pages that were not handed out: as tables,
or one as the frame of the page `n`. -/
theorem private_of (hinv : s'.Inv pg0 I A' (fun _ => 0)) (hd : s'.pgdirs = s.pgdirs) (hk : base ⊆ A')
    (ho : ∀ f ∈ s.pgdirs, f ≠ d → (∀ i < userSlots, s'.table f i = s.table f i) ∧ ∀ m < userPages, s'.walk f m = s.walk f m)
    (hta : ∀ i < userSlots, ∀ t, s'.table d i = some t → s.table d i = some t ∨ t ∉ A)
    (hw : ∀ m < userPages, ∀ e, s'.walk d m = some e →
      s.walk d m = some e ∨ m = n ∧ e.1 ∉ A ∧ ∀ i < userSlots, s'.table d i ≠ some e.1)
    (how : ∀ p ∈ A', p ∈ base ∨ p = d ∨ (∃ i < userSlots, s'.table d i = some p) ∨
      ∃ m < userPages, ∃ e, s'.walk d m = some e ∧ e.1 = p) : Private pg0 I base d A' s' := by
  have hmem : ∀ m < userPages, ∀ e, s.walk d m = some e → e.1 ∈ A := fun m hm e he => (h.inv.mapped d h.dir m hm e he).1
  refine ⟨hinv, hd ▸ h.dir, h.dir_new, hk, ?_, ?_, ?_, ?_, how⟩
  · intro f hf hfd
    rw [hd] at hf
    obtain ⟨h1, h2⟩ := ho f hf hfd
    exact ⟨fun i hi t ht => (h.others f hf hfd).1 i hi t (h1 i hi ▸ ht), fun m hm e he => (h.others f hf hfd).2 m hm e (h2 m hm ▸ he)⟩
  · intro i hi t ht
    rcases hta i hi t ht with ht | ht
    · exact h.table_new i hi t ht
    · exact fun hb => ht (h.kept hb)
  · intro m hm e he
    rcases hw m hm e he with he | ⟨-, heA, hne⟩
    · refine ⟨(h.page_new m hm e he).1, ?_⟩
      intro i hi ht
      rcases hta i hi _ ht with ht | ht
      · exact (h.page_new m hm e he).2 i hi ht
      · exact ht (hmem m hm e he)
    · exact ⟨fun hb => heA (h.kept hb), hne⟩
  · intro m hm e he m' hm' e' he' heq
    rcases hw m hm e he with he | ⟨hmn, heA, -⟩
    · rcases hw m' hm' e' he' with he' | ⟨-, heA, -⟩
      · exact h.page_once m hm e he m' hm' e' he' heq
      · exact absurd (heq ▸ hmem m hm e he) heA
    · rcases hw m' hm' e' he' with he' | ⟨hmn', -⟩
      · exact absurd (heq ▸ hmem m' hm' e' he') heA
      · exact hmn'.trans hmn.symm

/-- A table made, or found. -/
theorem private_tabled {i t : Nat} (hi : i < userSlots) (ht : Tabled pg0 I d i t A s A' s') :
    Private pg0 I base d A' s' := by
  rcases ht.made with ⟨rfl, rfl⟩ | ⟨hno, ⟨⟨-, htA⟩, -⟩, rfl⟩
  · exact h
  have hd := h.dir
  refine private_of (n := 0) h ht.inv ht.pgdirs (h.kept.trans Set.subset_union_left) ?_ ?_ ?_ ?_
  · exact fun f hf hfd => ⟨fun k hk => ht.slots f hf k hk (fun hc => hfd hc.1), ht.walks f hf⟩
  · intro k hk u hu
    by_cases hki : k = i
    · rw [hki, ht.table] at hu
      exact Or.inr (Option.some.inj hu ▸ htA)
    · rw [ht.slots d hd k hk (fun hc => hki hc.2)] at hu
      exact Or.inl hu
  · exact fun n hn e he => Or.inl (ht.walks d hd n hn ▸ he)
  · rintro q (hq | rfl)
    · refine owned_mono ?_ (fun n hn e he => (ht.walks d hd n hn).trans he) (h.owned q hq)
      intro k hk u hu
      rw [ht.slots d hd k hk]
      · exact hu
      · rintro ⟨-, rfl⟩
        rw [hno] at hu
        cases hu
    · exact Or.inr (Or.inr (Or.inl ⟨i, hi, ht.table⟩))

omit h in
/-- A table stays in its slot. -/
theorem PageAux.Inserted.tables_kept (hi : Inserted pg0 I d n e A s A' s') :
    ∀ f ∈ s.pgdirs, ∀ k < userSlots, ∀ u, s.table f k = some u → s'.table f k = some u := by
  obtain ⟨t, ht, hold⟩ := hi.slot
  intro f hf k hk u hu
  by_cases hfk : f = d ∧ k = n / 1024
  · obtain ⟨rfl, rfl⟩ := hfk
    rcases hold with hold | ⟨hn, -⟩
    · rw [ht, ← hold, hu]
    · rw [hn] at hu
      cases hu
  · rw [hi.slots f hf k hk hfk, hu]

omit h in
/-- Where the page was not mapped, what was named is still named, so nothing goes back. -/
theorem PageAux.Inserted.subset (hi : Inserted pg0 I d n e A s A' s') (h : s.Inv pg0 I A (fun _ => 0))
    (hfr : s.walk d n = none) : A ⊆ A' := by
  intro q hq
  by_contra hno
  obtain ⟨hp, hz⟩ := (hi.returned q hq).mp hno
  refine Nat.ne_of_gt ?_ hz
  rw [refs_pos_iff hi.inv, hi.pgdirs]
  rcases (refs_pos_iff h).mp hp with ⟨f, hf, k, hk, hu⟩ | ⟨f, hf, m, hm, e', he', heq⟩
  · exact Or.inl ⟨f, hf, k, hk, hi.tables_kept f hf k hk q hu⟩
  · refine Or.inr ⟨f, hf, m, hm, e', ?_, heq⟩
    rw [hi.others f hf m hm, he']
    rintro ⟨rfl, rfl⟩
    rw [hfr] at he'
    cases he'

/-- A page of the address space mapped to a frame that was free. -/
theorem private_inserted (hn : n < userPages) (hfr : s.walk d n = none)
    (hnew : e.1 ∉ A) (hi : Inserted pg0 I d n e A s A' s') : Private pg0 I base d A' s' := by
  have hd := h.dir
  obtain ⟨t, ht, hold⟩ := hi.slot
  have hs : ∀ k < userSlots, ∀ u, s'.table d k = some u → s.table d k = some u ∨ (u ∉ A ∧ u ≠ e.1) := by
    intro k hk u hu
    by_cases hks : k = n / 1024
    · rw [hks, ht] at hu
      cases hu
      rcases hold with hold | ⟨-, -, htA, hte⟩
      · exact Or.inl (hks ▸ hold)
      · exact Or.inr ⟨htA, hte⟩
    · rw [hi.slots d hd k hk (fun hc => hks hc.2)] at hu
      exact Or.inl hu
  refine private_of (n := n) h hi.inv hi.pgdirs (h.kept.trans (hi.subset h.inv hfr)) ?_ ?_ ?_ ?_
  · exact fun f hf hfd => ⟨fun k hk => hi.slots f hf k hk (fun hc => hfd hc.1), fun m hm => hi.others f hf m hm (fun hc => hfd hc.1)⟩
  · exact fun k hk u hu => (hs k hk u hu).imp_right And.left
  · intro m hm e' he'
    by_cases hmn : m = n
    · rw [hmn, hi.inserted] at he'
      cases he'
      refine Or.inr ⟨hmn, hnew, ?_⟩
      intro k hk hu
      rcases hs k hk _ hu with hu | ⟨-, hu⟩
      · exact hnew (h.inv.tables d hd k hk _ hu).1
      · exact hu rfl
    · rw [hi.others d hd m hm (fun hc => hmn hc.2)] at he'
      exact Or.inl he'
  · intro q hq
    rcases hi.gained q hq with hq | rfl | hq
    · refine owned_mono (hi.tables_kept d hd) ?_ (h.owned q hq)
      intro m hm e' he'
      rw [hi.others d hd m hm, he']
      rintro ⟨-, rfl⟩
      rw [hfr] at he'
      cases he'
    · exact Or.inr (Or.inr (Or.inr ⟨n, hn, e, hi.inserted, rfl⟩))
    · exact Or.inr (Or.inr (Or.inl ⟨n / 1024, slot_lt hn, hq⟩))

/-- Pages of the address space unmapped: their frames go back. -/
theorem private_cleared {R : Nat → Prop} (hc : Cleared pg0 I (fun _ => 0) d R A s A' s') : Private pg0 I base d A' s' := by
  have hdi := hc.pgdirs
  have hd := h.dir
  refine private_of (n := 0) h hc.inv hdi ?_ ?_ ?_ ?_ ?_
  · intro q hq
    by_contra hno
    obtain ⟨hp, hz⟩ := (hc.returned q (h.kept hq)).mp hno
    refine Nat.ne_of_gt ?_ (Nat.eq_zero_of_add_eq_zero_right hz)
    rw [refs_pos_iff hc.inv]
    rcases (refs_pos_iff h.inv).mp hp with ⟨f, hf, k, hk, hu⟩ | ⟨f, hf, m, hm, e, he, heq⟩
    · exact Or.inl ⟨f, hdi ▸ hf, k, hk, by rw [hc.tables f hf k hk, hu]⟩
    · have hfd : f ≠ d := by
        rintro rfl
        exact (h.page_new m hm e he).1 (heq ▸ hq)
      exact Or.inr ⟨f, hdi ▸ hf, m, hm, e, by rw [hc.others f hf m hm (fun hcc => hfd hcc.1), he], heq⟩
  · exact fun f hf hfd => ⟨hc.tables f hf, fun m hm => hc.others f hf m hm (fun hcc => hfd hcc.1)⟩
  · exact fun k hk u hu => Or.inl (hc.tables d hd k hk ▸ hu)
  · intro m hm e he
    by_cases hR : R m
    · rw [hc.cleared m hm hR] at he
      cases he
    · rw [hc.others d hd m hm (fun hcc => hR hcc.2)] at he
      exact Or.inl he
  · intro q hq
    have hqA := hc.subset hq
    rcases h.owned q hqA with hb | hb | ⟨k, hk, hu⟩ | ⟨m, hm, e, he, heq⟩
    · exact Or.inl hb
    · exact Or.inr (Or.inl hb)
    · exact Or.inr (Or.inr (Or.inl ⟨k, hk, by rw [hc.tables d hd k hk, hu]⟩))
    · -- a frame that is still handed out is still named, and only this directory can name it
      have hp : 0 < s.refs q := (refs_pos_iff h.inv).mpr (Or.inr ⟨d, hd, m, hm, e, he, heq⟩)
      have hp' : 0 < s'.refs q := by
        refine Nat.pos_of_ne_zero fun hz => ?_
        exact (hc.returned q hqA).mpr ⟨hp, hz⟩ hq
      obtain ⟨hnb, hnt⟩ := h.page_new m hm e he
      rw [heq] at hnb hnt
      rcases (refs_pos_iff hc.inv).mp hp' with ⟨f, hf, k, hk, hu⟩ | ⟨f, hf, m', hm', e', he', heq'⟩
      · rw [hdi] at hf
        rw [hc.tables f hf k hk] at hu
        by_cases hfd : f = d
        · subst hfd
          exact absurd hu (hnt k hk)
        · exact absurd ((h.others f hf hfd).1 k hk q hu) hnb
      · by_cases hfd : f = d
        · subst hfd
          exact Or.inr (Or.inr (Or.inr ⟨m', hm', e', he', heq'⟩))
        · rw [hdi] at hf
          rw [hc.others f hf m' hm' (fun hcc => hfd hcc.1)] at he'
          exact absurd (heq' ▸ (h.others f hf hfd).2 m' hm' e' he') hnb

end

end Ucore
