import Mathlib.Data.Finset.Basic

/-!
# Exact ownership

Every element of a universe is free, fixed, or held by one of the slots, and only one of the three. An element goes from one state
to the next in steps: it is taken out of the free ones (`Exact.take`) or given back (`Exact.give`), and put into an empty slot
(`Exact.assign`) or dropped by its slot (`Exact.drop`). Between two of these steps it counts as fixed. Slots may also name numbers,
of which 0 stands for nothing (`names`).
-/

namespace Ownership

open Function

variable {β σ : Type} [DecidableEq β] [DecidableEq σ] {U fix : Set β} {free : Finset β} {held held' : σ → Option β} {b : β}
  {k : σ}

/-- Each element of `U` is free, fixed, or held by exactly one slot. -/
structure Exact (U fix : Set β) (free : Finset β) (held : σ → Option β) : Prop where
  free_mem : ∀ b ∈ free, b ∈ U ∧ b ∉ fix
  held_mem : ∀ k b, held k = some b → b ∈ U ∧ b ∉ free ∧ b ∉ fix
  inj : ∀ k l b, held k = some b → held l = some b → k = l
  cover : ∀ b ∈ U, b ∈ free ∨ b ∈ fix ∨ ∃ k, held k = some b

namespace Exact

omit [DecidableEq β] [DecidableEq σ] in
theorem congr (h : Exact U fix free held) (hc : ∀ k, held' k = held k) : Exact U fix free held' := by
  obtain rfl : held' = held := funext hc
  exact h

omit [DecidableEq σ] in
/-- A free element is taken. -/
theorem take (h : Exact U fix free held) (hb : b ∈ free) : Exact U (insert b fix) (free.erase b) held where
  free_mem c hc := by
    obtain ⟨hne, hc⟩ := Finset.mem_erase.mp hc
    obtain ⟨hU, hf⟩ := h.free_mem c hc
    exact ⟨hU, fun hm => hm.elim hne hf⟩
  held_mem k c hk := by
    obtain ⟨hU, hfr, hf⟩ := h.held_mem k c hk
    refine ⟨hU, fun hm => hfr (Finset.mem_of_mem_erase hm), fun hm => hm.elim ?_ hf⟩
    rintro rfl
    exact hfr hb
  inj := h.inj
  cover c hc := by
    by_cases hcb : c = b
    · exact Or.inr (Or.inl (Or.inl hcb))
    · rcases h.cover c hc with hm | hm | hm
      · exact Or.inl (Finset.mem_erase.mpr ⟨hcb, hm⟩)
      · exact Or.inr (Or.inl (Or.inr hm))
      · exact Or.inr (Or.inr hm)

omit [DecidableEq σ] in
/-- An element that was taken is given back. -/
theorem give (h : Exact U (insert b fix) free held) (hU : b ∈ U) (hf : b ∉ fix) : Exact U fix (insert b free) held where
  free_mem c hc := by
    rcases Finset.mem_insert.mp hc with rfl | hc
    · exact ⟨hU, hf⟩
    · obtain ⟨hcU, hcf⟩ := h.free_mem c hc
      exact ⟨hcU, fun hm => hcf (Or.inr hm)⟩
  held_mem k c hk := by
    obtain ⟨hcU, hfr, hcf⟩ := h.held_mem k c hk
    refine ⟨hcU, fun hm => ?_, fun hm => hcf (Or.inr hm)⟩
    rcases Finset.mem_insert.mp hm with rfl | hm
    · exact hcf (Or.inl rfl)
    · exact hfr hm
  inj := h.inj
  cover c hc := by
    rcases h.cover c hc with hm | hm | hm
    · exact Or.inl (Finset.mem_insert_of_mem hm)
    · rcases hm with rfl | hm
      · exact Or.inl (Finset.mem_insert_self _ _)
      · exact Or.inr (Or.inl hm)
    · exact Or.inr (Or.inr hm)

omit [DecidableEq β] in
/-- An element that was taken goes into an empty slot. -/
theorem assign (h : Exact U (insert b fix) free held) (hU : b ∈ U) (hf : b ∉ fix) (hk : held k = none) :
    Exact U fix free (update held k (some b)) where
  free_mem c hc := by
    obtain ⟨hcU, hcf⟩ := h.free_mem c hc
    exact ⟨hcU, fun hm => hcf (Or.inr hm)⟩
  held_mem l c hl := by
    by_cases hlk : l = k
    · rw [hlk, update_self] at hl
      cases hl
      exact ⟨hU, fun hm => (h.free_mem b hm).2 (Or.inl rfl), hf⟩
    · rw [update_of_ne hlk] at hl
      obtain ⟨hcU, hfr, hcf⟩ := h.held_mem l c hl
      exact ⟨hcU, hfr, fun hm => hcf (Or.inr hm)⟩
  inj l m c hl hm := by
    by_cases hlk : l = k
    · by_cases hmk : m = k
      · rw [hlk, hmk]
      · rw [hlk, update_self] at hl
        rw [update_of_ne hmk] at hm
        cases hl
        exact absurd (Or.inl rfl) (h.held_mem m b hm).2.2
    · by_cases hmk : m = k
      · rw [update_of_ne hlk] at hl
        rw [hmk, update_self] at hm
        cases hm
        exact absurd (Or.inl rfl) (h.held_mem l b hl).2.2
      · rw [update_of_ne hlk] at hl
        rw [update_of_ne hmk] at hm
        exact h.inj l m c hl hm
  cover c hc := by
    rcases h.cover c hc with hm | hm | ⟨l, hl⟩
    · exact Or.inl hm
    · rcases hm with rfl | hm
      · exact Or.inr (Or.inr ⟨k, update_self _ _ _⟩)
      · exact Or.inr (Or.inl hm)
    · refine Or.inr (Or.inr ⟨l, ?_⟩)
      rw [update_of_ne (fun he => by rw [he, hk] at hl; nomatch hl), hl]

omit [DecidableEq β] in
/-- A slot drops what it holds. -/
theorem drop (h : Exact U fix free held) (hk : held k = some b) : Exact U (insert b fix) free (update held k none) where
  free_mem c hc := by
    obtain ⟨hcU, hcf⟩ := h.free_mem c hc
    refine ⟨hcU, fun hm => hm.elim ?_ hcf⟩
    rintro rfl
    exact (h.held_mem k c hk).2.1 hc
  held_mem l c hl := by
    by_cases hlk : l = k
    · rw [hlk, update_self] at hl
      nomatch hl
    · rw [update_of_ne hlk] at hl
      obtain ⟨hcU, hf, hcf⟩ := h.held_mem l c hl
      refine ⟨hcU, hf, fun hm => hm.elim ?_ hcf⟩
      rintro rfl
      exact hlk (h.inj l k c hl hk)
  inj l m c hl hm := by
    by_cases hlk : l = k
    · rw [hlk, update_self] at hl
      nomatch hl
    · by_cases hmk : m = k
      · rw [hmk, update_self] at hm
        nomatch hm
      · rw [update_of_ne hlk] at hl
        rw [update_of_ne hmk] at hm
        exact h.inj l m c hl hm
  cover c hc := by
    rcases h.cover c hc with hm | hm | ⟨l, hl⟩
    · exact Or.inl hm
    · exact Or.inr (Or.inl (Or.inr hm))
    · by_cases hlk : l = k
      · rw [hlk, hk] at hl
        exact Or.inr (Or.inl (Or.inl (Option.some.inj hl).symm))
      · exact Or.inr (Or.inr ⟨l, by rw [update_of_ne hlk, hl]⟩)

end Exact

/-! ## Slots that name numbers -/

/-- What slots hold that name numbers, where 0 names nothing. -/
def names (named : σ → Nat) (k : σ) : Option Nat := if named k = 0 then none else some (named k)

section Names

variable {named named' : σ → Nat} {U fix : Set Nat} {free : Finset Nat} {v : Nat}

omit [DecidableEq σ] in
theorem names_eq_some : names named k = some v ↔ named k = v ∧ v ≠ 0 := by
  unfold names
  constructor
  · intro h
    split at h
    · nomatch h
    · rename_i h0
      obtain rfl := Option.some.inj h
      exact ⟨rfl, h0⟩
  · rintro ⟨rfl, h0⟩
    exact if_neg h0

omit [DecidableEq σ] in
theorem Exact.congr_names (h : Exact U fix free (names named)) (hn : ∀ l, named' l = named l) :
    Exact U fix free (names named') := by
  obtain rfl : named' = named := funext hn
  exact h

/-- An element that was taken is named by a slot that named nothing. -/
theorem Exact.assign_name (h : Exact U (insert v fix) free (names named)) (hU : v ∈ U) (hf : v ∉ fix) (hv : v ≠ 0)
    (h0 : named k = 0) (hn : ∀ l, named' l = if l = k then v else named l) : Exact U fix free (names named') := by
  refine (h.assign hU hf (if_pos h0)).congr ?_
  intro l
  unfold names
  rw [hn l]
  by_cases hl : l = k
  · rw [hl, update_self, if_pos rfl, if_neg hv]
  · rw [update_of_ne hl, if_neg hl]

end Names

end Ownership
