import Mathlib.Data.List.TakeWhile

/-!
# Ordered spans

A list of items, each with a span of numbers from `lo` up to `hi`. The list is `Ordered` when the spans are not empty and each
ends before the next begins. Then a number lies in the span of one item at most, so that a search finds it if there is one
(`Ordered.find?_eq`), and a span that meets no other (`Apart`) has one place in the list, behind the items that begin no later
(`Ordered.insert`); whether it meets another can be told from its two neighbours there (`Ordered.apart_of_neighbours`).
-/

namespace Spans

open Function

variable {α : Type} {lo hi lo' hi' : α → Nat} {l : List α} {a b : α} {x : Nat}

/-- The number lies in the span of the item. -/
def Within (lo hi : α → Nat) (x : Nat) (a : α) : Prop := lo a ≤ x ∧ x < hi a

instance (lo hi : α → Nat) (x : Nat) : DecidablePred (Within lo hi x) := fun _ => inferInstanceAs (Decidable (_ ∧ _))

/-- The spans are not empty, and each ends before the next begins. -/
structure Ordered (lo hi : α → Nat) (l : List α) : Prop where
  nonempty : ∀ a ∈ l, lo a < hi a
  apart : l.Pairwise (fun a b => hi a ≤ lo b)

/-- One of the two spans ends before the other begins. -/
def Apart (lo hi : α → Nat) (a b : α) : Prop := hi a ≤ lo b ∨ hi b ≤ lo a

theorem Apart.symm (h : Apart lo hi a b) : Apart lo hi b a := Or.symm h

/-- Spans that are apart stay so when they get smaller. -/
theorem Apart.shrink (h : Apart lo hi a b) (ha : lo a ≤ lo' a ∧ hi' a ≤ hi a) (hb : lo b ≤ lo' b ∧ hi' b ≤ hi b) :
    Apart lo' hi' a b := by
  rcases h with h | h
  · exact Or.inl (by omega)
  · exact Or.inr (by omega)

/-- The rest of ordered spans. -/
theorem Ordered.cons (h : Ordered lo hi (a :: l)) : Ordered lo hi l :=
  ⟨fun b hb => h.nonempty b (List.mem_cons_of_mem _ hb), (List.pairwise_cons.mp h.apart).2⟩

section

variable (h : Ordered lo hi l)
include h

/-- Some of ordered spans, in their order. -/
theorem Ordered.sublist {l' : List α} (hs : l'.Sublist l) : Ordered lo hi l' :=
  ⟨fun a ha => h.nonempty a (hs.subset ha), h.apart.sublist hs⟩

/-- Only the bounds of the spans themselves matter. -/
theorem Ordered.congr (hc : ∀ a ∈ l, lo' a = lo a ∧ hi' a = hi a) : Ordered lo' hi' l := by
  refine ⟨?_, ?_⟩
  · intro a ha
    rw [(hc a ha).1, (hc a ha).2]
    exact h.nonempty a ha
  · refine h.apart.imp_of_mem ?_
    intro a b ha hb hab
    rw [(hc a ha).2, (hc b hb).1]
    exact hab

/-- Every span made smaller, but not empty. -/
theorem Ordered.shrink (hc : ∀ a ∈ l, lo a ≤ lo' a ∧ lo' a < hi' a ∧ hi' a ≤ hi a) : Ordered lo' hi' l := by
  refine ⟨fun a ha => (hc a ha).2.1, ?_⟩
  refine h.apart.imp_of_mem ?_
  intro a b ha hb hab
  have h1 := (hc a ha).2.2
  have h2 := (hc b hb).1
  omega

/-- The items begin in increasing order. -/
theorem Ordered.increasing : l.Pairwise (fun a b => lo a < lo b) := by
  refine h.apart.imp_of_mem ?_
  intro a b ha _ hab
  exact (h.nonempty a ha).trans_le hab

/-- Ordered spans are distinct. -/
theorem Ordered.nodup : l.Nodup := by
  refine h.increasing.imp ?_
  rintro a b hab rfl
  exact lt_irrefl _ hab

/-- Two spans of the list that meet are one. -/
theorem Ordered.eq_of_meet (ha : a ∈ l) (hb : b ∈ l) (hab : lo a < hi b) (hba : lo b < hi a) : a = b := by
  induction l with
  | nil => cases ha
  | cons c l ih =>
    have hc := (List.pairwise_cons.mp h.apart).1
    rcases List.mem_cons.mp ha with rfl | ha'
    · rcases List.mem_cons.mp hb with rfl | hb'
      · rfl
      · have := hc b hb'
        omega
    · rcases List.mem_cons.mp hb with rfl | hb'
      · have := hc a ha'
        omega
      · exact ih h.cons ha' hb'

/-- Of two spans of the list one ends before the other begins. -/
theorem Ordered.apart_of_ne (ha : a ∈ l) (hb : b ∈ l) (hne : a ≠ b) : hi a ≤ lo b ∨ hi b ≤ lo a := by
  by_contra hno
  rw [not_or, Nat.not_le, Nat.not_le] at hno
  exact hne (h.eq_of_meet ha hb hno.2 hno.1)

/-- No two spans have a point in common. -/
theorem Ordered.eq_of_within (ha : a ∈ l) (hb : b ∈ l) (hxa : Within lo hi x a) (hxb : Within lo hi x b) : a = b :=
  h.eq_of_meet ha hb (hxa.1.trans_lt hxb.2) (hxb.1.trans_lt hxa.2)

/-- The search for the item that holds a number finds it. -/
theorem Ordered.find?_eq (ha : a ∈ l) (hx : Within lo hi x a) : l.find? (fun b => decide (Within lo hi x b)) = some a := by
  cases hf : l.find? (fun b => decide (Within lo hi x b)) with
  | none =>
    rw [List.find?_eq_none] at hf
    exact absurd (by simpa using hx) (hf a ha)
  | some b =>
    have hb := List.find?_some hf
    rw [h.eq_of_within (List.mem_of_find?_eq_some hf) ha (by simpa using hb) hx]

/-- The items from the first on that does not begin before `x` do not begin before it. -/
theorem Ordered.le_of_mem_dropWhile (ha : a ∈ l.dropWhile (fun b => decide (lo b < x))) : x ≤ lo a := by
  cases hd : l.dropWhile (fun b => decide (lo b < x)) with
  | nil =>
    rw [hd] at ha
    cases ha
  | cons c r =>
    have hc : x ≤ lo c := by
      have := List.head_dropWhile_not (fun b => decide (lo b < x)) (by rw [hd]; exact List.cons_ne_nil _ _)
      simpa only [hd, List.head_cons, decide_eq_false_iff_not, Nat.not_lt] using this
    have hinc := h.increasing.sublist (List.dropWhile_sublist (fun b => decide (lo b < x)))
    rw [hd] at ha hinc
    rcases List.mem_cons.mp ha with rfl | ha
    · exact hc
    · exact hc.trans ((List.pairwise_cons.mp hinc).1 a ha).le

/-- The list with a span that meets no other put in its place. -/
theorem Ordered.insert (hne : lo a < hi a) (hf : ∀ b ∈ l, hi b ≤ lo a ∨ hi a ≤ lo b) :
    Ordered lo hi (l.takeWhile (fun b => decide (lo b ≤ lo a)) ++ a :: l.dropWhile (fun b => decide (lo b ≤ lo a))) ∧
      (∀ b ∈ l.takeWhile (fun b => decide (lo b ≤ lo a)), hi b ≤ lo a) ∧
      ∀ b ∈ l.dropWhile (fun b => decide (lo b ≤ lo a)), hi a ≤ lo b := by
  have hbe : ∀ b ∈ l.takeWhile (fun b => decide (lo b ≤ lo a)), hi b ≤ lo a := by
    intro b hb
    have hle := List.mem_takeWhile_imp hb
    rw [decide_eq_true_iff] at hle
    rcases hf b (List.takeWhile_subset _ hb) with h' | h'
    · exact h'
    · omega
  have ha : ∀ b ∈ l.dropWhile (fun b => decide (lo b ≤ lo a)), hi a ≤ lo b := by
    intro b hb
    have hbl := (List.dropWhile_sublist _).subset hb
    have hgt : lo a < lo b := h.le_of_mem_dropWhile (by simpa only [Nat.lt_succ_iff] using hb)
    rcases hf b hbl with h' | h'
    · have := h.nonempty b hbl
      omega
    · exact h'
  refine ⟨⟨?_, ?_⟩, hbe, ha⟩
  · intro b hb
    rcases List.mem_append.mp hb with hb | hb
    · exact h.nonempty b (List.takeWhile_subset _ hb)
    · rcases List.mem_cons.mp hb with rfl | hb
      · exact hne
      · exact h.nonempty b ((List.dropWhile_sublist _).subset hb)
  · rw [List.pairwise_append]
    refine ⟨h.apart.sublist (List.takeWhile_sublist _), ?_, ?_⟩
    · rw [List.pairwise_cons]
      exact ⟨ha, h.apart.sublist (List.dropWhile_sublist _)⟩
    · intro b hb c hc
      rcases List.mem_cons.mp hc with rfl | hc
      · exact hbe b hb
      · exact (hbe b hb).trans ((Nat.le_of_lt hne).trans (ha c hc))

/-- A span that meets neither the item before its place in the list nor the item behind it meets no item. -/
theorem Ordered.apart_of_neighbours (p : α → Bool) (hpr : ∀ b, (l.takeWhile p).getLast? = some b → hi b ≤ lo a)
    (hn : ∀ b, (l.dropWhile p).head? = some b → hi a ≤ lo b) : ∀ b ∈ l, Apart lo hi b a := by
  intro b hb
  rw [← List.takeWhile_append_dropWhile (l := l), List.mem_append] at hb
  rcases hb with hb | hb
  · refine Or.inl ?_
    have hp := h.sublist (List.takeWhile_sublist p)
    rcases List.eq_nil_or_concat (l.takeWhile p) with hnil | ⟨pre, c, hc⟩
    · rw [hnil] at hb
      cases hb
    · have hl : hi c ≤ lo a := hpr c (by simp [hc])
      rw [hc, List.concat_eq_append] at hb hp
      rcases List.mem_append.mp hb with hb | hb
      · have hbc := (List.pairwise_append.mp hp.apart).2.2 b hb c (List.mem_singleton_self c)
        have := hp.nonempty c (by simp)
        omega
      · rw [List.mem_singleton.mp hb]
        exact hl
  · refine Or.inr ?_
    have hpost := h.sublist (List.dropWhile_sublist p)
    cases hd : l.dropWhile p with
    | nil =>
      rw [hd] at hb
      cases hb
    | cons c post =>
      have hf : hi a ≤ lo c := hn c (by rw [hd, List.head?_cons])
      rw [hd] at hb hpost
      rcases List.mem_cons.mp hb with rfl | hb
      · exact hf
      · have hcb := (List.pairwise_cons.mp hpost.increasing).1 b hb
        omega

/-- One span of the list made longer at its end. -/
theorem Ordered.extend [DecidableEq α] (ha : a ∈ l) {e : Nat} (he : lo a < e)
    (hf : ∀ b ∈ l, b ≠ a → hi a ≤ lo b → e ≤ lo b) : Ordered lo (update hi a e) l := by
  refine ⟨?_, ?_⟩
  · intro b hb
    by_cases hba : b = a
    · subst hba
      rw [update_self]
      exact he
    · rw [update_of_ne hba]
      exact h.nonempty b hb
  · have hnd := h.nodup
    refine (h.apart.and hnd).imp_of_mem ?_
    rintro b c - hc ⟨hbc, hne⟩
    by_cases hba : b = a
    · subst hba
      rw [update_self]
      exact hf c hc (Ne.symm hne) hbc
    · rw [update_of_ne hba]
      exact hbc

end

end Spans
