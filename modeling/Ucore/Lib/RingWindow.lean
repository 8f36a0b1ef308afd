import Mathlib.Logic.Function.Basic

/-!
# A window on a sequence, in a ring of cells

A ring of `n` cells keeps the part of a growing sequence that has not been read: the element at position `j` is in the cell `j % n`.
`Holds` says so for the positions from `r` on. A new element may be stored as long as fewer than `n` are unread (`Holds.snoc`); at
`n` it would land in the cell of the oldest one.
-/

namespace RingWindow

open Function

variable {α : Type} {n r : Nat} {cell : Nat → α} {xs : List α}

/-- The cells hold the elements of `xs` from the position `r` on. -/
def Holds (n : Nat) (cell : Nat → α) (xs : List α) (r : Nat) : Prop := ∀ j x, r ≤ j → xs[j]? = some x → cell (j % n) = x

theorem holds_nil : Holds n cell [] 0 := by
  intro j x _ hx
  cases hx

/-- Two positions less than `n` apart have different cells. -/
theorem mod_ne_of_lt {i j : Nat} (hij : i < j) (hn : j < i + n) : i % n ≠ j % n := by
  intro h
  have hdvd : n ∣ j - i := Nat.dvd_of_mod_eq_zero (Nat.sub_mod_eq_zero_of_mod_eq h.symm)
  exact absurd (Nat.le_of_dvd (by omega) hdvd) (by omega)

/-- An element is stored while fewer than `n` are unread. -/
theorem Holds.snoc (h : Holds n cell xs r) (hr : xs.length < r + n) (x : α) :
    Holds n (update cell (xs.length % n) x) (xs ++ [x]) r := by
  intro j y hj hy
  rcases Nat.lt_trichotomy j xs.length with hlt | rfl | hgt
  · rw [List.getElem?_append_left hlt] at hy
    rw [update_of_ne (mod_ne_of_lt hlt (by omega))]
    exact h j y hj hy
  · rw [List.getElem?_concat_length] at hy
    rw [update_self]
    exact Option.some.inj hy
  · rw [List.getElem?_eq_none (by rw [List.length_append, List.length_singleton]; omega)] at hy
    cases hy

/-- An element has been read. -/
theorem Holds.advance (h : Holds n cell xs r) : Holds n cell xs (r + 1) :=
  fun j x hj hx => h j x (by omega) hx

end RingWindow
