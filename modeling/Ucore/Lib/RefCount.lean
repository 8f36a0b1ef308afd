import Mathlib.Algebra.GroupWithZero.Nat
import Mathlib.Algebra.Group.Pi.Basic
import Mathlib.Algebra.Order.Group.Nat
import Mathlib.Data.Finset.Card

/-!
# Counted references

Holders `H` that refer each to at most one object of `N`, and a count for each object. `Backed holds count extra` says that the count
of an object is at least the number of its holders and `extra` more. An operation that takes and gives back references moves `extra`
(`Backed.move`); a holder that lets go of an object leaves a reference (`Backed.drop`), and one that gets hold of an object uses one
(`Backed.take`).
-/

namespace RefCount

open Function

variable {H N : Type} [DecidableEq H] [DecidableEq N] {holds : H → Option N} {count count' extra extra' a b : N → Nat} {h : H}
  {n : N}

/-- Every object has a reference for each of its holders, and `extra` more. -/
def Backed (holds : H → Option N) (count extra : N → Nat) : Prop :=
  ∀ (n : N) (S : Finset H), (∀ h ∈ S, holds h = some n) → S.card + extra n ≤ count n

omit [DecidableEq H] [DecidableEq N]

theorem Backed.mono (hb : Backed holds count extra) (hle : ∀ n, extra' n ≤ extra n) : Backed holds count extra' :=
  fun n S hS => (Nat.add_le_add_left (hle n) _).trans (hb n S hS)

/-- An object with a holder has a reference. -/
theorem Backed.pos (hb : Backed holds count extra) (hh : holds h = some n) : 1 + extra n ≤ count n := by
  have := hb n {h} fun x hx => Finset.mem_singleton.mp hx ▸ hh
  rwa [Finset.card_singleton] at this

/-- References `a` are given back and `b` taken. -/
theorem Backed.move (hb : Backed holds count (extra + a)) (hc : ∀ n, count' n + a n = count n + b n) :
    Backed holds count' (extra + b) := by
  intro n S hS
  have hle : S.card + (extra n + a n) ≤ count n := hb n S hS
  have := hc n
  change S.card + (extra n + b n) ≤ count' n
  omega

variable [DecidableEq H] [DecidableEq N]

/-- A holder lets go of its object. -/
theorem Backed.drop (hb : Backed holds count extra) (hh : holds h = some n) :
    Backed (update holds h none) count (extra + Pi.single n 1) := by
  intro m S hS
  have hmem : h ∉ S := by
    intro hc
    have := hS h hc
    rw [update_self] at this
    nomatch this
  have hold : ∀ x ∈ S, holds x = some m := by
    intro x hx
    have hne : x ≠ h := fun hc => hmem (hc ▸ hx)
    have := hS x hx
    rwa [update_of_ne hne] at this
  change S.card + (extra m + (Pi.single n 1 : N → Nat) m) ≤ count m
  by_cases hm : m = n
  · -- the holder is one more of those that the object had
    have hins := hb n (insert h S) fun x hx => (Finset.mem_insert.mp hx).elim (fun hc => hc ▸ hh) fun hc => hm ▸ hold x hc
    rw [Finset.card_insert_of_notMem hmem] at hins
    rw [hm, Pi.single_eq_same]
    omega
  · rw [Pi.single_eq_of_ne hm]
    exact hb m S hold

/-- A holder that has none gets an object. -/
theorem Backed.take (hb : Backed holds count (extra + Pi.single n 1)) : Backed (update holds h (some n)) count extra := by
  intro m S hS
  have hold : ∀ x ∈ S.erase h, holds x = some m := by
    intro x hx
    obtain ⟨hne, hmem⟩ := Finset.mem_erase.mp hx
    have := hS x hmem
    rwa [update_of_ne hne] at this
  have hle : (S.erase h).card + (extra m + (Pi.single n 1 : N → Nat) m) ≤ count m := hb m _ hold
  by_cases hmem : h ∈ S
  · have hm : n = m := by
      have := hS h hmem
      rw [update_self] at this
      exact Option.some.inj this
    rw [← hm, Pi.single_eq_same] at hle
    have hc := Finset.card_erase_add_one hmem
    rw [← hm]
    omega
  · rw [Finset.erase_eq_of_notMem hmem] at hle
    omega

end RefCount
