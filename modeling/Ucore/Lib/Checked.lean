import Mathlib.Logic.Function.Basic

/-!
# Computations that an assertion may stop

A computation that can be stopped by a failed assertion is a value of `Except ε α`: the error names the assertion. `ensure` is
the assertion itself. The lemmas below take a sequence of such steps apart (`bind_eq_ok`) and put it together again
(`bind_ok`), so that no proof has to unfold the monad.
-/

namespace Checked

variable {ε α β ε' : Type} {x : Except ε α} {c : Prop}

/-- The assertion `c`, which stops the computation with `e` where it does not hold. -/
def ensure (c : Prop) [Decidable c] (e : ε) : Except ε Unit := if c then .ok () else .error e

/-- A sequence of two steps ends well exactly when the first does and the second does from there. -/
theorem bind_eq_ok {f : α → Except ε β} {b : β} : (x >>= f) = .ok b ↔ ∃ a, x = .ok a ∧ f a = .ok b := by
  cases x with
  | error e => simp [bind, Except.bind]
  | ok a => simp [bind, Except.bind]

@[simp] theorem bind_ok (a : α) (f : α → Except ε β) : (Except.ok a >>= f) = f a := rfl

@[simp] theorem bind_error (e : ε) (f : α → Except ε β) : ((Except.error e : Except ε α) >>= f) = .error e := rfl

@[simp] theorem map_ok (a : α) (f : α → β) : f <$> (Except.ok a : Except ε α) = .ok (f a) := rfl

@[simp] theorem mapError_ok (a : α) (f : ε → ε') : (Except.ok a : Except ε α).mapError f = .ok a := rfl

@[simp] theorem mapError_error (e : ε) (f : ε → ε') : (Except.error e : Except ε α).mapError f = .error (f e) := rfl

/-- Renaming the errors changes no result. -/
theorem mapError_eq_ok {f : ε → ε'} {a : α} : x.mapError f = .ok a ↔ x = .ok a := by
  cases x with
  | error e => simp
  | ok b => simp

@[simp] theorem pure_eq_ok (a : α) : (pure a : Except ε α) = .ok a := rfl

@[simp] theorem ensure_of [Decidable c] (h : c) (e : ε) : ensure c e = .ok () := if_pos h

@[simp] theorem ensure_eq_ok [Decidable c] {e : ε} {u : Unit} : ensure c e = .ok u ↔ c := by
  unfold ensure
  by_cases h : c
  · simp [h]
  · simp [h]

/-- An assertion that fails. -/
theorem ensure_of_not [Decidable c] (h : ¬c) (e : ε) : ensure c e = .error e := if_neg h

/-- An assertion followed by a computation that ends well: the assertion held. -/
theorem ensure_bind_eq_ok [Decidable c] {e : ε} {f : Unit → Except ε β} {b : β} :
    (ensure c e >>= f) = .ok b ↔ c ∧ f () = .ok b := by
  rw [bind_eq_ok]
  constructor
  · rintro ⟨⟨⟩, h, hf⟩
    exact ⟨ensure_eq_ok.mp h, hf⟩
  · rintro ⟨h, hf⟩
    exact ⟨(), ensure_of h e, hf⟩

/-! ## Return values -/

/-- A call with a return value, and a second one that follows where the first returned 0. -/
def onZero (x : Except ε (Int × α)) (f : α → Except ε (Int × α)) : Except ε (Int × α) :=
  x >>= fun r => if r.1 ≠ 0 then .ok r else f r.2

/-- A call that returned 0 is gone on from. -/
theorem onZero_zero (a : α) (f : α → Except ε (Int × α)) : onZero (.ok (0, a)) f = f a := rfl

/-- A call that failed ends the sequence. -/
theorem onZero_of_ne {r : Int × α} (hr : r.1 ≠ 0) (f : α → Except ε (Int × α)) : onZero (.ok r) f = .ok r := if_pos hr

/-- The computation ends with a result that passes the test. -/
def okWith (P : α → Bool) : Except ε α → Bool
  | .ok a => P a
  | .error _ => false

/-- What a successful evaluation says. -/
theorem exists_of_okWith {P : α → Bool} (h : okWith P x = true) : ∃ a, x = .ok a ∧ P a = true := by
  cases x with
  | error e => cases h
  | ok a => exact ⟨a, rfl, h⟩

/-- The result of a computation that ends without an error. -/
def okGet : (x : Except ε α) → okWith (fun _ => true) x = true → α
  | .ok a, _ => a

/-- A computation that ends without an error has its result. -/
theorem eq_ok_okGet (h : okWith (fun _ => true) x = true) : x = .ok (okGet x h) := by
  cases x with
  | error e => cases h
  | ok a => rfl

/-- A call with a return value, and the state after it. -/
theorem eq_ok_pair {y : Except ε (β × α)} {b : β} (h : okWith (fun _ => true) y = true) (hb : (okGet y h).1 = b) :
    y = .ok (b, (okGet y h).2) := by
  rw [← hb]
  exact eq_ok_okGet h

/-- The computation ends with this error. -/
def errorIs [DecidableEq ε] (e : ε) : Except ε α → Bool
  | .ok _ => false
  | .error e' => decide (e' = e)

/-- What a failed evaluation says. -/
theorem eq_error_of_errorIs [DecidableEq ε] {e : ε} (h : errorIs e x = true) : x = .error e := by
  cases x with
  | error e' => exact congrArg Except.error (of_decide_eq_true h)
  | ok a => cases h

/-- Nothing follows. -/
theorem onZero_return (x : Except ε (Int × α)) : (onZero x fun a => .ok (0, a)) = x := by
  cases x with
  | error e => rfl
  | ok r =>
    obtain ⟨ret, a⟩ := r
    by_cases hr : ret = 0
    · rw [hr, onZero_zero]
    · rw [onZero_of_ne hr]

/-- Sequences of calls may be grouped. -/
theorem onZero_assoc (x : Except ε (Int × α)) (f g : α → Except ε (Int × α)) :
    onZero (onZero x f) g = onZero x fun a => onZero (f a) g := by
  cases x with
  | error e => rfl
  | ok r =>
    obtain ⟨ret, a⟩ := r
    by_cases hr : ret = 0
    · rw [hr, onZero_zero, onZero_zero]
    · rw [onZero_of_ne hr, onZero_of_ne hr, onZero_of_ne hr]

/-! ## What holds of the result -/

/-- The computation ends with a result of which `P` holds, or is stopped by one of the errors `E`. -/
def Within (E : ε → Prop) (x : Except ε α) (P : α → Prop) : Prop :=
  match x with
  | .ok a => P a
  | .error e => E e

namespace Within

variable {E : ε → Prop} {P : α → Prop} {Q : β → Prop} {x : Except ε α} {f : α → Except ε β}

theorem of_eq_ok {a : α} (h : x = .ok a) (hP : P a) : Within E x P := h ▸ hP

theorem of_eq_error {e : ε} (h : x = .error e) (hE : E e) : Within E x P := h ▸ hE

/-- Two computations one after the other. -/
theorem bind (h : Within E x P) (hf : ∀ a, P a → Within E (f a) Q) : Within E (x >>= f) Q := by
  cases x with
  | error e => exact h
  | ok a => exact hf a h

/-- Less may be said of the result. -/
theorem mono {P' : α → Prop} (h : Within E x P) (hP : ∀ a, P a → P' a) : Within E x P' := by
  cases x with
  | error e => exact h
  | ok a => exact hP a h

/-- More errors may be allowed. -/
theorem weaken {E' : ε → Prop} (h : Within E x P) (hE : ∀ e, E e → E' e) : Within E' x P := by
  cases x with
  | error e => exact hE e h
  | ok a => exact h

/-- An assertion, whose failure is one of the errors, and then a computation. -/
theorem ensure_bind {c : Prop} [Decidable c] {e : ε} {g : Unit → Except ε β} (he : ¬c → E e) (hg : c → Within E (g ()) Q) :
    Within E (ensure c e >>= g) Q := by
  by_cases hc : c
  · rw [ensure_of hc]
    exact hg hc
  · rw [ensure_of_not hc]
    exact he hc

/-- A second call that follows where the first returned 0. -/
theorem onZero {y : Except ε (Int × α)} {g : α → Except ε (Int × α)} {R S : Int × α → Prop} (h : Within E y R)
    (hf : ∀ r, R r → r.1 ≠ 0 → S r) (hg : ∀ a, R (0, a) → Within E (g a) S) : Within E (Checked.onZero y g) S := by
  refine h.bind ?_
  rintro ⟨ret, a⟩ ha
  split
  · rename_i hr
    exact hf _ ha hr
  · rename_i hr
    obtain rfl : ret = 0 := not_not.mp hr
    exact hg a ha

/-- What is said of the result. -/
theorem ok {a : α} (h : Within E x P) (hx : x = .ok a) : P a := by
  rwa [hx] at h

/-- Where no error meets `E`, there is a result. -/
theorem get (h : Within E x P) (hE : ∀ e, ¬E e) : ∃ a, x = .ok a ∧ P a := by
  cases x with
  | error e => exact absurd h (hE e)
  | ok a => exact ⟨a, rfl, h⟩

end Within

end Checked
