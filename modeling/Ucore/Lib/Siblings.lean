import Mathlib.Data.List.Nodup

/-!
# Lists linked both ways, ended by null

The items of a list are linked by `next`, from a head that is kept elsewhere, and back by `prev`; both end in `none`. `Seg` follows the
forward links from one pointer to another, `Back` says where the back links of the items go, and `Linked` is a whole list. An item
is pushed in front, and taken out of any place: at the front the head moves on, elsewhere the item before it is linked past it.
-/

namespace Siblings

open Function

variable {α : Type} {next next' prev prev' : α → Option α} {head mid tail y : Option α} {x : α} {l a b : List α}

/-- Following `next` from `head`, the items of the list come before `tail`. -/
def Seg (next : α → Option α) : Option α → List α → Option α → Prop
  | head, [], tail => head = tail
  | head, x :: l, tail => head = some x ∧ Seg next (next x) l tail

/-- The back link of each item goes to the item before it, that of the first one to `y`. -/
def Back (prev : α → Option α) : Option α → List α → Prop
  | _, [] => True
  | y, x :: l => prev x = y ∧ Back prev (some x) l

/-- The list from `head` on. -/
structure Linked (next prev : α → Option α) (head : Option α) (l : List α) : Prop where
  seg : Seg next head l none
  back : Back prev none l

/-- Only the links of the elements themselves matter. -/
theorem Seg.congr (h : Seg next head l tail) (heq : ∀ x ∈ l, next' x = next x) : Seg next' head l tail := by
  induction l generalizing head with
  | nil => exact h
  | cons x l ih =>
    refine ⟨h.1, ?_⟩
    rw [heq x List.mem_cons_self]
    exact ih h.2 fun z hz => heq z (List.mem_cons_of_mem x hz)

theorem Back.congr (h : Back prev y l) (heq : ∀ x ∈ l, prev' x = prev x) : Back prev' y l := by
  induction l generalizing y with
  | nil => trivial
  | cons x l ih =>
    refine ⟨?_, ih h.2 fun z hz => heq z (List.mem_cons_of_mem x hz)⟩
    rw [heq x List.mem_cons_self]
    exact h.1

/-- A path in two parts. -/
theorem seg_append : Seg next head (a ++ b) tail ↔ ∃ mid, Seg next head a mid ∧ Seg next mid b tail := by
  induction a generalizing head with
  | nil =>
    constructor
    · exact fun h => ⟨head, rfl, h⟩
    · rintro ⟨mid, rfl, h⟩
      exact h
  | cons x a ih =>
    constructor
    · intro h
      obtain ⟨mid, h1, h2⟩ := ih.mp h.2
      exact ⟨mid, ⟨h.1, h1⟩, h2⟩
    · rintro ⟨mid, h1, h2⟩
      exact ⟨h1.1, ih.mpr ⟨mid, h1.2, h2⟩⟩

/-- The links back of two parts. -/
theorem back_append : Back prev y (a ++ b) ↔ Back prev y a ∧ Back prev (a.getLast?.or y) b := by
  induction a generalizing y with
  | nil => exact ⟨fun h => ⟨trivial, h⟩, fun h => h.2⟩
  | cons x a ih =>
    have hl : (x :: a).getLast?.or y = a.getLast?.or (some x) := by
      rw [List.getLast?_cons]
      cases a.getLast? <;> rfl
    rw [hl]
    constructor
    · intro h
      obtain ⟨h1, h2⟩ := ih.mp h.2
      exact ⟨⟨h.1, h1⟩, h2⟩
    · intro ⟨h1, h2⟩
      exact ⟨h1.1, ih.mpr ⟨h1.2, h2⟩⟩

/-- The item at the head of a list is one of the list. -/
theorem Seg.head_mem (h : Seg next head l none) {o : α} (ho : head = some o) : o ∈ l := by
  cases l with
  | nil => exact nomatch ho.symm.trans h
  | cons z l =>
    cases ho.symm.trans h.1
    exact List.mem_cons_self

/-- The links of an item of a list go to items of the list. -/
theorem Seg.next_mem (h : Seg next head l none) (hx : x ∈ l) {o : α} (ho : next x = some o) : o ∈ l := by
  obtain ⟨a, b, rfl⟩ := List.append_of_mem hx
  obtain ⟨mid, -, h2⟩ := seg_append.mp h
  exact List.mem_append_right a (List.mem_cons_of_mem x (h2.2.head_mem ho))

/-- No item is behind itself. -/
theorem Seg.next_ne (h : Seg next head l none) (hl : l.Nodup) (hx : x ∈ l) : next x ≠ some x := by
  intro hs
  obtain ⟨a, b, rfl⟩ := List.append_of_mem hx
  obtain ⟨mid, -, h2⟩ := seg_append.mp h
  exact (List.nodup_cons.mp (List.nodup_append.mp hl).2.1).1 (h2.2.head_mem hs)

/-- An element links back to the one before it. -/
theorem Back.prev_eq (h : Back prev none (a ++ x :: b)) : prev x = a.getLast? := by
  obtain ⟨-, h2⟩ := back_append.mp h
  rw [h2.1, Option.or_none]

theorem Back.prev_mem (h : Back prev none l) (hx : x ∈ l) {z : α} (hz : prev x = some z) : z ∈ l := by
  obtain ⟨a, b, rfl⟩ := List.append_of_mem hx
  rw [h.prev_eq] at hz
  exact List.mem_append_left _ (List.mem_of_getLast? hz)

section

variable [DecidableEq α]

/-- The back links after an item was pushed in front of the list that starts at `head`. -/
def pushPrev (prev : α → Option α) (head : Option α) (x : α) : α → Option α :=
  match head with
  | none => update prev x none
  | some o => update (update prev x none) o (some x)

/-- Of the list behind it, the item in front gets a new back link. -/
theorem Back.relink (h : Back prev y l) (hs : Seg next head l none) (hl : l.Nodup) (y' : Option α) : Back (match head with
      | none => prev
      | some o => update prev o y') y' l := by
  cases l with
  | nil => trivial
  | cons z l =>
    have hz : head = some z := hs.1
    subst hz
    refine ⟨update_self .., h.2.congr fun w hw => update_of_ne ?_ ..⟩
    exact ne_of_mem_of_not_mem hw (List.nodup_cons.mp hl).1

theorem pushPrev_some (prev : α → Option α) (o x : α) : pushPrev prev (some o) x = update (update prev x none) o (some x) := rfl

theorem pushPrev_of_ne {z : α} (hx : z ≠ x) (hh : head ≠ some z) : pushPrev prev head x z = prev z := by
  cases head with
  | none => exact update_of_ne hx ..
  | some o =>
    have hz : z ≠ o := fun hzo => hh (congrArg some hzo.symm)
    rw [pushPrev_some, update_of_ne hz, update_of_ne hx]

/-- An element is pushed to the front. -/
theorem Linked.push (h : Linked next prev head l) (hl : l.Nodup) (hx : x ∉ l) :
    Linked (update next x head) (pushPrev prev head x) (some x) (x :: l) := by
  have hne : ∀ z ∈ l, z ≠ x := fun z hz => ne_of_mem_of_not_mem hz hx
  have hb : Back (update prev x none) none l := h.back.congr fun z hz => update_of_ne (hne z hz) ..
  refine ⟨⟨rfl, ?_⟩, ?_, ?_⟩
  · rw [update_self]
    exact h.seg.congr fun z hz => update_of_ne (hne z hz) ..
  · cases hh : head with
    | none => exact update_self ..
    | some o =>
      have ho : x ≠ o := fun hc => hx (hc ▸ h.seg.head_mem hh)
      rw [pushPrev_some, update_of_ne ho, update_self]
  · have hr := hb.relink h.seg hl (some x)
    cases head with
    | none =>
      cases l with
      | nil => trivial
      | cons z l => exact nomatch h.seg.1
    | some o => exact hr

/-- An item is taken out: the one behind it is linked back past it, and the one before it, or the head, is linked past it. -/
theorem Linked.remove (h : Linked next prev head l) (hl : l.Nodup) (hx : x ∈ l) : Linked
      (match prev x with
        | some z => update next z (next x)
        | none => next)
      (match next x with
        | none => prev
        | some o => update prev o (prev x))
      (match prev x with
        | some _ => head
        | none => next x)
      (l.erase x) := by
  obtain ⟨a, b, rfl⟩ := List.append_of_mem hx
  obtain ⟨ha, hb, hab⟩ := List.nodup_append.mp hl
  have hxa : x ∉ a := fun hm => hab x hm x List.mem_cons_self rfl
  rw [List.erase_append_right _ hxa, List.erase_cons_head]
  obtain ⟨mid, hseg1, hse2⟩ := seg_append.mp h.seg
  obtain ⟨hback1, hback2⟩ := back_append.mp h.back
  have hp : prev x = a.getLast? := h.back.prev_eq
  have hbnodup := (List.nodup_cons.mp hb).2
  -- the back links of the items behind, with the first one linked past the item
  have hbehind := hback2.2.relink hse2.2 hbnodup (prev x)
  have hbe : Back (match next x with
      | none => prev
      | some o => update prev o (prev x)) none a := by
    cases ho : next x with
    | none => exact hback1
    | some o =>
      refine hback1.congr fun z hz => update_of_ne ?_ ..
      exact hab z hz o (List.mem_cons_of_mem x (hse2.2.head_mem ho))
  refine ⟨?_, back_append.mpr ⟨hbe, ?_⟩⟩
  · rcases List.eq_nil_or_concat a with rfl | ⟨a, z, rfl⟩
    · rw [hp]
      exact hse2.2
    · rw [List.concat_eq_append, List.getLast?_concat] at hp
      rw [hp]
      rw [List.concat_eq_append] at hseg1 ha hab ⊢
      obtain ⟨mid', hs1, hs2⟩ := seg_append.mp hseg1
      have hza : z ∉ a := fun hm => (List.nodup_append.mp ha).2.2 z hm z List.mem_cons_self rfl
      have hzb : z ∉ b := fun hm => hab z (by simp) z (List.mem_cons_of_mem x hm) rfl
      rw [List.append_assoc]
      refine seg_append.mpr ⟨mid', hs1.congr fun w hw => update_of_ne (ne_of_mem_of_not_mem hw hza) .., hs2.1, ?_⟩
      change Seg _ (update next z (next x) z) b none
      rw [update_self]
      exact hse2.2.congr fun w hw => update_of_ne (ne_of_mem_of_not_mem hw hzb) ..
  · rw [Option.or_none, ← hp]
    exact hbehind

end

end Siblings
