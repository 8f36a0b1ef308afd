import Ucore.Lib.Ring

/-!
# Doubly linked lists with a head

A head and the entries of a list, linked in a circle in both directions (`Chain`). An entry goes in right behind the head
(`Chain.addAfter`) and out from the other end (`Chain.delLast`).
-/

namespace ListHead

open Rings Function

variable {α : Type} [DecidableEq α]

/-- The links of the entries. -/
structure Links (α : Type) where
  next : α → α
  prev : α → α

namespace Links

/-- An entry that is linked to itself. -/
def init (elm : α) (l : Links α) : Links α := ⟨update l.next elm elm, update l.prev elm elm⟩

/-- An entry is linked in between two others. -/
def add (elm prev next : α) (l : Links α) : Links α where
  next := update (update l.next prev elm) elm next
  prev := update (update l.prev next elm) elm prev

/-- An entry is linked in behind another. -/
def addAfter (listelm elm : α) (l : Links α) : Links α := l.add elm listelm (l.next listelm)

/-- An entry is linked out. -/
def del (elm : α) (l : Links α) : Links α where
  next := update l.next (l.prev elm) (l.next elm)
  prev := update l.prev (l.next elm) (l.prev elm)

end Links

/-- The entries that the links run through from the head, in both directions. -/
structure Chain (l : Links α) (head : α) (es : List α) : Prop where
  next : Linked l.next head es head
  prev : Linked l.prev head es.reverse head
  nodup : (head :: es).Nodup

variable {l : Links α} {head e : α} {es : List α}

/-! ## Links that change -/

omit [DecidableEq α] in
/-- Only the links of the start and of what is passed matter. -/
theorem linked_congr {f g : α → α} {a a' b : α} {es : List α} (h : Linked f a es b) (ha : g a' = f a) (hes : ∀ x ∈ es, g x = f x) :
    Linked g a' es b := by
  induction es generalizing a a' with
  | nil => exact ha.trans h
  | cons x es ih =>
    obtain ⟨hx, h⟩ := h
    exact ⟨ha.trans hx, ih h (hes x List.mem_cons_self) fun y hy => hes y (List.mem_cons_of_mem x hy)⟩

/-! ## The list -/

/-- A new list is empty. -/
theorem chain_init (l : Links α) (head : α) : Chain (l.init head) head [] where
  next := by
    change update l.next head head head = head
    rw [update_self]
  prev := by
    change update l.prev head head head = head
    rw [update_self]
  nodup := List.nodup_singleton head

omit [DecidableEq α] in
/-- The head of a list is linked to itself only where the list is empty. -/
theorem Chain.eq_nil (h : Chain l head es) (hn : l.next head = head) : es = [] := by
  cases es with
  | nil => rfl
  | cons x es =>
    obtain rfl : head = x := hn.symm.trans h.next.1
    exact absurd List.mem_cons_self (List.nodup_cons.mp h.nodup).1

omit [DecidableEq α] in
/-- Before the head comes the last entry. -/
theorem Chain.prev_head (h : Chain l head (es ++ [e])) : l.prev head = e := by
  have hp := h.prev
  rw [List.reverse_append] at hp
  exact hp.1

/-- An element is added behind the head. -/
theorem Chain.addAfter (h : Chain l head es) (he : e ∉ head :: es) : Chain (l.addAfter head e) head (e :: es) := by
  have hne : head ≠ e := fun hc => he (hc ▸ List.mem_cons_self)
  have hes : ∀ x ∈ es, x ≠ e ∧ x ≠ head := by
    intro x hx
    refine ⟨fun hc => he (hc ▸ List.mem_cons_of_mem head hx), fun hc => ?_⟩
    exact (List.nodup_cons.mp h.nodup).1 (hc ▸ hx)
  refine ⟨⟨?_, ?_⟩, ?_, ?_⟩
  · change update (update l.next head e) e (l.next head) head = e
    rw [update_of_ne hne, update_self]
  · refine linked_congr h.next (update_self ..) fun x hx => ?_
    change update (update l.next head e) e (l.next head) x = l.next x
    rw [update_of_ne (hes x hx).1, update_of_ne (hes x hx).2]
  · rw [List.reverse_cons, linked_append]
    refine ⟨?_, update_self ..⟩
    -- the entry that came first leads back to the new one
    have hf : (l.addAfter head e).prev (l.next head) = e := by
      change update (update l.prev (l.next head) e) e head (l.next head) = e
      rw [update_apply, update_self]
      split
      · rename_i hc
        cases es with
        | nil => exact absurd (h.next.symm.trans hc) hne
        | cons x es => exact absurd (h.next.1.symm.trans hc) (hes x List.mem_cons_self).1
      · rfl
    cases es with
    | nil =>
      have hs : l.next head = head := h.next
      rwa [hs] at hf
    | cons x es =>
      have hx : l.next head = x := h.next.1
      rw [hx] at hf
      have hp := h.prev
      rw [List.reverse_cons, linked_append] at hp ⊢
      have hk : ∀ y, y ≠ x → y ≠ e → (l.addAfter head e).prev y = l.prev y := by
        intro y hyx hye
        change update (update l.prev (l.next head) e) e head y = l.prev y
        rw [update_of_ne hye, hx, update_of_ne hyx]
      refine ⟨linked_congr hp.1 (hk head (hes x List.mem_cons_self).2.symm hne) ?_, hf⟩
      intro y hy
      rw [List.mem_reverse] at hy
      refine hk y (fun hc => ?_) (hes y (List.mem_cons_of_mem x hy)).1
      exact (List.nodup_cons.mp (List.nodup_cons.mp h.nodup).2).1 (hc ▸ hy)
  · rw [List.nodup_cons, List.nodup_cons]
    obtain ⟨hh, hnd⟩ := List.nodup_cons.mp h.nodup
    refine ⟨?_, fun hc => he (List.mem_cons_of_mem head hc), hnd⟩
    rw [List.mem_cons, not_or]
    exact ⟨hne, hh⟩

/-- The last element is deleted. -/
theorem Chain.delLast (h : Chain l head (es ++ [e])) : Chain (l.del e) head es := by
  have hpr := h.prev
  rw [List.reverse_append] at hpr
  obtain ⟨-, hpr⟩ := hpr
  obtain ⟨hn, hl⟩ := linked_append.mp h.next
  obtain ⟨hh, hnd⟩ := List.nodup_cons.mp h.nodup
  have hs : es ⊆ es ++ [e] := List.subset_append_left es [e]
  refine ⟨?_, ?_, ?_⟩
  · -- the entry before the last one leads to the head
    have hup : ∀ x, (l.del e).next x = if x = l.prev e then head else l.next x := by
      intro x
      change update l.next (l.prev e) (l.next e) x = _
      rw [update_apply, hl]
    rcases List.eq_nil_or_concat es with rfl | ⟨m, x, rfl⟩
    · have hp : l.prev e = head := hpr
      change (l.del e).next head = head
      rw [hup, hp, if_pos rfl]
    · rw [List.concat_eq_append] at *
      rw [List.reverse_append] at hpr
      have hp : l.prev e = x := hpr.1
      rw [linked_append] at hn ⊢
      have hxm : x ∉ head :: m := by
        intro hc
        rcases List.mem_cons.mp hc with hc | hc
        · exact hh (hs (hc ▸ List.mem_append_cons_self))
        · exact (List.nodup_append.mp (List.nodup_append.mp hnd).1).2.2 x hc x List.mem_cons_self rfl
      refine ⟨linked_congr hn.1 ?_ fun y hy => ?_, ?_⟩
      · have hne : head ≠ x := fun hc => hxm (hc ▸ List.mem_cons_self)
        rw [hup, hp, if_neg hne]
      · have hne : y ≠ x := fun hc => hxm (hc ▸ List.mem_cons_of_mem head hy)
        rw [hup, hp, if_neg hne]
      · change (l.del e).next x = head
        rw [hup, hp, if_pos rfl]
  · refine linked_congr hpr ?_ fun x hx => ?_
    · change update l.prev (l.next e) (l.prev e) head = l.prev e
      rw [hl, update_self]
    · change update l.prev (l.next e) (l.prev e) x = l.prev x
      rw [hl]
      refine update_of_ne (fun hc => hh (hs ?_)) _ _
      rw [← hc]
      exact List.mem_reverse.mp hx
  · exact h.nodup.sublist (List.Sublist.cons_cons head (List.sublist_append_left es [e]))

end ListHead
