import Mathlib.Data.Finset.Sort
import Mathlib.Tactic.Order

/-!
# Rings in address order

A finite set of elements of a linear order, linked by a function `nxt`, is a ring in order when `nxt` takes each element to the
next greater one and the greatest to the least. An element that is linked in behind its place (`Ring.insert`) or out behind its
predecessor (`Ring.remove`) leaves such a ring. Seen from any element, the links run through all the others and back
(`Ring.linked`).
-/

namespace Rings

open Function

variable {α : Type} [LinearOrder α] {B : Finset α} {nxt nxt' : α → α} {x y b : α}

/-- In `B` the element `y` follows `x`: it is the next greater one, or `x` is the greatest and `y` the least. -/
def Follows (B : Finset α) (x y : α) : Prop :=
  y ∈ B ∧ ((x < y ∧ ∀ z ∈ B, z ≤ x ∨ y ≤ z) ∨ ((∀ z ∈ B, z ≤ x) ∧ ∀ z ∈ B, y ≤ z))

/-- The links take each element to the one that follows it. -/
def Ring (B : Finset α) (nxt : α → α) : Prop := ∀ x ∈ B, Follows B x (nxt x)

/-- The place of `b` is between `x` and the element behind it. -/
def Place (nxt : α → α) (b x : α) : Prop := (x < b ∧ b < nxt x) ∨ (nxt x ≤ x ∧ (x < b ∨ b < nxt x))

instance (nxt : α → α) (b : α) : DecidablePred (Place nxt b) := fun _ => inferInstanceAs (Decidable (_ ∨ _))

/-- Only the links of the elements themselves matter. -/
theorem Ring.congr (h : Ring B nxt) (hc : ∀ x ∈ B, nxt' x = nxt x) : Ring B nxt' := by
  intro x hx
  rw [hc x hx]
  exact h x hx

theorem Follows.unique {y' : α} (h : Follows B x y) (h' : Follows B x y') : y = y' := by
  obtain ⟨hy, h⟩ := h
  obtain ⟨hy', h'⟩ := h'
  rcases h with ⟨hlt, hb⟩ | ⟨hm, hmin⟩
  · rcases h' with ⟨hlt', hb'⟩ | ⟨hm', -⟩
    · have h1 := hb y' hy'
      have h2 := hb' y hy
      rcases h1 with h1 | h1
      · order
      · rcases h2 with h2 | h2 <;> order
    · have := hm' y hy
      order
  · rcases h' with ⟨hlt', -⟩ | ⟨-, hmi'⟩
    · have := hm y' hy'
      order
    · have h1 := hmin y' hy'
      have h2 := hmi' y hy
      order

/-- What the place of `b` says about the other elements: none lies between, or `b` lies beyond all of them. -/
theorem place_cases (h : Follows B x y) (hp : (x < b ∧ b < y) ∨ (y ≤ x ∧ (x < b ∨ b < y))) :
    (x < b ∧ b < y ∧ ∀ z ∈ B, z ≤ x ∨ y ≤ z) ∨
      ((x < b ∨ b < y) ∧ y ≤ x ∧ (∀ z ∈ B, z ≤ x) ∧ ∀ z ∈ B, y ≤ z) := by
  obtain ⟨hy, h⟩ := h
  rcases hp with ⟨hxb, hby⟩ | ⟨hyx, hb⟩
  · rcases h with ⟨-, hbe⟩ | ⟨hm, -⟩
    · exact Or.inl ⟨hxb, hby, hbe⟩
    · have := hm y hy
      order
  · rcases h with ⟨hlt, -⟩ | ⟨hm, hmin⟩
    · order
    · exact Or.inr ⟨hb, hyx, hm, hmin⟩

/-- What one more element asks of two elements that follow each other. -/
theorem follows_insert : Follows (insert b B) x y ↔ y ∈ insert b B ∧
    ((x < y ∧ (b ≤ x ∨ y ≤ b) ∧ ∀ z ∈ B, z ≤ x ∨ y ≤ z) ∨ ((b ≤ x ∧ ∀ z ∈ B, z ≤ x) ∧ y ≤ b ∧ ∀ z ∈ B, y ≤ z)) := by
  simp only [Follows, Finset.forall_mem_insert]

/-- An element linked in at its place. -/
theorem Ring.insert (h : Ring B nxt) (hb : b ∉ B) (hx : x ∈ B) (hp : Place nxt b x) :
    Ring (insert b B) (update (update nxt b (nxt x)) x b) := by
  have hxb : b ≠ x := fun he => hb (he ▸ hx)
  have hyB : nxt x ∈ B := (h x hx).1
  have hc := place_cases (h x hx) hp
  intro z hz
  rw [follows_insert]
  rcases Finset.mem_insert.mp hz with rfl | hzB
  · rw [update_of_ne hxb, update_self]
    refine ⟨Finset.mem_insert_of_mem hyB, ?_⟩
    rcases hc with ⟨h1, h2, hbe⟩ | ⟨h1 | h1, hyx, hm, hmin⟩
    · exact Or.inl ⟨h2, Or.inl le_rfl, fun w hw => (hbe w hw).imp_left fun h' => h'.trans h1.le⟩
    · exact Or.inr ⟨⟨le_rfl, fun w hw => (hm w hw).trans h1.le⟩, hyx.trans h1.le, hmin⟩
    · exact Or.inl ⟨h1, Or.inl le_rfl, fun w hw => Or.inr (hmin w hw)⟩
  · by_cases hzx : z = x
    · subst hzx
      rw [update_self]
      refine ⟨Finset.mem_insert_self _ _, ?_⟩
      rcases hc with ⟨h1, h2, hbe⟩ | ⟨h1 | h1, hyx, hm, hmin⟩
      · exact Or.inl ⟨h1, Or.inr le_rfl, fun w hw => (hbe w hw).imp_right h2.le.trans⟩
      · exact Or.inl ⟨h1, Or.inr le_rfl, fun w hw => Or.inl (hm w hw)⟩
      · exact Or.inr ⟨⟨h1.le.trans hyx, hm⟩, le_rfl, fun w hw => h1.le.trans (hmin w hw)⟩
    · have hzb : z ≠ b := fun he => hb (he ▸ hzB)
      rw [update_of_ne hzx, update_of_ne hzb]
      obtain ⟨hv, hz'⟩ := h z hzB
      refine ⟨Finset.mem_insert_of_mem hv, ?_⟩
      rcases hz' with ⟨hlt, hbz⟩ | ⟨hzm, hvmin⟩
      · refine Or.inl ⟨hlt, ?_, hbz⟩
        rcases hc with ⟨h1, h2, hbe⟩ | ⟨h1 | h1, hyx, hm, hmin⟩
        · rcases hbz x hx with h' | h'
          · rcases hbe z hzB with h'' | h''
            · exact absurd (le_antisymm h'' h') hzx
            · exact Or.inl (h2.le.trans h'')
          · exact Or.inr (h'.trans h1.le)
        · exact Or.inr ((hm _ hv).trans h1.le)
        · exact Or.inl (h1.le.trans (hmin z hzB))
      · rcases hc with ⟨h1, h2, hbe⟩ | ⟨-, -, hm, -⟩
        · exact Or.inr ⟨⟨h2.le.trans (hzm _ hyB), hzm⟩, (hvmin x hx).trans h1.le, hvmin⟩
        · exact absurd (le_antisymm (hm z hzB) (hzm x hx)) hzx

/-- The element behind `x` linked out. -/
theorem Ring.remove (h : Ring B nxt) (hx : x ∈ B) (hne : nxt x ≠ x) : Ring (B.erase (nxt x)) (update nxt x (nxt (nxt x))) := by
  have hyB : nxt x ∈ B := (h x hx).1
  obtain ⟨hvB, hv⟩ := h (nxt x) hyB
  obtain ⟨-, hxy⟩ := h x hx
  have hvy : nxt (nxt x) ≠ nxt x := by
    intro he
    rw [he] at hv
    rcases hv with ⟨hlt, -⟩ | ⟨hmax, hm⟩
    · exact lt_irrefl _ hlt
    · exact hne (le_antisymm (hm x hx) (hmax x hx))
  intro z hz
  obtain ⟨hzy, hzB⟩ := Finset.mem_erase.mp hz
  by_cases hzx : z = x
  · subst hzx
    rw [update_self]
    refine ⟨Finset.mem_erase.mpr ⟨hvy, hvB⟩, ?_⟩
    rcases hxy with ⟨hlt, hb⟩ | ⟨hmax, hm⟩
    · rcases hv with ⟨hlt', hb'⟩ | ⟨hm', hmi'⟩
      · refine Or.inl ⟨hlt.trans hlt', ?_⟩
        intro w hw
        obtain ⟨hwy, hwB⟩ := Finset.mem_erase.mp hw
        rcases hb w hwB with h1 | h1
        · exact Or.inl h1
        · rcases hb' w hwB with h2 | h2
          · exact absurd (le_antisymm h2 h1) hwy
          · exact Or.inr h2
      · refine Or.inr ⟨?_, fun w hw => hmi' w (Finset.mem_of_mem_erase hw)⟩
        intro w hw
        obtain ⟨hwy, hwB⟩ := Finset.mem_erase.mp hw
        rcases hb w hwB with h1 | h1
        · exact h1
        · exact absurd (le_antisymm (hm' w hwB) h1) hwy
    · rcases hv with ⟨hlt', hb'⟩ | ⟨hm', -⟩
      · refine Or.inr ⟨fun w hw => hmax w (Finset.mem_of_mem_erase hw), ?_⟩
        intro w hw
        obtain ⟨hwy, hwB⟩ := Finset.mem_erase.mp hw
        rcases hb' w hwB with h1 | h1
        · exact absurd (le_antisymm h1 (hm w hwB)) hwy
        · exact h1
      · exact absurd (le_antisymm (hm z hzB) (hm' z hzB)) hne
  · rw [update_of_ne hzx]
    obtain ⟨huB, hu⟩ := h z hzB
    have huy : nxt z ≠ nxt x := by
      intro he
      rcases hxy with ⟨hlt, hb⟩ | ⟨hmax, hm⟩
      · rcases hu with ⟨hlt', hb'⟩ | ⟨hm', hmi'⟩
        · rcases hb z hzB with h1 | h1
          · rcases hb' x hx with h2 | h2
            · exact hzx (le_antisymm h1 h2)
            · order
          · order
        · have := hmi' x hx
          order
      · rcases hu with ⟨hlt', -⟩ | ⟨hm', -⟩
        · have := hm z hzB
          order
        · exact hzx (le_antisymm (hmax z hzB) (hm' x hx))
    exact ⟨Finset.mem_erase.mpr ⟨huy, huB⟩, hu.imp
      (And.imp_right fun hb w hw => hb w (Finset.mem_of_mem_erase hw))
      (And.imp (fun hmax w hw => hmax w (Finset.mem_of_mem_erase hw)) fun hm w hw => hm w (Finset.mem_of_mem_erase hw))⟩

/-- Every element outside of the ring has a place in it. -/
theorem Ring.exists_place (h : Ring B nxt) (hne : B.Nonempty) (hb : b ∉ B) : ∃ x ∈ B, Place nxt b x := by
  by_cases hl : ∃ z ∈ B, z < b
  · obtain ⟨z, hz, hzb⟩ := hl
    obtain ⟨x, hx, hxm⟩ := Finset.exists_max_image (B.filter (· < b)) id ⟨z, Finset.mem_filter.mpr ⟨hz, hzb⟩⟩
    obtain ⟨hxB, hxb⟩ := Finset.mem_filter.mp hx
    refine ⟨x, hxB, ?_⟩
    obtain ⟨hyB, hy⟩ := h x hxB
    rcases hy with ⟨hlt, -⟩ | ⟨hm, -⟩
    · refine Or.inl ⟨hxb, ?_⟩
      by_contra hno
      have hyb : nxt x < b := lt_of_le_of_ne (not_lt.mp hno) (fun he => hb (he ▸ hyB))
      have := hxm (nxt x) (Finset.mem_filter.mpr ⟨hyB, hyb⟩)
      simp only [id] at this
      order
    · exact Or.inr ⟨hm _ hyB, Or.inl hxb⟩
  · obtain ⟨x, hx, hxm⟩ := Finset.exists_max_image B id hne
    refine ⟨x, hx, Or.inr ⟨hxm _ (h x hx).1, Or.inr ?_⟩⟩
    refine lt_of_le_of_ne (not_lt.mp (fun hlt => hl ⟨_, (h x hx).1, hlt⟩)) ?_
    intro he
    exact hb (he ▸ (h x hx).1)

/-! ## The way round -/

/-- From `a` the links run through the elements of the list, in its order, to `b`. -/
def Linked (nxt : α → α) : α → List α → α → Prop
  | a, [], b => nxt a = b
  | a, x :: l, b => nxt a = x ∧ Linked nxt x l b

omit [LinearOrder α] in
/-- A path by way of an element. -/
theorem linked_append {a c : α} {l1 l2 : List α} : Linked nxt a (l1 ++ b :: l2) c ↔ Linked nxt a l1 b ∧ Linked nxt b l2 c := by
  induction l1 generalizing a with
  | nil => rfl
  | cons x l ih =>
    rw [List.cons_append, Linked, Linked, ih, and_assoc]

/-- In a list in increasing order, the links run from each element through the rest, and back to the first. -/
theorem linked_of_sorted {h : α} {t : List α} (hs : (h :: t).Pairwise (· < ·)) (hr : Ring (h :: t).toFinset nxt) :
    ∀ (pre : List α) (x : α) (q : List α), h :: t = pre ++ x :: q → Linked nxt x q h := by
  intro pre x q
  induction q generalizing pre x with
  | nil =>
    intro heq
    have hx : x ∈ (h :: t).toFinset := by simp [heq]
    refine (hr x hx).unique ⟨by simp, Or.inr ⟨?_, ?_⟩⟩
    · intro z hz
      rw [List.mem_toFinset, heq] at hz
      rw [heq, List.pairwise_append] at hs
      rcases List.mem_append.mp hz with hz | hz
      · exact (hs.2.2 z hz x List.mem_cons_self).le
      · exact (List.mem_singleton.mp hz).le
    · intro z hz
      rw [List.mem_toFinset] at hz
      rcases List.mem_cons.mp hz with rfl | hz
      · exact le_rfl
      · exact ((List.pairwise_cons.mp hs).1 z hz).le
  | cons y q ih =>
    intro heq
    have hx : x ∈ (h :: t).toFinset := by simp [heq]
    refine ⟨?_, ih (pre ++ [x]) y (by rw [heq, List.append_assoc]; rfl)⟩
    rw [heq, List.pairwise_append] at hs
    obtain ⟨-, hs', hp⟩ := hs
    rw [List.pairwise_cons, List.pairwise_cons] at hs'
    refine (hr x hx).unique ⟨by simp [heq], Or.inl ⟨hs'.1 y List.mem_cons_self, ?_⟩⟩
    intro z hz
    rw [List.mem_toFinset, heq] at hz
    rcases List.mem_append.mp hz with hz | hz
    · exact Or.inl (hp z hz x List.mem_cons_self).le
    · rcases List.mem_cons.mp hz with rfl | hz
      · exact Or.inl le_rfl
      · rcases List.mem_cons.mp hz with rfl | hz
        · exact Or.inr le_rfl
        · exact Or.inr (hs'.2.1 z hz).le

/-- A list whose links run from each element to the next, and from the last to the first. -/
def Cycle (nxt : α → α) : List α → Prop
  | [] => False
  | a :: l => Linked nxt a l a

/-- The elements in increasing order are a cycle: the links come back to the least element only from the greatest. -/
theorem Ring.sorted_cycle (h : Ring B nxt) (hx : x ∈ B) :
    ∃ l : List α, l.Pairwise (· < ·) ∧ Cycle nxt l ∧ l.Nodup ∧ l.toFinset = B := by
  have hso : (B.sort (· ≤ ·)).Pairwise (· < ·) := Finset.sortedLT_sort B |>.pairwise
  have hs : (B.sort (· ≤ ·)).toFinset = B := Finset.sort_toFinset _ _
  refine ⟨B.sort (· ≤ ·), hso, ?_, Finset.sort_nodup _ _, hs⟩
  have hm : x ∈ B.sort (· ≤ ·) := (Finset.mem_sort _).mpr hx
  generalize B.sort (· ≤ ·) = l at hm hso hs
  cases l with
  | nil => exact absurd hm (List.not_mem_nil)
  | cons a l => exact linked_of_sorted hso (hs.symm ▸ h) [] a l rfl

/-- From any element the links run through all the others and back. -/
theorem Ring.linked (h : Ring B nxt) (hx : x ∈ B) :
    ∃ l : List α, Linked nxt x l x ∧ (x :: l).Nodup ∧ ∀ z, z ∈ x :: l ↔ z ∈ B := by
  obtain ⟨l, -, hc, hnd, hs⟩ := h.sorted_cycle hx
  have ha : ∀ z, z ∈ l ↔ z ∈ B := fun z => by rw [← hs, List.mem_toFinset]
  obtain ⟨pre, q, rfl⟩ := List.append_of_mem ((ha x).mpr hx)
  cases pre with
  | nil => exact ⟨q, hc, hnd, ha⟩
  | cons a pre =>
    obtain ⟨h1, h2⟩ := linked_append.mp hc
    have hp : (x :: q ++ a :: pre).Perm (a :: pre ++ x :: q) := List.perm_append_comm
    exact ⟨q ++ a :: pre, linked_append.mpr ⟨h2, h1⟩, hp.nodup_iff.mpr hnd, fun z => hp.mem_iff.trans (ha z)⟩

omit [LinearOrder α] in
/-- What the links run through is reached by them. -/
theorem Linked.reaches {a c z : α} {l : List α} (h : Linked nxt a l c) (hz : z ∈ a :: l) : ∃ n, nxt^[n] a = z := by
  induction l generalizing a with
  | nil => exact ⟨0, (List.mem_singleton.mp hz).symm⟩
  | cons x l ih =>
    obtain ⟨hx, h⟩ := h
    rcases List.mem_cons.mp hz with rfl | hz
    · exact ⟨0, rfl⟩
    · obtain ⟨n, hn⟩ := ih h hz
      exact ⟨n + 1, by rw [Function.iterate_succ_apply, hx, hn]⟩

/-- The links reach the elements of the ring and nothing else. -/
theorem Ring.reaches_iff {z : α} (h : Ring B nxt) (hx : x ∈ B) : (∃ n, nxt^[n] x = z) ↔ z ∈ B := by
  constructor
  · rintro ⟨n, rfl⟩
    induction n with
    | zero => exact hx
    | succ n ih =>
      rw [Function.iterate_succ_apply']
      exact (h _ ih).1
  · intro hz
    obtain ⟨l, hl, -, hm⟩ := h.linked hx
    exact hl.reaches ((hm z).mpr hz)

end Rings
