import Mathlib.Data.List.Sort

/-!
# Delta queues

A delta queue holds its entries in the order of their deadlines and stores with each entry its gap: how much later it is due
than the entry before it. `deadlines` reads the deadlines back. On the gaps, an insertion walks down the queue and takes the
gaps it passes off the time it looks for, and a deletion gives the gap of the entry it removes to the next one; read back, these
are the insertion behind every entry that is due no later (`deadlines_enqueue`) and the removal of one entry
(`deadlines_remove`). A step of time takes one off the first gap; the entries due then are the ones in front whose gap is zero
(`due_next`).
-/

namespace DeltaQueue

variable {α : Type} {l : List (α × Nat)}

/-- The entries with their deadlines, `n` being the deadline of the entry before the list. -/
def deadlines : Nat → List (α × Nat) → List (α × Nat)
  | _, [] => []
  | n, (a, g) :: l => (a, n + g) :: deadlines (n + g) l

/-- Insert `a`, due `e` after the entry before the list. -/
def enqueue (a : α) : Nat → List (α × Nat) → List (α × Nat)
  | e, [] => [(a, e)]
  | e, (b, g) :: l => if e < g then (a, e) :: (b, g - e) :: l else (b, g) :: enqueue a (e - g) l

/-- Give a gap to the first entry. -/
def carry (g : Nat) : List (α × Nat) → List (α × Nat)
  | [] => []
  | (b, h) :: l => (b, h + g) :: l

/-- Delete the entry `a`. -/
def remove [DecidableEq α] (a : α) : List (α × Nat) → List (α × Nat)
  | [] => []
  | (b, g) :: l => if b = a then carry g l else (b, g) :: remove a l

/-- One step of time. -/
def elapse : List (α × Nat) → List (α × Nat)
  | [] => []
  | (a, g) :: l => (a, g - 1) :: l

/-- A new element goes behind those that are due no later. -/
theorem deadlines_enqueue (a : α) (n e : Nat) (l : List (α × Nat)) :
    deadlines n (enqueue a e l) = (deadlines n l).orderedInsert (fun x y => x.2 < y.2) (a, n + e) := by
  induction l generalizing n e with
  | nil => rfl
  | cons x l ih =>
    obtain ⟨b, g⟩ := x
    rw [enqueue, deadlines, List.orderedInsert_cons]
    by_cases h : e < g
    · rw [if_pos h, if_pos (Nat.add_lt_add_left h n), deadlines, deadlines, show n + e + (g - e) = n + g by omega]
    · rw [if_neg h, if_neg (by omega), deadlines, ih, show n + g + (e - g) = n + e by omega]

/-- A gap that is carried over puts all deadlines off. -/
theorem deadlines_carry (n g : Nat) (l : List (α × Nat)) : deadlines n (carry g l) = deadlines (n + g) l := by
  cases l with
  | nil => rfl
  | cons x l =>
    obtain ⟨b, h⟩ := x
    rw [carry, deadlines, deadlines, show n + (h + g) = n + g + h by omega]

/-- The keys of the entries do not change when the deadlines are read back. -/
@[simp] theorem map_fst_deadlines (n : Nat) (l : List (α × Nat)) : (deadlines n l).map Prod.fst = l.map Prod.fst := by
  induction l generalizing n with
  | nil => rfl
  | cons x l ih => simp [deadlines, ih]

/-- An element is removed, and the other deadlines stay. -/
theorem deadlines_remove [DecidableEq α] (a : α) (n : Nat) (l : List (α × Nat)) (h : (l.map Prod.fst).Nodup) :
    deadlines n (remove a l) = (deadlines n l).filter (fun x => decide (x.1 ≠ a)) := by
  induction l generalizing n with
  | nil => rfl
  | cons x l ih =>
    obtain ⟨b, g⟩ := x
    rw [List.map_cons, List.nodup_cons] at h
    by_cases hb : b = a
    · subst hb
      have hno : ∀ x ∈ deadlines (n + g) l, decide (x.1 ≠ b) = true := by
        intro x hx
        rw [decide_eq_true_iff]
        intro he
        refine h.1 ?_
        rw [← map_fst_deadlines (n + g) l]
        exact List.mem_map.mpr ⟨x, hx, he⟩
      rw [remove, if_pos rfl, deadlines_carry, deadlines, List.filter_cons_of_neg (by simp), List.filter_eq_self.mpr hno]
    · rw [remove, if_neg hb, deadlines, ih _ h.2, deadlines, List.filter_cons_of_pos (by simpa using hb)]

/-- No entry is due before the entry before the list. -/
theorem le_deadlines {n : Nat} : ∀ x ∈ deadlines n l, n ≤ x.2 := by
  induction l generalizing n with
  | nil => simp [deadlines]
  | cons x l ih =>
    obtain ⟨b, g⟩ := x
    intro y hy
    rw [deadlines, List.mem_cons] at hy
    rcases hy with rfl | hy
    · exact Nat.le_add_right n g
    · have := ih y hy
      omega

/-- The gap of an entry is at most its deadline. -/
theorem exists_deadline {n g : Nat} {a : α} (h : (a, g) ∈ l) : ∃ d, (a, d) ∈ deadlines n l ∧ n + g ≤ d := by
  induction l generalizing n with
  | nil => cases h
  | cons x l ih =>
    obtain ⟨b, k⟩ := x
    rcases List.mem_cons.mp h with he | h
    · cases he
      exact ⟨n + g, List.mem_cons_self, le_rfl⟩
    · obtain ⟨d, hd, hle⟩ := ih h
      exact ⟨d, List.mem_cons_of_mem _ hd, by omega⟩

/-- Nothing is removed that is not there. -/
theorem remove_of_not_mem [DecidableEq α] {a : α} (h : a ∉ l.map Prod.fst) : remove a l = l := by
  induction l with
  | nil => rfl
  | cons x l ih =>
    obtain ⟨b, g⟩ := x
    rw [List.map_cons, List.mem_cons, not_or] at h
    rw [remove, if_neg (Ne.symm h.1), ih h.2]

/-- The deadlines are in order. -/
theorem deadlines_sorted (n : Nat) (l : List (α × Nat)) : (deadlines n l).Pairwise (fun x y => x.2 ≤ y.2) := by
  induction l generalizing n with
  | nil => exact List.Pairwise.nil
  | cons x l ih =>
    obtain ⟨b, g⟩ := x
    rw [deadlines, List.pairwise_cons]
    exact ⟨le_deadlines, ih _⟩

/-- The deadlines counted from one step later. -/
theorem deadlines_succ (n : Nat) (l : List (α × Nat)) : deadlines n l = (deadlines (n + 1) l).map (fun x => (x.1, x.2 - 1)) := by
  induction l generalizing n with
  | nil => rfl
  | cons x l ih =>
    obtain ⟨b, h⟩ := x
    rw [deadlines, deadlines, List.map_cons, ih (n + h), show n + 1 + h = n + h + 1 by omega, Nat.add_sub_cancel]

/-- As a unit of time elapses, all deadlines come closer by one. -/
theorem deadlines_elapse (h : ∀ x ∈ deadlines 0 l, 0 < x.2) :
    deadlines 0 (elapse l) = (deadlines 0 l).map (fun x => (x.1, x.2 - 1)) := by
  cases l with
  | nil => rfl
  | cons x l =>
    obtain ⟨b, g⟩ := x
    have hg : 0 < 0 + g := h (b, 0 + g) List.mem_cons_self
    rw [deadlines_succ, elapse, deadlines, deadlines, show 0 + 1 + (g - 1) = 0 + g by omega]

/-- The entries in front with gap zero are the ones due now, and the others are the ones due later. -/
theorem due_now (l : List (α × Nat)) : ((deadlines 0 l).filter (fun x => decide (x.2 = 0))).map Prod.fst =
        (l.takeWhile (fun x => decide (x.2 = 0))).map Prod.fst ∧
      (deadlines 0 l).filter (fun x => decide (x.2 ≠ 0)) = deadlines 0 (l.dropWhile (fun x => decide (x.2 = 0))) := by
  induction l with
  | nil => exact ⟨rfl, rfl⟩
  | cons x l ih =>
    obtain ⟨b, g⟩ := x
    by_cases hg : g = 0
    · simpa [deadlines, hg] using ih
    · have hp : ∀ x ∈ deadlines 0 ((b, g) :: l), x.2 ≠ 0 := by
        intro x hx
        rw [deadlines, List.mem_cons] at hx
        rcases hx with rfl | hx
        · omega
        · have := le_deadlines x hx
          omega
      rw [List.takeWhile_cons_of_neg (by simpa using hg), List.dropWhile_cons_of_neg (by simpa using hg),
        List.filter_eq_nil_iff.mpr (by simpa using hp), List.filter_eq_self.mpr (by simpa using hp)]
      exact ⟨rfl, rfl⟩

/-- The entries due in one step, and the others after it. -/
theorem due_next (h : ∀ x ∈ deadlines 0 l, 0 < x.2) : ((deadlines 0 l).filter (fun x => decide (x.2 = 1))).map Prod.fst =
        ((elapse l).takeWhile (fun x => decide (x.2 = 0))).map Prod.fst ∧
      ((deadlines 0 l).filter (fun x => decide (x.2 ≠ 1))).map (fun x => (x.1, x.2 - 1)) =
        deadlines 0 ((elapse l).dropWhile (fun x => decide (x.2 = 0))) := by
  have ho : ∀ x ∈ deadlines 0 l, x.2 = 1 ↔ x.2 - 1 = 0 := by
    intro x hx
    have := h x hx
    omega
  obtain ⟨hnow, hl⟩ := due_now (elapse l)
  rw [← hnow, ← hl, deadlines_elapse h, List.filter_map, List.filter_map, List.map_map]
  refine ⟨?_, ?_⟩
  · rw [List.filter_congr fun x hx => decide_eq_decide.mpr (ho x hx)]
    rfl
  · rw [List.filter_congr fun x hx => decide_eq_decide.mpr (not_congr (ho x hx))]
    rfl

/-- An insertion by deadline adds the entry behind the others of its deadline and leaves the other deadlines alone. -/
theorem filter_orderedInsert (a : α) (d k : Nat) (h : l.Pairwise (fun x y => x.2 ≤ y.2)) :
    (l.orderedInsert (fun x y => x.2 < y.2) (a, d)).filter (fun x => decide (x.2 = k)) =
      l.filter (fun x => decide (x.2 = k)) ++ if d = k then [(a, d)] else [] := by
  induction l with
  | nil => by_cases hk : d = k <;> simp [hk]
  | cons x l ih =>
    rw [List.pairwise_cons] at h
    rw [List.orderedInsert_cons]
    by_cases hd : d < x.2
    · rw [if_pos hd]
      by_cases hk : d = k
      · have hno : ∀ y ∈ x :: l, y.2 ≠ k := by
          intro y hy
          rcases List.mem_cons.mp hy with rfl | hy
          · omega
          · have := h.1 y hy
            omega
        rw [List.filter_cons_of_pos (by simpa using hk), List.filter_eq_nil_iff.mpr (by simpa using hno), if_pos hk,
          List.nil_append]
      · rw [List.filter_cons_of_neg (by simpa using hk), if_neg hk, List.append_nil]
    · rw [if_neg hd, List.filter_cons, List.filter_cons, ih h.2]
      split
      · rw [List.cons_append]
      · rfl

end DeltaQueue
