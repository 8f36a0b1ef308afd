import Mathlib.Data.Finset.Card

/-!
# Counting the slots that hold a value

A table holds at each of its slots a value or nothing. `slotCount` is the number of slots of `K` that hold a given value. A
write to one slot takes the old value's slot away and gives the new value one (`slotCount_update`), which is what a reference
counter has to follow.
-/

namespace SlotCount

variable {κ ν : Type} [DecidableEq κ] [DecidableEq ν] {v : ν} {K : Finset κ} {m : κ → Option ν} {k : κ}

/-- The number of slots of `K` that hold `v`. -/
def slotCount (K : Finset κ) (m : κ → Option ν) (v : ν) : Nat := (K.filter (fun k => m k = some v)).card

/-- 1 where the slot holds `v` and 0 where it does not. -/
def holds (o : Option ν) (v : ν) : Nat := if o = some v then 1 else 0

@[simp] theorem holds_none (v : ν) : holds none v = 0 := rfl

@[simp] theorem holds_self (v : ν) : holds (some v) v = 1 := if_pos rfl

theorem holds_of_ne {o : Option ν} (h : o ≠ some v) : holds o v = 0 := if_neg h

omit [DecidableEq κ] in
/-- The count is that of the slots that are counted. -/
theorem slotCount_congr {m' : κ → Option ν} (h : ∀ k ∈ K, m' k = m k) (v : ν) : slotCount K m' v = slotCount K m v := by
  unfold slotCount
  congr 1
  apply Finset.filter_congr
  intro k hk
  rw [h k hk]

omit [DecidableEq κ] in
theorem slotCount_eq_zero : slotCount K m v = 0 ↔ ∀ k ∈ K, m k ≠ some v := by
  rw [slotCount, Finset.card_eq_zero, Finset.filter_eq_empty_iff]

/-- The count, with one slot counted apart. -/
theorem slotCount_erase (m : κ → Option ν) (v : ν) (hk : k ∈ K) :
    slotCount K m v = slotCount (K.erase k) m v + holds (m k) v := by
  have hm : k ∉ (K.erase k).filter (fun k => m k = some v) := by
    intro h
    exact Finset.notMem_erase k K (Finset.mem_filter.mp h).1
  by_cases hv : m k = some v
  · have hc : K.filter (fun k => m k = some v) = insert k ((K.erase k).filter (fun k => m k = some v)) := by
      rw [← Finset.insert_erase hk, Finset.filter_insert, if_pos hv, Finset.erase_insert (Finset.notMem_erase k K)]
    rw [slotCount, hc, Finset.card_insert_of_notMem hm, hv, holds_self, slotCount]
  · have hs : K.filter (fun k => m k = some v) = (K.erase k).filter (fun k => m k = some v) := by
      rw [← Finset.insert_erase hk, Finset.filter_insert, if_neg hv, Finset.erase_insert (Finset.notMem_erase k K)]
    rw [slotCount, hs, holds_of_ne hv, slotCount, Nat.add_zero]

/-- A write to one slot: what the old value loses and the new value gains. -/
theorem slotCount_update (m m' : κ → Option ν) (hk : k ∈ K) (h : ∀ j ∈ K, j ≠ k → m' j = m j) (v : ν) :
    slotCount K m' v + holds (m k) v = slotCount K m v + holds (m' k) v := by
  have hr : slotCount (K.erase k) m' v = slotCount (K.erase k) m v := by
    apply slotCount_congr
    intro j hj
    exact h j (Finset.mem_of_mem_erase hj) (Finset.ne_of_mem_erase hj)
  rw [slotCount_erase m' v hk, slotCount_erase m v hk]
  omega

end SlotCount
