import Mathlib.Order.CompletePartialOrder
import Mathlib.Algebra.BigOperators.Group.Finset.Basic
import Mathlib.Order.Interval.Set.LinearOrder
import Ucore.Lib.Ring

/-!
# Free lists in address order

A free list that is a ring in address order: each block has a size, and the blocks do not overlap. A block is inserted at its
place, joined with the block behind it, taken out, or cut. The lemmas say what each of these does to the ring, to the addresses
that the blocks take up (`region`) and to the sum of their sizes. `Tight` is the list in which no block ends where the one behind
it begins.
-/

namespace Rings

open Function

variable {nxt size size' : Nat → Nat} {B : Finset Nat} {b k x y : Nat}

/-- A ring of blocks that have a size and do not overlap. -/
structure FreeRing (nxt size : Nat → Nat) (B : Finset Nat) : Prop where
  ring : Ring B nxt
  pos : ∀ x ∈ B, 0 < size x
  apart : ∀ x ∈ B, ∀ y ∈ B, x < y → x + size x ≤ y

/-- The addresses that the blocks take up. -/
def region (size : Nat → Nat) (B : Finset Nat) : Set Nat := { a | ∃ x ∈ B, a ∈ Set.Ico x (x + size x) }

/-- No block ends where the one behind it begins. -/
def Tight (nxt size : Nat → Nat) (B : Finset Nat) : Prop := ∀ x ∈ B, x + size x ≠ nxt x

namespace FreeRing

section

variable (h : FreeRing nxt size B)
include h

/-- Only the links and sizes of the blocks themselves matter. -/
theorem congr {nxt' : Nat → Nat} (hn : ∀ x ∈ B, nxt' x = nxt x) (hs : ∀ x ∈ B, size' x = size x) : FreeRing nxt' size' B where
  ring := h.ring.congr hn
  pos x hx := (hs x hx).symm ▸ h.pos x hx
  apart x hx y hy hlt := (hs x hx).symm ▸ h.apart x hx y hy hlt

/-- A link leads to a block. -/
theorem next_mem (hx : x ∈ B) : nxt x ∈ B := (h.ring x hx).1

/-- In a tight list there is room between any two blocks. -/
theorem gap (ht : Tight nxt size B) (hx : x ∈ B) (hy : y ∈ B) (hlt : x < y) : x + size x < y := by
  obtain ⟨hm, hf⟩ := h.ring x hx
  rcases hf with ⟨hlt', hb⟩ | ⟨hmax, -⟩
  · have h1 := h.apart x hx (nxt x) hm hlt'
    have h2 := ht x hx
    rcases hb y hy with h3 | h3 <;> omega
  · have := hmax y hy
    omega

/-- Room between any two blocks makes the list tight. -/
theorem tight_of_gap (hg : ∀ x ∈ B, ∀ y ∈ B, x < y → x + size x < y) : Tight nxt size B := by
  intro x hx he
  have hp := h.pos x hx
  have := hg x hx (nxt x) (h.next_mem hx) (by omega)
  omega

/-- A block that is its own successor is alone. -/
theorem eq_of_next_self (hx : x ∈ B) (hs : nxt x = x) (hy : y ∈ B) : y = x := by
  obtain ⟨-, hf⟩ := h.ring x hx
  rw [hs] at hf
  rcases hf with ⟨hlt, -⟩ | ⟨hm, hmin⟩
  · exact absurd hlt (lt_irrefl x)
  · exact le_antisymm (hm y hy) (hmin y hy)

/-- The block that holds an address is the only one. -/
theorem eq_of_mem (hx : x ∈ B) (hy : y ∈ B) {a : Nat} (hax : a ∈ Set.Ico x (x + size x))
    (hay : a ∈ Set.Ico y (y + size y)) : x = y := by
  obtain ⟨h1, h2⟩ := hax
  obtain ⟨h3, h4⟩ := hay
  rcases Nat.lt_trichotomy x y with hlt | heq | hlt
  · have := h.apart x hx y hy hlt
    omega
  · exact heq
  · have := h.apart y hy x hx hlt
    omega

/-! ## A block inserted -/

/-- A block inserted at its place. -/
theorem insert (hx : x ∈ B) (hp : Place nxt b x) (hpos : 0 < size b) (hf : ∀ y ∈ B, y + size y ≤ b ∨ b + size b ≤ y) :
    FreeRing (update (update nxt b (nxt x)) x b) size (insert b B) where
  ring := by
    refine h.ring.insert ?_ hx hp
    intro hb
    have := hf b hb
    omega
  pos y hy := by
    rcases Finset.mem_insert.mp hy with rfl | hy
    · exact hpos
    · exact h.pos y hy
  apart y hy z hz hlt := by
    rcases Finset.mem_insert.mp hy with hyb | hyB
    · rcases Finset.mem_insert.mp hz with hzb | hzB
      · omega
      · have := hf z hzB
        rw [hyb] at hlt ⊢
        omega
    · rcases Finset.mem_insert.mp hz with hzb | hzB
      · have := hf y hyB
        rw [hzb] at hlt ⊢
        omega
      · exact h.apart y hyB z hzB hlt

end

end FreeRing

/-- The cells are those of the sizes of the blocks. -/
theorem region_congr (h : ∀ x ∈ B, size' x = size x) : region size' B = region size B := by
  ext a
  constructor
  · rintro ⟨x, hx, ha⟩
    exact ⟨x, hx, h x hx ▸ ha⟩
  · rintro ⟨x, hx, ha⟩
    exact ⟨x, hx, (h x hx).symm ▸ ha⟩

/-- The cells of one block more. -/
theorem region_insert : region size (insert b B) = Set.Ico b (b + size b) ∪ region size B := by
  ext a
  constructor
  · rintro ⟨x, hx, ha⟩
    rcases Finset.mem_insert.mp hx with rfl | hx
    · exact Or.inl ha
    · exact Or.inr ⟨x, hx, ha⟩
  · rintro (ha | ⟨x, hx, ha⟩)
    · exact ⟨b, Finset.mem_insert_self _ _, ha⟩
    · exact ⟨x, Finset.mem_insert_of_mem hx, ha⟩

/-- The cells of a block and of the others. -/
theorem region_erase (hy : y ∈ B) : region size B = Set.Ico y (y + size y) ∪ region size (B.erase y) := by
  rw [← region_insert, Finset.insert_erase hy]

namespace FreeRing

/-- The other blocks have no address in common with a block. -/
theorem disjoint_erase (h : FreeRing nxt size B) (hy : y ∈ B) : Disjoint (Set.Ico y (y + size y)) (region size (B.erase y)) := by
  rw [Set.disjoint_left]
  rintro a ha ⟨x, hx, hax⟩
  obtain ⟨hne, hx⟩ := Finset.mem_erase.mp hx
  exact hne (h.eq_of_mem hx hy hax ha)

/-- Addresses that no block takes up lie before or behind each block. -/
theorem clear_iff {n : Nat} (h : FreeRing nxt size B) (hn : 0 < n) :
    Disjoint (Set.Ico b (b + n)) (region size B) ↔ ∀ y ∈ B, y + size y ≤ b ∨ b + n ≤ y := by
  rw [Set.disjoint_left]
  constructor
  · intro hd y hy
    by_contra hno
    have hp := h.pos y hy
    refine hd (a := max b y) ⟨by omega, by omega⟩ ⟨y, hy, by omega, by omega⟩
  · rintro hc a ⟨h1, h2⟩ ⟨y, hy, h3, h4⟩
    have := hc y hy
    omega

/-! ## A block joined with the one behind it -/

section Merge

variable (h : FreeRing nxt size B) (hx : x ∈ B) (hadj : x + size x = nxt x)
include h hx hadj

/-- A block takes over the one behind it, which begins where it ends. -/
theorem merge : FreeRing (update nxt x (nxt (nxt x))) (update size x (size x + size (nxt x))) (B.erase (nxt x)) where
  ring := by
    have hp := h.pos x hx
    exact h.ring.remove hx (by omega)
  pos y hy := by
    by_cases hyx : y = x
    · rw [hyx, update_self]
      exact (h.pos x hx).trans_le (Nat.le_add_right _ _)
    · rw [update_of_ne hyx]
      exact h.pos y (Finset.mem_of_mem_erase hy)
  apart y hy z hz hlt := by
    obtain ⟨hzne, hz⟩ := Finset.mem_erase.mp hz
    by_cases hyx : y = x
    · rw [hyx] at hlt ⊢
      rw [update_self]
      have h1 := h.apart x hx z hz hlt
      have h2 := h.apart (nxt x) (h.next_mem hx) z hz (by omega)
      omega
    · rw [update_of_ne hyx]
      exact h.apart y (Finset.mem_of_mem_erase hy) z hz hlt

theorem next_ne_self : nxt x ≠ x := by
  have := h.pos x hx
  omega

/-- Blocks that are merged keep their cells. -/
theorem region_merge : region (update size x (size x + size (nxt x))) (B.erase (nxt x)) = region size B := by
  have hne := h.next_ne_self hx hadj
  ext a
  constructor
  · rintro ⟨y, hy, ha⟩
    by_cases hyx : y = x
    · rw [hyx, update_self] at ha
      obtain ⟨h1, h2⟩ := ha
      rcases Nat.lt_or_ge a (x + size x) with hlt | hge
      · exact ⟨x, hx, h1, hlt⟩
      · exact ⟨nxt x, h.next_mem hx, by omega, by omega⟩
    · rw [update_of_ne hyx] at ha
      exact ⟨y, Finset.mem_of_mem_erase hy, ha⟩
  · rintro ⟨y, hy, ha⟩
    by_cases hyn : y = nxt x
    · subst hyn
      refine ⟨x, Finset.mem_erase.mpr ⟨hne.symm, hx⟩, ?_⟩
      rw [update_self]
      obtain ⟨h1, h2⟩ := ha
      exact ⟨by omega, by omega⟩
    · refine ⟨y, Finset.mem_erase.mpr ⟨hyn, hy⟩, ?_⟩
      by_cases hyx : y = x
      · subst hyx
        rw [update_self]
        obtain ⟨h1, h2⟩ := ha
        exact ⟨h1, by omega⟩
      · rw [update_of_ne hyx]
        exact ha

/-- Blocks that are merged keep their size. -/
theorem sum_merge : ∑ y ∈ B.erase (nxt x), update size x (size x + size (nxt x)) y = ∑ y ∈ B, size y := by
  have hne := h.next_ne_self hx hadj
  have hxe : x ∈ B.erase (nxt x) := Finset.mem_erase.mpr ⟨hne.symm, hx⟩
  rw [← Finset.add_sum_erase _ _ hxe, ← Finset.add_sum_erase _ _ (h.next_mem hx), ← Finset.add_sum_erase _ _ hxe,
    update_self]
  have hr : ∑ y ∈ (B.erase (nxt x)).erase x, update size x (size x + size (nxt x)) y =
      ∑ y ∈ (B.erase (nxt x)).erase x, size y := by
    refine Finset.sum_congr rfl ?_
    intro y hy
    exact update_of_ne (Finset.ne_of_mem_erase hy) _ _
  omega

end Merge

/-! ## A block taken out, or cut -/

/-- The block behind `x` taken out. -/
theorem remove (h : FreeRing nxt size B) (hx : x ∈ B) (hne : nxt x ≠ x) :
    FreeRing (update nxt x (nxt (nxt x))) size (B.erase (nxt x)) where
  ring := h.ring.remove hx hne
  pos y hy := h.pos y (Finset.mem_of_mem_erase hy)
  apart y hy z hz := h.apart y (Finset.mem_of_mem_erase hy) z (Finset.mem_of_mem_erase hz)

theorem tight_remove (h : FreeRing nxt size B) (ht : Tight nxt size B) (hx : x ∈ B) (hne : nxt x ≠ x) :
    Tight (update nxt x (nxt (nxt x))) size (B.erase (nxt x)) := by
  refine (h.remove hx hne).tight_of_gap ?_
  intro y hy z hz
  exact h.gap ht (Finset.mem_of_mem_erase hy) (Finset.mem_of_mem_erase hz)

section Cut

variable (h : FreeRing nxt size B) (hx : x ∈ B) (hk : 0 < k) (hlt : k < size (nxt x))
include h hx hk hlt

/-- Inside a block no other one begins. -/
theorem new_notMem_cut : nxt x + k ∉ B := by
  intro hm
  have := h.apart _ (h.next_mem hx) _ hm (by omega)
  omega

/-- The other blocks keep their sizes when a block is cut. -/
theorem size_cut (hy : y ∈ B.erase (nxt x)) : update size (nxt x + k) (size (nxt x) - k) y = size y := by
  refine update_of_ne ?_ _ _
  rintro rfl
  exact h.new_notMem_cut hx hk hlt (Finset.mem_of_mem_erase hy)

/-- The links after the front of the block behind `x` is taken out. -/
theorem ring_cut (hne : nxt x ≠ x) : Ring (Insert.insert (nxt x + k) (B.erase (nxt x)))
    (update (update nxt (nxt x + k) (nxt (nxt x))) x (nxt x + k)) := by
  have hyB := h.next_mem hx
  obtain ⟨hvB, hv⟩ := h.ring (nxt x) hyB
  have hn := h.new_notMem_cut hx hk hlt
  have hp : Place nxt (nxt x + k) (nxt x) := by
    rcases Nat.lt_or_ge (nxt x) (nxt (nxt x)) with hlt' | hge
    · have := h.apart (nxt x) hyB _ hvB hlt'
      exact Or.inl ⟨by omega, by omega⟩
    · exact Or.inr ⟨hge, Or.inl (by omega)⟩
  -- the rest linked in behind the block, and then the block linked out behind `x`
  have hins := h.ring.insert hn hyB hp
  have hxk : x ≠ nxt x + k := fun he => hn (he ▸ hx)
  have hnx : update (update nxt (nxt x + k) (nxt (nxt x))) (nxt x) (nxt x + k) x = nxt x := by
    rw [update_of_ne hne.symm, update_of_ne hxk]
  have hr := hins.remove (Finset.mem_insert_of_mem hx) (by rw [hnx]; exact hne)
  rw [hnx, Finset.erase_insert_of_ne (by omega), update_self] at hr
  refine hr.congr ?_
  intro z hz
  by_cases hzx : z = x
  · rw [hzx, update_self, update_self]
  · have hzy : z ≠ nxt x := by
      rcases Finset.mem_insert.mp hz with rfl | hz
      · omega
      · exact Finset.ne_of_mem_erase hz
    rw [update_of_ne hzx, update_of_ne hzx, update_of_ne hzy]

/-- The blocks that are left when the front of the block behind `x` is taken keep their room. -/
theorem gap_cut (ht : Tight nxt size B) : ∀ y ∈ Insert.insert (nxt x + k) (B.erase (nxt x)),
    ∀ z ∈ Insert.insert (nxt x + k) (B.erase (nxt x)), y < z →
      y + update size (nxt x + k) (size (nxt x) - k) y < z := by
  have hyB := h.next_mem hx
  intro y hy z hz hyz
  rcases Finset.mem_insert.mp hy with rfl | hy
  · rw [update_self]
    rcases Finset.mem_insert.mp hz with rfl | hz
    · omega
    · have := h.gap ht hyB (Finset.mem_of_mem_erase hz) (by omega)
      omega
  · obtain ⟨hyne, hy⟩ := Finset.mem_erase.mp hy
    have hyn : y ≠ nxt x + k := by
      rintro rfl
      have := h.gap ht hyB hy (by omega)
      omega
    rw [update_of_ne hyn]
    rcases Finset.mem_insert.mp hz with rfl | hz
    · rcases Nat.lt_or_ge y (nxt x) with hl | hh
      · have := h.gap ht hy hyB hl
        omega
      · have := h.gap ht hyB hy (by omega)
        omega
    · exact h.gap ht hy (Finset.mem_of_mem_erase hz) hyz

/-- The front of the block behind `x` taken out, with the rest of it in its place. -/
theorem cut (hne : nxt x ≠ x) (ht : Tight nxt size B) : FreeRing (update (update nxt (nxt x + k) (nxt (nxt x))) x (nxt x + k))
    (update size (nxt x + k) (size (nxt x) - k)) (Insert.insert (nxt x + k) (B.erase (nxt x))) where
  ring := h.ring_cut hx hk hlt hne
  pos y hy := by
    by_cases hyn : y = nxt x + k
    · rw [hyn, update_self]
      omega
    · rw [update_of_ne hyn]
      exact h.pos y (Finset.mem_of_mem_erase (Finset.mem_of_mem_insert_of_ne hy hyn))
  apart y hy z hz hyz := (h.gap_cut hx hk hlt ht y hy z hz hyz).le

/-- The cells of a block that is cut: its front, and those of the ring with the rest. -/
theorem region_cut : region size B = Set.Ico (nxt x) (nxt x + k) ∪
    region (update size (nxt x + k) (size (nxt x) - k)) (Insert.insert (nxt x + k) (B.erase (nxt x))) := by
  rw [region_insert, region_congr fun y hy => h.size_cut hx hk hlt hy, update_self, region_erase (h.next_mem hx), ← Set.union_assoc,
    show nxt x + k + (size (nxt x) - k) = nxt x + size (nxt x) by omega,
    Set.Ico_union_Ico_eq_Ico (by omega) (by omega)]

theorem disjoint_cut : Disjoint (Set.Ico (nxt x) (nxt x + k))
    (region (update size (nxt x + k) (size (nxt x) - k)) (Insert.insert (nxt x + k) (B.erase (nxt x)))) := by
  rw [Set.disjoint_left]
  rintro a ⟨h1, h2⟩ ⟨y, hy, hay⟩
  rcases Finset.mem_insert.mp hy with rfl | hy
  · exact absurd hay.1 (by omega)
  · rw [h.size_cut hx hk hlt hy] at hay
    exact Finset.ne_of_mem_erase hy (h.eq_of_mem (Finset.mem_of_mem_erase hy) (h.next_mem hx) hay ⟨h1, by omega⟩)

/-- The size of a block that is cut: its front, and that of the ring with the rest. -/
theorem sum_cut : k + ∑ y ∈ Insert.insert (nxt x + k) (B.erase (nxt x)),
    update size (nxt x + k) (size (nxt x) - k) y = ∑ y ∈ B, size y := by
  have hn := h.new_notMem_cut hx hk hlt
  rw [Finset.sum_insert (fun hm => hn (Finset.mem_of_mem_erase hm)), update_self,
    ← Finset.add_sum_erase _ _ (h.next_mem hx)]
  have hs : ∑ y ∈ B.erase (nxt x), update size (nxt x + k) (size (nxt x) - k) y =
      ∑ y ∈ B.erase (nxt x), size y := Finset.sum_congr rfl fun y hy => h.size_cut hx hk hlt hy
  omega

end Cut

end FreeRing

end Rings
