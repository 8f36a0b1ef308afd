import Mathlib.Data.Set.Card
import Mathlib.Order.Interval.Finset.Nat
import Mathlib.Order.CompletePartialOrder

/-!
# Blocks of addresses

A block is given by its first address; a function `sz` says how many addresses it holds. A list of blocks is `Separated` when
each block ends before the next one begins and none is empty; `extent` is the set of addresses the blocks hold and `total` how
many there are. The lemmas say what becomes of these when a block leaves the list, is added to it or changes its size. Blocks
that are `Gapped` do not touch each other either, and there is only one way to cut a set of addresses into such blocks.
-/

namespace Blocks

variable {sz sz' : Nat → Nat} {l l1 l2 : List Nat} {a b x : Nat}

/-- The blocks stand in address order, do not overlap and are not empty. -/
def Separated (sz : Nat → Nat) (l : List Nat) : Prop :=
  l.Pairwise (fun a b => a + sz a ≤ b) ∧ ∀ a ∈ l, 0 < sz a

/-- The addresses the blocks hold. -/
def extent (sz : Nat → Nat) (l : List Nat) : Set Nat := {x | ∃ a ∈ l, a ≤ x ∧ x < a + sz a}

/-- How many addresses the blocks hold. -/
def total (sz : Nat → Nat) (l : List Nat) : Nat := (l.map sz).sum

@[simp] theorem separated_nil (sz : Nat → Nat) : Separated sz [] := ⟨List.Pairwise.nil, by simp⟩

/-- A block before separated ones is not empty and ends before them. -/
theorem separated_cons : Separated sz (a :: l) ↔ 0 < sz a ∧ (∀ b ∈ l, a + sz a ≤ b) ∧ Separated sz l := by
  simp only [Separated, List.pairwise_cons, List.mem_cons, forall_eq_or_imp]
  exact ⟨fun ⟨⟨h1, h2⟩, h3, h4⟩ => ⟨h3, h1, h2, h4⟩, fun ⟨h3, h1, h2, h4⟩ => ⟨⟨h1, h2⟩, h3, h4⟩⟩

/-- Two parts of a separated list. -/
theorem separated_append : Separated sz (l1 ++ l2) ↔ Separated sz l1 ∧ Separated sz l2 ∧ ∀ a ∈ l1, ∀ b ∈ l2, a + sz a ≤ b := by
  simp only [Separated, List.pairwise_append, List.mem_append, or_imp, forall_and]
  exact ⟨fun ⟨⟨h1, h2, h3⟩, h4, h5⟩ => ⟨⟨h1, h4⟩, ⟨h2, h5⟩, h3⟩, fun ⟨⟨h1, h4⟩, ⟨h2, h5⟩, h3⟩ => ⟨⟨h1, h2, h3⟩, h4, h5⟩⟩

/-- The shape a block in the middle of the list gives. -/
theorem separated_middle : Separated sz (l1 ++ a :: l2) ↔
      Separated sz l1 ∧ Separated sz l2 ∧ 0 < sz a ∧ (∀ b ∈ l1, b + sz b ≤ a) ∧ (∀ b ∈ l2, a + sz a ≤ b) ∧
        ∀ b ∈ l1, ∀ c ∈ l2, b + sz b ≤ c := by
  simp only [separated_append, separated_cons, List.mem_cons, forall_eq_or_imp]
  exact ⟨fun ⟨h1, ⟨h2, h3, h4⟩, h5⟩ => ⟨h1, h4, h2, fun b hb => (h5 b hb).1, h3, fun b hb => (h5 b hb).2⟩,
    fun ⟨h1, h4, h2, h5, h3, h6⟩ => ⟨h1, ⟨h2, h3, h4⟩, fun b hb => ⟨h5 b hb, h6 b hb⟩⟩⟩

section

variable (h : Separated sz l)
include h

/-- The first addresses of separated blocks increase. -/
theorem Separated.strictlyIncreasing : l.Pairwise (· < ·) := by
  refine h.1.imp_of_mem ?_
  intro a b ha _ hab
  have := h.2 a ha
  omega

/-- Separated blocks are distinct. -/
theorem Separated.nodup : l.Nodup :=
  h.strictlyIncreasing.imp (fun hab => hab.ne)

/-- Separated blocks hold different addresses. -/
theorem Separated.disjoint : l.Pairwise (fun a b => Disjoint (Set.Ico a (a + sz a)) (Set.Ico b (b + sz b))) := by
  refine h.1.imp ?_
  intro a b hab
  rw [Set.disjoint_left]
  intro x hx hx'
  simp only [Set.mem_Ico] at hx hx'
  omega

/-- Two different blocks of the list: one ends before the other begins. -/
theorem Separated.apart (ha : a ∈ l) (hb : b ∈ l) (hne : a ≠ b) : a + sz a ≤ b ∨ b + sz b ≤ a := by
  obtain ⟨l1, l2, rfl⟩ := List.append_of_mem ha
  obtain ⟨-, -, -, hl, hr, -⟩ := separated_middle.mp h
  rcases List.mem_append.mp hb with hb | hb
  · exact Or.inr (hl b hb)
  · rcases List.mem_cons.mp hb with rfl | hb
    · exact absurd rfl hne
    · exact Or.inl (hr b hb)

/-- Only the sizes of the blocks themselves matter. -/
theorem Separated.congr (hs : ∀ a ∈ l, sz' a = sz a) : Separated sz' l := by
  refine ⟨h.1.imp_of_mem ?_, ?_⟩
  · intro a b ha _ hab
    rw [hs a ha]
    exact hab
  · intro a ha
    rw [hs a ha]
    exact h.2 a ha

end

@[simp] theorem mem_extent : x ∈ extent sz l ↔ ∃ a ∈ l, a ≤ x ∧ x < a + sz a := Iff.rfl

@[simp] theorem extent_nil (sz : Nat → Nat) : extent sz [] = ∅ := by
  ext x
  simp

/-- The cells of the first block and of the others. -/
theorem extent_cons (sz : Nat → Nat) (a : Nat) (l : List Nat) : extent sz (a :: l) = Set.Ico a (a + sz a) ∪ extent sz l := by
  ext x
  simp

/-- The cells of two parts of a list. -/
theorem extent_append (sz : Nat → Nat) (l1 l2 : List Nat) : extent sz (l1 ++ l2) = extent sz l1 ∪ extent sz l2 := by
  ext x
  simp only [mem_extent, List.mem_append, Set.mem_union]
  constructor
  · rintro ⟨a, ha | ha, h⟩
    · exact Or.inl ⟨a, ha, h⟩
    · exact Or.inr ⟨a, ha, h⟩
  · rintro (⟨a, ha, h⟩ | ⟨a, ha, h⟩)
    · exact ⟨a, Or.inl ha, h⟩
    · exact ⟨a, Or.inr ha, h⟩

/-- The cells of a block within a list and of the others. -/
theorem extent_middle (sz : Nat → Nat) (l1 l2 : List Nat) (a : Nat) :
    extent sz (l1 ++ a :: l2) = Set.Ico a (a + sz a) ∪ extent sz (l1 ++ l2) := by
  rw [extent_append, extent_append, extent_cons, Set.union_left_comm]

/-- A block in the middle of separated blocks holds no address of the others. -/
theorem Separated.disjoint_middle (h : Separated sz (l1 ++ a :: l2)) :
    Disjoint (Set.Ico a (a + sz a)) (extent sz (l1 ++ l2)) := by
  obtain ⟨-, -, -, hl, hr, -⟩ := separated_middle.mp h
  rw [Set.disjoint_left]
  rintro x hx ⟨b, hb, hbx⟩
  rw [Set.mem_Ico] at hx
  rcases List.mem_append.mp hb with hb | hb
  · have := hl b hb
    omega
  · have := hr b hb
    omega

/-- The cells are those of the sizes of the blocks. -/
theorem extent_congr (hs : ∀ a ∈ l, sz' a = sz a) : extent sz' l = extent sz l := by
  ext x
  constructor
  · rintro ⟨a, ha, h⟩
    exact ⟨a, ha, by rw [← hs a ha]; exact h⟩
  · rintro ⟨a, ha, h⟩
    exact ⟨a, ha, by rw [hs a ha]; exact h⟩

@[simp] theorem total_nil (sz : Nat → Nat) : total sz [] = 0 := rfl

@[simp] theorem total_cons (sz : Nat → Nat) (a : Nat) (l : List Nat) : total sz (a :: l) = sz a + total sz l := by
  simp [total]

@[simp] theorem total_append (sz : Nat → Nat) (l1 l2 : List Nat) : total sz (l1 ++ l2) = total sz l1 + total sz l2 := by
  simp [total]

/-- The total is that of the sizes of the blocks. -/
theorem total_congr (hs : ∀ a ∈ l, sz' a = sz a) : total sz' l = total sz l := by
  unfold total
  rw [List.map_congr_left hs]

/-- A block of the list holds no more than all of them. -/
theorem le_total (ha : a ∈ l) : sz a ≤ total sz l := by
  obtain ⟨l1, l2, rfl⟩ := List.append_of_mem ha
  rw [total_append, total_cons]
  omega

/-- Finitely many blocks have finitely many cells. -/
theorem finite_extent (sz : Nat → Nat) (l : List Nat) : (extent sz l).Finite := by
  induction l with
  | nil => simp
  | cons a l ih =>
    rw [extent_cons]
    exact (Set.finite_Ico a (a + sz a)).union ih

/-- Blocks that do not overlap hold as many addresses as they are long. -/
theorem Separated.total_eq_ncard (h : Separated sz l) : total sz l = (extent sz l).ncard := by
  induction l with
  | nil => simp
  | cons a l ih =>
    obtain ⟨-, hle, hr⟩ := separated_cons.mp h
    have hd : Disjoint (Set.Ico a (a + sz a)) (extent sz l) := by
      rw [Set.disjoint_left]
      rintro x ⟨-, hx⟩ ⟨b, hb, hbx, -⟩
      have := hle b hb
      omega
    have hc : (Set.Ico a (a + sz a)).ncard = sz a := by
      rw [← Finset.coe_Ico, Set.ncard_coe_finset, Nat.card_Ico, Nat.add_sub_cancel_left]
    rw [total_cons, extent_cons, Set.ncard_union_eq hd (Set.finite_Ico _ _) (finite_extent sz l), hc, ih hr]

/-! ## Blocks that do not touch -/

/-- The blocks stand in address order with an address between any two. -/
def Gapped (sz : Nat → Nat) (l : List Nat) : Prop := l.Pairwise (fun a b => a + sz a < b)

/-- A block within a list of blocks that do not touch. -/
theorem gapped_middle : Gapped sz (l1 ++ a :: l2) ↔ Gapped sz (l1 ++ l2) ∧ (∀ b ∈ l1, b + sz b < a) ∧ ∀ b ∈ l2, a + sz a < b := by
  simp only [Gapped, List.pairwise_append, List.pairwise_cons, List.mem_cons, forall_eq_or_imp]
  exact ⟨fun ⟨h1, ⟨h2, h3⟩, h4⟩ => ⟨⟨h1, h3, fun b hb => (h4 b hb).2⟩, fun b hb => (h4 b hb).1, h2⟩,
    fun ⟨⟨h1, h3, h4⟩, h5, h2⟩ => ⟨h1, ⟨h2, h3⟩, fun b hb => ⟨h5 b hb, h4 b hb⟩⟩⟩

/-- Only the sizes of the blocks themselves matter. -/
theorem Gapped.congr (h : Gapped sz l) (hs : ∀ a ∈ l, sz' a = sz a) : Gapped sz' l := by
  refine h.imp_of_mem ?_
  intro a b ha _ hab
  rw [hs a ha]
  exact hab

/-- The address behind a block belongs to no block. -/
theorem Gapped.end_not_mem (h : Gapped sz l) (ha : a ∈ l) : a + sz a ∉ extent sz l := by
  rintro ⟨b, hb, hle, hlt⟩
  obtain ⟨l1, l2, rfl⟩ := List.append_of_mem ha
  obtain ⟨-, hl, hr⟩ := gapped_middle.mp h
  rcases List.mem_append.mp hb with hb | hb
  · have := hl b hb
    omega
  · rcases List.mem_cons.mp hb with rfl | hb
    · omega
    · have := hr b hb
      omega

/-- The blocks begin where the addresses begin: at an address whose predecessor, if it has one, belongs to no block. -/
theorem Gapped.mem_iff (h : Gapped sz l) (hs : Separated sz l) :
    a ∈ l ↔ a ∈ extent sz l ∧ ∀ x, x + 1 = a → x ∉ extent sz l := by
  constructor
  · intro ha
    refine ⟨⟨a, ha, Nat.le_refl a, Nat.lt_add_of_pos_right (hs.2 a ha)⟩, ?_⟩
    rintro x rfl ⟨b, hb, hle, hlt⟩
    -- the block of `x` ends right before the block at `x + 1`
    have hne : b ≠ x + 1 := by omega
    have he : b + sz b = x + 1 := by
      rcases hs.apart hb ha hne with hba | hab
      · omega
      · omega
    refine h.end_not_mem hb ⟨x + 1, ha, he.symm.le, ?_⟩
    have := hs.2 (x + 1) ha
    omega
  · rintro ⟨⟨b, hb, hle, hlt⟩, hno⟩
    rcases Nat.eq_or_lt_of_le hle with rfl | hlt'
    · exact hb
    · exact absurd ⟨b, hb, by omega, by omega⟩ (hno (a - 1) (by omega))

/-- Blocks that do not touch are determined by the addresses they hold. -/
theorem Gapped.eq_of_extent_eq (h : Gapped sz l1) (hs : Separated sz l1) (h' : Gapped sz' l2) (hsep' : Separated sz' l2)
    (he : extent sz l1 = extent sz' l2) : l1 = l2 ∧ ∀ a ∈ l1, sz a = sz' a := by
  have hl : l1 = l2 := by
    refine hs.strictlyIncreasing.eq_of_mem_iff hsep'.strictlyIncreasing ?_
    intro a
    rw [h.mem_iff hs, h'.mem_iff hsep', he]
  subst hl
  refine ⟨rfl, ?_⟩
  intro a ha
  have h1 := h.end_not_mem ha
  have h2 := h'.end_not_mem ha
  rcases Nat.lt_trichotomy (sz a) (sz' a) with hlt | heq | hlt
  · rw [he] at h1
    exact absurd ⟨a, ha, by omega, by omega⟩ h1
  · exact heq
  · rw [← he] at h2
    exact absurd ⟨a, ha, by omega, by omega⟩ h2

end Blocks
