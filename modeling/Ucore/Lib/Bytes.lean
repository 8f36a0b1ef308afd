import Mathlib.Algebra.Group.Nat.Defs
import Mathlib.Logic.Function.Basic

/-!
# Bytes and little-endian words

A buffer is the byte at each offset. `patch` copies bytes into a buffer, `word` reads four of them as a little-endian number, and
`slice` takes some of them as a list.
-/

namespace Bytes

variable {f g : Nat → UInt8} {i k len n o : Nat}

/-- The byte `k` of a number. -/
def byteOf (n k : Nat) : UInt8 := UInt8.ofNat (n / 256 ^ k)

/-- The four bytes at `o` as a number. -/
def word (f : Nat → UInt8) (o : Nat) : Nat :=
  (f o).toNat + 256 * (f (o + 1)).toNat + 65536 * (f (o + 2)).toNat + 16777216 * (f (o + 3)).toNat

/-- The two bytes at `o` as a number. -/
def half (f : Nat → UInt8) (o : Nat) : Nat := (f o).toNat + 256 * (f (o + 1)).toNat

/-- The buffer `f` with the first `len` bytes of `g` copied to `o`. -/
def patch (f : Nat → UInt8) (o len : Nat) (g : Nat → UInt8) : Nat → UInt8 :=
  fun i => if o ≤ i ∧ i < o + len then g (i - o) else f i

/-- Inside the patch. -/
theorem patch_of_mem (h1 : o ≤ i) (h2 : i < o + len) : patch f o len g i = g (i - o) := if_pos ⟨h1, h2⟩

/-- Outside the patch. -/
theorem patch_of_not (h : i < o ∨ o + len ≤ i) : patch f o len g i = f i := if_neg (by omega)

theorem word_lt : word f o < 2 ^ 32 := by
  have h0 := (f o).toNat_lt
  have h1 := (f (o + 1)).toNat_lt
  have h2 := (f (o + 2)).toNat_lt
  have h3 := (f (o + 3)).toNat_lt
  unfold word
  omega

/-- A word is that of its four bytes. -/
theorem word_congr (h : ∀ k < 4, f (o + k) = g (o + k)) : word f o = word g o := by
  have h0 := h 0 (by omega)
  rw [Nat.add_zero] at h0
  unfold word
  rw [h0, h 1 (by omega), h 2 (by omega), h 3 (by omega)]

/-- Four zeros are the word zero. -/
theorem word_zero (h : ∀ k < 4, f (o + k) = 0) : word f o = 0 := by
  have h0 := h 0 (by omega)
  rw [Nat.add_zero] at h0
  unfold word
  rw [h0, h 1 (by omega), h 2 (by omega), h 3 (by omega)]
  rfl

/-- The bytes of a number are read back as the number. -/
theorem word_byteOf (hn : n < 2 ^ 32) (h : ∀ k < 4, f (o + k) = byteOf n k) : word f o = n := by
  have h0 := h 0 (by omega)
  rw [Nat.add_zero] at h0
  unfold word
  rw [h0, h 1 (by omega), h 2 (by omega), h 3 (by omega)]
  simp only [byteOf, UInt8.toNat_ofNat']
  omega

/-- The bytes of a number read from four bytes are these bytes. -/
theorem byteOf_word (hk : k < 4) : byteOf (word f o) k = f (o + k) := by
  have h0 := (f o).toNat_lt
  have h1 := (f (o + 1)).toNat_lt
  have h2 := (f (o + 2)).toNat_lt
  have h3 := (f (o + 3)).toNat_lt
  rw [byteOf, ← UInt8.toNat_inj, UInt8.toNat_ofNat']
  unfold word
  rcases (show k = 0 ∨ k = 1 ∨ k = 2 ∨ k = 3 by omega) with rfl | rfl | rfl | rfl
  · change _ = (f o).toNat
    omega
  · omega
  · omega
  · omega

/-- Two bytes of a small number give it back. -/
theorem half_byteOf (hn : n < 2 ^ 16) (h : ∀ k < 2, f (o + k) = byteOf n k) : half f o = n := by
  have h0 := h 0 (by omega)
  rw [Nat.add_zero] at h0
  unfold half
  rw [h0, h 1 (by omega)]
  simp only [byteOf, UInt8.toNat_ofNat']
  omega

/-- A word that was written is read back. -/
theorem word_patch_self (hn : n < 2 ^ 32) : word (patch f o 4 (byteOf n)) o = n := by
  refine word_byteOf hn ?_
  intro k hk
  rw [patch_of_mem (by omega) (by omega), Nat.add_sub_cancel_left]

/-- A word apart from the patch is as before. -/
theorem word_patch_of_apart (h : i + 4 ≤ o ∨ o + len ≤ i) : word (patch f o len g) i = word f i := by
  refine word_congr ?_
  intro k hk
  exact patch_of_not (by omega)

/-- A patch is that of its bytes. -/
theorem patch_congr {g' : Nat → UInt8} (h : ∀ k < len, g k = g' k) : patch f o len g = patch f o len g' := by
  funext i
  by_cases hi : o ≤ i ∧ i < o + len
  · rw [patch_of_mem hi.1 hi.2, patch_of_mem hi.1 hi.2, h _ (by omega)]
  · rw [patch_of_not (by omega), patch_of_not (by omega)]

@[simp] theorem patch_zero : patch f o 0 g = f := by
  funext i
  exact patch_of_not (by omega)

/-- Two ranges that follow each other are copied as one. -/
theorem patch_patch {m : Nat} : patch (patch f o len g) (o + len) m (fun k => g (len + k)) = patch f o (len + m) g := by
  funext i
  by_cases h1 : o ≤ i ∧ i < o + len
  · rw [patch_of_not (by omega), patch_of_mem h1.1 h1.2, patch_of_mem h1.1 (by omega)]
  · by_cases h2 : o + len ≤ i ∧ i < o + len + m
    · rw [patch_of_mem h2.1 h2.2, patch_of_mem (by omega) (by omega)]
      exact congrArg g (by omega)
    · rw [patch_of_not (by omega), patch_of_not (by omega), patch_of_not (by omega)]

/-! ## Byte strings -/

/-- The `n` bytes at `o`. -/
def slice (f : Nat → UInt8) (o n : Nat) : List UInt8 := (List.range n).map fun k => f (o + k)

@[simp] theorem length_slice : (slice f o n).length = n := by
  rw [slice, List.length_map, List.length_range]

/-- Slices of the same bytes. -/
theorem slice_congr (h : ∀ k < n, f (o + k) = g (i + k)) : slice f o n = slice g i n := by
  refine List.map_congr_left ?_
  intro k hk
  exact h k (List.mem_range.mp hk)

/-- A slice goes on with the next one. -/
theorem slice_append (f : Nat → UInt8) (o n m : Nat) : slice f o (n + m) = slice f o n ++ slice f (o + n) m := by
  unfold slice
  rw [List.range_add, List.map_append, List.map_map]
  congr 1
  refine List.map_congr_left ?_
  intro k _
  exact congrArg f (Nat.add_assoc o n k).symm

/-- The front of a slice. -/
theorem take_slice (hk : k ≤ n) : (slice f o n).take k = slice f o k := by
  obtain ⟨m, rfl⟩ := Nat.exists_eq_add_of_le hk
  rw [slice_append]
  exact List.take_left' length_slice

/-- The rest of a slice. -/
theorem drop_slice (f : Nat → UInt8) (o k n : Nat) : (slice f o n).drop k = slice f (o + k) (n - k) := by
  by_cases hk : k ≤ n
  · obtain ⟨m, rfl⟩ := Nat.exists_eq_add_of_le hk
    rw [slice_append, Nat.add_sub_cancel_left]
    exact List.drop_left' length_slice
  · rw [List.drop_eq_nil_of_le (by rw [length_slice]; omega), Nat.sub_eq_zero_of_le (by omega)]
    rfl

/-- A slice of zeros. -/
theorem slice_zeros (h : ∀ k < n, f (o + k) = 0) : slice f o n = List.replicate n 0 := by
  refine List.eq_replicate_iff.mpr ⟨length_slice, ?_⟩
  intro b hb
  obtain ⟨k, hk, rfl⟩ := List.mem_map.mp hb
  exact h k (List.mem_range.mp hk)

/-- A byte string of which `a` bytes at `o` are replaced, and which is as long as it needs to be for them. -/
theorem slice_patch {a : Nat} (ho : o ≤ n) : slice (patch f o a g) 0 (max n (o + a)) =
    (slice f 0 n).take o ++ slice g 0 a ++ (slice f 0 n).drop (o + a) := by
  have hl : max n (o + a) = o + a + (n - (o + a)) := by omega
  rw [hl, slice_append, slice_append, take_slice ho, drop_slice]
  congr 1
  · congr 1
    · refine slice_congr ?_
      intro k hk
      exact patch_of_not (by omega)
    · refine slice_congr ?_
      intro k hk
      rw [patch_of_mem (by omega) (by omega)]
      exact congrArg g (by omega)
  · refine slice_congr ?_
    intro k hk
    exact patch_of_not (by omega)

end Bytes
