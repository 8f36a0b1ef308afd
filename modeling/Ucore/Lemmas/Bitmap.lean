import Mathlib.Data.Finset.Basic
import Ucore.Bitmap

/-!
# A bitmap is the set of its free indices

The words of a bitmap hold a set of indices (`Bitmap.free`). A new bitmap holds all of them (`bitmapCreate_spec`), `bitmap_alloc`
takes the least element out (`bitmapAlloc_spec`), `bitmap_free` puts an index in (`bitmapFree_spec`), and `bitmap_test` tells what
is in it (`bitmapTest_spec`).
-/

namespace Ucore

open Checked Function

namespace Bitmap

/-- The bit of an index. -/
def bit (b : Bitmap) (i : Nat) : Bool := (b.map (i / 32)).getLsbD (i % 32)

/-- The free indices. -/
def free (b : Bitmap) : Finset Nat := (Finset.range (b.nwords * 32)).filter fun i => b.bit i = true

end Bitmap

namespace BitmapAux

variable {b b' : Bitmap} {w : BitVec 32} {i ix k n : Nat}

theorem mem_free : i ∈ b.free ↔ i < b.nwords * 32 ∧ b.bit i = true := by
  rw [Bitmap.free, Finset.mem_filter, Finset.mem_range]

theorem and_mask (hi : i < 32) : w &&& (1#32 <<< i) ≠ 0#32 ↔ w.getLsbD i = true := by
  rw [← BitVec.twoPow_eq, BitVec.and_twoPow]
  by_cases h : w.getLsbD i = true
  · simp only [h, if_true, iff_true]
    intro h0
    have := congrArg (fun v => v.getLsbD i) h0
    simp [hi] at this
  · simp [h]

theorem getLsbD_mask (hi : i < 32) (k : Nat) : (1#32 <<< i).getLsbD k = decide (k = i) := by
  rw [← BitVec.twoPow_eq]
  by_cases h : k = i
  · simp [h, hi]
  · simp [h, Ne.symm h]

/-- The loop turns the bits from `k` on over and leaves those below. -/
theorem getLsbD_clearOver (hs : n + k = 32) (hi : i < 32) :
    (clearOver n k w).getLsbD i = if k ≤ i then !w.getLsbD i else w.getLsbD i := by
  induction n generalizing k w with
  | zero => simp [clearOver, show ¬k ≤ i by omega]
  | succ n ih =>
    simp only [clearOver, ih (by omega : n + (k + 1) = 32), BitVec.getLsbD_xor, getLsbD_mask (by omega : k < 32)]
    rcases Nat.lt_trichotomy i k with h | rfl | h
    · simp [show ¬k + 1 ≤ i by omega, show ¬k ≤ i by omega, show i ≠ k by omega]
    · simp
    · simp [show k + 1 ≤ i by omega, show k ≤ i by omega, show i ≠ k by omega]

/-- The first bit of a word that is set, from `k` on. -/
theorem findOffset_spec (hs : n + k = 32) :
    (∃ o, findOffset w n k = some o ∧ k ≤ o ∧ o < 32 ∧ w.getLsbD o = true ∧ ∀ j, k ≤ j → j < o → w.getLsbD j = false) ∨
      (findOffset w n k = none ∧ ∀ j, k ≤ j → j < 32 → w.getLsbD j = false) := by
  induction n generalizing k with
  | zero => exact Or.inr ⟨rfl, fun j h1 h2 => absurd h2 (by omega)⟩
  | succ n ih =>
    unfold findOffset
    by_cases hb : w.getLsbD k = true
    · refine Or.inl ⟨k, if_pos ((and_mask (by omega)).mpr hb), le_rfl, by omega, hb, ?_⟩
      intro j h1 h2
      omega
    · rw [if_neg (fun h => hb ((and_mask (by omega)).mp h))]
      have hf : ∀ j, k ≤ j → ¬k + 1 ≤ j → w.getLsbD j = false := by
        intro j h1 h2
        obtain rfl : j = k := by omega
        exact Bool.not_eq_true _ ▸ hb
      rcases ih (k := k + 1) (by omega) with ⟨o, hfi, h1, h2, h3, h4⟩ | ⟨hfi, h1⟩
      · refine Or.inl ⟨o, hfi, by omega, h2, h3, ?_⟩
        intro j hj hjo
        by_cases hk : k + 1 ≤ j
        · exact h4 j hk hjo
        · exact hf j hj hk
      · refine Or.inr ⟨hfi, ?_⟩
        intro j hj hjo
        by_cases hk : k + 1 ≤ j
        · exact h1 j hk hjo
        · exact hf j hj hk

/-- The bits of the other words stay when a word is written, and its own bits are those of the new word. -/
theorem bit_update : Bitmap.bit { b with map := update b.map ix w } i =
    if i / 32 = ix then w.getLsbD (i % 32) else b.bit i := by
  unfold Bitmap.bit
  dsimp only
  rw [update_apply]
  split <;> rfl

/-- A new bitmap has every index free, and no bit of the last word beyond them. -/
theorem bitmapCreate_spec (hne : n ≠ 0) (hlt : n + 32 < 2 ^ 32) : ∃ b, bitmapCreate n = .ok b ∧ b.nbits = n ∧
    n ≤ b.nwords * 32 ∧ b.free = Finset.range n := by
  unfold bitmapCreate
  rw [ensure_of ⟨hne, hlt⟩]
  dsimp only
  split
  · rw [ensure_of (by omega), ensure_of (by omega)]
    refine ⟨_, rfl, rfl, by dsimp only; omega, ?_⟩
    ext i
    have hm : i % 32 < 32 := Nat.mod_lt _ (by omega)
    simp only [mem_free, Bitmap.bit, update_apply, Finset.mem_range]
    by_cases hl : i / 32 = (n + 31) / 32 - 1
    · rw [if_pos hl, getLsbD_clearOver (by omega) hm, BitVec.getLsbD_allOnes]
      simp only [hm, decide_true, Bool.not_true, Bool.if_false_left, Bool.and_true, Bool.not_eq_true', decide_eq_false_iff_not]
      omega
    · simp only [if_neg hl, BitVec.getLsbD_allOnes, hm, decide_true, and_true]
      omega
  · rename_i hwhole
    refine ⟨_, rfl, rfl, by dsimp only; omega, ?_⟩
    ext i
    simp only [mem_free, Bitmap.bit, BitVec.getLsbD_allOnes, ← not_not.mp hwhole, Finset.mem_range]
    simp [Nat.mod_lt]

/-- The words from `ix` on, with none free before them. -/
theorem bitmapAllocLoop_spec (hs : n + ix = b.nwords) (hb : ∀ i ∈ b.free, ix * 32 ≤ i) :
    (b.free = ∅ ∧ bitmapAllocLoop b n ix = .ok none) ∨
      ∃ i ∈ b.free, (∀ j ∈ b.free, i ≤ j) ∧ ∃ b', bitmapAllocLoop b n ix = .ok (some (i, b')) ∧ b'.nbits = b.nbits ∧
        b'.nwords = b.nwords ∧ b'.free = b.free.erase i := by
  induction n generalizing ix with
  | zero =>
    refine Or.inl ⟨?_, rfl⟩
    rw [Finset.eq_empty_iff_forall_notMem]
    intro i hi
    have h1 := hb i hi
    have h2 := (mem_free.mp hi).1
    omega
  | succ n ih =>
    unfold bitmapAllocLoop
    by_cases hz : b.map ix = 0#32
    · rw [if_neg (not_not.mpr hz)]
      refine ih (by omega) ?_
      intro i hi
      have h1 := hb i hi
      by_contra hlt
      have hd : i / 32 = ix := by omega
      have hbit := (mem_free.mp hi).2
      unfold Bitmap.bit at hbit
      rw [hd, hz] at hbit
      simp at hbit
    · rw [if_pos hz]
      rcases findOffset_spec (k := 0) rfl with ⟨o, hfi, -, ho, hbit, hf⟩ | ⟨-, hn⟩
      · rw [hfi]
        have hd : (ix * 32 + o) / 32 = ix := by omega
        have hm : (ix * 32 + o) % 32 = o := by omega
        have hmem : ix * 32 + o ∈ b.free := by
          refine mem_free.mpr ⟨by omega, ?_⟩
          unfold Bitmap.bit
          rw [hd, hm]
          exact hbit
        refine Or.inr ⟨ix * 32 + o, hmem, ?_, _, rfl, rfl, rfl, ?_⟩
        · intro j hj
          have h1 := hb j hj
          by_contra hlt
          have hjd : j / 32 = ix := by omega
          have hjb := (mem_free.mp hj).2
          unfold Bitmap.bit at hjb
          rw [hjd, hf (j % 32) (by omega) (by omega)] at hjb
          nomatch hjb
        · ext j
          rw [Finset.mem_erase, mem_free, mem_free, bit_update]
          by_cases hj : j / 32 = ix
          · have hne : j ≠ ix * 32 + o ↔ j % 32 ≠ o := by omega
            rw [BitVec.getLsbD_xor, getLsbD_mask ho, hne]
            unfold Bitmap.bit
            rw [hj]
            by_cases hjo : j % 32 = o
            · simp [hjo, hbit]
            · simp [hjo]
          · rw [if_neg hj]
            have hne : j ≠ ix * 32 + o := by omega
            simp [hne]
      · refine absurd ?_ hz
        apply BitVec.eq_of_getLsbD_eq
        intro j hj
        rw [hn j (Nat.zero_le _) hj]
        simp

/-- `bitmap_alloc` takes the least free index, and fails where there is none. -/
theorem bitmapAlloc_spec (b : Bitmap) : (b.free = ∅ ∧ bitmapAlloc b = .ok none) ∨
    ∃ i ∈ b.free, (∀ j ∈ b.free, i ≤ j) ∧ ∃ b', bitmapAlloc b = .ok (some (i, b')) ∧ b'.nbits = b.nbits ∧
      b'.nwords = b.nwords ∧ b'.free = b.free.erase i :=
  bitmapAllocLoop_spec (Nat.add_zero _) (fun i _ => by omega)

theorem bitmapTranslate_of_lt (hi : i < b.nbits) : bitmapTranslate b i = .ok (i / 32, 1#32 <<< (i % 32)) := by
  unfold bitmapTranslate
  rw [ensure_of hi]
  rfl

/-- `bitmap_test` tells whether an index is free. -/
theorem bitmapTest_spec (hi : i < b.nbits) (hw : b.nbits ≤ b.nwords * 32) : bitmapTest b i = .ok (decide (i ∈ b.free)) := by
  unfold bitmapTest
  rw [bitmapTranslate_of_lt hi, bind_ok]
  dsimp only
  congr 1
  rw [decide_eq_decide, and_mask (Nat.mod_lt _ (by omega)), mem_free]
  exact ⟨fun h => ⟨by omega, h⟩, fun h => h.2⟩

/-- `bitmap_free` of an index that is in use. -/
theorem bitmapFree_spec (hi : i < b.nbits) (hw : b.nbits ≤ b.nwords * 32) (hf : i ∉ b.free) :
    ∃ b', bitmapFree b i = .ok b' ∧ b'.nbits = b.nbits ∧ b'.nwords = b.nwords ∧ b'.free = insert i b.free := by
  have hm : i % 32 < 32 := Nat.mod_lt _ (by omega)
  have hc : b.map (i / 32) &&& (1#32 <<< (i % 32)) = 0#32 := by
    by_contra h
    exact hf (mem_free.mpr ⟨by omega, (and_mask hm).mp h⟩)
  refine ⟨{ b with map := update b.map (i / 32) (b.map (i / 32) ||| (1#32 <<< (i % 32))) }, ?_, rfl, rfl, ?_⟩
  · unfold bitmapFree
    rw [bitmapTranslate_of_lt hi, bind_ok]
    dsimp only
    rw [ensure_of hc]
    rfl
  · ext j
    rw [Finset.mem_insert, mem_free, mem_free, bit_update]
    by_cases hj : j / 32 = i / 32
    · rw [BitVec.getLsbD_or, getLsbD_mask hm]
      unfold Bitmap.bit
      rw [hj]
      by_cases hjm : j % 32 = i % 32
      · have : j = i := by omega
        simp
        omega
      · have : j ≠ i := by
          rintro rfl
          exact hjm rfl
        simp [hjm, this]
    · have : j ≠ i := by
        rintro rfl
        exact hj rfl
      rw [if_neg hj]
      simp [this]

end BitmapAux

end Ucore
