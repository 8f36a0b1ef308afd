import Ucore.Lemmas.Bitmap

/-!
# A bitmap behaves as a set

From `bitmap_create` on, `bitmap_alloc` and `bitmap_free` may be called in any order. After every such run the words hold the set
that the calls leave (`holds_of_bitmapReach`), so each further call does what it does on the set (`bitmap_behaves_as_set`).
-/

namespace Ucore

open Checked BitmapAux

/-- The bitmap and the set of free indices after a run of calls from `b₀`, which has `n` indices. -/
inductive BitmapReach (n : Nat) (b₀ : Bitmap) : Bitmap → Finset Nat → Prop
  | create : BitmapReach n b₀ b₀ (Finset.range n)
  | alloc {b b' : Bitmap} {S : Finset Nat} {i : Nat} : BitmapReach n b₀ b S → bitmapAlloc b = .ok (some (i, b')) →
      BitmapReach n b₀ b' (S.erase i)
  | free {b b' : Bitmap} {S : Finset Nat} (i : Nat) : BitmapReach n b₀ b S → i < n → i ∉ S → bitmapFree b i = .ok b' →
      BitmapReach n b₀ b' (insert i S)

/-- What every call does on a bitmap whose free indices are `S`. -/
structure Bitmap.Behaves (b : Bitmap) (n : Nat) (S : Finset Nat) : Prop where
  inside : S ⊆ Finset.range n
  alloc : (S = ∅ ∧ bitmapAlloc b = .ok none) ∨ ∃ i ∈ S, (∀ j ∈ S, i ≤ j) ∧ ∃ b', bitmapAlloc b = .ok (some (i, b'))
  free : ∀ i < n, i ∉ S → ∃ b', bitmapFree b i = .ok b'
  test : ∀ i < n, bitmapTest b i = .ok (decide (i ∈ S))

namespace BitmapAux

variable {b b₀ b' : Bitmap} {n i : Nat} {S : Finset Nat}

/-- The words hold the set `S`. -/
structure Holds (b : Bitmap) (n : Nat) (S : Finset Nat) : Prop where
  nbits : b.nbits = n
  room : n ≤ b.nwords * 32
  free : b.free = S
  inside : S ⊆ Finset.range n

theorem Holds.behaves (h : Holds b n S) : b.Behaves n S := by
  obtain ⟨rfl, hro, rfl, hin⟩ := h
  refine ⟨hin, ?_, ?_, fun i hi => bitmapTest_spec hi hro⟩
  · rcases bitmapAlloc_spec b with hn | ⟨i, hi, hm, b', hr, -⟩
    · exact Or.inl hn
    · exact Or.inr ⟨i, hi, hm, b', hr⟩
  · intro i hi hu
    obtain ⟨b', hr, -⟩ := bitmapFree_spec hi hro hu
    exact ⟨b', hr⟩

theorem Holds.alloc (h : Holds b n S) (hr : bitmapAlloc b = .ok (some (i, b'))) : Holds b' n (S.erase i) := by
  obtain ⟨rfl, hro, rfl, hin⟩ := h
  rcases bitmapAlloc_spec b with ⟨-, hn⟩ | ⟨j, -, -, b'', hs, hnb, hnw, hf⟩
  · rw [hr] at hn
    cases hn
  · rw [hr] at hs
    cases hs
    exact ⟨hnb, hnw ▸ hro, hf, (Finset.erase_subset _ _).trans hin⟩

theorem Holds.release (h : Holds b n S) (hi : i < n) (hu : i ∉ S) (hr : bitmapFree b i = .ok b') :
    Holds b' n (insert i S) := by
  obtain ⟨rfl, hro, rfl, hin⟩ := h
  obtain ⟨b'', hok, hnb, hn, hf⟩ := bitmapFree_spec hi hro hu
  rw [hr] at hok
  cases hok
  exact ⟨hnb, hn ▸ hro, hf, Finset.insert_subset (Finset.mem_range.mpr hi) hin⟩

/-- Every call keeps that the words hold the set, so a whole run does. -/
theorem holds_of_bitmapReach (h₀ : Holds b₀ n (Finset.range n)) (hr : BitmapReach n b₀ b S) : Holds b n S := by
  induction hr with
  | create => exact h₀
  | alloc _ hrun ih => exact ih.alloc hrun
  | free i _ hi hu hrun ih => exact ih.release hi hu hrun

end BitmapAux

/-- `bitmap_create` succeeds, and after every run of calls on its result the bitmap behaves as the set that the run leaves, which
starts as all the indices. -/
theorem bitmap_behaves_as_set (n : Nat) (hne : n ≠ 0) (hlt : n + 32 < 2 ^ 32) : ∃ b₀, bitmapCreate n = .ok b₀ ∧
    ∀ b S, BitmapReach n b₀ b S → b.Behaves n S := by
  obtain ⟨b₀, hrun, hnbits, hroom, hfree⟩ := bitmapCreate_spec hne hlt
  exact ⟨b₀, hrun, fun b S hr => (holds_of_bitmapReach ⟨hnbits, hroom, hfree, subset_rfl⟩ hr).behaves⟩

/-- A bitmap of 33 indices, whose last word has one of them. -/
theorem bitmap_behaves_as_set_over : ∃ b₀, bitmapCreate 33 = .ok b₀ ∧ ∀ b S, BitmapReach 33 b₀ b S → b.Behaves 33 S :=
  bitmap_behaves_as_set 33 (by decide) (by decide)

end Ucore
