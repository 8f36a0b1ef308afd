import Mathlib.Data.List.Nodup

/-!
# Hash lists

A table of lists, one for each value of a hash function, that holds the items of a set, here a list: each item is once in the list of its
own hash value and in no other (`Holds`). Inserting and erasing keep this, and looking for a key in the list of its hash value finds
the item that has the key.
-/

namespace Buckets

open Function

variable {α κ ι : Type} {hash hash' : α → κ} {table : κ → List α} {l : List α} {x : α}

/-- The table holds the items of `l`, each once, in the list of its hash value. -/
structure Holds (hash : α → κ) (table : κ → List α) (l : List α) : Prop where
  mem : ∀ b x, x ∈ table b ↔ x ∈ l ∧ hash x = b
  nodup : ∀ b, (table b).Nodup

/-- Only the hash values of the items matter. -/
theorem Holds.congr (h : Holds hash table l) (heq : ∀ x ∈ l, hash' x = hash x) : Holds hash' table l where
  mem b x := by
    rw [h.mem]
    constructor
    · intro ⟨hx, hb⟩
      exact ⟨hx, (heq x hx).trans hb⟩
    · intro ⟨hx, hb⟩
      exact ⟨hx, (heq x hx).symm.trans hb⟩
  nodup := h.nodup

section

variable [DecidableEq κ]

/-- A key is put into its bucket. -/
theorem Holds.insert (h : Holds hash table l) (hx : x ∉ l) :
    Holds hash (update table (hash x) (x :: table (hash x))) (x :: l) where
  mem b y := by
    by_cases hb : b = hash x
    · subst hb
      rw [update_self, List.mem_cons, List.mem_cons, h.mem]
      constructor
      · rintro (rfl | ⟨hy, hb⟩)
        · exact ⟨Or.inl rfl, rfl⟩
        · exact ⟨Or.inr hy, hb⟩
      · rintro ⟨rfl | hy, hb⟩
        · exact Or.inl rfl
        · exact Or.inr ⟨hy, hb⟩
    · rw [update_of_ne hb, h.mem, List.mem_cons]
      constructor
      · intro ⟨hy, hyb⟩
        exact ⟨Or.inr hy, hyb⟩
      · rintro ⟨rfl | hy, hyb⟩
        · exact absurd hyb.symm hb
        · exact ⟨hy, hyb⟩
  nodup b := by
    by_cases hb : b = hash x
    · subst hb
      rw [update_self]
      exact List.nodup_cons.mpr ⟨fun hm => hx ((h.mem _ _).mp hm).1, h.nodup _⟩
    · rw [update_of_ne hb]
      exact h.nodup b

/-- A key is taken out of its bucket. -/
theorem Holds.erase [DecidableEq α] (h : Holds hash table l) (hl : l.Nodup) :
    Holds hash (update table (hash x) ((table (hash x)).erase x)) (l.erase x) where
  mem b y := by
    rw [hl.mem_erase_iff]
    by_cases hb : b = hash x
    · subst hb
      rw [update_self, (h.nodup _).mem_erase_iff, h.mem, and_assoc]
    · rw [update_of_ne hb, h.mem]
      constructor
      · intro ⟨hy, hyb⟩
        exact ⟨⟨fun hyx => hb (hyx ▸ hyb.symm), hy⟩, hyb⟩
      · intro ⟨⟨_, hy⟩, hyb⟩
        exact ⟨hy, hyb⟩
  nodup b := by
    by_cases hb : b = hash x
    · subst hb
      rw [update_self]
      exact (h.nodup _).erase x
    · rw [update_of_ne hb]
      exact h.nodup b

end

/-- Looking for a key, where the hash value is that of the key and no two items have the same key. -/
theorem Holds.find? [DecidableEq ι] {key : α → ι} {f : ι → κ} (h : Holds (fun x => f (key x)) table l)
    (hinj : ∀ x ∈ l, ∀ y ∈ l, key x = key y → x = y) (i : ι) :
    (table (f i)).find? (fun x => key x = i) = some x ↔ x ∈ l ∧ key x = i := by
  constructor
  · intro hx
    have hk := List.find?_some hx
    exact ⟨((h.mem _ _).mp (List.mem_of_find?_eq_some hx)).1, of_decide_eq_true hk⟩
  · intro ⟨hx, hi⟩
    have hm : x ∈ table (f i) := (h.mem _ _).mpr ⟨hx, congrArg f hi⟩
    have hs : ((table (f i)).find? fun x => key x = i).isSome :=
      List.find?_isSome.mpr ⟨x, hm, decide_eq_true hi⟩
    obtain ⟨y, hy⟩ := Option.isSome_iff_exists.mp hs
    have hyl := ((h.mem _ _).mp (List.mem_of_find?_eq_some hy)).1
    have hk := List.find?_some hy
    have hyi : key y = i := of_decide_eq_true hk
    rw [hy, hinj y hyl x hx (hyi.trans hi.symm)]

end Buckets
