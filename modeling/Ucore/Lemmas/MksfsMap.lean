import Ucore.Mksfs

/-!
# Block maps of the image builder

The blocks that were appended to a file are those of its inode and its cached tables (`Packed`): the direct blocks, the table, and
the tables of the double table. `packed_direct`, `packed_indirect` and `packed_dbIndirect` are the three branches of `append_block`.
-/

namespace Ucore

open Function

/-- The blocks `bs` were appended to a file, in this order. The tables of the file are `indirect`, `db_indirect` and the entries of
the latter; the cache blocks that the inode points to are the last ones that were written. -/
structure Packed (cache : Nat → Nat → Nat) (ci : CacheInode) (bs : List Nat) : Prop where
  nblks : ci.nblks = bs.length
  blocks : ci.inode.blocks = bs.length
  limit : bs.length ≤ sfsLnNblks
  direct : ∀ k < sfsNdirect, ci.inode.direct k = bs.getD k 0
  indirect : ci.inode.indirect = 0 ↔ bs.length ≤ sfsNdirect
  table : ci.inode.indirect ≠ 0 → ∀ k < sfsBlkNentry, cache ci.inode.indirect k = bs.getD (sfsNdirect + k) 0
  dbIndirect : ci.inode.dbIndirect = 0 ↔ bs.length ≤ sfsL1Nblks
  dtable : ci.inode.dbIndirect ≠ 0 → ∀ j < sfsBlkNentry,
    (cache ci.inode.dbIndirect j = 0 ↔ bs.length ≤ sfsL1Nblks + sfsBlkNentry * j)
  ltable : ci.inode.dbIndirect ≠ 0 → ∀ j < sfsBlkNentry, cache ci.inode.dbIndirect j ≠ 0 → ∀ k < sfsBlkNentry,
    cache (cache ci.inode.dbIndirect j) k = bs.getD (sfsL1Nblks + sfsBlkNentry * j + k) 0
  l1 : sfsNdirect < bs.length → bs.length ≤ sfsL1Nblks → ci.l1 = some ci.inode.indirect
  last : sfsL1Nblks < bs.length → ci.l1 = some (cache ci.inode.dbIndirect ((bs.length - 1 - sfsL1Nblks) / sfsBlkNentry))
  l2 : sfsL1Nblks < bs.length → ci.l2 = some ci.inode.dbIndirect

namespace MksfsAux

variable {cache cache' : Nat → Nat → Nat} {ci : CacheInode} {bs : List Nat} {b size t t1 t2 m o k q : Nat} {f : Nat → Nat}

theorem getD_append (bs : List Nat) (b m : Nat) : (bs ++ [b]).getD m 0 = if m = bs.length then b else bs.getD m 0 := by
  rw [List.getD_eq_getElem?_getD, List.getD_eq_getElem?_getD]
  by_cases hm : m < bs.length
  · rw [List.getElem?_append_left hm, if_neg (Nat.ne_of_lt hm)]
  · by_cases he : m = bs.length
    · rw [he, if_pos rfl, List.getElem?_concat_length]
      rfl
    · rw [if_neg he, List.getElem?_eq_none (by rw [List.length_append, List.length_singleton]; omega),
        List.getElem?_eq_none (by omega)]

theorem getD_of_le (h : bs.length ≤ m) : bs.getD m 0 = 0 := by
  rw [List.getD_eq_getElem?_getD, List.getElem?_eq_none h]
  rfl

/-- A table that holds the blocks from `o` on, with one more block appended to it. -/
theorem table_append (hf : ∀ k < sfsBlkNentry, f k = bs.getD (o + k) 0) (ho : o ≤ bs.length) (hk : k < sfsBlkNentry) :
    update f (bs.length - o) b k = (bs ++ [b]).getD (o + k) 0 := by
  rw [getD_append, update_apply, hf k hk]
  exact if_congr (by omega) rfl rfl

/-- A table that the next block does not go to. -/
theorem table_skip (hf : ∀ k < sfsBlkNentry, f k = bs.getD (o + k) 0) (ho : bs.length < o ∨ o + sfsBlkNentry ≤ bs.length)
    (hk : k < sfsBlkNentry) : f k = (bs ++ [b]).getD (o + k) 0 := by
  rw [getD_append, if_neg (by omega), hf k hk]

/-- Only the tables of a file matter. -/
theorem Packed.congr (h : Packed cache ci bs) (h1 : ci.inode.indirect ≠ 0 → cache' ci.inode.indirect = cache ci.inode.indirect)
    (h2 : ci.inode.dbIndirect ≠ 0 → cache' ci.inode.dbIndirect = cache ci.inode.dbIndirect)
    (h3 : ci.inode.dbIndirect ≠ 0 → ∀ j < sfsBlkNentry, cache ci.inode.dbIndirect j ≠ 0 →
      cache' (cache ci.inode.dbIndirect j) = cache (cache ci.inode.dbIndirect j)) : Packed cache' ci bs where
  nblks := h.nblks
  blocks := h.blocks
  limit := h.limit
  direct := h.direct
  indirect := h.indirect
  table h0 := by
    rw [h1 h0]
    exact h.table h0
  dbIndirect := h.dbIndirect
  dtable h0 := by
    rw [h2 h0]
    exact h.dtable h0
  ltable h0 j hj hj0 := by
    rw [h2 h0] at hj0 ⊢
    rw [h3 h0 j hj hj0]
    exact h.ltable h0 j hj hj0
  l1 := h.l1
  last hlt := by
    rw [h2 (fun h0 => by have := h.dbIndirect.mp h0; omega)]
    exact h.last hlt
  l2 := h.l2

/-- The end of `append_block`, where the counters grow. -/
def counted (ci : CacheInode) (size : Nat) : CacheInode :=
  { ci with nblks := ci.nblks + 1, inode := { ci.inode with size := ci.inode.size + size, blocks := ci.inode.blocks + 1 } }

/-- A direct block. -/
theorem packed_direct (h : Packed cache ci bs) (hn : bs.length < sfsNdirect) :
    Packed cache (counted { ci with inode := { ci.inode with direct := (update ci.inode.direct bs.length b) } } size)
      (bs ++ [b]) := by
  have h12 : sfsNdirect = 12 := rfl
  have hL : sfsL1Nblks = 1036 := rfl
  have hM : sfsLnNblks = 32768 := rfl
  have hl : (bs ++ [b]).length = bs.length + 1 := by simp
  have hi : ci.inode.indirect = 0 := h.indirect.mpr (by omega)
  have hd : ci.inode.dbIndirect = 0 := h.dbIndirect.mpr (by omega)
  constructor
  · rw [hl, ← h.nblks]
    rfl
  · rw [hl, ← h.blocks]
    rfl
  · omega
  · intro k hk
    show update ci.inode.direct bs.length b k = _
    rw [getD_append, update_apply, h.direct k hk]
  · exact ⟨fun _ => by omega, fun _ => hi⟩
  · exact fun h0 => absurd hi h0
  · exact ⟨fun _ => by omega, fun _ => hd⟩
  · exact fun h0 => absurd hd h0
  · exact fun h0 => absurd hd h0
  · intro hlt _
    omega
  · intro hlt
    omega
  · intro hlt
    omega

/-- A block of the table `t`: the file's own, or a new one of zeros. -/
theorem packed_indirect (h : Packed cache ci bs) (hn : sfsNdirect ≤ bs.length) (hn' : bs.length < sfsL1Nblks) (ht : t ≠ 0)
    (hnew : ci.inode.indirect = 0 → ∀ k, cache t k = 0) (hold : ci.inode.indirect ≠ 0 → t = ci.inode.indirect) :
    Packed (update cache t (update (cache t) (bs.length - sfsNdirect) b))
      (counted { ci with l1 := some t, inode := { ci.inode with indirect := t } } size) (bs ++ [b]) := by
  have hL : sfsL1Nblks = 1036 := rfl
  have hM : sfsLnNblks = 32768 := rfl
  have hl : (bs ++ [b]).length = bs.length + 1 := by simp
  have hd : ci.inode.dbIndirect = 0 := h.dbIndirect.mpr (by omega)
  have hta : ∀ k < sfsBlkNentry, cache t k = bs.getD (sfsNdirect + k) 0 := by
    intro k hk
    by_cases h0 : ci.inode.indirect = 0
    · rw [hnew h0 k, getD_of_le (Nat.le_trans (h.indirect.mp h0) (Nat.le_add_right _ _))]
    · rw [hold h0]
      exact h.table h0 k hk
  constructor
  · rw [hl, ← h.nblks]
    rfl
  · rw [hl, ← h.blocks]
    rfl
  · omega
  · intro k hk
    show ci.inode.direct k = _
    rw [getD_append, if_neg (by omega), h.direct k hk]
  · exact ⟨fun h0 => absurd h0 ht, fun hle => by omega⟩
  · intro _ k hk
    show update cache t _ t k = _
    rw [update_self]
    exact table_append hta hn hk
  · exact ⟨fun _ => by omega, fun _ => hd⟩
  · exact fun h0 => absurd hd h0
  · exact fun h0 => absurd hd h0
  · intro _ _
    rfl
  · intro hlt
    omega
  · intro hlt
    omega

/-- The double table `t2` before the block is appended, the file's own or a new one of zeros. -/
theorem packed_dtable (h : Packed cache ci bs) (hn2 : ci.inode.dbIndirect = 0 → ∀ k, cache t2 k = 0)
    (ho2 : ci.inode.dbIndirect ≠ 0 → t2 = ci.inode.dbIndirect) {j : Nat} (hj : j < sfsBlkNentry) :
    (cache t2 j = 0 ↔ bs.length ≤ sfsL1Nblks + sfsBlkNentry * j) ∧ (cache t2 j ≠ 0 → ∀ k < sfsBlkNentry,
      cache (cache t2 j) k = bs.getD (sfsL1Nblks + sfsBlkNentry * j + k) 0) := by
  by_cases h0 : ci.inode.dbIndirect = 0
  · have hle := h.dbIndirect.mp h0
    exact ⟨⟨fun _ => by omega, fun _ => hn2 h0 j⟩, fun hj0 => absurd (hn2 h0 j) hj0⟩
  · rw [ho2 h0]
    exact ⟨h.dtable h0 j hj, h.ltable h0 j hj⟩

/-- A block of the table `t1`, which is an entry of the double table `t2`: the file's own, or new ones of zeros. -/
theorem packed_dbIndirect (h : Packed cache ci bs) (hn : sfsL1Nblks ≤ bs.length) (hn' : bs.length < sfsLnNblks)
    (hq : q = (bs.length - sfsL1Nblks) / sfsBlkNentry) (ht2 : t2 ≠ 0) (ht1 : t1 ≠ 0)
    (hn2 : ci.inode.dbIndirect = 0 → ∀ k, cache t2 k = 0) (ho2 : ci.inode.dbIndirect ≠ 0 → t2 = ci.inode.dbIndirect)
    (hnew1 : cache t2 q = 0 → ∀ k, cache t1 k = 0) (hold1 : cache t2 q ≠ 0 → t1 = cache t2 q) (hne : t1 ≠ t2)
    (hi1 : ci.inode.indirect ≠ t1) (hi2 : ci.inode.indirect ≠ t2)
    (ho : ∀ j < sfsBlkNentry, j ≠ q → cache t2 j ≠ 0 → cache t2 j ≠ t1)
    (hs : ∀ j < sfsBlkNentry, cache t2 j ≠ 0 → cache t2 j ≠ t2) : Packed (update (update cache t2 (update (cache t2) q t1)) t1
        (update (cache t1) ((bs.length - sfsL1Nblks) % sfsBlkNentry) b))
      (counted { ci with l1 := some t1, l2 := some t2, inode := { ci.inode with dbIndirect := t2 } } size) (bs ++ [b]) := by
  have h12 : sfsNdirect = 12 := rfl
  have hL : sfsL1Nblks = 1036 := rfl
  have hM : sfsLnNblks = 32768 := rfl
  have hN : sfsBlkNentry = 1024 := rfl
  have hl : (bs ++ [b]).length = bs.length + 1 := by simp
  have hqlt : q < sfsBlkNentry := by
    rw [hq, hN]
    omega
  have hdm : sfsBlkNentry * q + (bs.length - sfsL1Nblks) % sfsBlkNentry = bs.length - sfsL1Nblks := by
    rw [hq]
    exact Nat.div_add_mod _ _
  have hm : (bs.length - sfsL1Nblks) % sfsBlkNentry < sfsBlkNentry := Nat.mod_lt _ (by decide)
  have ht := fun j (hj : j < sfsBlkNentry) => packed_dtable h hn2 ho2 hj
  have hla : ∀ k < sfsBlkNentry, cache t1 k = bs.getD (sfsL1Nblks + sfsBlkNentry * q + k) 0 := by
    intro k hk
    by_cases h0 : cache t2 q = 0
    · rw [hnew1 h0 k, getD_of_le (Nat.le_trans ((ht q hqlt).1.mp h0) (Nat.le_add_right _ _))]
    · rw [hold1 h0]
      exact (ht q hqlt).2 h0 k hk
  generalize hc : update (update cache t2 (update (cache t2) q t1)) t1
    (update (cache t1) ((bs.length - sfsL1Nblks) % sfsBlkNentry) b) = cache'
  have hc1 : cache' t1 = update (cache t1) ((bs.length - sfsL1Nblks) % sfsBlkNentry) b := by
    rw [← hc, update_self]
  have hc2 : ∀ j, cache' t2 j = if j = q then t1 else cache t2 j := by
    intro j
    rw [← hc, update_of_ne hne.symm, update_self, update_apply]
  have hc0 : ∀ x, x ≠ t1 → x ≠ t2 → cache' x = cache x := by
    intro x h1 h2
    rw [← hc, update_of_ne h1, update_of_ne h2]
  constructor
  · rw [hl, ← h.nblks]
    rfl
  · rw [hl, ← h.blocks]
    rfl
  · omega
  · intro k hk
    show ci.inode.direct k = _
    rw [getD_append, if_neg (by omega), h.direct k hk]
  · show ci.inode.indirect = 0 ↔ _
    rw [h.indirect]
    omega
  · intro h0 k hk
    show cache' ci.inode.indirect k = _
    rw [hc0 _ hi1 hi2]
    exact table_skip (h.table h0) (Or.inr (by omega)) hk
  · exact ⟨fun h0 => absurd h0 ht2, fun hle => by omega⟩
  · intro _ j hj
    show cache' t2 j = 0 ↔ _
    rw [hc2 j]
    by_cases hjq : j = q
    · rw [if_pos hjq, hjq]
      exact ⟨fun h0 => absurd h0 ht1, fun hle => by omega⟩
    · rw [if_neg hjq, (ht j hj).1]
      have hne' : bs.length ≠ sfsL1Nblks + sfsBlkNentry * j := by
        intro he
        refine hjq ?_
        rw [hq, he, Nat.add_sub_cancel_left, Nat.mul_div_cancel_left _ (by decide)]
      omega
  · intro _ j hj hj0 k hk
    show cache' (cache' t2 j) k = _
    replace hj0 : cache' t2 j ≠ 0 := hj0
    rw [hc2 j] at hj0 ⊢
    by_cases hjq : j = q
    · rw [if_pos hjq, hc1, hjq]
      have := table_append (b := b) hla (by omega) hk
      rwa [show bs.length - (sfsL1Nblks + sfsBlkNentry * q) = (bs.length - sfsL1Nblks) % sfsBlkNentry by omega] at this
    · rw [if_neg hjq] at hj0 ⊢
      rw [hc0 _ (ho j hj hjq hj0) (hs j hj hj0)]
      refine table_skip ((ht j hj).2 hj0) ?_ hk
      -- the block goes to the entry `q`, not `j`
      have hlow : sfsL1Nblks + sfsBlkNentry * j < bs.length := by
        by_contra hc
        exact hj0 ((ht j hj).1.mpr (by omega))
      rw [hN] at hdm hm hlow ⊢
      omega
  · intro _ hle
    omega
  · intro _
    show some t1 = some (cache' t2 _)
    rw [hc2, hl, Nat.add_sub_cancel, ← hq, if_pos rfl]
  · intro _
    rfl

end MksfsAux

end Ucore
