import Mathlib.Data.Finset.Card
import Ucore.Lemmas.Bitmap
import Ucore.Lib.Ownership
import Ucore.Sfs

/-!
# Block maps of the simple file system

The block that a file has at an index (`Sfs.fileBlock`), and the invariant that every block of the volume is free, fixed, or held by
exactly one file at one place (`Sfs.Owned`). The functions that allocate and free blocks keep it (`sfsBlockAlloc_spec`,
`sfsBlockFree_spec`), and so do the edits of a map: a block that was taken is assigned to a slot (`owned_assign`), and a slot drops
its block (`owned_drop`).
-/

namespace Ucore

open Checked Bytes Ownership Function

/-- Where a file holds a block: the data block of an index, or the table of the indirect blocks. -/
inductive SfsSlot
  | data (sin index : Nat)
  | table (sin : Nat)
  deriving DecidableEq

/-- The file of a slot. -/
def SfsSlot.sin : SfsSlot → Nat
  | .data sin _ => sin
  | .table sin => sin

namespace Sfs

/-- The free blocks. -/
def free (s : Sfs) : Finset Nat := s.freemap.free

/-- The entry of a table. -/
def entry (s : Sfs) (ent index : Nat) : Nat := word (s.disk ent) (index * 4)

/-- The block of a file at an index, `0` where it has none. -/
def fileBlock (s : Sfs) (sin index : Nat) : Nat :=
  if index < sfsNdirect then (s.din sin).direct index
  else if index - sfsNdirect < sfsBlkNentry then
    if (s.din sin).indirect = 0 then 0 else s.entry (s.din sin).indirect (index - sfsNdirect)
  else 0

/-- The block that a slot names. -/
def named (s : Sfs) : SfsSlot → Nat
  | .data sin index => s.fileBlock sin index
  | .table sin => (s.din sin).indirect

/-- What the files of `I` hold. -/
def held (s : Sfs) (I : Finset Nat) (σ : SfsSlot) : Option Nat :=
  if σ.sin ∈ I ∧ s.named σ ≠ 0 then some (s.named σ) else none

/-- Every block of the volume is free, fixed, or held by one file of `I` at one place, and `unused_blocks` counts the free ones. -/
structure Owned (s : Sfs) (I : Finset Nat) (fix : Set Nat) : Prop where
  exact : Exact { b | b < s.blocks } fix s.free (s.held I)
  zero : 0 ∈ fix
  nbits : s.blocks ≤ s.freemap.nbits
  nwords : s.freemap.nbits ≤ s.freemap.nwords * 32
  small : s.blocks < 2 ^ 32
  count : s.unusedBlocks = s.free.card

/-- The blocks that a file counts are there, as far as its map reaches. -/
def Full (s : Sfs) (sin : Nat) : Prop :=
  ∀ k < (s.din sin).blocks, k < sfsNdirect + sfsBlkNentry → s.fileBlock sin k ≠ 0

end Sfs

namespace SfsAux

open Sfs

variable {s s' : Sfs} {I : Finset Nat} {fix : Set Nat} {b i j k sin index ent v : Nat} {σ τ : SfsSlot} {d : DiskInode}

/-! ## What is held -/

theorem held_eq_some : s.held I σ = some b ↔ σ.sin ∈ I ∧ s.named σ = b ∧ b ≠ 0 := by
  unfold held
  constructor
  · intro h
    split at h
    · rename_i hc
      cases h
      exact ⟨hc.1, rfl, hc.2⟩
    · nomatch h
  · rintro ⟨hi, rfl, hb⟩
    exact if_pos ⟨hi, hb⟩

theorem held_data : s.held I (.data i k) = some b ↔ i ∈ I ∧ s.fileBlock i k = b ∧ b ≠ 0 := held_eq_some

theorem held_table : s.held I (.table i) = some b ↔ i ∈ I ∧ (s.din i).indirect = b ∧ b ≠ 0 := held_eq_some

theorem held_eq_none (h : s.named σ = 0) : s.held I σ = none := if_neg (fun hc => hc.2 h)

theorem fileBlock_direct (h : index < sfsNdirect) : s.fileBlock sin index = (s.din sin).direct index := if_pos h

theorem fileBlock_indirect (h : index < sfsBlkNentry) : s.fileBlock sin (sfsNdirect + index) =
    if (s.din sin).indirect = 0 then 0 else s.entry (s.din sin).indirect index := by
  unfold fileBlock
  rw [if_neg (by omega), Nat.add_sub_cancel_left, if_pos h]

theorem fileBlock_out (h : sfsNdirect + sfsBlkNentry ≤ index) : s.fileBlock sin index = 0 := by
  unfold fileBlock
  rw [if_neg (by unfold sfsBlkNentry at h; omega), if_neg (by omega)]

/-- The maps depend on the inode and on its table only. -/
theorem fileBlock_congr (hd : s'.din i = s.din i) (ht : (s.din i).indirect ≠ 0 → s'.disk (s.din i).indirect = s.disk (s.din i).indirect) :
    s'.fileBlock i k = s.fileBlock i k := by
  unfold fileBlock entry
  rw [hd]
  by_cases h0 : (s.din i).indirect = 0
  · simp only [h0, if_true]
  · rw [ht h0]

theorem held_congr (hf : ∀ i ∈ I, ∀ k, s'.fileBlock i k = s.fileBlock i k) (ht : ∀ i ∈ I, (s'.din i).indirect = (s.din i).indirect) :
    s'.held I σ = s.held I σ := by
  unfold held
  by_cases hi : σ.sin ∈ I
  · have hn : s'.named σ = s.named σ := by
      cases σ with
      | data i k => exact hf i hi k
      | table i => exact ht i hi
    rw [hn]
  · rw [if_neg (fun hc => hi hc.1), if_neg (fun hc => hi hc.1)]

section Facts

variable (h : s.Owned I fix)
include h

section

variable (hi : i ∈ I)
include hi

/-- A data block of a file lies in the volume, is in use, and is not fixed. -/
theorem data_facts (hb : s.fileBlock i k ≠ 0) : s.fileBlock i k < s.blocks ∧ s.fileBlock i k ∉ s.free ∧ s.fileBlock i k ∉ fix :=
  h.exact.held_mem (.data i k) _ (held_data.mpr ⟨hi, rfl, hb⟩)

theorem table_facts (hb : (s.din i).indirect ≠ 0) :
    (s.din i).indirect < s.blocks ∧ (s.din i).indirect ∉ s.free ∧ (s.din i).indirect ∉ fix :=
  h.exact.held_mem (.table i) _ (held_table.mpr ⟨hi, rfl, hb⟩)

/-- No data block is a table. -/
theorem data_ne_table (hj : j ∈ I) (hb : s.fileBlock i k ≠ 0) : s.fileBlock i k ≠ (s.din j).indirect := by
  intro he
  have h1 : s.held I (.data i k) = some (s.fileBlock i k) := held_data.mpr ⟨hi, rfl, hb⟩
  have h2 : s.held I (.table j) = some (s.fileBlock i k) := held_table.mpr ⟨hj, he.symm, hb⟩
  nomatch h.exact.inj _ _ _ h1 h2

theorem data_inj {l : Nat} (hj : j ∈ I) (hb : s.fileBlock i k ≠ 0) (he : s.fileBlock i k = s.fileBlock j l) : i = j ∧ k = l := by
  have h1 : s.held I (.data i k) = some (s.fileBlock i k) := held_data.mpr ⟨hi, rfl, hb⟩
  have h2 : s.held I (.data j l) = some (s.fileBlock i k) := held_data.mpr ⟨hj, he.symm, hb⟩
  injection h.exact.inj _ _ _ h1 h2 with h3 h4
  exact ⟨h3, h4⟩

theorem table_inj (hj : j ∈ I) (hb : (s.din i).indirect ≠ 0) (he : (s.din i).indirect = (s.din j).indirect) : i = j := by
  have h1 : s.held I (.table i) = some (s.din i).indirect := held_table.mpr ⟨hi, rfl, hb⟩
  have h2 : s.held I (.table j) = some (s.din i).indirect := held_table.mpr ⟨hj, he.symm, hb⟩
  injection h.exact.inj _ _ _ h1 h2

end

theorem free_facts (hb : b ∈ s.free) : b ≠ 0 ∧ b < s.blocks ∧ b ∉ fix := by
  obtain ⟨h1, h2⟩ := h.exact.free_mem b hb
  refine ⟨?_, h1, h2⟩
  rintro rfl
  exact h2 h.zero

/-! ## The bitmap and the device -/

theorem sfsBlockInuse_spec (hb : b ≠ 0) (hlt : b < s.blocks) : sfsBlockInuse b s = .ok (decide (b ∉ s.free)) := by
  unfold sfsBlockInuse
  rw [if_pos ⟨hb, hlt⟩, BitmapAux.bitmapTest_spec (hlt.trans_le h.nbits) h.nwords, mapError_ok, bind_ok]
  exact congrArg Except.ok (decide_not.symm)

theorem assertInuse_of (hb : b ≠ 0) (hlt : b < s.blocks) (hf : b ∉ s.free) : assertInuse b s = .ok () := by
  unfold assertInuse
  rw [sfsBlockInuse_spec h hb hlt]
  exact ensure_of (decide_eq_true hf) _

end Facts

theorem sfsRwblock_of (hb : b ≠ 0) (hlt : b < s.blocks) : sfsRwblock b s = .ok () := ensure_of ⟨hb, hlt⟩ _

/-- The volume after the block `b` was taken: it is no longer free, and filled with zeros. -/
structure Took (s s' : Sfs) (b : Nat) : Prop where
  mem : b ∈ s.free
  free : s'.free = s.free.erase b
  blocks : s'.blocks = s.blocks
  inodes : s'.inodes = s.inodes
  disk : ∀ c, c ≠ b → s'.disk c = s.disk c
  zero : ∀ j < sfsBlksize, s'.disk b j = 0

/-- A block that is held by no file changes: the files keep their maps. -/
theorem fileBlock_of_disk (hin : s'.inodes = s.inodes)
    (hd : ∀ i ∈ I, (s.din i).indirect ≠ 0 → s'.disk (s.din i).indirect = s.disk (s.din i).indirect) (hi : i ∈ I) :
    s'.fileBlock i k = s.fileBlock i k := by
  refine fileBlock_congr ?_ (hd i hi)
  unfold din
  rw [hin]

/-- `sfs_block_alloc` takes a free block, and fails where there is none. The block counts as fixed until a file holds it. -/
theorem sfsBlockAlloc_spec (h : s.Owned I fix) : (s.free = ∅ ∧ sfsBlockAlloc s = .ok (-eNoMem, 0, s)) ∨
      ∃ b s', sfsBlockAlloc s = .ok (0, b, s') ∧ Took s s' b ∧ s'.Owned I (insert b fix) ∧
        ∀ i ∈ I, ∀ k, s'.fileBlock i k = s.fileBlock i k := by
  unfold sfsBlockAlloc
  rcases BitmapAux.bitmapAlloc_spec s.freemap with ⟨hem, hr⟩ | ⟨b, hb, -, f, hr, hnb, hnw, hf⟩
  · refine Or.inl ⟨hem, ?_⟩
    rw [hr]
    rfl
  · obtain ⟨hb0, hblt, hbfix⟩ := free_facts h hb
    have hca : s.unusedBlocks = s.freemap.free.card := h.count
    have hp : 0 < s.unusedBlocks := by
      rw [hca]
      exact Finset.card_pos.mpr ⟨b, hb⟩
    -- the volume with the bit cleared, and then with the block cleared
    let s1 : Sfs := { s with freemap := f, unusedBlocks := s.unusedBlocks - 1, superDirty := true }
    let s2 : Sfs := { s1 with disk := update s1.disk b (patch (s1.disk b) 0 sfsBlksize fun _ => 0) }
    have hf1 : s1.free = s.free.erase b := hf
    have hta : ∀ i ∈ I, (s.din i).indirect ≠ 0 → s2.disk (s.din i).indirect = s.disk (s.din i).indirect := by
      intro i hi ht
      refine update_of_ne ?_ _ _
      intro he
      exact (table_facts h hi ht).2.1 (he ▸ hb)
    have hfb : ∀ i ∈ I, ∀ k, s2.fileBlock i k = s.fileBlock i k := fun i hi k => fileBlock_of_disk rfl hta hi
    have ho : ∀ t : Sfs, t.free = s.free.erase b → t.blocks = s.blocks → t.freemap = f → t.unusedBlocks = s.unusedBlocks - 1 →
        (∀ σ, t.held I σ = s.held I σ) → t.Owned I (insert b fix) := by
      intro t ht1 ht2 ht3 ht4 ht5
      refine ⟨?_, Or.inr h.zero, ?_, ?_, ?_, ?_⟩
      · rw [ht1, ht2]
        exact (h.exact.take hb).congr ht5
      · rw [ht2, ht3, hnb]
        exact h.nbits
      · rw [ht3, hnb, hnw]
        exact h.nwords
      · rw [ht2]
        exact h.small
      · rw [ht4, ht1, Finset.card_erase_of_mem (show b ∈ s.free from hb), h.count]
    have ho1 : s1.Owned I (insert b fix) := ho s1 hf1 rfl rfl rfl (fun _ => rfl)
    have ho2 : s2.Owned I (insert b fix) := ho s2 hf1 rfl rfl rfl (fun _ => held_congr hfb (fun _ _ => rfl))
    have hin : assertInuse b s1 = .ok () := assertInuse_of ho1 hb0 hblt (by rw [hf1]; exact Finset.notMem_erase _ _)
    have hcl : sfsClearBlock b s1 = .ok s2 := by
      unfold sfsClearBlock sfsWblock
      rw [sfsRwblock_of (s := s1) hb0 hblt]
      rfl
    refine Or.inr ⟨b, s2, ?_, ⟨hb, hf1, rfl, rfl, ?_, ?_⟩, ho2, hfb⟩
    · rw [hr, mapError_ok, bind_ok]
      dsimp only
      rw [ensure_of hp, hin, hcl]
      rfl
    · intro c hc
      exact update_of_ne hc _ _
    · intro j hj
      show update s1.disk b _ b j = 0
      rw [update_self, patch_of_mem (Nat.zero_le _) (by omega)]

/-- `sfs_block_free` gives a block back that no file holds any more. -/
theorem sfsBlockFree_spec (h : s.Owned I (insert b fix)) (hz : 0 ∈ fix) (hlt : b < s.blocks) (hb : b ∉ fix) :
    ∃ f, sfsBlockFree b s = .ok { s with freemap := f, unusedBlocks := s.unusedBlocks + 1, superDirty := true } ∧
      f.free = insert b s.free ∧
      Sfs.Owned { s with freemap := f, unusedBlocks := s.unusedBlocks + 1, superDirty := true } I fix := by
  have hb0 : b ≠ 0 := by
    rintro rfl
    exact hb hz
  have hn : b ∉ s.free := fun hm => (h.exact.free_mem b hm).2 (Or.inl rfl)
  obtain ⟨f, hr, hnb, hnw, hf⟩ := BitmapAux.bitmapFree_spec (hlt.trans_le h.nbits) h.nwords hn
  refine ⟨f, ?_, hf, ?_, hz, ?_, ?_, h.small, ?_⟩
  · unfold sfsBlockFree
    rw [assertInuse_of h hb0 hlt hn, hr, mapError_ok]
    rfl
  · have hg := h.exact.give hlt hb
    show Exact _ _ f.free _
    rw [hf]
    exact hg
  · show s.blocks ≤ f.nbits
    rw [hnb]
    exact h.nbits
  · show f.nbits ≤ f.nwords * 32
    rw [hnb, hnw]
    exact h.nwords
  · show s.unusedBlocks + 1 = f.free.card
    rw [show f.free = insert b s.free from hf, Finset.card_insert_of_notMem hn, h.count]

/-! ## Blocks put into the maps, and taken out -/

@[simp] theorem din_setDirty : (s.setDirty sin).din i = s.din i := by
  unfold setDirty din
  dsimp only
  rw [update_apply]
  split
  · rename_i he
    rw [he]
  · rfl

theorem din_setDin : (s.setDin sin d).din i = if i = sin then d else s.din i := by
  unfold setDin din
  dsimp only
  rw [update_apply]
  split <;> rfl

theorem din_setDin_self : (s.setDin sin d).din sin = d := by
  rw [din_setDin, if_pos rfl]

theorem din_setDin_of_ne (hi : i ≠ sin) : (s.setDin sin d).din i = s.din i := by
  rw [din_setDin, if_neg hi]

/-- What is held after one slot changed. -/
theorem held_update (hτ : τ.sin ∈ I) (hn : ∀ σ, σ.sin ∈ I → s'.named σ = if σ = τ then v else s.named σ) :
    s'.held I σ = update (s.held I) τ (if v = 0 then none else some v) σ := by
  by_cases hσ : σ.sin ∈ I
  · have hs := hn σ hσ
    by_cases he : σ = τ
    · rw [if_pos he] at hs
      rw [he, update_self]
      unfold held
      rw [← he, hs]
      by_cases hv : v = 0
      · rw [if_pos hv, if_neg (fun hc => hc.2 hv)]
      · rw [if_neg hv, if_pos ⟨hσ, hv⟩]
    · rw [if_neg he] at hs
      rw [update_of_ne he]
      unfold held
      rw [hs]
  · have he : σ ≠ τ := by
      rintro rfl
      exact hσ hτ
    rw [update_of_ne he]
    unfold held
    rw [if_neg (fun hc => hσ hc.1), if_neg (fun hc => hσ hc.1)]

/-- A file takes over a block that was taken for it. -/
theorem owned_assign (h : s.Owned I (insert b fix)) (hz : 0 ∈ fix) (hb : b < s.blocks) (hf : b ∉ fix)
    (hτ : τ.sin ∈ I) (hno : s.named τ = 0) (hn : ∀ σ, σ.sin ∈ I → s'.named σ = if σ = τ then b else s.named σ)
    (hbl : s'.blocks = s.blocks) (hm : s'.freemap = s.freemap) (hu : s'.unusedBlocks = s.unusedBlocks) :
    s'.Owned I fix := by
  have hb0 : b ≠ 0 := by
    rintro rfl
    exact hf hz
  have hfr : s'.free = s.free := by
    unfold Sfs.free
    rw [hm]
  refine ⟨?_, hz, ?_, ?_, ?_, ?_⟩
  · rw [hbl, hfr]
    refine (h.exact.assign hb hf (held_eq_none hno)).congr ?_
    intro σ
    rw [held_update hτ hn, if_neg hb0]
  · rw [hbl, hm]
    exact h.nbits
  · rw [hm]
    exact h.nwords
  · rw [hbl]
    exact h.small
  · rw [hu, hfr]
    exact h.count

/-- A file drops a block, which is then taken but not free. -/
theorem owned_drop (h : s.Owned I fix) (hτ : τ.sin ∈ I) (hb : s.named τ = b) (hb0 : b ≠ 0)
    (hn : ∀ σ, σ.sin ∈ I → s'.named σ = if σ = τ then 0 else s.named σ)
    (hbl : s'.blocks = s.blocks) (hm : s'.freemap = s.freemap) (hu : s'.unusedBlocks = s.unusedBlocks) :
    s'.Owned I (insert b fix) := by
  have hf : s'.free = s.free := by
    unfold Sfs.free
    rw [hm]
  refine ⟨?_, Or.inr h.zero, ?_, ?_, ?_, ?_⟩
  · rw [hbl, hf]
    refine (h.exact.drop (held_eq_some.mpr ⟨hτ, hb, hb0⟩)).congr ?_
    intro σ
    rw [held_update hτ hn, if_pos rfl]
  · rw [hbl, hm]
    exact h.nbits
  · rw [hm]
    exact h.nwords
  · rw [hbl]
    exact h.small
  · rw [hu, hf]
    exact h.count

/-- An entry of a table written. -/
def writeEntry (s : Sfs) (ent index v : Nat) : Sfs :=
  { s with disk := (update s.disk ent (patch (s.disk ent) (index * 4) 4 (byteOf v))) }

/-- A direct block set. -/
def setDirect (s : Sfs) (sin index v : Nat) : Sfs :=
  (s.setDin sin { s.din sin with direct := (update (s.din sin).direct index v) }).setDirty sin

/-- The table set. -/
def setIndirect (s : Sfs) (sin ent : Nat) : Sfs := (s.setDin sin { s.din sin with indirect := ent }).setDirty sin

theorem entry_writeEntry (hv : v < 2 ^ 32) : (writeEntry s ent index v).entry ent k = if k = index then v else s.entry ent k := by
  unfold writeEntry entry
  dsimp only
  rw [update_self]
  by_cases hk : k = index
  · rw [if_pos hk, hk, word_patch_self hv]
  · rw [if_neg hk, word_patch_of_apart (by omega)]

/-- The maps after an entry of the table of a file was written. -/
theorem fileBlock_writeEntry (h : s.Owned I fix) (hs : sin ∈ I) (hi : i ∈ I) (ht : (s.din sin).indirect ≠ 0)
    (hidx : index < sfsBlkNentry) (hv : v < 2 ^ 32) : (writeEntry s (s.din sin).indirect index v).fileBlock i k =
      if i = sin ∧ k = sfsNdirect + index then v else s.fileBlock i k := by
  by_cases his : i = sin
  · subst his
    have hd : (writeEntry s (s.din i).indirect index v).din i = s.din i := rfl
    unfold fileBlock
    rw [hd]
    by_cases h1 : k < sfsNdirect
    · rw [if_pos h1, if_pos h1, if_neg (by omega)]
    · rw [if_neg h1, if_neg h1]
      by_cases h2 : k - sfsNdirect < sfsBlkNentry
      · rw [if_pos h2, if_pos h2, if_neg ht, if_neg ht, entry_writeEntry hv]
        exact if_congr (by omega) rfl rfl
      · rw [if_neg h2, if_neg h2, if_neg (by omega)]
  · rw [if_neg (fun hc => his hc.1)]
    refine fileBlock_congr rfl ?_
    intro hti
    exact update_of_ne (fun he => his (table_inj h hi hs hti he)) _ _

theorem din_setDirect_of_ne (hi : i ≠ sin) : (setDirect s sin index v).din i = s.din i := by
  rw [setDirect, din_setDirty, din_setDin_of_ne hi]

/-- A direct block is all that changes in the inode. -/
theorem setDirect_fields (s : Sfs) (sin index v i : Nat) : ((setDirect s sin index v).din i).size = (s.din i).size ∧
    ((setDirect s sin index v).din i).type = (s.din i).type ∧ ((setDirect s sin index v).din i).blocks = (s.din i).blocks ∧
    ((setDirect s sin index v).din i).indirect = (s.din i).indirect := by
  by_cases hi : i = sin
  · subst hi
    rw [setDirect, din_setDirty, din_setDin_self]
    exact ⟨rfl, rfl, rfl, rfl⟩
  · rw [din_setDirect_of_ne hi]
    exact ⟨rfl, rfl, rfl, rfl⟩

theorem nlinks_setDirect : ((setDirect s sin index v).din i).nlinks = (s.din i).nlinks := by
  rw [setDirect, din_setDirty, din_setDin]
  split
  · rename_i hi
    rw [hi]
  · rfl

theorem dirty_setDirty : ((s.setDirty sin).inodes sin).dirty = true := by
  unfold setDirty
  dsimp only
  rw [update_self]

theorem dirty_setDirect : ((setDirect s sin index v).inodes sin).dirty = true := dirty_setDirty

theorem din_setIndirect_of_ne (hi : i ≠ sin) : (setIndirect s sin ent).din i = s.din i := by
  rw [setIndirect, din_setDirty, din_setDin_of_ne hi]

/-- The maps after a direct block of a file was set. -/
theorem fileBlock_setDirect (hidx : index < sfsNdirect) :
    (setDirect s sin index v).fileBlock i k = if i = sin ∧ k = index then v else s.fileBlock i k := by
  by_cases his : i = sin
  · subst his
    unfold fileBlock
    rw [setDirect, din_setDirty, din_setDin_self]
    by_cases h1 : k < sfsNdirect
    · rw [if_pos h1, if_pos h1]
      dsimp only
      rw [update_apply]
      exact if_congr (by simp) rfl rfl
    · rw [if_neg h1, if_neg h1, if_neg (by omega : ¬(i = i ∧ k = index))]
      rfl
  · rw [if_neg (fun hc => his hc.1)]
    exact fileBlock_congr (din_setDirect_of_ne his) (fun _ => rfl)

/-- The maps after a file that had no table got one of zeros. -/
theorem fileBlock_setIndirect (ht : (s.din sin).indirect = 0) (hz : ∀ j < sfsBlksize, s.disk ent j = 0) :
    (setIndirect s sin ent).fileBlock i k = s.fileBlock i k := by
  by_cases his : i = sin
  · subst his
    unfold fileBlock
    rw [setIndirect, din_setDirty, din_setDin_self]
    by_cases h1 : k < sfsNdirect
    · rw [if_pos h1, if_pos h1]
    · rw [if_neg h1, if_neg h1]
      by_cases h2 : k - sfsNdirect < sfsBlkNentry
      · have hent : s.entry ent (k - sfsNdirect) = 0 := by
          refine word_zero ?_
          intro j hj
          refine hz _ ?_
          unfold sfsBlkNentry at h2
          unfold sfsBlksize
          omega
        rw [if_pos h2, if_pos h2, if_pos ht]
        refine (ite_congr rfl (fun _ => rfl) (fun _ => hent)).trans (ite_self 0)
      · rw [if_neg h2, if_neg h2]
  · exact fileBlock_congr (din_setIndirect_of_ne his) (fun _ => rfl)

end SfsAux

end Ucore
