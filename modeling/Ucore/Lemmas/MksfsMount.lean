import Ucore.Lemmas.MksfsClose
import Ucore.Lemmas.SfsMount

/-!
# Mounted images

The inodes and the tables of a mounted image are those that `mksfs` had in memory (`din_volume`, `entry_volume`). The maps of the
kernel are the appended blocks as far as they reach (`fileBlock_volume`), and every block is free or owned once (`owned_volume`).
-/

namespace Ucore

open Checked Ownership Bytes MksfsAux SfsAux

namespace MksfsAux

open Mksfs

variable {s s' : Mksfs} {r : Record} {c i k : Nat} {σ : MksfsSlot}

/-- The fields of an inode as the kernel reads them. -/
theorem ofBytes_inode {inode : MksfsInode} {f : Nat → UInt8} (hf : ∀ o < sizeofInode, f o = inode.bytes o) (hn : inode.nlinks < 2 ^ 16)
    (hb : inode.blocks < 2 ^ 32) (hd : ∀ k < sfsNdirect, inode.direct k < 2 ^ 32) (hi : inode.indirect < 2 ^ 32) :
    (DiskInode.ofBytes f).type = inode.type ∧ (DiskInode.ofBytes f).nlinks = inode.nlinks ∧
      (DiskInode.ofBytes f).blocks = inode.blocks ∧ (∀ k < sfsNdirect, (DiskInode.ofBytes f).direct k = inode.direct k) ∧
      (DiskInode.ofBytes f).indirect = inode.indirect := by
  -- beside the size, the layout is that of the kernel
  have ha := ofBytes_agree (d := ⟨word f 0, inode.type, inode.nlinks, inode.blocks, inode.direct, inode.indirect⟩) (f := f)
    ⟨word_lt, hn, hb, hd, hi⟩ (by
      intro o ho
      rw [hf o (ho.trans (by decide))]
      unfold MksfsInode.bytes DiskInode.bytes
      rw [if_pos (show o < 64 from ho)]
      by_cases h4 : o < 4
      · rw [if_pos h4, if_pos h4, byteOf_word h4, Nat.zero_add, hf o (ho.trans (by decide))]
        exact (if_pos h4).symm
      · rw [if_neg h4, if_neg h4])
  exact ⟨ha.type, ha.nlinks, ha.blocks, ha.direct, ha.indirect⟩

section Volume

variable (blocks : Nat) (h : s.Tracked r ∅) (hl : s.Linked r) (hf : Flushed s s' r (closed s r))
include h

/-- Every block number fits a word. -/
theorem named_lt (σ : MksfsSlot) : s.named r σ < 2 ^ 32 := by
  have hM : sfsMaxNblks = 524288 := rfl
  have hm := h.sound.max
  have hh := h.sound.high
  by_cases h0 : s.named r σ = 0
  · omega
  · have := (named_facts h.sound h0).2.1
    omega

theorem getD_lt (hc : c ∈ r.inos) (k : Nat) : (r.blocks c).getD k 0 < 2 ^ 32 := by
  have hn : s.named r (.data c k) = (r.blocks c).getD k 0 := if_pos hc
  rw [← hn]
  exact named_lt h _

include hl hf

/-- The inode of a file, as the kernel loads it. -/
theorem din_volume (hc : c ∈ r.inos) :
    ((volume s s' blocks).din c).type = (s.ci c).inode.type ∧ ((volume s s' blocks).din c).nlinks = (s.ci c).inode.nlinks ∧
      ((volume s s' blocks).din c).blocks = (r.blocks c).length ∧
      (∀ k < sfsNdirect, ((volume s s' blocks).din c).direct k = (r.blocks c).getD k 0) ∧
      ((volume s s' blocks).din c).indirect = (s.ci c).inode.indirect := by
  have hp := h.packed c hc
  have hM : sfsLnNblks = 32768 := rfl
  obtain ⟨pre, hpre⟩ := hf.inside c (Or.inr (Or.inr (Or.inl hc)))
  rw [closing_inode hl hc] at hpre
  have hby : ∀ o < sizeofInode, s'.image c o = (s.ci c).inode.bytes o := by
    intro o ho
    rw [hpre]
    exact written_of_lt ho (show sizeofInode ≤ sfsBlksize by decide)
  have hn : (s.ci c).inode.nlinks < 2 ^ 16 := by
    rw [hl.nlinks c hc]
    exact Nat.mod_lt _ (by decide)
  have hb : (s.ci c).inode.blocks < 2 ^ 32 := by
    have := hp.limit
    rw [hp.blocks]
    omega
  have hd : ∀ k < sfsNdirect, (s.ci c).inode.direct k < 2 ^ 32 := by
    intro k hk
    rw [hp.direct k hk]
    exact getD_lt h hc k
  have hi : (s.ci c).inode.indirect < 2 ^ 32 := by
    rw [← named_table hc]
    exact named_lt h _
  obtain ⟨ht, hli, hbl, hdi, hin⟩ := ofBytes_inode hby hn hb hd hi
  refine ⟨ht, hli, hbl.trans hp.blocks, ?_, hin⟩
  intro k hk
  exact (hdi k hk).trans (hp.direct k hk)

omit hl in
/-- A word of a table that is on the device. -/
theorem word_table (hσ : σ.IsTable) (h0 : s.named r σ ≠ 0) (hk : k < sfsBlkNentry) (hlt : s.cache (s.named r σ) k < 2 ^ 32) :
    word (s'.image (s.named r σ)) (k * 4) = s.cache (s.named r σ) k := by
  have hb := h.sound.tables σ hσ h0
  obtain ⟨pre, hp⟩ := hf.inside _ (Or.inr (Or.inr (Or.inr hb)))
  rw [closing_table h.sound hb (listed_not_mem h.sound hb)] at hp
  have hN : sfsBlkNentry = 1024 := rfl
  have hS : sfsBlksize = 4096 := rfl
  rw [hp, word_written (by omega) (le_refl _), word_wordBytes hlt]

/-- The map of the kernel has the blocks that were appended, as far as it reaches. -/
theorem fileBlock_volume (hc : c ∈ r.inos) (hk : k < sfsNdirect + sfsBlkNentry) :
    (volume s s' blocks).fileBlock c k = (r.blocks c).getD k 0 := by
  obtain ⟨-, -, -, hdi, hin⟩ := din_volume blocks h hl hf hc
  have hp := h.packed c hc
  by_cases hd : k < sfsNdirect
  · rw [fileBlock_direct hd, hdi k hd]
  · obtain ⟨j, rfl⟩ : ∃ j, k = sfsNdirect + j := ⟨k - sfsNdirect, by omega⟩
    have hj : j < sfsBlkNentry := by omega
    rw [fileBlock_indirect hj, hin]
    by_cases h0 : (s.ci c).inode.indirect = 0
    · rw [if_pos h0, getD_of_le (Nat.le_trans (hp.indirect.mp h0) (Nat.le_add_right _ _))]
    · rw [if_neg h0, ← hp.table h0 j hj]
      have hn : s.named r (.table c) = (s.ci c).inode.indirect := named_table hc
      rw [← hn] at h0 ⊢
      refine word_table h hf (σ := .table c) trivial h0 hj ?_
      rw [hn] at h0 ⊢
      rw [hp.table h0 j hj]
      exact getD_lt h hc _

/-- A place that the kernel knows of. -/
def ofSlot : SfsSlot → MksfsSlot
  | .data sin index => .data sin index
  | .table sin => .table sin

omit h hl hf in
theorem ofSlot_inj {σ τ : SfsSlot} (he : ofSlot σ = ofSlot τ) : σ = τ := by
  cases σ <;> cases τ <;> simp_all [ofSlot]

theorem held_volume {σ : SfsSlot} {b : Nat} (hb : (volume s s' blocks).held r.inos σ = some b) :
    s.named r (ofSlot σ) = b ∧ b ≠ 0 := by
  obtain ⟨hin, hn, h0⟩ := held_eq_some.mp hb
  refine ⟨?_, h0⟩
  cases σ with
  | data c k =>
    have hc : c ∈ r.inos := hin
    have hk : k < sfsNdirect + sfsBlkNentry := by
      by_contra hge
      exact h0 (hn ▸ fileBlock_out (Nat.le_of_not_lt hge))
    rw [← hn]
    change (if c ∈ r.inos then _ else 0) = (volume s s' blocks).fileBlock c k
    rw [if_pos hc, fileBlock_volume blocks h hl hf hc hk]
  | table c =>
    have hc : c ∈ r.inos := hin
    rw [← hn]
    change (if c ∈ r.inos then _ else 0) = ((volume s s' blocks).din c).indirect
    rw [if_pos hc, (din_volume blocks h hl hf hc).2.2.2.2]

/-- The blocks that are in no map of the kernel, and not free. -/
def reserved (s s' : Mksfs) (r : Record) (blocks : Nat) : Set Nat :=
  { b | b < s.nextIno ∧ ∀ σ, (volume s s' blocks).held r.inos σ ≠ some b }

/-- Every block of a mounted image is free, reserved, or in one place of one map. -/
theorem owned_volume : (volume s s' blocks).Owned r.inos (reserved s s' r blocks) := by
  have hfr : (volume s s' blocks).free = Finset.Ico s.nextIno s.ninos := free_mountedMap h.sound hl hf blocks
  have hM : sfsMaxNblks = 524288 := rfl
  have hN : sfsBlkNentry = 1024 := rfl
  have hB : sfsBlkbits = 32768 := rfl
  have hmax := h.sound.max
  have hlow := h.sound.low
  have hh := h.sound.high
  have hu := h.sound.unused
  have hp := firstBlock_pos s.ninos
  have hhe : ∀ σ b, (volume s s' blocks).held r.inos σ = some b → b < s.nextIno := by
    intro σ b hb
    obtain ⟨hn, h0⟩ := held_volume blocks h hl hf hb
    rw [← hn] at h0 ⊢
    exact (named_facts h.sound h0).2.1
  refine ⟨⟨?_, ?_, ?_, ?_⟩, ⟨by omega, ?_⟩, ?_, ?_, ?_, ?_⟩
  · intro b hb
    rw [hfr, Finset.mem_Ico] at hb
    exact ⟨hb.2, fun hm => Nat.not_lt.mpr hb.1 hm.1⟩
  · intro σ b hb
    have hlt := hhe σ b hb
    refine ⟨Nat.lt_of_lt_of_le hlt hh, ?_, fun hm => hm.2 σ hb⟩
    rw [hfr, Finset.mem_Ico]
    omega
  · intro σ τ b hσ hτ
    obtain ⟨hn, h0⟩ := held_volume blocks h hl hf hσ
    obtain ⟨hn', -⟩ := held_volume blocks h hl hf hτ
    exact ofSlot_inj (named_inj h.sound (by rw [hn]; exact h0) (by rw [hn, hn']))
  · intro b hb
    by_cases hlt : b < s.nextIno
    · by_cases hσ : ∃ σ, (volume s s' blocks).held r.inos σ = some b
      · exact Or.inr (Or.inr hσ)
      · exact Or.inr (Or.inl ⟨hlt, fun σ he => hσ ⟨σ, he⟩⟩)
    · refine Or.inl ?_
      rw [hfr, Finset.mem_Ico]
      exact ⟨by omega, hb⟩
  · intro σ he
    exact (held_eq_some.mp he).2.2 rfl
  · change s.ninos ≤ (s.ninos + sfsBlkbits - 1) / sfsBlkbits * sfsBlkbits
    rw [hB]
    omega
  · change (s.ninos + sfsBlkbits - 1) / sfsBlkbits * sfsBlkbits ≤ (s.ninos + sfsBlkbits - 1) / sfsBlkbits * sfsBlkNentry * 32
    rw [hB, hN]
    omega
  · change s.ninos < 2 ^ 32
    omega
  · change s.unusedBlocks = _
    rw [hfr, Nat.card_Ico]
    omega

omit h hf in
theorem getD_ne_zero (hk : k < (r.blocks c).length) : (r.blocks c).getD k 0 ≠ 0 := by
  rw [List.getD_eq_getElem?_getD, List.getElem?_eq_getElem hk, Option.getD_some]
  intro h0
  exact hl.nonzero c (h0 ▸ List.getElem_mem hk)

/-- The kernel reads the block that was appended at an index of the map that it knows. -/
theorem sfsBmapGet_volume (hc : c ∈ r.inos) (hi : i < sfsNdirect + sfsBlkNentry) :
    sfsBmapGet c i false (volume s s' blocks) = .ok (0, (r.blocks c).getD i 0, volume s s' blocks) := by
  rw [sfsBmapGet_read (owned_volume blocks h hl hf) hc hi (Or.inr rfl), fileBlock_volume blocks h hl hf hc hi]

end Volume

end MksfsAux

end Ucore
