import Mathlib.Algebra.GroupWithZero.Nat
import Ucore.Lemmas.SfsMap

/-!
# Transfers as sequences of parts

`sfs_io_nolock` moves the part of the first block, the whole blocks and the part of the last block in three pieces of code. All
three load a block and move a range of it, so that a transfer is one loop over parts that lie in a block each (`ioTransfer_eq`).
What holds of a transfer is then proved for one part (`ioParts_within`).
-/

namespace Ucore

open Checked Bytes Function

namespace SfsAux

open Sfs

variable {s : Sfs} {t : Transfer} {sin blkno nblks pos endpos n offset mid i k index len : Nat} {ns ms : List Nat}
  {write : Bool} {I : Finset Nat} {fix : Set Nat} {buf : Nat → UInt8}

/-- Parts of the lengths `ns`, one after the other from the offset `pos` on, until a block cannot be loaded. -/
def ioParts (sin : Nat) (write : Bool) : List Nat → Nat → Transfer → Except SfsPanic (Int × Transfer)
  | [], _, t => .ok (0, t)
  | n :: ns, pos, t =>
    onZero (ioPart sin write (pos / sfsBlksize) (pos % sfsBlksize) n t) fun t => ioParts sin write ns (pos + n) t

/-- Parts that lie in a block each, and lead from one offset to another. -/
def Parts : Nat → List Nat → Nat → Prop
  | pos, [], endpos => pos = endpos
  | pos, n :: ns, endpos => 0 < n ∧ pos % sfsBlksize + n ≤ sfsBlksize ∧ Parts (pos + n) ns endpos

theorem Parts.append : ∀ {ns : List Nat} {pos : Nat}, Parts pos ns mid → Parts mid ms endpos → Parts pos (ns ++ ms) endpos
  | [], _, h, hm => h ▸ hm
  | _ :: _, _, ⟨h0, h1, h⟩, hm => ⟨h0, h1, h.append hm⟩

theorem parts_replicate : ∀ (nblks blkno : Nat),
    Parts (blkno * sfsBlksize) (List.replicate nblks sfsBlksize) ((blkno + nblks) * sfsBlksize)
  | 0, _ => rfl
  | nblks + 1, blkno => by
    have ih := parts_replicate nblks (blkno + 1)
    rw [Nat.add_mul blkno 1, Nat.add_right_comm] at ih
    refine ⟨by decide, ?_, ih⟩
    rw [Nat.mul_mod_left, Nat.zero_add]

theorem sum_replicate_mul (nblks blkno : Nat) :
    blkno * sfsBlksize + (List.replicate nblks sfsBlksize).sum = (blkno + nblks) * sfsBlksize := by
  rw [List.sum_replicate_nat, Nat.add_mul]

/-- The volume with bytes of a block written. -/
def writeBytes (s : Sfs) (b offset len : Nat) (buf : Nat → UInt8) : Sfs :=
  { s with disk := (update s.disk b (patch (s.disk b) offset len buf)) }

section Moved

variable {ino size blkoff : Nat} (hb : ino ≠ 0) (hlt : ino < t.sfs.blocks) (hpos : 0 < size) (hin : blkoff + size ≤ sfsBlksize)
include hb hlt hpos hin

/-- A range of a block is written from the buffer. -/
theorem sfsBufOp_write : sfsBufOp true size ino blkoff t =
    .ok ⟨writeBytes t.sfs ino blkoff size fun i => t.buf (t.alen + i), t.buf, t.alen + size⟩ := by
  show (sfsWbuf _ size ino blkoff t.sfs >>= _) = _
  unfold sfsWbuf
  rw [show bufInside size blkoff = .ok () from ensure_of ⟨by omega, hin⟩ _, sfsRwblock_of hb hlt]
  rfl

/-- A range of a block is read into the buffer. -/
theorem sfsBufOp_read : sfsBufOp false size ino blkoff t =
    .ok ⟨t.sfs, patch t.buf t.alen size fun i => t.sfs.disk ino (blkoff + i), t.alen + size⟩ := by
  show (sfsRbuf size ino blkoff t.sfs >>= _) = _
  unfold sfsRbuf
  rw [show bufInside size blkoff = .ok () from ensure_of ⟨by omega, hin⟩ _, sfsRwblock_of hb hlt]
  rfl

end Moved

/-- A data block is written, which is no table: the maps stay. -/
theorem fileBlock_writeBytes (h : s.Owned I fix) (hs : sin ∈ I) (hb : s.fileBlock sin index ≠ 0) (hi : i ∈ I) :
    (writeBytes s (s.fileBlock sin index) offset len buf).fileBlock i k = s.fileBlock i k := by
  refine fileBlock_congr rfl ?_
  intro _
  exact update_of_ne (data_ne_table h hs hi hb).symm _ _

theorem owned_writeBytes (h : s.Owned I fix) (hs : sin ∈ I) (hb : s.fileBlock sin index ≠ 0) :
    (writeBytes s (s.fileBlock sin index) offset len buf).Owned I fix := by
  refine ⟨h.exact.congr ?_, h.zero, h.nbits, h.nwords, h.small, h.count⟩
  intro σ
  exact held_congr (fun i hi k => fileBlock_writeBytes h hs hb hi) (fun _ _ => rfl)

/-- A whole block is the range of all of its bytes. -/
theorem sfsBlockOp_eq (ino : Nat) (t : Transfer) : sfsBlockOp write ino t = sfsBufOp write sfsBlksize ino 0 t := by
  have hin : bufInside sfsBlksize 0 = .ok () := rfl
  cases write with
  | true =>
    show (sfsWblock _ ino t.sfs >>= _) = (sfsWbuf _ sfsBlksize ino 0 t.sfs >>= _)
    unfold sfsWblock sfsWbuf
    rw [hin, bind_ok]
  | false =>
    show (sfsRblock ino t.sfs >>= _) = (sfsRbuf sfsBlksize ino 0 t.sfs >>= _)
    unfold sfsRblock sfsRbuf
    simp only [hin, bind_ok, Nat.zero_add]

theorem ioParts_append : ∀ (ns : List Nat) (pos : Nat) (t : Transfer), ioParts sin write (ns ++ ms) pos t =
    onZero (ioParts sin write ns pos t) fun t => ioParts sin write ms (pos + ns.sum) t
  | [], pos, t => rfl
  | n :: ns, pos, t => by
    simp only [List.cons_append, ioParts, List.sum_cons, onZero_assoc, ← Nat.add_assoc, ioParts_append ns (pos + n)]

theorem ioParts_singleton (pos n : Nat) (t : Transfer) :
    ioParts sin write [n] pos t = ioPart sin write (pos / sfsBlksize) (pos % sfsBlksize) n t := onZero_return _

/-- One pass of the loop over the whole blocks. -/
theorem ioBlocks_succ (nblks blkno : Nat) (t : Transfer) : ioBlocks sin write (nblks + 1) blkno t =
    onZero (ioPart sin write blkno 0 sfsBlksize t) fun t => ioBlocks sin write nblks (blkno + 1) t := by
  rw [ioBlocks, ioPart]
  cases sfsBmapLoad sin blkno t.sfs with
  | error e => rfl
  | ok r =>
    obtain ⟨ret, ino, s⟩ := r
    simp only [bind_ok, sfsBlockOp_eq]
    by_cases hr : ret = 0
    · rw [if_neg (not_not.mpr hr), if_neg (not_not.mpr hr)]
      cases sfsBufOp write sfsBlksize ino 0 { t with sfs := s } with
      | error e => rfl
      | ok u => rfl
    · rw [if_pos hr, if_pos hr]
      exact (onZero_of_ne hr _).symm

theorem ioBlocks_eq : ∀ (nblks blkno : Nat) (t : Transfer),
    ioBlocks sin write nblks blkno t = ioParts sin write (List.replicate nblks sfsBlksize) (blkno * sfsBlksize) t
  | 0, _, _ => rfl
  | nblks + 1, blkno, t => by
    have hd : blkno * sfsBlksize / sfsBlksize = blkno := Nat.mul_div_cancel _ (by decide)
    have hm : blkno * sfsBlksize % sfsBlksize = 0 := Nat.mul_mod_left _ _
    have hn : blkno * sfsBlksize + sfsBlksize = (blkno + 1) * sfsBlksize := by
      rw [Nat.add_mul, Nat.one_mul]
    simp only [List.replicate_succ, ioParts, hd, hm, hn, ioBlocks_succ, ioBlocks_eq nblks (blkno + 1)]

/-- The whole blocks and the part of the last one. -/
theorem ioRest_eq (sin : Nat) (write : Bool) (he : blkno + nblks = endpos / sfsBlksize) : ∃ ns, Parts (blkno * sfsBlksize) ns endpos ∧
    ∀ t, ioRest sin write blkno nblks endpos t = ioParts sin write ns (blkno * sfsBlksize) t := by
  have hm : endpos % sfsBlksize < sfsBlksize := Nat.mod_lt _ (by decide)
  have hdm : endpos / sfsBlksize * sfsBlksize + endpos % sfsBlksize = endpos := Nat.div_add_mod' _ _
  have hp := parts_replicate nblks blkno
  rw [he] at hp
  have hr : ∀ t, ioRest sin write blkno nblks endpos t = onZero (ioBlocks sin write nblks blkno t) fun t =>
      if endpos % sfsBlksize ≠ 0 then ioPart sin write (blkno + nblks) 0 (endpos % sfsBlksize) t else .ok (0, t) := fun _ => rfl
  by_cases hl : endpos % sfsBlksize = 0
  · refine ⟨List.replicate nblks sfsBlksize, ?_, ?_⟩
    · rw [hl, Nat.add_zero] at hdm
      rwa [hdm] at hp
    · intro t
      simp only [hr, ioBlocks_eq, hl, ne_eq, not_true_eq_false, if_false, onZero_return]
  · have ht : Parts (endpos / sfsBlksize * sfsBlksize) [endpos % sfsBlksize] endpos := by
      refine ⟨Nat.pos_of_ne_zero hl, ?_, hdm⟩
      rw [Nat.mul_mod_left, Nat.zero_add]
      exact hm.le
    refine ⟨List.replicate nblks sfsBlksize ++ [endpos % sfsBlksize], hp.append ht, ?_⟩
    intro t
    simp only [hr, ioBlocks_eq, ioParts_append, sum_replicate_mul, ioParts_singleton, hl, ne_eq, not_false_eq_true, if_true,
      Nat.mul_mod_left, Nat.mul_div_cancel _ (show 0 < sfsBlksize by decide)]

/-- A transfer is a loop over parts from its offset to its end. -/
theorem ioTransfer_eq (sin : Nat) (write : Bool) (hle : offset < endpos) : ∃ ns, Parts offset ns endpos ∧
    ∀ t, ioTransfer sin write offset endpos t = ioParts sin write ns offset t := by
  have hblk : offset / sfsBlksize ≤ endpos / sfsBlksize := Nat.div_le_div_right hle.le
  have hdm : offset / sfsBlksize * sfsBlksize + offset % sfsBlksize = offset := Nat.div_add_mod' _ _
  have hm : offset % sfsBlksize < sfsBlksize := Nat.mod_lt _ (by decide)
  unfold ioTransfer
  by_cases ho : offset % sfsBlksize = 0
  · obtain ⟨ns, hp, hr⟩ := ioRest_eq sin write
      (show offset / sfsBlksize + (endpos / sfsBlksize - offset / sfsBlksize) = endpos / sfsBlksize by omega)
    rw [ho, Nat.add_zero] at hdm
    rw [hdm] at hp hr
    refine ⟨ns, hp, ?_⟩
    intro t
    rw [if_neg (not_not.mpr ho), hr]
  · simp only [ho, ne_eq, not_false_eq_true, if_true]
    by_cases hn : endpos / sfsBlksize - offset / sfsBlksize = 0
    · -- the transfer stays in one block
      have hs : endpos / sfsBlksize = offset / sfsBlksize := by omega
      have he : endpos / sfsBlksize * sfsBlksize + endpos % sfsBlksize = endpos := Nat.div_add_mod' _ _
      have hmode : endpos % sfsBlksize < sfsBlksize := Nat.mod_lt _ (by decide)
      rw [hs] at he
      refine ⟨[endpos - offset], ⟨by omega, by omega, by show offset + (endpos - offset) = endpos; omega⟩, ?_⟩
      intro t
      simp only [hn, not_true_eq_false, if_false, or_true, if_true, ioParts_singleton]
      exact bind_pure _
    · obtain ⟨ns, hp, hr⟩ := ioRest_eq sin write
        (show offset / sfsBlksize + 1 + (endpos / sfsBlksize - offset / sfsBlksize - 1) = endpos / sfsBlksize by omega)
      have hne : (offset / sfsBlksize + 1) * sfsBlksize = offset + (sfsBlksize - offset % sfsBlksize) := by
        rw [Nat.add_mul]
        omega
      rw [hne] at hp hr
      refine ⟨(sfsBlksize - offset % sfsBlksize) :: ns, ⟨by omega, by omega, hp⟩, ?_⟩
      intro t
      simp only [hn, not_false_eq_true, if_true, or_false, ioParts, hr]
      rfl

/-- What one part keeps, a transfer keeps. -/
theorem ioParts_within {E : SfsPanic → Prop} {P : Transfer → Prop}
    (hp : ∀ pos n t, 0 < n → pos % sfsBlksize + n ≤ sfsBlksize → P t →
      Within E (ioPart sin write (pos / sfsBlksize) (pos % sfsBlksize) n t) fun r => P r.2) :
    ∀ {ns : List Nat} {pos : Nat} {t : Transfer}, Parts pos ns endpos → P t →
      Within E (ioParts sin write ns pos t) fun r => P r.2
  | [], _, _, _, h => h
  | n :: _, pos, t, ⟨h0, h1, hpa⟩, h =>
    (hp pos n t h0 h1 h).onZero (fun _ hr _ => hr) fun _ hu => ioParts_within hp hpa hu

end SfsAux

end Ucore
