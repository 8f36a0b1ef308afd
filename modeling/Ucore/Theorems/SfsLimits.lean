import Ucore.Theorems.SfsFile

/-!
# The limits of a file

What `sfs_truncfile` and `sfs_io_nolock` do where a volume runs out of blocks, and where a map runs out of room. A growth that stops
halfway keeps the blocks it has got, and does not change the size: it is all or nothing exactly where it gets all its blocks or not
even the first (`truncation_all_or_nothing`). `SFS_MAX_FILE_SIZE` is much larger than what a map has room for; a call that asks for
more returns only where the volume runs out of blocks first (`accepted_calls_return`).
-/

namespace Ucore

open Checked Bytes

namespace Sfs

/-- A regular file of a volume that has the blocks which its size needs. -/
structure Sized (s : Sfs) (I : Finset Nat) (fix : Set Nat) (i : Nat) : Prop where
  owned : s.Owned I fix
  mem : i ∈ I
  file : (s.din i).type = .file
  dense : s.Dense i
  blocks : (s.din i).blocks = ((s.din i).size + sfsBlksize - 1) / sfsBlksize

/-- After a call that returned `ret`: a failed call has changed nothing, and the file has the blocks which its size needs. -/
structure AllOrNothing (s s' : Sfs) (i : Nat) (ret : Int) : Prop where
  size : ret ≠ 0 → (s'.din i).size = (s.din i).size
  blocks : ret ≠ 0 → (s'.din i).blocks = (s.din i).blocks
  map : ret ≠ 0 → ∀ k, s'.fileBlock i k = s.fileBlock i k
  table : ret ≠ 0 → (s'.din i).indirect = (s.din i).indirect
  unused : ret ≠ 0 → s'.unusedBlocks = s.unusedBlocks
  fits : (s'.din i).blocks = ((s'.din i).size + sfsBlksize - 1) / sfsBlksize

end Sfs

namespace SfsAux

open Sfs

variable {s s' : Sfs} {I : Finset Nat} {fix : Set Nat} {i : Nat}

theorem Sized.size_le (h : s.Sized I fix i) : (s.din i).size ≤ (s.din i).blocks * sfsBlksize := by
  rw [h.blocks]
  unfold sfsBlksize
  omega

/-- A growth that stopped early has left the file as it was exactly where it stopped at the first block. -/
theorem Loaded.allOrNothing (h : s.Sized I fix i) (hl : Loaded s s' I fix i (s.limit i))
    (hst : s.limit i = (s.din i).blocks → Starved s s' I fix i) :
    s.AllOrNothing s' i (-eNoMem) ↔ s.limit i = (s.din i).blocks := by
  constructor
  · intro ha
    exact hl.blocks.symm.trans (ha.blocks (by decide))
  · intro hm
    have hst := hst hm
    refine ⟨fun _ => hl.size, fun _ => by rw [hst.din], fun _ => hst.map, fun _ => by rw [hst.din], fun _ => ?_, ?_⟩
    · rw [hst.owned.count, h.owned.count, hst.free]
    · rw [hst.din]
      exact h.blocks

end SfsAux

/-- `sfs_truncfile` on a file whose blocks fit its size is all or nothing exactly where all the blocks that it still needs are free,
or not even those for the first one. -/
theorem truncation_all_or_nothing {s s' : Sfs} {I : Finset Nat} {fix : Set Nat} {i len : Nat} {ret : Int} (h : s.Sized I fix i)
    (hlen : len ≤ sfsMaxFileSize) (hrun : sfsTruncfile i len s = .ok (ret, s')) : s.AllOrNothing s' i ret ↔
      s.free.card < SfsAux.need s i (s.din i).blocks ∨
        s.extra i ((len + sfsBlksize - 1) / sfsBlksize - (s.din i).blocks) ≤ s.free.card := by
  have hspec := SfsAux.sfsTruncfile_spec h.owned h.mem h.dense hlen
  have hlimit := SfsAux.blocks_le_limit h.dense
  rw [hrun] at hspec
  rw [SfsAux.lt_need_iff, SfsAux.extra_le_iff]
  generalize hr : (Except.ok (ret, s') : Except SfsPanic (Int × Sfs)) = r at hspec
  cases hspec with
  | mismatch => nomatch hr
  | out => nomatch hr
  | same hsize hb =>
    cases hr
    exact iff_of_true ⟨nofun, nofun, nofun, nofun, nofun, h.blocks⟩ (Or.inr (by omega))
  | done _ _ hb hsize _ hlim _ =>
    cases hr
    refine iff_of_true ⟨nofun, nofun, nofun, nofun, nofun, ?_⟩ (Or.inr (by omega))
    rw [hb, hsize]
  | short hlt _ hl hst =>
    cases hr
    rw [SfsAux.Loaded.allOrNothing h hl hst]
    omega

/-- The empty file of the small volume, in which three blocks are free. -/
theorem smallVolume_sized : (smallVolume (smallFile 0 0)).Sized {1, 4} {0, 1, 2, 4} 4 := by
  refine ⟨SfsAux.smallVolume_owned, by decide, rfl, ?_, rfl⟩
  intro k
  rw [SfsAux.smallVolume_fileBlock 4 k (Or.inr rfl)]
  exact ⟨fun h => absurd rfl h, fun h => absurd h (Nat.not_lt_zero k)⟩

/-- Two blocks are asked for and get there. -/
theorem truncation_all_or_nothing_two : ∃ s', sfsTruncfile 4 (8192 : Nat) (smallVolume (smallFile 0 0)) = .ok (0, s') ∧
    (smallVolume (smallFile 0 0)).AllOrNothing s' 4 0 := by
  have hr : sfsTruncfile 4 (8192 : Nat) (smallVolume (smallFile 0 0)) = .ok (0, _) :=
    eq_ok_pair (by decide +kernel) (by decide +kernel)
  refine ⟨_, hr, (truncation_all_or_nothing smallVolume_sized (by decide) hr).mpr (Or.inr ?_)⟩
  rw [SfsAux.smallVolume_free]
  decide

/-- Four blocks are asked for and three are free. The call fails with three more blocks than before, and the next call that leaves
the size as it is panics. -/
theorem truncation_stops_halfway : ∃ s', sfsTruncfile 4 (16384 : Nat) (smallVolume (smallFile 0 0)) = .ok (-eNoMem, s') ∧
    ((smallVolume (smallFile 0 0)).din 4).blocks = 0 ∧ (s'.din 4).blocks = 3 ∧ (s'.din 4).size = 0 ∧ s'.unusedBlocks = 0 ∧
    sfsTruncfile 4 0 s' = .error .truncBlocks :=
  ⟨_, eq_ok_pair (by decide +kernel) (by decide +kernel), rfl, by decide +kernel, by decide +kernel, by decide +kernel,
    eq_error_of_errorIs (by decide +kernel)⟩

/-! ## Accepted offsets -/

/-- The calls with an offset of a file. -/
inductive OffsetCall
  | io (write : Bool) (buf : Nat → UInt8) (offset : Int) (len : Nat)
  | tryseek (pos : Int)
  | truncfile (len : Int)

namespace OffsetCall

/-- The return value of a call for the file `i`. -/
def run (s : Sfs) (i : Nat) : OffsetCall → Except SfsPanic Int
  | .io write buf offset len => (sfsIo i buf offset len write s).map (·.1)
  | .tryseek pos => (sfsTryseek i pos s).map (·.1)
  | .truncfile len => (sfsTruncfile i len s).map (·.1)

/-- The arguments pass the range checks; a transfer begins in the file. -/
def Accepted (s : Sfs) (i : Nat) : OffsetCall → Prop
  | .io _ _ offset len => 0 ≤ offset ∧ offset < sfsMaxFileSize ∧ offset ≤ endpos offset len ∧ offset ≤ (s.din i).size
  | .tryseek pos => 0 ≤ pos ∧ pos < sfsMaxFileSize
  | .truncfile len => 0 ≤ len ∧ len ≤ sfsMaxFileSize

instance (s : Sfs) (i : Nat) : (c : OffsetCall) → Decidable (c.Accepted s i)
  | .io _ _ _ _ => inferInstanceAs (Decidable (_ ∧ _))
  | .tryseek _ => inferInstanceAs (Decidable (_ ∧ _))
  | .truncfile _ => inferInstanceAs (Decidable (_ ∧ _))

/-- The size that a call asks for. A read ends in the file. -/
def reach : OffsetCall → Nat
  | .io true _ offset len => min (endpos offset len).toNat sfsMaxFileSize
  | .io false _ _ _ => 0
  | .tryseek pos => pos.toNat
  | .truncfile len => len.toNat

end OffsetCall

namespace SfsAux

open Sfs

variable {s : Sfs} {I : Finset Nat} {fix : Set Nat} {i len : Nat}

theorem returns_map {α β : Type} {x : Except SfsPanic α} {f : α → β} : (∃ r, x.map f = .ok r) ↔ ∃ r, x = .ok r := by
  cases x with
  | ok a => exact iff_of_true ⟨f a, rfl⟩ ⟨a, rfl⟩
  | error e => exact iff_of_false (fun ⟨_, h⟩ => nomatch h) (fun ⟨_, h⟩ => nomatch h)

section

variable (h : s.Sized I fix i)
include h

/-- The size of a file is at most what its map has room for. -/
theorem Sized.size_le_cap : (s.din i).size ≤ (sfsNdirect + sfsBlkNentry) * sfsBlksize :=
  (Sized.size_le h).trans (Nat.mul_le_mul_right _ (blocks_le h.dense))

theorem truncfile_returns (hl : len ≤ sfsMaxFileSize) :
    (∃ r, sfsTruncfile i len s = .ok r) ↔ len ≤ (sfsNdirect + sfsBlkNentry) * sfsBlksize ∨ ¬s.Room i := by
  have hs := sfsTruncfile_spec h.owned h.mem h.dense hl
  have hcap : (len + sfsBlksize - 1) / sfsBlksize ≤ sfsNdirect + sfsBlkNentry ↔
      len ≤ (sfsNdirect + sfsBlkNentry) * sfsBlksize := by
    unfold sfsBlksize
    omega
  rw [← hcap, room_iff h.dense]
  generalize sfsTruncfile i len s = r at hs
  cases hs with
  | mismatch hsi hb =>
    rw [← hsi, ← h.blocks] at hb
    exact absurd rfl hb
  | same hsi hb =>
    refine iff_of_true ⟨_, rfl⟩ (Or.inl ?_)
    rw [hb]
    exact blocks_le h.dense
  | done _ hd hb =>
    refine iff_of_true ⟨_, rfl⟩ (Or.inl ?_)
    rw [← hb]
    exact blocks_le hd
  | short _ hcap => exact iff_of_true ⟨_, rfl⟩ (Or.inr (not_le.mpr hcap))
  | out hr hlt _ => exact iff_of_false (fun ⟨_, hc⟩ => nomatch hc) fun hc => hc.elim (not_le.mpr hlt) fun hn => hn hr

theorem tryseek_returns (hl : len < sfsMaxFileSize) :
    (∃ r, sfsTryseek i len s = .ok r) ↔ len ≤ (sfsNdirect + sfsBlkNentry) * sfsBlksize ∨ ¬s.Room i := by
  unfold sfsTryseek
  rw [if_neg (by omega)]
  by_cases hlt : (s.din i).size < len
  · rw [if_pos (by omega)]
    exact truncfile_returns h hl.le
  · rw [if_neg (by omega)]
    have := Sized.size_le_cap h
    exact iff_of_true ⟨_, rfl⟩ (Or.inl (by omega))

theorem write_returns {buf : Nat → UInt8} {offset e : Nat} (he : OffsetCall.endpos offset len = e)
    (ho : offset < sfsMaxFileSize) (hle : offset ≤ e) (hs : offset ≤ (s.din i).size) :
    (∃ r, sfsIo i buf offset len true s = .ok r) ↔
      min e sfsMaxFileSize ≤ (sfsNdirect + sfsBlkNentry) * sfsBlksize ∨ ¬s.Room i := by
  obtain ⟨r, hio, hsp⟩ := sfsIo_write buf h.file he ho h.owned h.mem h.dense (hs.trans (Sized.size_le h)) hs hle
  rw [hio, room_iff h.dense]
  cases hsp with
  | @all t m hm hc =>
    refine iff_of_true ⟨_, rfl⟩ (Or.inl ?_)
    by_cases h0 : m = 0
    · rw [← hm, h0]
      exact hs.trans (Sized.size_le_cap h)
    · rw [← hm]
      exact (hc.reach h0).trans (Nat.mul_le_mul_right _ (blocks_le hc.dense))
  | short _ _ hcap _ => exact iff_of_true ⟨_, rfl⟩ (Or.inr (not_le.mpr hcap))
  | out hcap hlt =>
    refine iff_of_false (fun ⟨_, hc⟩ => nomatch hc) ?_
    rintro (hc | hc)
    · exact not_le.mpr hlt hc
    · exact hc hcap

end

end SfsAux

/-- A call on a well-formed regular file, with arguments that pass the range checks, returns exactly where it asks for no more than a
map has room for, or where too few blocks are free to get there. -/
theorem accepted_calls_return {s : Sfs} {I : Finset Nat} {fix : Set Nat} {i : Nat} (h : s.Sized I fix i) (c : OffsetCall)
    (hc : c.Accepted s i) : (∃ ret, c.run s i = .ok ret) ↔ c.reach ≤ (sfsNdirect + sfsBlkNentry) * sfsBlksize ∨ ¬s.Room i := by
  cases c with
  | io write buf offset len =>
    obtain ⟨h0, hmax, hle, hsize⟩ := hc
    obtain ⟨o, rfl⟩ := Int.eq_ofNat_of_zero_le h0
    obtain ⟨e, he⟩ := Int.eq_ofNat_of_zero_le (Int.le_trans h0 hle)
    rw [OffsetCall.run, SfsAux.returns_map]
    cases write with
    | true =>
      rw [OffsetCall.reach, he]
      exact SfsAux.write_returns h he (by omega) (by omega) (by omega)
    | false =>
      exact iff_of_true ⟨_, SfsAux.sfsIo_read buf h.file he (by omega) h.owned h.mem h.dense (SfsAux.Sized.size_le h) (by omega)⟩
        (Or.inl (Nat.zero_le _))
  | tryseek pos =>
    obtain ⟨h0, hmax⟩ := hc
    obtain ⟨p, rfl⟩ := Int.eq_ofNat_of_zero_le h0
    rw [OffsetCall.run, SfsAux.returns_map]
    exact SfsAux.tryseek_returns h (by omega)
  | truncfile len =>
    obtain ⟨h0, hmax⟩ := hc
    obtain ⟨l, rfl⟩ := Int.eq_ofNat_of_zero_le h0
    rw [OffsetCall.run, SfsAux.returns_map]
    exact SfsAux.truncfile_returns h (by omega)

/-- Three bytes are written at the beginning of the empty file. -/
theorem accepted_calls_return_small : ∃ ret, (OffsetCall.io true (fun _ => 7) 0 3).run (smallVolume (smallFile 0 0)) 4 = .ok ret :=
  (accepted_calls_return smallVolume_sized _ (by decide)).mpr (Or.inl (by decide))

/-- A byte at the end of a file that fills its map: the offset and the length pass the checks, and the kernel panics. -/
theorem write_out_of_range : fullVolume.Sized {1, 4} {0, 1, 2, 4} 4 ∧
    (OffsetCall.io true (fun _ => 7) (1036 * 4096) 1).Accepted fullVolume 4 ∧
    (OffsetCall.io true (fun _ => 7) (1036 * 4096) 1).run fullVolume 4 = .error .indexRange := by
  have hreg := SfsAux.fullVolume_volume.regular 4 (by decide) rfl
  exact ⟨⟨SfsAux.fullVolume_owned, by decide, rfl, hreg.dense, hreg.blocks⟩, by decide, rfl⟩

end Ucore
