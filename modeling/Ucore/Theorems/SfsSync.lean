import Mathlib.Data.UInt
import Ucore.Lemmas.SfsSync

/-!
# Clean inodes match their blocks

Runs of transfers, truncations and syncs on the regular files of a volume. As long as writes begin in the file and no truncation
stops halfway in the table of a clean inode, an inode that is not marked as dirty is what its block holds, so that nothing is lost
when its memory is freed (`clean_inodes_match`). A truncation that stops halfway there counts blocks that it does not write down
(`clean_inode_behind`).
-/

namespace Ucore

open Checked Bytes

/-- The operations on the inodes of a volume. -/
inductive InodeOp
  | io (sin : Nat) (write : Bool) (buf : Nat → UInt8) (offset : Int) (len : Nat)
  | truncfile (sin : Nat) (len : Int)
  | fsync (sin : Nat)

/-- The inode of an operation. -/
def InodeOp.sin : InodeOp → Nat
  | .io sin _ _ _ _ => sin
  | .truncfile sin _ => sin
  | .fsync sin => sin

/-- One operation: the return value, and the volume. -/
def stepInode (s : Sfs) : InodeOp → Except SfsPanic (Int × Sfs)
  | .io sin write buf offset len => do
    let (ret, _, _, s) ← sfsIo sin buf offset len write s
    return (ret, s)
  | .truncfile sin len => sfsTruncfile sin len s
  | .fsync sin => do
    let s ← sfsFsync sin s
    return (0, s)

/-- A write begins in the file, and a truncation marks the inode where it changes it. -/
def InodeOp.Calm (s : Sfs) : InodeOp → Prop
  | .io sin write _ offset _ => write = true → offset ≤ (s.din sin).size
  | .truncfile sin len => s.Marks sin len
  | .fsync _ => True

/-- The volumes that operations on regular files of `I` lead to, all of them calm. -/
inductive InodeReach (I : Finset Nat) (s₀ : Sfs) : Sfs → Prop
  | start : InodeReach I s₀ s₀
  | step {s s' : Sfs} {ret : Int} (op : InodeOp) : InodeReach I s₀ s → op.sin ∈ I → (s.din op.sin).type = .file →
      stepInode s op = .ok (ret, s') → op.Calm s → InodeReach I s₀ s'

/-- Every block is free or owned once, the inodes have blocks of their own, the regular files are covered by their blocks, and clean
inodes are what their blocks hold. -/
structure Sfs.Clean (s : Sfs) (I : Finset Nat) (fix : Set Nat) : Prop where
  owned : s.Owned I fix
  blocks : ∀ i ∈ I, i ∈ fix
  covered : ∀ i ∈ I, (s.din i).type = .file → s.Covered i
  synced : ∀ i ∈ I, s.Synced i

namespace SfsAux

open Sfs

variable {s s' : Sfs} {I : Finset Nat} {fix : Set Nat} {sin : Nat}

theorem Written.clean (hw : Written s s' I fix sin) (h : s.Clean I fix) (hs : sin ∈ I) : s'.Clean I fix := by
  refine ⟨hw.owned, h.blocks, ?_, ?_⟩
  · intro i hi ht
    by_cases he : i = sin
    · rw [he]
      exact hw.covered
    · rw [din_of_inodes (hw.inodes i he)] at ht
      exact hw.toOthers.covered hi he (h.covered i hi ht)
  · intro i hi
    by_cases he : i = sin
    · rw [he]
      exact hw.synced (h.blocks sin hs) (h.synced sin hs)
    · exact hw.toOthers.synced (h.blocks i hi) he (h.synced i hi)

/-- A sync writes the inode to its block, and touches nothing else. -/
theorem clean_fsync (h : s.Clean I fix) (hs : sin ∈ I) (hr : sfsFsync sin s = .ok s') : s'.Clean I fix := by
  rcases sfsFsync_cases hr with ⟨-, rfl⟩ | ⟨-, rfl⟩
  · exact h
  have hf : FixedOnly s (s.flushed sin) I fix := FixedOnly.flushed (h.blocks sin hs)
  refine ⟨hf.owned h.owned, h.blocks, ?_, ?_⟩
  · intro i hi ht
    rw [din_flushed] at ht
    exact hf.covered h.owned hi (h.covered i hi ht)
  · intro i hi
    by_cases he : i = sin
    · rw [he]
      exact synced_flushed
    · intro hd o hlt
      rw [inodes_flushed he] at hd
      rw [disk_flushed he, din_flushed]
      exact h.synced i hi hd o hlt

/-- A calm operation keeps what clean inodes are. -/
theorem stepInode_clean {op : InodeOp} {ret : Int} (h : s.Clean I fix) (hs : op.sin ∈ I) (ht : (s.din op.sin).type = .file)
    (hrun : stepInode s op = .ok (ret, s')) (hc : op.Calm s) : s'.Clean I fix := by
  cases op with
  | io sin write buf offset len =>
    obtain ⟨r, hio, hr⟩ := bind_eq_ok.mp hrun
    cases hr
    cases write with
    | true => exact (sfsIo_write_within h.owned hs ht (h.covered _ hs ht) (hc rfl) hio).clean h hs
    | false =>
      rw [sfsIo_read_same h.owned hs ht (h.covered _ hs ht) hio]
      exact h
  | truncfile sin len => exact (sfsTruncfile_within_sized h.owned hs (h.covered _ hs ht) hrun hc).clean h hs
  | fsync sin =>
    obtain ⟨s1, hsy, hr⟩ := bind_eq_ok.mp hrun
    cases hr
    exact clean_fsync h hs hsy

end SfsAux

/-- In every run of calm operations from a volume whose clean inodes are what their blocks hold, every inode that is not dirty is
what its block holds. -/
theorem clean_inodes_match {s₀ s : Sfs} {I : Finset Nat} {fix : Set Nat} (h : s₀.Clean I fix) (hr : InodeReach I s₀ s) :
    ∀ i ∈ I, (s.inodes i).dirty = false → ∀ o < sizeofDiskInode, s.disk i o = (s.din i).bytes o := by
  have hs : s.Clean I fix := by
    induction hr with
    | start => exact h
    | step op _ hsin htype hrun hcalm ih => exact SfsAux.stepInode_clean ih hsin htype hrun hcalm
  exact hs.synced

/-- A volume as `smallVolume`, with the inodes in their blocks. -/
def syncedVolume (file : DiskInode) : Sfs :=
  { smallVolume file with disk := fun b => if b = 1 then smallRoot.bytes else if b = 4 then file.bytes else 0 }

namespace SfsAux

open Sfs

variable {file : DiskInode}

theorem syncedVolume_fixedOnly : FixedOnly (smallVolume file) (syncedVolume file) {1, 4} {0, 1, 2, 4} := by
  refine ⟨fun _ _ => .refl, ?_, rfl, rfl, rfl⟩
  intro c hc
  have h1 : c ≠ 1 := by
    rintro rfl
    exact hc (by simp)
  have h4 : c ≠ 4 := by
    rintro rfl
    exact hc (by simp)
  show (if c = 1 then _ else if c = 4 then _ else _) = _
  rw [if_neg h1, if_neg h4]
  rfl

theorem syncedVolume_clean : (syncedVolume (smallFile 0 0)).Clean {1, 4} {0, 1, 2, 4} := by
  have hf : FixedOnly (smallVolume (smallFile 0 0)) (syncedVolume (smallFile 0 0)) {1, 4} {0, 1, 2, 4} := syncedVolume_fixedOnly
  refine ⟨hf.owned smallVolume_owned, ?_, ?_, ?_⟩
  · intro i hi
    rcases (by simpa using hi : i = 1 ∨ i = 4) with rfl | rfl <;> simp
  · intro i hi ht
    rcases (by simpa using hi : i = 1 ∨ i = 4) with rfl | rfl
    · nomatch ht
    · exact hf.covered smallVolume_owned (by decide) (Covered.of_sized smallVolume_sized)
  · intro i hi _ o _
    rcases (by simpa using hi : i = 1 ∨ i = 4) with rfl | rfl <;> rfl

end SfsAux

/-- A byte is written to the empty file, and the inode then written to its block. -/
theorem clean_inodes_match_synced : ∃ s, InodeReach {1, 4} (syncedVolume (smallFile 0 0)) s ∧ (s.inodes 4).dirty = false ∧
    (s.din 4).size = 1 ∧ ∀ o < sizeofDiskInode, s.disk 4 o = (s.din 4).bytes o := by
  have hwrite : InodeReach {1, 4} (syncedVolume (smallFile 0 0)) _ :=
    .step (.io 4 true (fun _ => 7) 0 1) .start (by decide) rfl (eq_ok_okGet (by decide +kernel)) fun _ => by decide
  have hr := InodeReach.step (.fsync 4) hwrite (by decide) (by decide +kernel) (eq_ok_okGet (by decide +kernel)) trivial
  exact ⟨_, hr, by decide +kernel, by decide +kernel, clean_inodes_match SfsAux.syncedVolume_clean hr 4 (by decide) (by decide +kernel)⟩

/-- A file of thirteen blocks, with its table in the block 5 and its blocks from 6 on. -/
def tableFile : DiskInode := ⟨13 * 4096, .file, 1, 13, fun k => if k < 12 then 6 + k else 0, 5⟩

/-- A volume of twenty blocks with such a file, the inodes in their blocks, and one free block. -/
def tableVolume : Sfs where
  blocks := 20
  unusedBlocks := 1
  freemap := ⟨32768, 1024, fun w => if w = 0 then 0x80000#32 else 0#32⟩
  superDirty := false
  disk b o := if b = 1 then smallRoot.bytes o else if b = 4 then tableFile.bytes o else if b = 5 ∧ o < 4 then byteOf 18 o else 0
  inodes i := ⟨if i = 4 then tableFile else smallRoot, false⟩

/-- Two more blocks are asked for and one is free: the call fails, the inode in memory counts fourteen blocks and is not dirty, and its
block says thirteen. When the memory of the inode is freed, the fourteenth block is lost to the file. -/
theorem clean_inode_behind : (∀ o < sizeofDiskInode, tableVolume.disk 4 o = (tableVolume.din 4).bytes o) ∧
    ∃ s', stepInode tableVolume (.truncfile 4 (15 * 4096)) = .ok (-eNoMem, s') ∧ (s'.inodes 4).dirty = false ∧
      (s'.din 4).blocks = 14 ∧ s'.disk 4 8 ≠ (s'.din 4).bytes 8 ∧ ((s'.forget 4).din 4).blocks = 13 ∧ s'.unusedBlocks = 0 := by
  exact ⟨fun _ _ => rfl, _, eq_ok_pair (by decide +kernel) (by decide +kernel), by decide +kernel⟩

end Ucore
