import Ucore.Lemmas.SfsIo

/-!
# Block ownership over runs of the simple file system

Block-mapping operations of any files, one after the other. Where every block of the volume is free or owned once, and no file has
a hole in its map, that stays so, and no assertion about the blocks stops an operation (`sfs_runs_owned`). What can stop one are the
checks of its arguments (`SfsPanic.Arguments`).
-/

namespace Ucore

open Checked Bytes

/-- The panics and assertions about the arguments of a call. The others are about blocks. -/
def SfsPanic.Arguments : SfsPanic → Prop
  | .loadIndex => True
  | .indexRange => True
  | .truncateEmpty => True
  | .truncBlocks => True
  | .ioType => True
  | _ => False

/-- Every block is free or owned once, and no file of `I` has a hole in its map. The fixed blocks are the superblock, those of the
bitmap and those of the inodes. -/
structure Sfs.Mapped (s : Sfs) (I : Finset Nat) (fix : Set Nat) : Prop where
  owned : s.Owned I fix
  full : ∀ sin ∈ I, s.Full sin

/-- The operations that map blocks. -/
inductive MapOp
  | load (sin index : Nat)
  | truncate (sin : Nat)
  | truncfile (sin : Nat) (len : Int)
  | write (sin : Nat) (buf : Nat → UInt8) (offset : Int) (len : Nat)

/-- The file of an operation. -/
def MapOp.sin : MapOp → Nat
  | .load sin _ => sin
  | .truncate sin => sin
  | .truncfile sin _ => sin
  | .write sin _ _ _ => sin

/-- One operation. -/
def stepMap (s : Sfs) : MapOp → Except SfsPanic Sfs
  | .load sin index => do
    let (_, _, s) ← sfsBmapLoad sin index s
    return s
  | .truncate sin => sfsBmapTruncate sin s
  | .truncfile sin len => do
    let (_, s) ← sfsTruncfile sin len s
    return s
  | .write sin buf offset len => do
    let (_, _, _, s) ← sfsIo sin buf offset len true s
    return s

/-- The volumes that operations on files of `I` lead to. -/
inductive MapReach (I : Finset Nat) (s₀ : Sfs) : Sfs → Prop
  | start : MapReach I s₀ s₀
  | step {s s' : Sfs} (op : MapOp) : MapReach I s₀ s → op.sin ∈ I → stepMap s op = .ok s' → MapReach I s₀ s'

namespace SfsAux

open Sfs

variable {s s' : Sfs} {I : Finset Nat} {fix : Set Nat} {i k sin index : Nat} {t : Transfer} {write : Bool}

/-! ## What keeps the invariant -/

/-- The maps stay, and no file counts more blocks. -/
theorem Mapped.congr (h : s.Mapped I fix) (ho : s'.Owned I fix) (hf : ∀ i ∈ I, ∀ k, s'.fileBlock i k = s.fileBlock i k)
    (hb : ∀ i ∈ I, (s'.din i).blocks = (s.din i).blocks) : s'.Mapped I fix := by
  refine ⟨ho, ?_⟩
  intro i hi k hk hk'
  rw [hf i hi k]
  exact h.full i hi k (hb i hi ▸ hk) hk'

theorem mapped_setDin {d : DiskInode} (h : s.Mapped I fix) (hd : d.direct = (s.din sin).direct)
    (ht : d.indirect = (s.din sin).indirect) (hb : d.blocks = (s.din sin).blocks) : (s.setDin sin d).Mapped I fix := by
  refine Mapped.congr h (owned_setDin h.owned hd ht) (fun i _ k => fileBlock_setDin hd ht) ?_
  intro i _
  rw [din_setDin]
  by_cases hi : i = sin
  · rw [if_pos hi, hi, hb]
  · rw [if_neg hi]

theorem mapped_setDirty (h : s.Mapped I fix) : (s.setDirty sin).Mapped I fix :=
  Mapped.congr h (owned_setDirty h.owned) (fun _ _ _ => fileBlock_setDirty) (fun _ _ => by rw [din_setDirty])

/-- Another number of blocks is counted for a file, which are there. -/
theorem mapped_setBlocks {n : Nat} (ho : s.Owned I fix) (hf : ∀ i ∈ I, i ≠ sin → s.Full i)
    (hb : ∀ k < n, k < sfsNdirect + sfsBlkNentry → s.fileBlock sin k ≠ 0) : (setBlocks s sin n).Mapped I fix := by
  refine ⟨owned_setBlocks ho n, ?_⟩
  intro i hi k hk hk'
  rw [blocks_setBlocks] at hk
  rw [fileBlock_setBlocks]
  by_cases his : i = sin
  · rw [if_pos his] at hk
    rw [his]
    exact hb k hk hk'
  · rw [if_neg his] at hk
    exact hf i hi his k hk hk'

/-- The files keep the blocks that they count where others keep their inodes and no block is lost. -/
theorem full_of_others (h : s.Full i) (hin : s'.inodes i = s.inodes i) (hf : ∀ k, s'.fileBlock i k = s.fileBlock i k) : s'.Full i := by
  intro k hk hk'
  unfold din at hk
  rw [hin] at hk
  rw [hf k]
  exact h k hk hk'

/-- A load keeps the invariant, and returns the block of the index. -/
theorem sfsBmapLoad_within (h : s.Mapped I fix) (hs : sin ∈ I) (index : Nat) :
    Within SfsPanic.Arguments (sfsBmapLoad sin index s) fun r =>
      r.2.2.Mapped I fix ∧ (r.1 = 0 → r.2.1 = r.2.2.fileBlock sin index ∧ r.2.1 ≠ 0) := by
  have hsp := sfsBmapLoad_spec h.owned hs (h.full sin hs) index
  generalize sfsBmapLoad sin index s = r at hsp
  cases hsp with
  | behind _ => trivial
  | out _ => trivial
  | read _ hb => exact ⟨h, fun _ => ⟨rfl, hb⟩⟩
  | counted heq hb =>
    refine ⟨mapped_setBlocks h.owned (fun i hi _ => h.full i hi) ?_, fun _ => ⟨(fileBlock_setBlocks _).symm, hb⟩⟩
    intro k hk hk'
    rcases Nat.lt_succ_iff_lt_or_eq.mp hk with hlt | rfl
    · exact h.full sin hs k (heq ▸ hlt) hk'
    · exact hb
  | refused heq hb _ hr =>
    refine ⟨Mapped.congr h hr.owned ?_ ?_, fun hc => absurd hc (show -eNoMem ≠ 0 by decide)⟩
    · intro i hi k
      exact fileBlock_of_disk hr.inodes (fun i hi ht => hr.disk _ (table_facts h.owned hi ht).2.1) hi
    · intro i _
      unfold din
      rw [hr.inodes]
  | extended heq hb he =>
    have hb0 := (free_facts h.owned he.new).1
    refine ⟨mapped_setBlocks he.owned ?_ ?_, fun _ => ⟨?_, hb0⟩⟩
    · intro i hi his
      refine full_of_others (h.full i hi) (he.others i his) ?_
      intro k
      rw [he.fileBlock i hi k, if_neg (fun hc => his hc.1)]
    · intro k hk hk'
      rw [he.fileBlock sin hs k]
      split
      · exact hb0
      · exact h.full sin hs k (by omega) hk'
    · rw [fileBlock_setBlocks, he.fileBlock sin hs index, if_pos ⟨rfl, rfl⟩]

/-- The last block is dropped. -/
theorem sfsBmapTruncate_within (h : s.Mapped I fix) (hs : sin ∈ I) :
    Within SfsPanic.Arguments (sfsBmapTruncate sin s) fun s' => s'.Mapped I fix := by
  by_cases hb : (s.din sin).blocks = 0
  · refine .of_eq_error (e := .truncateEmpty) ?_ trivial
    unfold sfsBmapTruncate
    rw [ensure_of_not (not_not.mpr hb)]
    rfl
  · obtain ⟨s', hr, hca⟩ := sfsBmapTruncate_spec h.owned hs (h.full sin hs) hb
    refine .of_eq_ok hr (mapped_setDirty ?_)
    rcases hca with hd | ⟨hbig, rfl⟩
    · refine mapped_setBlocks hd.owned ?_ ?_
      · intro i hi his
        refine full_of_others (h.full i hi) (hd.others i his) ?_
        intro k
        rw [hd.fileBlock i hi k, if_neg (fun hc => his hc.1)]
      · intro k hk hk'
        rw [hd.fileBlock sin hs k, if_neg (by omega)]
        exact h.full sin hs k (by omega) hk'
    · exact mapped_setBlocks h.owned (fun i hi _ => h.full i hi) fun k hk hk' => h.full sin hs k (by omega) hk'

/-! ## Transfers and lengths -/

/-- A range of a block of the file is moved. -/
theorem sfsBufOp_within {size blkoff : Nat} (h : t.sfs.Mapped I fix) (hs : sin ∈ I) (hb : t.sfs.fileBlock sin index ≠ 0)
    (hp : 0 < size) (hin : blkoff + size ≤ sfsBlksize) :
    Within SfsPanic.Arguments (sfsBufOp write size (t.sfs.fileBlock sin index) blkoff t) fun u => u.sfs.Mapped I fix := by
  have hlt := (data_facts h.owned hs hb).1
  cases write with
  | true =>
    refine .of_eq_ok (sfsBufOp_write hb hlt hp hin) ?_
    exact Mapped.congr h (owned_writeBytes h.owned hs hb) (fun i hi k => fileBlock_writeBytes h.owned hs hb hi) fun _ _ => rfl
  | false => exact .of_eq_ok (sfsBufOp_read hb hlt hp hin) h

theorem ioPart_within (hs : sin ∈ I) (pos n : Nat) (t : Transfer) (hn : 0 < n) (hin : pos % sfsBlksize + n ≤ sfsBlksize)
    (h : t.sfs.Mapped I fix) : Within SfsPanic.Arguments (ioPart sin write (pos / sfsBlksize) (pos % sfsBlksize) n t) fun r =>
      r.2.sfs.Mapped I fix := by
  refine (sfsBmapLoad_within h hs _).bind ?_
  rintro ⟨ret, ino, s'⟩ ⟨hs', hino⟩
  dsimp only at hs' hino ⊢
  split
  · exact hs'
  · rename_i hr
    obtain ⟨rfl, hb⟩ := hino (not_not.mp hr)
    exact (sfsBufOp_within hs' hs hb hn hin).bind fun _ hu => hu

theorem sfsIo_within (h : s.Mapped I fix) (hs : sin ∈ I) (buf : Nat → UInt8) (offset : Int) (len : Nat) :
    Within SfsPanic.Arguments (sfsIo sin buf offset len write s) fun r => r.2.2.2.Mapped I fix := by
  refine Within.ensure_bind (fun _ => trivial) ?_
  intro _
  dsimp only
  split
  · exact h
  split
  · exact h
  split
  · exact h
  rename_i hbounds hne hre
  generalize he : (if write = true then _ else _) = endpos
  have hlt : offset.toNat < endpos := by
    rw [← he]
    cases write with
    | true =>
      simp only [if_true]
      omega
    | false =>
      simp only [true_and, Bool.false_eq_true, if_false] at hre ⊢
      omega
  obtain ⟨ns, hp, hr⟩ := ioTransfer_eq sin write hlt
  rw [hr]
  have hw : Within SfsPanic.Arguments (ioParts sin write ns offset.toNat ⟨s, buf, 0⟩) fun r => r.2.sfs.Mapped I fix :=
    ioParts_within (ioPart_within hs) hp h
  refine hw.bind ?_
  rintro ⟨ret, u⟩ hu
  show (growSize sin offset.toNat u).Mapped I fix
  unfold growSize
  split
  · exact mapped_setDirty (mapped_setDin hu rfl rfl rfl)
  · exact hu

theorem growBlocks_within (hs : sin ∈ I) : ∀ (n nblks : Nat) (s : Sfs), s.Mapped I fix →
    Within SfsPanic.Arguments (growBlocks sin n nblks s) fun r => r.2.Mapped I fix
  | 0, _, _, h => h
  | n + 1, nblks, s, h => by
    refine (sfsBmapLoad_within h hs nblks).bind ?_
    rintro ⟨ret, ino, s'⟩ ⟨hs', -⟩
    dsimp only
    split
    · exact hs'
    · exact growBlocks_within hs n (nblks + 1) s' hs'

theorem shrinkBlocks_within (hs : sin ∈ I) : ∀ (n : Nat) (s : Sfs), s.Mapped I fix →
    Within SfsPanic.Arguments (shrinkBlocks sin n s) fun s' => s'.Mapped I fix
  | 0, _, h => h
  | n + 1, _, h => (sfsBmapTruncate_within h hs).bind fun s' hs' => shrinkBlocks_within hs n s' hs'

theorem setLength_within (h : s.Mapped I fix) (tblks len : Nat) :
    Within SfsPanic.Arguments (setLength sin tblks len s) fun r => r.2.Mapped I fix :=
  Within.ensure_bind (fun _ => trivial) fun _ => mapped_setDirty (mapped_setDin h rfl rfl rfl)

theorem sfsTruncfile_within (h : s.Mapped I fix) (hs : sin ∈ I) (len : Int) :
    Within SfsPanic.Arguments (sfsTruncfile sin len s) fun r => r.2.Mapped I fix := by
  unfold sfsTruncfile
  split
  · exact h
  dsimp only
  split
  · exact Within.ensure_bind (fun _ => trivial) fun _ => h
  split
  · refine (growBlocks_within hs _ _ s h).bind ?_
    rintro ⟨ret, s'⟩ hs'
    split
    · exact hs'
    · exact setLength_within hs' _ _
  · exact (shrinkBlocks_within hs _ s h).bind fun s' hs' => setLength_within hs' _ _

/-- One operation keeps the invariant. -/
theorem stepMap_within (op : MapOp) (h : s.Mapped I fix) (hop : op.sin ∈ I) :
    Within SfsPanic.Arguments (stepMap s op) fun s' => s'.Mapped I fix := by
  cases op with
  | load sin index => exact (sfsBmapLoad_within h hop index).bind fun r hr => hr.1
  | truncate sin => exact sfsBmapTruncate_within h hop
  | truncfile sin len => exact (sfsTruncfile_within h hop len).bind fun r hr => hr
  | write sin buf offset len => exact (sfsIo_within h hop buf offset len).bind fun r hr => hr

end SfsAux

/-- Block-mapping operations keep that every block is free or owned once and that `unused_blocks` counts the free ones. An
operation ends, or is stopped by a check of its arguments: no assertion about a block fails. -/
theorem sfs_runs_owned {s₀ s : Sfs} {I : Finset Nat} {fix : Set Nat} (h : s₀.Mapped I fix) (hr : MapReach I s₀ s) :
    s.Owned I fix ∧ ∀ op : MapOp, op.sin ∈ I → ∀ e, stepMap s op = .error e → e.Arguments := by
  have hs : s.Mapped I fix := by
    induction hr with
    | start => exact h
    | step op _ hop hstep ih => exact (SfsAux.stepMap_within op ih hop).ok hstep
  refine ⟨hs.owned, ?_⟩
  intro op hop e he
  have hw := SfsAux.stepMap_within op hs hop
  rwa [he] at hw

/-! ## A small volume -/

/-- The root of the small volume: a directory with one block. -/
def smallRoot : DiskInode := ⟨4096, .dir, 0, 1, fun k => if k = 0 then 3 else 0, 0⟩

/-- A file without a block in its map. -/
def smallFile (size blocks : Nat) : DiskInode := ⟨size, .file, 1, blocks, fun _ => 0, 0⟩

/-- Eight blocks: the superblock, the root, the bitmap, a block of the root, a file, and three free ones. -/
def smallVolume (file : DiskInode) : Sfs where
  blocks := 8
  unusedBlocks := 3
  freemap := ⟨32768, 1024, fun w => if w = 0 then 0xe0#32 else 0#32⟩
  superDirty := false
  disk _ _ := 0
  inodes i := ⟨if i = 4 then file else smallRoot, false⟩

namespace SfsAux

variable {size blocks : Nat}

theorem smallVolume_free (file : DiskInode) : (smallVolume file).free = {5, 6, 7} := by
  have hb : ∀ i < 32, (0xe0#32).getLsbD i = true ↔ i ∈ ({5, 6, 7} : Finset Nat) := by decide
  ext i
  show i ∈ (smallVolume file).freemap.free ↔ _
  rw [BitmapAux.mem_free]
  show i < 1024 * 32 ∧ (if i / 32 = 0 then 0xe0#32 else 0#32).getLsbD (i % 32) = true ↔ _
  by_cases hi : i < 32
  · rw [if_pos (by omega), Nat.mod_eq_of_lt hi, hb i hi]
    exact and_iff_right (by omega)
  · rw [if_neg (by omega)]
    simp
    omega

theorem smallVolume_fileBlock (i k : Nat) (hi : i = 1 ∨ i = 4) :
    (smallVolume (smallFile size blocks)).fileBlock i k = if i = 1 ∧ k = 0 then 3 else 0 := by
  rcases hi with rfl | rfl
  · show (if k < 12 then (if k = 0 then 3 else 0) else if k - 12 < 1024 then 0 else 0) = _
    by_cases hk : k = 0
    · simp [hk]
    · simp [hk]
  · show (if k < 12 then 0 else if k - 12 < 1024 then 0 else 0) = _
    simp

/-- The root holds the block 3, and nothing else is held. -/
theorem smallVolume_held {σ : SfsSlot} {b : Nat} :
    (smallVolume (smallFile size blocks)).held {1, 4} σ = some b ↔ σ = .data 1 0 ∧ b = 3 := by
  cases σ with
  | data i k =>
    rw [held_data]
    constructor
    · rintro ⟨hi, hb, h0⟩
      rw [smallVolume_fileBlock i k (by simpa using hi)] at hb
      split at hb
      · rename_i hc
        exact ⟨by rw [hc.1, hc.2], hb.symm⟩
      · exact absurd hb.symm h0
    · rintro ⟨hs, rfl⟩
      injection hs with hi hk
      subst hi hk
      exact ⟨by decide, smallVolume_fileBlock 1 0 (Or.inl rfl), by decide⟩
  | table i =>
    rw [held_table]
    constructor
    · rintro ⟨hi, hb, h0⟩
      rcases (by simpa using hi : i = 1 ∨ i = 4) with rfl | rfl
      · exact absurd hb.symm h0
      · exact absurd hb.symm h0
    · rintro ⟨hs, -⟩
      nomatch hs

theorem smallVolume_owned : (smallVolume (smallFile size blocks)).Owned {1, 4} {0, 1, 2, 4} := by
  have hf := smallVolume_free (smallFile size blocks)
  refine ⟨⟨?_, ?_, ?_, ?_⟩, by simp, show 8 ≤ 32768 by decide, show 32768 ≤ 1024 * 32 by decide,
    show 8 < 2 ^ 32 by decide, ?_⟩
  · rw [hf]
    show ∀ b ∈ ({5, 6, 7} : Finset Nat), b < 8 ∧ b ∉ ({0, 1, 2, 4} : Set Nat)
    simp
  · intro σ b hb
    obtain ⟨-, rfl⟩ := smallVolume_held.mp hb
    rw [hf]
    exact ⟨show 3 < 8 by decide, by decide, by simp⟩
  · intro σ τ b hσ hτ
    rw [(smallVolume_held.mp hσ).1, (smallVolume_held.mp hτ).1]
  · intro b hb
    rw [hf]
    replace hb : b < 8 := hb
    by_cases h3 : b = 3
    · exact Or.inr (Or.inr ⟨.data 1 0, smallVolume_held.mpr ⟨rfl, h3⟩⟩)
    · simp only [Finset.mem_insert, Finset.mem_singleton, Set.mem_insert_iff, Set.mem_singleton_iff]
      omega
  · rw [hf]
    rfl

end SfsAux

/-- Every block is free or owned once, but the file counts a block that its map does not have: the assertion that the block is in
use stops its load. -/
theorem sfs_hole_inuse : (smallVolume (smallFile 1 1)).Owned {1, 4} {0, 1, 2, 4} ∧
    stepMap (smallVolume (smallFile 1 1)) (.load 4 0) = .error .blockInuse :=
  ⟨SfsAux.smallVolume_owned, rfl⟩

/-- The first block of the empty file is loaded: it takes one of the three free blocks. -/
theorem sfs_runs_owned_small : ∃ s, MapReach {1, 4} (smallVolume (smallFile 0 0)) s ∧ s.unusedBlocks = 2 ∧
    s.Owned {1, 4} {0, 1, 2, 4} := by
  have hm : (smallVolume (smallFile 0 0)).Mapped {1, 4} {0, 1, 2, 4} := by
    refine ⟨SfsAux.smallVolume_owned, ?_⟩
    intro i hi k hk _
    rw [SfsAux.smallVolume_fileBlock i k (by simpa using hi)]
    rcases (by simpa using hi : i = 1 ∨ i = 4) with rfl | rfl
    · rw [if_pos ⟨rfl, Nat.lt_one_iff.mp hk⟩]
      decide
    · exact absurd hk (Nat.not_lt_zero k)
  obtain ⟨s, hs, hu⟩ : ∃ s, stepMap (smallVolume (smallFile 0 0)) (.load 4 0) = .ok s ∧ s.unusedBlocks = 2 := ⟨_, rfl, rfl⟩
  have hr : MapReach {1, 4} (smallVolume (smallFile 0 0)) s := .step (.load 4 0) .start (by decide) hs
  exact ⟨s, hr, hu, (sfs_runs_owned hm hr).1⟩

end Ucore
