import Ucore.SfsInode
import Ucore.Theorems.SfsLimits

/-!
# Inodes and their blocks

An inode that is not marked as dirty has the bytes of its block (`Sfs.Synced`). The blocks of the inodes are fixed, so that no
operation on the contents of a file touches them. What has to be shown of an operation is that it marks the inode which it changes;
for a transfer that follows from the size, as long as no block lies behind it (`Sfs.Covered`).
-/

namespace Ucore

open Checked Bytes Function

/-- Two inodes have the same fields. -/
structure DiskInode.Agree (d d' : DiskInode) : Prop where
  size : d.size = d'.size
  type : d.type = d'.type
  nlinks : d.nlinks = d'.nlinks
  blocks : d.blocks = d'.blocks
  direct : ∀ k < sfsNdirect, d.direct k = d'.direct k
  indirect : d.indirect = d'.indirect

namespace Sfs

/-- An inode that is not dirty is what its block holds. -/
def Synced (s : Sfs) (i : Nat) : Prop := (s.inodes i).dirty = false → ∀ o < sizeofDiskInode, s.disk i o = (s.din i).bytes o

/-- A file has blocks at exactly the indices that it counts, and at least those which its size needs. -/
structure Covered (s : Sfs) (i : Nat) : Prop where
  dense : s.Dense i
  size : (s.din i).size ≤ (s.din i).blocks * sfsBlksize

/-- A truncation to `len` that changes the inode marks it: the inode is marked already, or its next block has a place in the inode
itself or in a new table, or all the blocks that are needed are free, or not even those for the first one. A length out of range is
refused. -/
def Marks (s : Sfs) (i : Nat) (len : Int) : Prop :=
  (sfsMaxFileSize : Int) < len ∨ (s.inodes i).dirty = true ∨ ((s.din i).blocks < sfsNdirect ∨ (s.din i).indirect = 0) ∨
    s.free.card < SfsAux.need s i (s.din i).blocks ∨
    s.extra i ((len.toNat + sfsBlksize - 1) / sfsBlksize - (s.din i).blocks) ≤ s.free.card

/-- The volume after an inode was written to its block. -/
def flushed (s : Sfs) (sin : Nat) : Sfs :=
  { s.setClean sin with disk := update s.disk sin (patch (s.disk sin) 0 sizeofDiskInode (s.din sin).bytes) }

end Sfs

theorem DiskInode.Agree.refl {d : DiskInode} : d.Agree d := ⟨rfl, rfl, rfl, rfl, fun _ _ => rfl, rfl⟩

theorem DiskInode.Agree.of_eq {d d' : DiskInode} (h : d = d') : d.Agree d' := h ▸ .refl

theorem DiskInode.Agree.trans {d d' d'' : DiskInode} (h : d.Agree d') (h' : d'.Agree d'') : d.Agree d'' :=
  ⟨h.size.trans h'.size, h.type.trans h'.type, h.nlinks.trans h'.nlinks, h.blocks.trans h'.blocks,
    fun k hk => (h.direct k hk).trans (h'.direct k hk), h.indirect.trans h'.indirect⟩

namespace SfsAux

open Sfs

variable {s s' : Sfs} {I : Finset Nat} {fix : Set Nat} {i k p sin : Nat}

/-- The maps depend on the fields of the inode and on its table only. -/
theorem fileBlock_agree (hd : (s'.din i).Agree (s.din i))
    (ht : (s.din i).indirect ≠ 0 → s'.disk (s.din i).indirect = s.disk (s.din i).indirect) : s'.fileBlock i k = s.fileBlock i k := by
  unfold fileBlock entry
  rw [hd.indirect]
  by_cases hk : k < sfsNdirect
  · rw [if_pos hk, if_pos hk, hd.direct k hk]
  · rw [if_neg hk, if_neg hk]
    by_cases h0 : (s.din i).indirect = 0
    · simp only [h0, if_true]
    · rw [ht h0]

theorem Covered.of_sized (h : s.Sized I fix i) : s.Covered i := ⟨h.dense, Sized.size_le h⟩

/-! ## What an operation on another file keeps -/

theorem din_of_inodes (h : s'.inodes i = s.inodes i) : s'.din i = s.din i := congrArg SfsInode.din h

section

variable (ho : Others s s' I fix sin)
include ho

theorem Others.dense_of_ne (hi : i ∈ I) (hne : i ≠ sin) (h : s.Dense i) : s'.Dense i := by
  intro k
  rw [ho.maps i hi hne k, din_of_inodes (ho.inodes i hne)]
  exact h k

theorem Others.covered (hi : i ∈ I) (hne : i ≠ sin) (h : s.Covered i) : s'.Covered i := by
  refine ⟨Others.dense_of_ne ho hi hne h.dense, ?_⟩
  rw [din_of_inodes (ho.inodes i hne)]
  exact h.size

theorem Others.synced (hi : i ∈ fix) (hne : i ≠ sin) (h : s.Synced i) : s'.Synced i := by
  intro hd o hlt
  rw [ho.kept i hi, din_of_inodes (ho.inodes i hne)]
  rw [ho.inodes i hne] at hd
  exact h hd o hlt

/-- The inode is as it was. -/
theorem Others.synced_same (hi : sin ∈ fix) (hin : s'.inodes sin = s.inodes sin) (h : s.Synced sin) : s'.Synced sin := by
  intro hd o hlt
  rw [ho.kept sin hi, din_of_inodes hin]
  rw [hin] at hd
  exact h hd o hlt

end

theorem synced_of_dirty (h : (s.inodes i).dirty = true) : s.Synced i := fun hd => absurd (hd.symm.trans h) (by decide)

/-- The inode is marked, or as it was but for the number of its blocks, which is the same. -/
theorem Marked.synced (hm : Marked s s' sin) (ho : Others s s' I fix sin) (hi : sin ∈ fix)
    (hb : (s'.din sin).blocks = (s.din sin).blocks) (h : s.Synced sin) : s'.Synced sin := by
  rcases hm with hm | ⟨hdi, hdin⟩
  · exact synced_of_dirty hm
  · intro hd o hlt
    have hs : s'.din sin = s.din sin := by
      rw [hdin, hb]
    rw [ho.kept sin hi, hs]
    exact h (hdi.symm.trans hd) o hlt

/-! ## Writing an inode to its block -/

theorem sfsFsync_clean (h : (s.inodes sin).dirty = false) : sfsFsync sin s = .ok s := by
  unfold sfsFsync
  rw [if_neg (by rw [h]; decide)]

/-- Where `sfs_fsync` returns, it has done nothing, or written the inode. -/
theorem sfsFsync_cases (hr : sfsFsync sin s = .ok s') :
    ((s.inodes sin).dirty = false ∧ s' = s) ∨ ((s.inodes sin).dirty = true ∧ s' = s.flushed sin) := by
  cases hd : (s.inodes sin).dirty with
  | false =>
    rw [sfsFsync_clean hd] at hr
    exact Or.inl ⟨rfl, (Except.ok.inj hr).symm⟩
  | true =>
    unfold sfsFsync sfsWbuf at hr
    rw [if_pos hd] at hr
    obtain ⟨-, -, hr⟩ := bind_eq_ok.mp hr
    obtain ⟨-, -, hr⟩ := bind_eq_ok.mp hr
    exact Or.inr ⟨rfl, (Except.ok.inj hr).symm⟩

@[simp] theorem din_flushed : (s.flushed sin).din i = s.din i := by
  unfold flushed setClean din
  dsimp only
  rw [update_apply]
  split
  · rename_i he
    rw [he]
  · rfl

theorem inodes_flushed (hi : i ≠ sin) : (s.flushed sin).inodes i = s.inodes i := update_of_ne hi _ _

theorem disk_flushed (hi : i ≠ sin) : (s.flushed sin).disk i = s.disk i := update_of_ne hi _ _

theorem synced_flushed : (s.flushed sin).Synced sin := by
  intro _ o hlt
  rw [din_flushed]
  show update s.disk sin _ sin o = _
  rw [update_self, patch_of_mem (Nat.zero_le _) (by omega), Nat.sub_zero]

/-- Only fixed blocks change, and the files keep their inodes, but for the marks. -/
structure FixedOnly (s s' : Sfs) (I : Finset Nat) (fix : Set Nat) : Prop where
  din : ∀ i ∈ I, (s'.din i).Agree (s.din i)
  disk : ∀ c, c ∉ fix → s'.disk c = s.disk c
  blocks : s'.blocks = s.blocks
  freemap : s'.freemap = s.freemap
  unused : s'.unusedBlocks = s.unusedBlocks

theorem FixedOnly.refl : FixedOnly s s I fix := ⟨fun _ _ => .refl, fun _ _ => rfl, rfl, rfl, rfl⟩

theorem FixedOnly.trans {s'' : Sfs} (h : FixedOnly s s' I fix) (h' : FixedOnly s' s'' I fix) : FixedOnly s s'' I fix where
  din i hi := (h'.din i hi).trans (h.din i hi)
  disk c hc := (h'.disk c hc).trans (h.disk c hc)
  blocks := h'.blocks.trans h.blocks
  freemap := h'.freemap.trans h.freemap
  unused := h'.unused.trans h.unused

theorem FixedOnly.flushed (hi : sin ∈ fix) : FixedOnly s (s.flushed sin) I fix := by
  refine ⟨fun _ _ => .of_eq din_flushed, ?_, rfl, rfl, rfl⟩
  intro c hc
  refine disk_flushed ?_
  rintro rfl
  exact hc hi

section

variable (hf : FixedOnly s s' I fix)
include hf

theorem FixedOnly.fileBlock (h : s.Owned I fix) (hi : i ∈ I) : s'.fileBlock i k = s.fileBlock i k :=
  fileBlock_agree (hf.din i hi) fun ht => hf.disk _ (table_facts h hi ht).2.2

theorem FixedOnly.free : s'.free = s.free := by
  unfold Sfs.free
  rw [hf.freemap]

section

variable (h : s.Owned I fix)
include h

theorem FixedOnly.owned : s'.Owned I fix := by
  refine ⟨?_, h.zero, ?_, ?_, ?_, ?_⟩
  · rw [hf.blocks, hf.free]
    exact h.exact.congr fun σ => held_congr (fun i hi k => hf.fileBlock h hi) (fun i hi => (hf.din i hi).indirect)
  · rw [hf.blocks, hf.freemap]
    exact h.nbits
  · rw [hf.freemap]
    exact h.nwords
  · rw [hf.blocks]
    exact h.small
  · rw [hf.unused, hf.free]
    exact h.count

theorem FixedOnly.image (hi : i ∈ I) : s'.image i p = s.image i p :=
  image_congr (hf.fileBlock h hi) fun hb => hf.disk _ (data_facts h hi hb).2.2

theorem FixedOnly.dense (hi : i ∈ I) (hd : s.Dense i) : s'.Dense i := by
  intro k
  rw [hf.fileBlock h hi, (hf.din i hi).blocks]
  exact hd k

theorem FixedOnly.covered (hi : i ∈ I) (hc : s.Covered i) : s'.Covered i := by
  refine ⟨hf.dense h hi hc.dense, ?_⟩
  rw [(hf.din i hi).size, (hf.din i hi).blocks]
  exact hc.size

end

end

/-! ## Transfers -/

variable {buf : Nat → UInt8} {offset : Int} {len : Nat} {r : Int × Nat × (Nat → UInt8) × Sfs}

/-- A read of a file whose blocks cover it changes nothing. -/
theorem sfsIo_read_same (h : s.Owned I fix) (hi : i ∈ I) (ht : (s.din i).type = .file)
    (hc : s.Covered i) (hr : sfsIo i buf offset len false s = .ok r) : r.2.2.2 = s := by
  rcases sfsIo_args false offset len buf ht with hb | ⟨o, e, rfl, he, hm, hle⟩
  · rw [← Except.ok.inj (hb.symm.trans hr)]
  · rw [← Except.ok.inj ((sfsIo_read buf ht he hm h hi hc.dense hc.size hle).symm.trans hr)]

/-- A write from within a file: what it keeps of the others, and of the file. -/
structure Written (s s' : Sfs) (I : Finset Nat) (fix : Set Nat) (sin : Nat) : Prop extends Others s s' I fix sin where
  covered : s'.Covered sin
  synced : sin ∈ fix → s.Synced sin → s'.Synced sin

theorem sfsIo_write_within (h : s.Owned I fix) (hi : i ∈ I) (ht : (s.din i).type = .file)
    (hc : s.Covered i) (hoff : offset ≤ (s.din i).size) (hr : sfsIo i buf offset len true s = .ok r) :
    Written s r.2.2.2 I fix i := by
  rcases sfsIo_args true offset len buf ht with hbad | ⟨o, e, rfl, he, hmax, hle⟩
  · rw [← Except.ok.inj (hbad.symm.trans hr)]
    exact ⟨Others.refl h, hc, fun _ hs => hs⟩
  have hsi : o ≤ (s.din i).size := by omega
  have hp : o ≤ (s.din i).blocks * sfsBlksize := hsi.trans hc.size
  obtain ⟨x, hio, hsp⟩ := sfsIo_write buf ht he hmax h hi hc.dense hp hsi hle
  rw [hio] at hr
  obtain ⟨m, hw⟩ : ∃ m, Moves true buf s r.2.2.2 I fix i o m := by
    cases hsp with
    | all _ hc | short _ _ _ hc =>
      rw [← Except.ok.inj hr]
      exact ⟨_, hc.moves.2.2⟩
    | out => nomatch hr
  have hcov := hc.size
  have hb := hw.blocks_max hp
  refine ⟨hw.toOthers, ⟨hw.dense, ?_⟩, ?_⟩
  · rw [hw.size, hb]
    unfold sfsBlksize at hcov ⊢
    omega
  · intro hfix hs
    rcases hw.marked with hm | hm
    · exact synced_of_dirty hm
    · -- nothing was written behind the end, and no block was added
      have hsa : max (s.din i).size (o + m) = (s.din i).size := hw.size.symm.trans (by rw [hm.2])
      refine Marked.synced (Or.inr hm) hw.toOthers hfix ?_ hs
      rw [hb]
      unfold sfsBlksize at hcov ⊢
      omega

theorem marks_zero (hd : s.Dense i) : s.Marks i 0 := by
  refine Or.inr (Or.inr (Or.inr (Or.inr (extra_le_iff.mpr ?_))))
  have hle := blocks_le_limit hd
  have hn : ((0 : Int).toNat + sfsBlksize - 1) / sfsBlksize = 0 := rfl
  omega

/-- A growth that stops halfway has marked the inode. -/
theorem Loaded.dirty {l : Nat} (hs : Loaded s s' I fix i (s.limit i)) (hd : s.Dense i) (hlt : (s.din i).blocks < s.limit i)
    (hsh : s.limit i < (l + sfsBlksize - 1) / sfsBlksize) (hmax : l ≤ sfsMaxFileSize) (hm : s.Marks i l) :
    (s'.inodes i).dirty = true := by
  rcases hs.marked with hdi | ⟨hdi, hdin⟩
  · exact hdi
  unfold Marks at hm
  rw [Int.toNat_natCast, lt_need_iff, extra_le_iff] at hm
  rcases hm with hm | hm | hp | hm | hm
  · omega
  · exact hdi.trans hm
  · -- the fields of the inode are as before, so that the file cannot have got a block there
    have hsa : s'.fileBlock i (s.din i).blocks = s.fileBlock i (s.din i).blocks := by
      unfold fileBlock
      rw [hdin]
      rcases hp with hm | hm
      · rw [if_pos hm, if_pos hm]
      · simp only [hm, if_true]
    have hn : s'.fileBlock i (s.din i).blocks ≠ 0 := (hs.dense _).mpr (by rw [hs.blocks]; exact hlt)
    exact absurd ((hd _).mp (hsa ▸ hn)) (lt_irrefl _)
  · omega
  · omega

/-- A truncation that marks the inode where it changes it. -/
theorem sfsTruncfile_within_sized {r : Int × Sfs} {len : Int} (h : s.Owned I fix) (hi : i ∈ I) (hc : s.Covered i)
    (hrun : sfsTruncfile i len s = .ok r) (hm : s.Marks i len) : Written s r.2 I fix i := by
  have hsa : r.2 = s → Written s r.2 I fix i := by
    intro he
    rw [he]
    exact ⟨Others.refl h, hc, fun _ hs => hs⟩
  by_cases hra : len < 0 ∨ (sfsMaxFileSize : Int) < len
  · unfold sfsTruncfile at hrun
    rw [if_pos hra] at hrun
    exact hsa (by rw [← Except.ok.inj hrun])
  rw [not_or, not_lt] at hra
  obtain ⟨l, rfl⟩ := Int.eq_ofNat_of_zero_le hra.1
  have hsp : TruncResult s I fix i l _ (sfsTruncfile i l s) := sfsTruncfile_spec h hi hc.dense (by omega)
  rw [hrun] at hsp
  generalize hr : (Except.ok r : Except SfsPanic (Int × Sfs)) = x at hsp
  cases hsp with
  | mismatch => nomatch hr
  | out => nomatch hr
  | same => exact hsa (by rw [Except.ok.inj hr])
  | done ho hd hb hsi hdi =>
    cases hr
    refine ⟨ho, ⟨hd, ?_⟩, fun _ _ => synced_of_dirty hdi⟩
    rw [hb, hsi]
    unfold sfsBlksize
    omega
  | short hsh _ hs hst =>
    cases hr
    have hle := blocks_le_limit hc.dense
    refine ⟨hs.toOthers, ⟨hs.dense, ?_⟩, fun hfix hsy => ?_⟩
    · rw [hs.size, hs.blocks]
      exact hc.size.trans (Nat.mul_le_mul_right _ hle)
    · by_cases hl : s.limit i = (s.din i).blocks
      · exact hs.toOthers.synced_same hfix (hst hl).inode hsy
      · exact synced_of_dirty (hs.dirty hc.dense (by omega) hsh (by omega) hm)

end SfsAux

end Ucore
