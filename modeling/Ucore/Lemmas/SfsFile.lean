import Ucore.Lemmas.SfsIo

/-!
# The bytes of files

The byte that a file has at an offset (`Sfs.image`). A load leaves the bytes of every file as they are, since a new block is zero
(`loaded_of`); a transfer copies the buffer into the bytes of its file, as far as there are blocks for them, or the
bytes into the buffer (`ioParts_carried`). How far a file can grow is known before (`Sfs.limit`). The other files stay as they
are (`Others`).
-/

namespace Ucore

open Checked Bytes Function

namespace Sfs

/-- The byte of a file at an offset, zero where it has no block. -/
def image (s : Sfs) (i p : Nat) : UInt8 :=
  if s.fileBlock i (p / sfsBlksize) = 0 then 0 else s.disk (s.fileBlock i (p / sfsBlksize)) (p % sfsBlksize)

/-- A file has blocks at exactly the indices that it counts. -/
def Dense (s : Sfs) (i : Nat) : Prop := ∀ k, s.fileBlock i k ≠ 0 ↔ k < (s.din i).blocks

/-- Too few blocks are free for the next block of a file. -/
def Exhausted (s : Sfs) (i : Nat) : Prop := s.free.card < SfsAux.need s i (s.din i).blocks

/-- The free blocks that `n` more blocks of a file take: with the first one behind the direct blocks a table. -/
def extra (s : Sfs) (i n : Nat) : Nat := n + if sfsNdirect < (s.din i).blocks + n ∧ (s.din i).indirect = 0 then 1 else 0

/-- Enough blocks are free for all the blocks that the map of a file has room for. -/
def Room (s : Sfs) (i : Nat) : Prop := s.extra i (sfsNdirect + sfsBlkNentry - (s.din i).blocks) ≤ s.free.card

/-- The number of blocks that a file can get to before no block is free, its table included. -/
def limit (s : Sfs) (i : Nat) : Nat := (s.din i).blocks + s.free.card -
  if sfsNdirect < (s.din i).blocks + s.free.card ∧ (s.din i).indirect = 0 then 1 else 0

end Sfs

/-- The end of a transfer, in the 32-bit signed numbers of `off_t`. -/
def OffsetCall.endpos (offset : Int) (len : Nat) : Int := (offset + len).bmod (2 ^ 32)

namespace SfsAux

open Sfs

variable {s s' s'' : Sfs} {I : Finset Nat} {fix : Set Nat} {b i k n p sin index blkoff pos endpos : Nat} {t : Transfer}
  {buf : Nat → UInt8}

theorem full_of_dense (h : s.Dense i) : s.Full i := fun k hk _ => (h k).mpr hk

theorem image_congr (hf : s'.fileBlock i (p / sfsBlksize) = s.fileBlock i (p / sfsBlksize))
    (hd : s.fileBlock i (p / sfsBlksize) ≠ 0 →
      s'.disk (s.fileBlock i (p / sfsBlksize)) = s.disk (s.fileBlock i (p / sfsBlksize))) :
    s'.image i p = s.image i p := by
  unfold image
  rw [hf]
  by_cases h0 : s.fileBlock i (p / sfsBlksize) = 0
  · rw [if_pos h0, if_pos h0]
  · rw [if_neg h0, if_neg h0, hd h0]

theorem image_of_none (h : s.fileBlock i (p / sfsBlksize) = 0) : s.image i p = 0 := if_pos h

theorem image_of_block (h : s.fileBlock i (p / sfsBlksize) ≠ 0) :
    s.image i p = s.disk (s.fileBlock i (p / sfsBlksize)) (p % sfsBlksize) := if_neg h

/-- Only the inode changes, in other fields than its map. -/
theorem image_of_disk (hf : ∀ k, s'.fileBlock i k = s.fileBlock i k) (hd : s'.disk = s.disk) : s'.image i p = s.image i p :=
  image_congr (hf _) (fun _ => by rw [hd])

/-! ## The other files -/

/-- After an operation on the file `sin` the other files are as they were. -/
structure Others (s s' : Sfs) (I : Finset Nat) (fix : Set Nat) (sin : Nat) : Prop where
  owned : s'.Owned I fix
  inodes : ∀ i, i ≠ sin → s'.inodes i = s.inodes i
  maps : ∀ i ∈ I, i ≠ sin → ∀ k, s'.fileBlock i k = s.fileBlock i k
  images : ∀ i ∈ I, i ≠ sin → ∀ p, s'.image i p = s.image i p
  type : (s'.din sin).type = (s.din sin).type
  nlinks : (s'.din sin).nlinks = (s.din sin).nlinks
  kept : ∀ c ∈ fix, s'.disk c = s.disk c
  volume : s'.blocks = s.blocks

theorem Others.refl (h : s.Owned I fix) : Others s s I fix sin :=
  ⟨h, fun _ _ => rfl, fun _ _ _ _ => rfl, fun _ _ _ _ => rfl, rfl, rfl, fun _ _ => rfl, rfl⟩

theorem Others.trans (h : Others s s' I fix sin) (h' : Others s' s'' I fix sin) : Others s s'' I fix sin where
  owned := h'.owned
  inodes i hi := (h'.inodes i hi).trans (h.inodes i hi)
  maps i hi hne k := (h'.maps i hi hne k).trans (h.maps i hi hne k)
  images i hi hne p := (h'.images i hi hne p).trans (h.images i hi hne p)
  type := h'.type.trans h.type
  nlinks := h'.nlinks.trans h.nlinks
  kept c hc := (h'.kept c hc).trans (h.kept c hc)
  volume := h'.volume.trans h.volume

theorem others_setDin {d : DiskInode} (h : s.Owned I fix) (hd : d.direct = (s.din sin).direct)
    (ht : d.indirect = (s.din sin).indirect) (htype : d.type = (s.din sin).type) (hl : d.nlinks = (s.din sin).nlinks) :
    Others s (s.setDin sin d) I fix sin where
  owned := owned_setDin h hd ht
  inodes _ hi := update_of_ne hi _ _
  maps _ _ _ _ := fileBlock_setDin hd ht
  images _ _ _ _ := image_of_disk (fun _ => fileBlock_setDin hd ht) rfl
  type := by rw [din_setDin_self, htype]
  nlinks := by rw [din_setDin_self, hl]
  kept _ _ := rfl
  volume := rfl

theorem others_setDirty (h : s.Owned I fix) : Others s (s.setDirty sin) I fix sin where
  owned := owned_setDirty h
  inodes _ hi := update_of_ne hi _ _
  maps _ _ _ _ := fileBlock_setDirty
  images _ _ _ _ := image_of_disk (fun _ => fileBlock_setDirty) rfl
  type := by rw [din_setDirty]
  nlinks := by rw [din_setDirty]
  kept _ _ := rfl
  volume := rfl

/-- The inode is marked as changed, or at most its number of blocks has changed. -/
def Marked (s s' : Sfs) (sin : Nat) : Prop := (s'.inodes sin).dirty = true ∨
  ((s'.inodes sin).dirty = (s.inodes sin).dirty ∧ s'.din sin = { s.din sin with blocks := (s'.din sin).blocks })

theorem Marked.refl : Marked s s sin := Or.inr ⟨rfl, rfl⟩

theorem Marked.trans (h : Marked s s' sin) (h' : Marked s' s'' sin) : Marked s s'' sin := by
  rcases h' with h' | ⟨hd', he'⟩
  · exact Or.inl h'
  rcases h with h | ⟨hd, he⟩
  · exact Or.inl (hd'.trans h)
  · refine Or.inr ⟨hd'.trans hd, ?_⟩
    rw [he', he]

/-! ## Loading a block -/

/-- The file has got blocks of zeros, and `b` blocks with them. -/
structure Loaded (s s' : Sfs) (I : Finset Nat) (fix : Set Nat) (sin b : Nat) : Prop extends Others s s' I fix sin where
  dense : s'.Dense sin
  blocks : (s'.din sin).blocks = b
  size : (s'.din sin).size = (s.din sin).size
  image : ∀ p, s'.image sin p = s.image sin p
  limit : s'.limit sin = s.limit sin
  marked : Marked s s' sin

theorem Loaded.refl (h : s.Owned I fix) (hd : s.Dense sin) : Loaded s s I fix sin (s.din sin).blocks :=
  ⟨Others.refl h, hd, rfl, rfl, fun _ => rfl, rfl, Marked.refl⟩

theorem Loaded.trans (h : Loaded s s' I fix sin n) (h' : Loaded s' s'' I fix sin k) : Loaded s s'' I fix sin k :=
  ⟨h.toOthers.trans h'.toOthers, h'.dense, h'.blocks, h'.size.trans h.size, fun p => (h'.image p).trans (h.image p),
    h'.limit.trans h.limit, h.marked.trans h'.marked⟩

/-- A load found no free block, and changed nothing that a file holds. -/
structure Starved (s s' : Sfs) (I : Finset Nat) (fix : Set Nat) (sin : Nat) : Prop extends Others s s' I fix sin where
  dense : s'.Dense sin
  din : s'.din sin = s.din sin
  free : s'.free = s.free
  image : ∀ p, s'.image sin p = s.image sin p
  map : ∀ k, s'.fileBlock sin k = s.fileBlock sin k
  inode : s'.inodes sin = s.inodes sin

/-- The bytes of all files after a new block of zeros was mapped. -/
theorem image_extended (h : s.Owned I fix) (hs : sin ∈ I) (h0 : s.fileBlock sin index = 0)
    (hext : Extended s s' I fix sin index b) (hi : i ∈ I) : s'.image i p = s.image i p := by
  by_cases hc : i = sin ∧ p / sfsBlksize = index
  · have hn : s'.fileBlock i (p / sfsBlksize) = b := by
      rw [hext.fileBlock i hi, if_pos hc]
    have hb0 := (free_facts h hext.new).1
    rw [image_of_none (s := s) (by rw [hc.1, hc.2, h0]), image_of_block (by rw [hn]; exact hb0), hn]
    exact hext.zero _ (Nat.mod_lt _ (by decide))
  · refine image_congr (by rw [hext.fileBlock i hi, if_neg hc]) ?_
    intro hb
    exact hext.disk _ (data_facts h hi hb).2.1 fun he => absurd he (data_ne_table h hi hs hb)

theorem extra_le_iff : s.extra sin n ≤ s.free.card ↔ (s.din sin).blocks + n ≤ s.limit sin := by
  unfold extra limit
  split <;> split <;> omega

theorem need_eq_extra : need s sin (s.din sin).blocks = s.extra sin 1 := by
  unfold need extra
  split <;> split <;> omega

/-- There is no block for the next one of a file. -/
theorem lt_need_iff : s.free.card < need s sin (s.din sin).blocks ↔ s.limit sin ≤ (s.din sin).blocks := by
  rw [need_eq_extra, ← Nat.not_le, extra_le_iff, Nat.not_le, Nat.lt_succ_iff]

theorem limit_congr (hd : s'.din sin = s.din sin) (hf : s'.free = s.free) : s'.limit sin = s.limit sin := by
  unfold limit
  rw [hd, hf]

/-- With one more block the file can get as far as before. -/
theorem limit_succ (hb : (s'.din sin).blocks = (s.din sin).blocks + 1)
    (ht : (s'.din sin).indirect = 0 ↔ (s.din sin).indirect = 0 ∧ (s.din sin).blocks < sfsNdirect)
    (hc : s'.free.card + need s sin (s.din sin).blocks = s.free.card) : s'.limit sin = s.limit sin := by
  unfold need at hc
  unfold limit
  simp only [hb, ht]
  split at hc <;> split <;> split <;> omega

theorem blocks_le (hd : s.Dense sin) : (s.din sin).blocks ≤ sfsNdirect + sfsBlkNentry := by
  by_contra hlt
  exact (hd _).mpr (not_le.mp hlt) (fileBlock_out le_rfl)

/-- A file that reaches behind its direct blocks has a table. -/
theorem indirect_ne_zero (hd : s.Dense sin) (hlt : sfsNdirect < (s.din sin).blocks) : (s.din sin).indirect ≠ 0 := by
  intro h0
  refine (hd sfsNdirect).mpr hlt ?_
  have hb : s.fileBlock sin (sfsNdirect + 0) = _ := fileBlock_indirect (by decide)
  rwa [if_pos h0] at hb

theorem blocks_le_limit (hd : s.Dense sin) : (s.din sin).blocks ≤ s.limit sin := by
  unfold limit
  split
  · rename_i hc
    have hle : (s.din sin).blocks ≤ sfsNdirect := not_lt.mp fun hlt => indirect_ne_zero hd hlt hc.2
    omega
  · omega

theorem room_iff (hd : s.Dense sin) : s.Room sin ↔ sfsNdirect + sfsBlkNentry ≤ s.limit sin := by
  unfold Room
  rw [extra_le_iff, Nat.add_sub_cancel' (blocks_le hd)]

theorem sfsBmapLoad_out (hle : index ≤ (s.din sin).blocks) (ho : sfsNdirect + sfsBlkNentry ≤ index) :
    sfsBmapLoad sin index s = .error .indexRange := by
  unfold sfsBmapLoad
  rw [ensure_of hle]
  dsimp only
  rw [sfsBmapGet_out ho]
  rfl

/-- `sfs_bmap_load_nolock` at an index that the file has, or that comes next. -/
theorem loaded_of (h : s.Owned I fix) (hs : sin ∈ I) (hd : s.Dense sin) (hle : index ≤ (s.din sin).blocks)
    (hidx : index < sfsNdirect + sfsBlkNentry) : (∃ s', sfsBmapLoad sin index s = .ok (0, s'.fileBlock sin index, s') ∧
        Loaded s s' I fix sin (max (s.din sin).blocks (index + 1)) ∧ (index < (s.din sin).blocks → s' = s)) ∨
      (∃ s', sfsBmapLoad sin index s = .ok (-eNoMem, 0, s') ∧ Starved s s' I fix sin ∧ index = (s.din sin).blocks ∧
        s.limit sin ≤ index) := by
  have hsp := sfsBmapLoad_spec h hs (full_of_dense hd) index
  generalize sfsBmapLoad sin index s = r at hsp
  cases hsp with
  | behind hlt => omega
  | out ho => omega
  | read hlt hb =>
    rw [Nat.max_eq_left hlt]
    exact Or.inl ⟨s, rfl, Loaded.refl h hd, fun _ => rfl⟩
  | counted heq hb =>
    have := (hd index).mp hb
    omega
  | @refused s' heq h0 hca hr =>
    have hf : ∀ i ∈ I, ∀ k, s'.fileBlock i k = s.fileBlock i k := fun i hi k =>
      fileBlock_of_disk hr.inodes (fun i hi ht => hr.disk _ (table_facts h hi ht).2.1) hi
    have him : ∀ i ∈ I, ∀ p, s'.image i p = s.image i p := fun i hi p =>
      image_congr (hf i hi _) fun hb => hr.disk _ (data_facts h hi hb).2.1
    have hdin : s'.din sin = s.din sin := by
      unfold din
      rw [hr.inodes]
    refine Or.inr ⟨s', rfl, ⟨⟨hr.owned, fun _ _ => by rw [hr.inodes], fun i hi _ => hf i hi, fun i hi _ => him i hi,
      by rw [hdin], by rw [hdin], fun c hc => hr.disk c fun hf => (free_facts h hf).2.2 hc, hr.blocks⟩, ?_, hdin, hr.free, him sin hs,
      hf sin hs, by rw [hr.inodes]⟩, heq, heq ▸ lt_need_iff.mp (heq ▸ hca)⟩
    intro k
    rw [hf sin hs k, hdin]
    exact hd k
  | @extended s' b heq h0 he =>
    have hb0 := (free_facts h he.new).1
    have him : ∀ i ∈ I, ∀ p, (setBlocks s' sin (index + 1)).image i p = s.image i p := fun i hi p =>
      (image_of_disk (fun _ => fileBlock_setBlocks _) rfl).trans (image_extended h hs h0 he hi)
    have hn : (setBlocks s' sin (index + 1)).fileBlock sin index = b := by
      rw [fileBlock_setBlocks, he.fileBlock sin hs index, if_pos ⟨rfl, rfl⟩]
    have hb : ((setBlocks s' sin (index + 1)).din sin).blocks = (s.din sin).blocks + 1 := by
      rw [blocks_setBlocks, if_pos rfl, heq]
    have hta : ((setBlocks s' sin (index + 1)).din sin).indirect = 0 ↔
        (s.din sin).indirect = 0 ∧ (s.din sin).blocks < sfsNdirect := by
      rw [setBlocks, din_setDin_self]
      show (s'.din sin).indirect = 0 ↔ _
      by_cases hge : sfsNdirect ≤ index
      · exact iff_of_false (he.tabled hge) (fun hc => absurd hc.2 (by omega))
      · rw [he.table (Or.inr (by omega))]
        exact (and_iff_left (by omega)).symm
    have hca : (setBlocks s' sin (index + 1)).free.card + need s sin index = s.free.card := he.card
    refine Or.inl ⟨setBlocks s' sin (index + 1), by rw [hn], ⟨⟨owned_setBlocks he.owned _, ?_, ?_, fun i hi _ => him i hi, ?_, ?_,
      ?_, he.blocks⟩, ?_, by omega, ?_, him sin hs, limit_succ hb hta (heq ▸ hca), ?_⟩, fun hlt => by omega⟩
    · intro i hi
      rw [← he.others i hi]
      exact update_of_ne hi _ _
    · intro i hi hne k
      rw [fileBlock_setBlocks, he.fileBlock i hi, if_neg (fun hc => hne hc.1)]
    · rw [setBlocks, din_setDin_self]
      exact he.type
    · rw [setBlocks, din_setDin_self]
      exact he.nlinks
    · intro c hc
      refine he.disk c (fun hf => (free_facts h hf).2.2 hc) ?_
      rintro rfl
      exact not_not.mp fun ht0 => (table_facts h hs ht0).2.2 hc
    · intro k
      rw [fileBlock_setBlocks, blocks_setBlocks, if_pos rfl, he.fileBlock sin hs k]
      by_cases hk : k = index
      · rw [if_pos ⟨rfl, hk⟩]
        exact ⟨fun _ => by omega, fun _ => hb0⟩
      · rw [if_neg (fun hc => hk hc.2), hd k]
        omega
    · rw [setBlocks, din_setDin_self]
      exact he.size
    · have hdi : ((setBlocks s' sin (index + 1)).inodes sin).dirty = (s'.inodes sin).dirty := by
        unfold setBlocks setDin
        dsimp only
        rw [update_self]
      rcases he.marked with hm | hm
      · exact Or.inl (hdi.trans hm)
      · refine Or.inr ⟨hdi.trans (by rw [hm]), ?_⟩
        rw [setBlocks, din_setDin_self]
        unfold din
        rw [hm]

/-- A block that the file has is loaded. -/
theorem load_there (h : s.Owned I fix) (hsin : sin ∈ I) (hd : s.Dense sin) (hlt : index < (s.din sin).blocks) :
    sfsBmapLoad sin index s = .ok (0, s.fileBlock sin index, s) := by
  have hc := blocks_le hd
  rcases loaded_of h hsin hd hlt.le (by omega) with ⟨s', hr, -, hs⟩ | ⟨s', -, -, heq, -⟩
  · obtain rfl := hs hlt
    exact hr
  · omega

/-! ## Writing -/

/-- The bytes of a file after a range of one of its blocks was written. -/
theorem image_writeBytes (h : s.Owned I fix) (hs : sin ∈ I)
    (hb : s.fileBlock sin index ≠ 0) (hin : blkoff + n ≤ sfsBlksize) (hi : i ∈ I) :
    (writeBytes s (s.fileBlock sin index) blkoff n buf).image i p =
      if i = sin then patch (s.image sin) (index * sfsBlksize + blkoff) n buf p else s.image i p := by
  have hdm : p / sfsBlksize * sfsBlksize + p % sfsBlksize = p := Nat.div_add_mod' _ _
  have hm : p % sfsBlksize < sfsBlksize := Nat.mod_lt _ (by decide)
  by_cases hc : i = sin ∧ p / sfsBlksize = index
  · obtain ⟨rfl, rfl⟩ := hc
    have hw : (writeBytes s (s.fileBlock i (p / sfsBlksize)) blkoff n buf).fileBlock i (p / sfsBlksize) ≠ 0 := by
      rw [fileBlock_writeBytes h hs hb hi]
      exact hb
    rw [image_of_block hw, fileBlock_writeBytes h hs hb hi, if_pos rfl]
    show update s.disk _ _ _ _ = _
    rw [update_self]
    by_cases hp : blkoff ≤ p % sfsBlksize ∧ p % sfsBlksize < blkoff + n
    · rw [patch_of_mem hp.1 hp.2, patch_of_mem (by omega) (by omega)]
      exact congrArg buf (by omega)
    · rw [patch_of_not (by omega), patch_of_not (by omega), image_of_block hb]
  · have hsa : (writeBytes s (s.fileBlock sin index) blkoff n buf).image i p = s.image i p := by
      refine image_congr (fileBlock_writeBytes h hs hb hi) ?_
      intro hb'
      refine update_of_ne ?_ _ _
      intro he
      exact hc (data_inj h hi hs hb' he)
    rw [hsa]
    by_cases his : i = sin
    · have hne : p / sfsBlksize ≠ index := fun he => hc ⟨his, he⟩
      rw [if_pos his, his]
      refine (patch_of_not ?_).symm
      rcases Nat.lt_or_gt_of_ne hne with hlt | hgt
      · left
        calc p < (p / sfsBlksize + 1) * sfsBlksize := by rw [Nat.add_mul]; omega
          _ ≤ index * sfsBlksize := Nat.mul_le_mul_right _ hlt
          _ ≤ index * sfsBlksize + blkoff := Nat.le_add_right _ _
      · right
        calc index * sfsBlksize + blkoff + n ≤ (index + 1) * sfsBlksize := by rw [Nat.add_mul]; omega
          _ ≤ p / sfsBlksize * sfsBlksize := Nat.mul_le_mul_right _ hgt
          _ ≤ p := by omega
    · rw [if_neg his]

theorem Starved.refl (h : s.Owned I fix) (hd : s.Dense sin) : Starved s s I fix sin :=
  ⟨Others.refl h, hd, rfl, rfl, fun _ => rfl, fun _ => rfl, rfl⟩

theorem Starved.loaded (h : Starved s s' I fix sin) : Loaded s s' I fix sin (s.din sin).blocks :=
  ⟨h.toOthers, h.dense, by rw [h.din], by rw [h.din], h.image, limit_congr h.din h.free, Or.inr ⟨by rw [h.inode], by rw [h.din]⟩⟩

/-- Bytes of a block of a file are overwritten. -/
theorem others_writeBytes (h : s.Owned I fix) (hs : sin ∈ I) (hb : s.fileBlock sin index ≠ 0)
    (hin : blkoff + n ≤ sfsBlksize) : Others s (writeBytes s (s.fileBlock sin index) blkoff n buf) I fix sin where
  owned := owned_writeBytes h hs hb
  inodes _ _ := rfl
  maps _ hi _ _ := fileBlock_writeBytes h hs hb hi
  images _ hi hne _ := (image_writeBytes h hs hb hin hi).trans (if_neg hne)
  type := rfl
  nlinks := rfl
  kept c hc := by
    refine update_of_ne ?_ _ _
    rintro rfl
    exact (data_facts h hs hb).2.2 hc
  volume := rfl

/-- A transfer moved `m` bytes from the offset `pos` on, and the file has the blocks for them. A write takes them from the buffer, from
`alen` on, and a read brings them there. -/
structure Carried (write : Bool) (t t' : Transfer) (I : Finset Nat) (fix : Set Nat) (sin pos m : Nat) : Prop
    extends Others t.sfs t'.sfs I fix sin where
  dense : t'.sfs.Dense sin
  size : (t'.sfs.din sin).size = (t.sfs.din sin).size
  image : t'.sfs.image sin = if write then patch (t.sfs.image sin) pos m fun k => t.buf (t.alen + k) else t.sfs.image sin
  buf : t'.buf = if write then t.buf else patch t.buf t.alen m fun k => t.sfs.image sin (pos + k)
  alen : t'.alen = t.alen + m
  blocks : (t'.sfs.din sin).blocks =
    if m = 0 then (t.sfs.din sin).blocks else max (t.sfs.din sin).blocks ((pos + m + sfsBlksize - 1) / sfsBlksize)
  limit : t'.sfs.limit sin = t.sfs.limit sin
  marked : Marked t.sfs t'.sfs sin

section

variable {write : Bool} {t' t'' : Transfer} {m : Nat}

theorem Carried.none (hs : Starved t.sfs s' I fix sin) : Carried write t { t with sfs := s' } I fix sin pos 0 where
  toOthers := hs.toOthers
  dense := hs.dense
  size := hs.loaded.size
  image := by
    rw [patch_zero, ite_self]
    exact funext hs.image
  buf := by rw [patch_zero, ite_self]
  alen := rfl
  blocks := hs.loaded.blocks
  limit := hs.loaded.limit
  marked := hs.loaded.marked

theorem Carried.trans (h : Carried write t t' I fix sin pos n) (hn : n ≠ 0) (h' : Carried write t' t'' I fix sin (pos + n) m) :
    Carried write t t'' I fix sin pos (n + m) where
  toOthers := h.toOthers.trans h'.toOthers
  dense := h'.dense
  size := h'.size.trans h.size
  image := by
    rw [h'.image, h.image, h.buf, h.alen]
    cases write with
    | true =>
      simp only [if_true]
      rw [← patch_patch]
      simp only [Nat.add_assoc]
    | false => rfl
  buf := by
    rw [h'.buf, h.buf, h.image, h.alen]
    cases write with
    | true => rfl
    | false =>
      simp only [Bool.false_eq_true, if_false]
      rw [← patch_patch]
      simp only [Nat.add_assoc]
  alen := by rw [h'.alen, h.alen, Nat.add_assoc]
  blocks := by
    have hmono : (pos + n + sfsBlksize - 1) / sfsBlksize ≤ (pos + n + m + sfsBlksize - 1) / sfsBlksize :=
      Nat.div_le_div_right (by omega)
    rw [h'.blocks, h.blocks, if_neg (show n + m ≠ 0 by omega), ← Nat.add_assoc]
    split
    · rename_i hm
      rw [hm, Nat.add_zero]
    · omega
  limit := h'.limit.trans h.limit
  marked := h.marked.trans h'.marked

theorem Carried.reach (h : Carried write t t' I fix sin pos m) (hm : m ≠ 0) : pos + m ≤ (t'.sfs.din sin).blocks * sfsBlksize := by
  rw [h.blocks, if_neg hm]
  unfold sfsBlksize
  omega

/-- `sfs_buf_op` on a block of the file. -/
theorem sfsBufOp_block (write : Bool) (h : t.sfs.Owned I fix) (hs : sin ∈ I) (hd : t.sfs.Dense sin)
    (hb : t.sfs.fileBlock sin index ≠ 0) (hn : 0 < n) (hin : blkoff + n ≤ sfsBlksize) :
    ∃ t', sfsBufOp write n (t.sfs.fileBlock sin index) blkoff t = .ok t' ∧ Others t.sfs t'.sfs I fix sin ∧ t'.sfs.Dense sin ∧
      t'.sfs.inodes = t.sfs.inodes ∧ t'.sfs.free = t.sfs.free ∧ t'.alen = t.alen + n ∧
      (t'.buf = if write then t.buf else patch t.buf t.alen n fun k => t.sfs.image sin (index * sfsBlksize + blkoff + k)) ∧
      (t'.sfs.image sin = if write then patch (t.sfs.image sin) (index * sfsBlksize + blkoff) n fun k => t.buf (t.alen + k)
        else t.sfs.image sin) ∧ (write = false → t'.sfs = t.sfs) := by
  have hlt := (data_facts h hs hb).1
  cases write with
  | true =>
    refine ⟨_, sfsBufOp_write hb hlt hn hin, others_writeBytes h hs hb hin, ?_, rfl, rfl, rfl, rfl, ?_, nofun⟩
    · intro k
      rw [fileBlock_writeBytes h hs hb hs]
      exact hd k
    · funext p
      exact (image_writeBytes h hs hb hin hs).trans (if_pos rfl)
  | false =>
    refine ⟨_, sfsBufOp_read hb hlt hn hin, Others.refl h, hd, rfl, rfl, rfl, ?_, rfl, fun _ => rfl⟩
    rw [if_neg Bool.false_ne_true]
    dsimp only
    refine patch_congr ?_
    intro k hk
    have hdiv : (index * sfsBlksize + blkoff + k) / sfsBlksize = index := by
      unfold sfsBlksize at hin ⊢
      omega
    have hm : (index * sfsBlksize + blkoff + k) % sfsBlksize = blkoff + k := by
      unfold sfsBlksize at hin ⊢
      omega
    rw [image_of_block (by rw [hdiv]; exact hb), hdiv, hm]

/-- A part of a block that the file has, or that comes next, is moved, or there is no free block for it. -/
theorem ioPart_carried (write : Bool) (h : t.sfs.Owned I fix) (hs : sin ∈ I) (hd : t.sfs.Dense sin)
    (hle : pos / sfsBlksize ≤ (t.sfs.din sin).blocks) (hidx : pos / sfsBlksize < sfsNdirect + sfsBlkNentry) (hn : 0 < n)
    (hin : pos % sfsBlksize + n ≤ sfsBlksize) :
    (∃ t', ioPart sin write (pos / sfsBlksize) (pos % sfsBlksize) n t = .ok (0, t') ∧ Carried write t t' I fix sin pos n ∧
        (write = false → pos / sfsBlksize < (t.sfs.din sin).blocks → t'.sfs = t.sfs)) ∨
      ∃ t', ioPart sin write (pos / sfsBlksize) (pos % sfsBlksize) n t = .ok (-eNoMem, t') ∧ Carried write t t' I fix sin pos 0 ∧
        t.sfs.limit sin ≤ pos / sfsBlksize := by
  unfold ioPart
  rcases loaded_of h hs hd hle hidx with ⟨s', hr, hl, hsa⟩ | ⟨s', hr, hst, -, hlim⟩
  · have hb : s'.fileBlock sin (pos / sfsBlksize) ≠ 0 := (hl.dense _).mpr (by rw [hl.blocks]; omega)
    obtain ⟨t', hop, ho, hd', his, hf, ha, hbuf, him, hre⟩ := sfsBufOp_block (t := { t with sfs := s' }) write hl.owned
      hs hl.dense hb hn hin
    have hdin : t'.sfs.din sin = s'.din sin := congrArg (fun f => (f sin).din) his
    rw [Nat.div_add_mod', funext hl.image] at hbuf him
    refine Or.inl ⟨t', ?_, ⟨hl.toOthers.trans ho, hd', ?_, him, hbuf, ha, ?_, (limit_congr hdin hf).trans hl.limit,
      hl.marked.trans (Or.inr ⟨by rw [his], by rw [hdin]⟩)⟩, fun hw hlt => (hre hw).trans (hsa hlt)⟩
    · rw [hr, bind_ok]
      dsimp only
      rw [hop]
      rfl
    · rw [hdin]
      exact hl.size
    · rw [hdin, hl.blocks, if_neg hn.ne']
      unfold sfsBlksize at hin ⊢
      omega
  · refine Or.inr ⟨{ t with sfs := s' }, ?_, .none hst, hlim⟩
    rw [hr]
    rfl

end

theorem Parts.le : ∀ {ns : List Nat} {pos : Nat}, Parts pos ns endpos → pos ≤ endpos
  | [], _, h => Nat.le_of_eq h
  | _ :: _, _, ⟨_, _, h⟩ => (Nat.le_add_right _ _).trans h.le

/-- How a transfer up to `endpos` ends: with all its bytes, with those for which there are blocks, or where the map is full. A read of
blocks that are there changes nothing. -/
inductive Transferred (write : Bool) (I : Finset Nat) (fix : Set Nat) (sin pos endpos : Nat) (t : Transfer) :
    Except SfsPanic (Int × Transfer) → Prop
  | all {t' : Transfer} {m : Nat} : pos + m = endpos → Carried write t t' I fix sin pos m →
      (write = false → endpos ≤ (t.sfs.din sin).blocks * sfsBlksize → t'.sfs = t.sfs) →
      Transferred write I fix sin pos endpos t (.ok (0, t'))
  | short {t' : Transfer} {m : Nat} : pos + m < endpos → pos + m = max pos (t.sfs.limit sin * sfsBlksize) →
      t.sfs.limit sin < sfsNdirect + sfsBlkNentry → Carried write t t' I fix sin pos m →
      Transferred write I fix sin pos endpos t (.ok (-eNoMem, t'))
  | out : sfsNdirect + sfsBlkNentry ≤ t.sfs.limit sin → (sfsNdirect + sfsBlkNentry) * sfsBlksize < endpos →
      Transferred write I fix sin pos endpos t (.error .indexRange)

/-- A transfer that starts in a block of the file, or in the next one. -/
theorem ioParts_carried (write : Bool) (hsin : sin ∈ I) :
    ∀ {ns : List Nat} {pos : Nat} {t : Transfer}, Parts pos ns endpos → t.sfs.Owned I fix → t.sfs.Dense sin →
      pos / sfsBlksize ≤ (t.sfs.din sin).blocks → Transferred write I fix sin pos endpos t (ioParts sin write ns pos t)
  | [], pos, t, hpa, h, hd, _ => .all (m := 0) hpa (.none (Starved.refl h hd)) fun _ _ => rfl
  | n :: ns, pos, t, ⟨hn, hin, hpa⟩, h, hd, hle => by
    have hp := hpa.le
    have hli := blocks_le_limit hd
    unfold ioParts
    by_cases hidx : pos / sfsBlksize < sfsNdirect + sfsBlkNentry
    swap
    · have hl : ioPart sin write (pos / sfsBlksize) (pos % sfsBlksize) n t = .error .indexRange := by
        unfold ioPart
        rw [sfsBmapLoad_out hle (not_lt.mp hidx)]
        rfl
      rw [hl]
      have hpos := (Nat.le_div_iff_mul_le (by decide)).mp (not_lt.mp hidx)
      exact .out (by omega) (hpos.trans_lt (by omega))
    rcases ioPart_carried write h hsin hd hle hidx hn hin with ⟨t1, hr, hc, hs⟩ | ⟨t1, hr, hc, hlim⟩
    · have hre := hc.reach hn.ne'
      have hl1 := blocks_le_limit hc.dense
      have ih := ioParts_carried write hsin hpa hc.owned hc.dense (Nat.div_le_of_le_mul (by rwa [Nat.mul_comm]))
      rw [hr, onZero_zero]
      generalize ioParts sin write ns (pos + n) t1 = r at ih ⊢
      rw [hc.limit] at hl1
      cases ih with
      | all hm hc' hsame' =>
        refine .all (by omega) (hc.trans hn.ne' hc') fun hw hend => ?_
        have hs := hs hw (Nat.div_lt_of_lt_mul (by rw [Nat.mul_comm]; omega))
        rw [hs] at hsame'
        exact hsame' hw hend
      | @short t2 m hlt hm hcap hc' =>
        rw [hc.limit] at hm hcap
        refine .short (by omega) ?_ hcap (hc.trans hn.ne' hc')
        unfold sfsBlksize at hm hre ⊢
        omega
      | out hcap hlt => exact .out (hc.limit ▸ hcap) hlt
    · rw [hr]
      refine .short (by omega) ?_ (by omega) hc
      unfold sfsBlksize at hlim ⊢
      omega

/-! ## The whole transfer -/

section

variable {offset e len m : Nat} {buf : Nat → UInt8} {write : Bool}

/-- The file reaches as far as a transfer did. -/
theorem growSize_spec (sin offset : Nat) (h : t.sfs.Owned I fix) : Others t.sfs (growSize sin offset t) I fix sin ∧
    (growSize sin offset t).din sin = { t.sfs.din sin with size := max (t.sfs.din sin).size (offset + t.alen) } ∧
    (∀ k, (growSize sin offset t).fileBlock sin k = t.sfs.fileBlock sin k) ∧
    (growSize sin offset t).disk = t.sfs.disk ∧ (growSize sin offset t).free = t.sfs.free ∧ Marked t.sfs (growSize sin offset t) sin := by
  unfold growSize
  by_cases hlt : (t.sfs.din sin).size < offset + t.alen
  · rw [if_pos hlt, Nat.max_eq_right hlt.le]
    have hs : Others t.sfs (t.sfs.setDin sin { t.sfs.din sin with size := offset + t.alen }) I fix sin :=
      others_setDin h rfl rfl rfl rfl
    refine ⟨hs.trans (others_setDirty hs.owned), ?_, ?_, rfl, rfl, Or.inl dirty_setDirty⟩
    · rw [din_setDirty, din_setDin_self]
    · intro k
      rw [fileBlock_setDirty]
      exact fileBlock_setDin rfl rfl
  · rw [if_neg hlt, Nat.max_eq_left (not_lt.mp hlt)]
    exact ⟨Others.refl h, rfl, fun _ => rfl, rfl, rfl, Marked.refl⟩

/-- A whole transfer moved `m` bytes from the offset `pos` on. A write took those of `buf`, and the file reaches as far as it did. -/
structure Moves (write : Bool) (buf : Nat → UInt8) (s s' : Sfs) (I : Finset Nat) (fix : Set Nat) (sin pos m : Nat) : Prop
    extends Others s s' I fix sin where
  dense : s'.Dense sin
  size : (s'.din sin).size = max (s.din sin).size (pos + m)
  image : s'.image sin = if write then patch (s.image sin) pos m buf else s.image sin
  blocks : (s'.din sin).blocks =
    if m = 0 then (s.din sin).blocks else max (s.din sin).blocks ((pos + m + sfsBlksize - 1) / sfsBlksize)
  limit : s'.limit sin = s.limit sin
  marked : Marked s s' sin

theorem Carried.moves (hc : Carried write ⟨s, buf, 0⟩ t I fix sin pos m) :
    t.alen = m ∧ (t.buf = if write then buf else patch buf 0 m fun k => s.image sin (pos + k)) ∧
      Moves write buf s (growSize sin pos t) I fix sin pos m := by
  obtain ⟨ho, hd, hm, hdisk, hf, hmark⟩ := growSize_spec sin pos hc.owned
  have ha : t.alen = m := hc.alen.trans (Nat.zero_add m)
  refine ⟨ha, hc.buf, hc.toOthers.trans ho, ?_, ?_, ?_, ?_, ?_, hc.marked.trans hmark⟩
  · intro k
    rw [hm, hd]
    exact hc.dense k
  · rw [hd, ha]
    exact congrArg (max · (pos + m)) hc.size
  · have him := hc.image
    simp only [Nat.zero_add] at him
    exact (funext fun p => image_of_disk hm hdisk).trans him
  · rw [hd]
    exact hc.blocks
  · refine Eq.trans ?_ hc.limit
    unfold Sfs.limit
    rw [hd, hf]

/-- A transfer from within the blocks of the file. -/
theorem Moves.blocks_max {s' : Sfs} (h : Moves write buf s s' I fix sin pos m) (hp : pos ≤ (s.din sin).blocks * sfsBlksize) :
    (s'.din sin).blocks = max (s.din sin).blocks ((pos + m + sfsBlksize - 1) / sfsBlksize) := by
  rw [h.blocks]
  split
  · unfold sfsBlksize at hp ⊢
    omega
  · rfl

theorem endpos_eq (hend : offset + len < 2 ^ 31) : OffsetCall.endpos offset len = (offset + len : Nat) := by
  unfold OffsetCall.endpos
  rw [Int.bmod_eq_of_le (by omega) (by omega), Int.natCast_add]

/-- The result of a transfer with the state that it ends in. -/
def ended (sin offset : Nat) (r : Int × Transfer) : Int × Nat × (Nat → UInt8) × Sfs :=
  (r.1, r.2.alen, r.2.buf, growSize sin offset r.2)

/-- `sfs_io_nolock` refuses its arguments, or they are an offset and an end in its range. -/
theorem sfsIo_args (write : Bool) (offset : Int) (len : Nat) (buf : Nat → UInt8) (htype : (s.din sin).type = .file) :
    sfsIo sin buf offset len write s = .ok (-eInval, 0, buf, s) ∨
      ∃ o e : Nat, offset = o ∧ OffsetCall.endpos offset len = e ∧ o < sfsMaxFileSize ∧ o ≤ e := by
  by_cases hb : offset < 0 ∨ sfsMaxFileSize ≤ offset ∨ OffsetCall.endpos offset len < offset
  · left
    unfold sfsIo
    rw [ensure_of (by rw [htype]; decide)]
    exact if_pos hb
  · obtain ⟨o, rfl⟩ := Int.eq_ofNat_of_zero_le (show 0 ≤ offset by omega)
    obtain ⟨e, he⟩ := Int.eq_ofNat_of_zero_le (show 0 ≤ OffsetCall.endpos o len by omega)
    exact Or.inr ⟨o, e, rfl, he, by omega, by omega⟩

variable (htype : (s.din sin).type = .file) (hend : OffsetCall.endpos offset len = e) (hoff : offset < sfsMaxFileSize)
include htype hend hoff

/-- A transfer of nothing: it ends where it begins, or it is a read from the end of the file on. -/
theorem sfsIo_nothing (write : Bool) (hle : offset ≤ e) (h0 : offset = e ∨ (write = false ∧ (s.din sin).size ≤ offset)) :
    sfsIo sin buf offset len write s = .ok (0, 0, buf, s) := by
  unfold OffsetCall.endpos at hend
  unfold sfsIo
  rw [ensure_of (by rw [htype]; decide)]
  dsimp only
  rw [if_neg (by omega)]
  by_cases hz : offset = e
  · rw [if_pos (by omega)]
    rfl
  · rw [if_neg (by omega), Int.toNat_natCast, if_pos (h0.resolve_left hz)]
    rfl

theorem sfsIo_transfer (write : Bool) (hlt : offset < e) (hr : write = false → offset < (s.din sin).size) :
    sfsIo sin buf offset len write s = ended sin offset <$> ioTransfer sin write offset
      (if write then min e sfsMaxFileSize else min (min e sfsMaxFileSize) (s.din sin).size) ⟨s, buf, 0⟩ := by
  unfold OffsetCall.endpos at hend
  unfold sfsIo
  rw [ensure_of (by rw [htype]; decide)]
  dsimp only
  rw [hend, if_neg (by omega), if_neg (by omega)]
  rw [if_neg (fun hc => absurd (hr hc.1) (not_lt.mpr hc.2))]
  rfl

variable (buf) in
/-- A transfer of at least one byte that begins in a block of the file, or in the next one. -/
theorem sfsIo_carried (write : Bool) (h : s.Owned I fix) (hsin : sin ∈ I) (hd : s.Dense sin) (hlt : offset < e)
    (hre : write = false → offset < (s.din sin).size) (hidx : offset / sfsBlksize ≤ (s.din sin).blocks) :
    ∃ r, sfsIo sin buf offset len write s = ended sin offset <$> r ∧ Transferred write I fix sin offset
      (if write then min e sfsMaxFileSize else min (min e sfsMaxFileSize) (s.din sin).size) ⟨s, buf, 0⟩ r := by
  rw [sfsIo_transfer htype hend hoff write hlt hre]
  generalize hs : (if write then min e sfsMaxFileSize else min (min e sfsMaxFileSize) (s.din sin).size) = stop
  have hst : offset < stop := by
    cases write with
    | true =>
      rw [if_pos rfl] at hs
      omega
    | false =>
      rw [if_neg (by decide)] at hs
      have := hre rfl
      omega
  obtain ⟨ns, hp, hr⟩ := ioTransfer_eq sin write hst
  rw [hr]
  exact ⟨_, rfl, ioParts_carried (t := ⟨s, buf, 0⟩) write hsin hp h hd hidx⟩

variable (buf) in
/-- A read brings the bytes of the file up to its end, and changes nothing. -/
theorem sfsIo_read (h : s.Owned I fix) (hsin : sin ∈ I) (hd : s.Dense sin) (hsi : (s.din sin).size ≤ (s.din sin).blocks * sfsBlksize)
    (hle : offset ≤ e) : sfsIo sin buf offset len false s = .ok (0, min e (s.din sin).size - offset,
      patch buf 0 (min e (s.din sin).size - offset) fun k => s.image sin (offset + k), s) := by
  have hmax : (s.din sin).size ≤ sfsMaxFileSize :=
    Nat.le_trans hsi (Nat.le_trans (Nat.mul_le_mul_right _ (blocks_le hd)) (by decide))
  by_cases h0 : offset = e ∨ (s.din sin).size ≤ offset
  · have hn : min e (s.din sin).size - offset = 0 := by omega
    rw [sfsIo_nothing htype hend hoff false hle (h0.imp_right fun hs => ⟨rfl, hs⟩), hn, patch_zero]
  have hmin : min (min e sfsMaxFileSize) (s.din sin).size = min e (s.din sin).size := by omega
  obtain ⟨r, hio, hsp⟩ := sfsIo_carried buf htype hend hoff false h hsin hd (by omega) (fun _ => by omega)
    (Nat.div_le_of_le_mul (by rw [Nat.mul_comm]; omega))
  rw [if_neg (by decide), hmin] at hsp
  have hr : min e (s.din sin).size ≤ (s.din sin).blocks * sfsBlksize := by omega
  have hl := Nat.mul_le_mul_right sfsBlksize (blocks_le_limit hd)
  rw [hio]
  cases hsp with
  | @all t m hm hc hsa =>
    obtain ⟨ha, hb, -⟩ := hc.moves
    have hsfs : t.sfs = s := hsa rfl hr
    rw [← hm, Nat.add_sub_cancel_left, map_ok]
    unfold ended growSize
    rw [ha, hb, hsfs, if_neg (show ¬(s.din sin).size < offset + m by omega)]
    rfl
  | short hlt hm _ _ =>
    change _ = max _ (s.limit sin * _) at hm
    omega
  | out _ hlt =>
    have := Nat.mul_le_mul_right sfsBlksize (blocks_le hd)
    omega

variable (buf) in
/-- A write from within the file moves all bytes, or as many as there are blocks for. -/
theorem sfsIo_write (h : s.Owned I fix) (hsin : sin ∈ I) (hd : s.Dense sin) (hp : offset ≤ (s.din sin).blocks * sfsBlksize)
    (hs : offset ≤ (s.din sin).size) (hle : offset ≤ e) : ∃ r, sfsIo sin buf offset len true s = ended sin offset <$> r ∧
      Transferred true I fix sin offset (min e sfsMaxFileSize) ⟨s, buf, 0⟩ r := by
  by_cases h0 : offset = e
  · refine ⟨.ok (0, ⟨s, buf, 0⟩), ?_, .all (m := 0) (by omega) (.none (Starved.refl h hd)) nofun⟩
    rw [sfsIo_nothing htype hend hoff true hle (Or.inl h0)]
    exact congrArg (fun u => Except.ok (0, 0, buf, u)) (if_neg (Nat.not_lt.mpr hs)).symm
  · exact sfsIo_carried buf htype hend hoff true h hsin hd (by omega) nofun (Nat.div_le_of_le_mul (by rwa [Nat.mul_comm]))

end

/-! ## The length -/

/-- Dropping the last block. -/
theorem truncated_of (h : s.Owned I fix) (hs : sin ∈ I) (hd : s.Dense sin) (hb : (s.din sin).blocks ≠ 0) :
    ∃ s', sfsBmapTruncate sin s = .ok s' ∧ Others s s' I fix sin ∧ s'.Dense sin ∧
      (s'.din sin).blocks = (s.din sin).blocks - 1 ∧
      ∀ p, p / sfsBlksize < (s.din sin).blocks - 1 → s'.image sin p = s.image sin p := by
  obtain ⟨s', hr, hca⟩ := sfsBmapTruncate_spec h hs (full_of_dense hd) hb
  have hl : s.fileBlock sin ((s.din sin).blocks - 1) ≠ 0 := (hd _).mpr (by omega)
  rcases hca with hdr | ⟨hbig, -⟩
  · have ho : Others s s' I fix sin := by
      have hmaps : ∀ i ∈ I, i ≠ sin → ∀ k, s'.fileBlock i k = s.fileBlock i k := by
        intro i hi hne k
        rw [hdr.fileBlock i hi, if_neg (fun hc => hne hc.1)]
      refine ⟨hdr.owned, hdr.others, hmaps, ?_, hdr.type, hdr.nlinks, ?_, hdr.blocks⟩
      · intro i hi hne p
        exact image_congr (hmaps i hi hne _) fun hb' => hdr.disk _ fun he => absurd he (data_ne_table h hi hs hb')
      · intro c hc
        refine hdr.disk c ?_
        rintro rfl
        exact not_not.mp fun ht0 => (table_facts h hs ht0).2.2 hc
    have hset : Others s' (setBlocks s' sin ((s.din sin).blocks - 1)) I fix sin := others_setDin hdr.owned rfl rfl rfl rfl
    refine ⟨_, hr, (ho.trans hset).trans (others_setDirty hset.owned), ?_, ?_, ?_⟩
    · intro k
      rw [fileBlock_setDirty, fileBlock_setBlocks, din_setDirty, blocks_setBlocks, if_pos rfl, hdr.fileBlock sin hs k]
      by_cases hk : k = (s.din sin).blocks - 1
      · rw [if_pos ⟨rfl, hk⟩, hk]
        simp
      · rw [if_neg (fun hc => hk hc.2), hd k]
        omega
    · rw [din_setDirty, blocks_setBlocks, if_pos rfl]
    · intro p hp
      refine (image_of_disk (fun k => fileBlock_setDirty.trans (fileBlock_setBlocks _)) rfl).trans (image_congr ?_ fun hb' => ?_)
      · rw [hdr.fileBlock sin hs, if_neg (by omega)]
      · exact hdr.disk _ fun he => absurd he (data_ne_table h hs hs hb')
  · exact absurd (fileBlock_out (by omega)) hl

theorem shrinkBlocks_spec (hs : sin ∈ I) : ∀ (n : Nat) {s : Sfs}, s.Owned I fix → s.Dense sin → n ≤ (s.din sin).blocks →
    ∃ s', shrinkBlocks sin n s = .ok s' ∧ Others s s' I fix sin ∧ s'.Dense sin ∧
      (s'.din sin).blocks = (s.din sin).blocks - n ∧
      ∀ p, p / sfsBlksize < (s.din sin).blocks - n → s'.image sin p = s.image sin p
  | 0, s, h, hd, _ => ⟨s, rfl, Others.refl h, hd, rfl, fun _ _ => rfl⟩
  | n + 1, s, h, hd, hn => by
    obtain ⟨s1, hr, ho, hd1, hb1, him1⟩ := truncated_of h hs hd (by omega)
    obtain ⟨s2, hr', ho', hd2, hb2, him2⟩ := shrinkBlocks_spec hs n ho.owned hd1 (by omega)
    refine ⟨s2, ?_, ho.trans ho', hd2, by omega, fun p hp => (him2 p (by omega)).trans (him1 p (by omega))⟩
    unfold shrinkBlocks
    rw [hr, bind_ok, hr']

/-- How the loop that adds `n` blocks to a file ends. -/
inductive Grew (s : Sfs) (I : Finset Nat) (fix : Set Nat) (sin n : Nat) : Except SfsPanic (Int × Sfs) → Prop
  | all {s' : Sfs} : Loaded s s' I fix sin ((s.din sin).blocks + n) → Grew s I fix sin n (.ok (0, s'))
  | short {s' : Sfs} : s.limit sin < (s.din sin).blocks + n → s.limit sin < sfsNdirect + sfsBlkNentry →
      Loaded s s' I fix sin (s.limit sin) → (s.limit sin = (s.din sin).blocks → Starved s s' I fix sin) →
      Grew s I fix sin n (.ok (-eNoMem, s'))
  | out : sfsNdirect + sfsBlkNentry ≤ s.limit sin → sfsNdirect + sfsBlkNentry < (s.din sin).blocks + n →
      Grew s I fix sin n (.error .indexRange)

theorem growBlocks_spec (hs : sin ∈ I) : ∀ (n : Nat) {s : Sfs}, s.Owned I fix → s.Dense sin →
    Grew s I fix sin n (growBlocks sin n (s.din sin).blocks s)
  | 0, s, h, hd => .all (Loaded.refl h hd)
  | n + 1, s, h, hd => by
    have hli := blocks_le_limit hd
    unfold growBlocks
    by_cases hf : sfsNdirect + sfsBlkNentry ≤ (s.din sin).blocks
    · rw [sfsBmapLoad_out (le_refl _) hf]
      exact .out (by omega) (by omega)
    rcases loaded_of h hs hd (le_refl _) (Nat.lt_of_not_le hf) with ⟨s1, hr, hl, -⟩ | ⟨s1, hr, hst, -, hlim⟩
    · have hb : (s1.din sin).blocks = (s.din sin).blocks + 1 := by
        rw [hl.blocks]
        omega
      have hl1 := blocks_le_limit hl.dense
      have ih := growBlocks_spec hs n hl.owned hl.dense
      rw [hr, bind_ok]
      dsimp only
      rw [if_neg (by decide), ← hb]
      generalize growBlocks sin n (s1.din sin).blocks s1 = r at ih ⊢
      have hsum : (s1.din sin).blocks + n = (s.din sin).blocks + (n + 1) := by omega
      rw [hl.limit] at hl1
      cases ih with
      | all hl' => exact .all (hsum ▸ hl.trans hl')
      | short hlt hc hl' _ =>
        rw [hl.limit] at hlt hc hl'
        exact .short (by omega) hc (hl.trans hl') fun he => by omega
      | out hc hlt => exact .out (hl.limit ▸ hc) (by omega)
    · have heq : s.limit sin = (s.din sin).blocks := by omega
      rw [hr]
      exact .short (by omega) (by omega) (heq ▸ hst.loaded) fun _ => hst

end SfsAux

end Ucore
