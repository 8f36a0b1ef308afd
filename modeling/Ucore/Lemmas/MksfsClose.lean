import Mathlib.Data.Nat.Count
import Ucore.Lemmas.Bitmap
import Ucore.Lemmas.MksfsBuild

/-!
# Closing an image, and mounting it

`close_sfs` writes the bitmap, the superblock, the inodes and the tables, each to its own block, and no other block
(`closeSfs_spec`). The kernel mounts what it has written (`sfsDoMount_spec`): the free blocks are those that were never allocated.
-/

namespace Ucore

open Checked Ownership Bytes MksfsAux Function

namespace Mksfs

/-- What `close_sfs` writes into a block: so many bytes of a buffer. -/
def closing (s : Mksfs) (r : Record) (b : Nat) : (Nat → UInt8) × Nat :=
  if b = sfsBlknSuper then (wordBytes (superWords s), sizeofSuper)
  else if b ∈ r.inos then ((s.ci b).inode.bytes, sizeofInode)
  else if b < firstBlock s.ninos then
    (wordBytes fun w => (freemapWords s.ninos s.nextIno ((b - sfsBlknFreemap) * sfsBlkbits) w).toNat, sfsBlksize)
  else (wordBytes (s.cache b), sfsBlksize)

/-- The blocks `D` of the image were written, and nothing else has changed. -/
structure Flushed (s s' : Mksfs) (r : Record) (D : Set Nat) : Prop where
  state : ∃ image, s' = { s with image := image }
  inside : ∀ b ∈ D, ∃ pre, s'.image b = written (s.closing r b).1 (s.closing r b).2 pre
  outside : ∀ b, b ∉ D → s'.image b = s.image b

end Mksfs

namespace MksfsAux

open Mksfs

variable {s s' : Mksfs} {r : Record} {D : Set Nat} {b c i j k n : Nat} {σ : MksfsSlot}

theorem flushed_refl (s : Mksfs) (r : Record) : Flushed s s r ∅ :=
  ⟨⟨s.image, rfl⟩, fun b hb => absurd hb (Set.notMem_empty b), fun _ _ => rfl⟩

/-- One block is written. -/
theorem flushed_write (h : Flushed s s' r D) (hb : b < s.ninos) (hlen : (s.closing r b).2 ≤ sfsBlksize) :
    ∃ s'', writeBlock (s.closing r b).1 (s.closing r b).2 b s' = .ok s'' ∧ Flushed s s'' r (insert b D) := by
  obtain ⟨image, rfl⟩ := h.state
  refine ⟨{ s with image := update image b (written (s.closing r b).1 (s.closing r b).2 (image b)) }, ?_, ⟨_, rfl⟩, ?_, ?_⟩
  · unfold writeBlock
    rw [ensure_of ⟨hlen, hb⟩, bind_ok]
    rfl
  · intro d hd
    change ∃ pre, update image b _ d = _
    by_cases hdb : d = b
    · rw [hdb, update_self]
      exact ⟨_, rfl⟩
    · rw [update_of_ne hdb]
      exact h.inside d (hd.resolve_left hdb)
  · intro d hd
    change update image b _ d = _
    rw [update_of_ne (fun he => hd (Or.inl he))]
    exact h.outside d fun hm => hd (Or.inr hm)

/-! ## The loops -/

section Loops

variable {flush : Nat → Mksfs → Except MksfsError Mksfs}

/-- The loop over a list writes the blocks of the list. -/
theorem flushList_spec {bs : List Nat} (hbs : ∀ b ∈ bs, b < s.ninos ∧ (s.closing r b).2 ≤ sfsBlksize ∧
      ∀ image, flush b { s with image := image } = writeBlock (s.closing r b).1 (s.closing r b).2 b { s with image := image })
    (h : Flushed s s' r D) : ∃ s'', flushList flush bs s' = .ok s'' ∧ Flushed s s'' r (D ∪ { b | b ∈ bs }) := by
  induction bs generalizing s' D with
  | nil => exact ⟨s', rfl, by simpa using h⟩
  | cons b bs ih =>
    obtain ⟨hlt, hlen, hflush⟩ := hbs b List.mem_cons_self
    obtain ⟨s1, hr, h1⟩ := flushed_write h hlt hlen
    obtain ⟨image, rfl⟩ := h.state
    obtain ⟨s2, hr2, h2⟩ := ih (fun d hd => hbs d (List.mem_cons_of_mem _ hd)) h1
    refine ⟨s2, ?_, ?_⟩
    · rw [flushList, hflush, hr, bind_ok, hr2]
    · have hs : insert b D ∪ { d | d ∈ bs } = D ∪ { d | d ∈ b :: bs } := by
        ext d
        simp only [Set.mem_union, Set.mem_insert_iff, Set.mem_ofPred_eq, List.mem_cons]
        tauto
      rwa [hs] at h2

end Loops

section Close

variable (h : s.Sound r ∅ ∅) (hl : s.Linked r)
include h hl

/-- An inode other than the root is behind the bitmap. -/
theorem inode_facts (hc : c ∈ r.inos) (hr : c ≠ sfsBlknRoot) : firstBlock s.ninos ≤ c ∧ c < s.nextIno := by
  have hn : s.named r (.inode c) = c := if_pos ⟨hc, hr⟩
  have h0 : c ≠ 0 := by
    rintro rfl
    exact hl.zero hc
  have := named_facts h (σ := .inode c) (by rw [hn]; exact h0)
  rw [hn] at this
  exact ⟨this.1, this.2.1⟩

theorem inode_lt (hc : c ∈ r.inos) : c < s.nextIno := by
  by_cases hr : c = sfsBlknRoot
  · have hp := firstBlock_pos s.ninos
    have hlow := h.low
    have h1 : sfsBlknRoot = 1 := rfl
    omega
  · exact (inode_facts h hl hc hr).2

omit hl in
/-- A cache block is no inode. -/
theorem listed_not_mem (hb : b ∈ s.blocks i) : b ∉ r.inos := by
  intro hm
  obtain ⟨-, ⟨hlow, -⟩, hσ⟩ := h.listed i b hb
  have hp := firstBlock_pos s.ninos
  have hr : b ≠ sfsBlknRoot := by
    have h1 : sfsBlknRoot = 1 := rfl
    omega
  exact hσ (.inode b) (if_pos ⟨hm, hr⟩)

omit h in
theorem closing_inode (hc : c ∈ r.inos) : s.closing r c = ((s.ci c).inode.bytes, sizeofInode) := by
  have h0 : c ≠ sfsBlknSuper := by
    rintro rfl
    exact hl.zero hc
  rw [closing, if_neg h0, if_pos hc]

omit hl in
theorem closing_table (hb : b ∈ s.blocks i) (hm : b ∉ r.inos) : s.closing r b = (wordBytes (s.cache b), sfsBlksize) := by
  obtain ⟨-, ⟨hlow, -⟩, -⟩ := h.listed i b hb
  have hp := firstBlock_pos s.ninos
  have h0 : b ≠ sfsBlknSuper := by
    have h1 : sfsBlknSuper = 0 := rfl
    omega
  rw [closing, if_neg h0, if_neg hm, if_neg (Nat.not_lt.mpr hlow)]

theorem closing_freemap (h2 : sfsBlknFreemap ≤ b) (hb : b < firstBlock s.ninos) : s.closing r b =
    (wordBytes fun w => (freemapWords s.ninos s.nextIno ((b - sfsBlknFreemap) * sfsBlkbits) w).toNat, sfsBlksize) := by
  have e0 : sfsBlknSuper = 0 := rfl
  have e1 : sfsBlknRoot = 1 := rfl
  have e2 : sfsBlknFreemap = 2 := rfl
  have hm : b ∉ r.inos := by
    intro hm
    have := (inode_facts h hl hm (by omega)).1
    omega
  rw [closing, if_neg (by omega), if_neg hm, if_pos hb]

/-- The loop over the blocks of the bitmap. -/
theorem writeFreemap_spec (h2 : sfsBlknFreemap ≤ j) (hn : j + n = firstBlock s.ninos) (hs : Flushed s s' r D) :
    ∃ s'', writeFreemap n j ((j - sfsBlknFreemap) * sfsBlkbits) s' = .ok s'' ∧
      Flushed s s'' r (D ∪ { b | j ≤ b ∧ b < j + n }) := by
  induction n generalizing j s' D with
  | zero =>
    refine ⟨s', rfl, ?_⟩
    have hset : { b | j ≤ b ∧ b < j + 0 } = (∅ : Set Nat) := by
      ext b
      simp only [Set.mem_ofPred_eq, Set.mem_empty_iff_false, iff_false]
      omega
    rwa [hset, Set.union_empty]
  | succ n ih =>
    have hlow := h.low
    have hh := h.high
    have hclosing := closing_freemap h hl h2 (by omega)
    obtain ⟨s1, hr, h1⟩ := flushed_write hs (b := j) (by omega) (by rw [hclosing])
    rw [hclosing] at hr
    obtain ⟨s2, hr2, h₂⟩ := ih (Nat.le_succ_of_le h2) (by omega) h1
    refine ⟨s2, ?_, ?_⟩
    · obtain ⟨image, rfl⟩ := hs.state
      have hi : (j - sfsBlknFreemap) * sfsBlkbits + sfsBlkbits = (j + 1 - sfsBlknFreemap) * sfsBlkbits := by
        rw [Nat.succ_sub h2, Nat.succ_mul]
      rw [writeFreemap]
      refine (congrArg (· >>= _) hr).trans ?_
      rw [bind_ok, hi]
      exact hr2
    · have hset : insert j D ∪ { b | j + 1 ≤ b ∧ b < j + 1 + n } = D ∪ { b | j ≤ b ∧ b < j + (n + 1) } := by
        ext b
        simp only [Set.mem_union, Set.mem_insert_iff, Set.mem_ofPred_eq]
        constructor
        · rintro ((rfl | hb) | hb)
          · exact Or.inr (by omega)
          · exact Or.inl hb
          · exact Or.inr (by omega)
        · rintro (hb | hb)
          · exact Or.inl (Or.inr hb)
          · by_cases he : b = j
            · exact Or.inl (Or.inl he)
            · exact Or.inr (by omega)
      rwa [hset] at h₂

/-- The loop over the hash lists. -/
theorem flushLists_spec (hs : Flushed s s' r D) : ∃ s'', flushLists n i s' = .ok s'' ∧
    Flushed s s'' r (D ∪ { b | ∃ j, (i ≤ j ∧ j < i + n) ∧ (b ∈ s.blocks j ∨ b ∈ s.inodes j) }) := by
  induction n generalizing i s' D with
  | zero =>
    refine ⟨s', rfl, ?_⟩
    have hset : { b | ∃ j, (i ≤ j ∧ j < i + 0) ∧ (b ∈ s.blocks j ∨ b ∈ s.inodes j) } = (∅ : Set Nat) := by
      ext b
      simp only [Set.mem_ofPred_eq, Set.mem_empty_iff_false, iff_false]
      rintro ⟨j, hj, -⟩
      omega
    rwa [hset, Set.union_empty]
  | succ n ih =>
    have hh := h.high
    have hbl : ∀ b ∈ s.blocks i, b < s.ninos ∧ (s.closing r b).2 ≤ sfsBlksize ∧ ∀ image, flushCacheBlock b { s with image := image } =
        writeBlock (s.closing r b).1 (s.closing r b).2 b { s with image := image } := by
      intro b hb
      have hlt := (h.listed i b hb).2.1.2
      rw [closing_table h hb (listed_not_mem h hb)]
      exact ⟨by omega, le_refl _, fun _ => rfl⟩
    have hin : ∀ c ∈ s.inodes i, c < s.ninos ∧ (s.closing r c).2 ≤ sfsBlksize ∧ ∀ image, flushCacheInode c { s with image := image } =
        writeBlock (s.closing r c).1 (s.closing r c).2 c { s with image := image } := by
      intro c hc
      have hm := ((h.inodes i c).mp hc).1
      have hlt := inode_lt h hl hm
      rw [closing_inode hl hm]
      refine ⟨by omega, show sizeofInode ≤ sfsBlksize by decide, ?_⟩
      intro image
      change writeBlock _ _ (s.ci c).ino _ = _
      rw [h.ino c hm]
    obtain ⟨s1, hr1, h1⟩ := flushList_spec hbl hs
    obtain ⟨s2, hr2, h2⟩ := flushList_spec hin h1
    obtain ⟨s3, hr3, h3⟩ := ih (i := i + 1) h2
    refine ⟨s3, ?_, ?_⟩
    · obtain ⟨image, rfl⟩ := hs.state
      obtain ⟨image1, rfl⟩ := h1.state
      rw [flushLists]
      refine (congrArg (· >>= _) hr1).trans ?_
      rw [bind_ok]
      refine (congrArg (· >>= _) hr2).trans ?_
      rw [bind_ok]
      exact hr3
    · refine cast (congrArg _ ?_) h3
      ext b
      simp only [Set.mem_union, Set.mem_ofPred_eq]
      constructor
      · rintro (((hb | hb) | hb) | ⟨j, hj, hb⟩)
        · exact Or.inl hb
        · exact Or.inr ⟨i, by omega, Or.inl hb⟩
        · exact Or.inr ⟨i, by omega, Or.inr hb⟩
        · exact Or.inr ⟨j, by omega, hb⟩
      · rintro (hb | ⟨j, hj, hb⟩)
        · exact Or.inl (Or.inl (Or.inl hb))
        · by_cases hji : j = i
          · rw [hji] at hb
            exact Or.inl (hb.elim (fun hb => Or.inl (Or.inr hb)) Or.inr)
          · exact Or.inr ⟨j, by omega, hb⟩

omit h hl in
theorem hash64_lt (val : Nat) : hash64 val < hashListSize := by
  unfold hash64 hash32 hashListSize
  omega

/-- The blocks that `close_sfs` writes. -/
def closed (s : Mksfs) (r : Record) : Set Nat :=
  { b | b = sfsBlknSuper ∨ (sfsBlknFreemap ≤ b ∧ b < firstBlock s.ninos) ∨ b ∈ r.inos ∨ b ∈ s.blocks (hash32 0) }

theorem closeSfs_spec : ∃ s', closeSfs s = .ok s' ∧ Flushed s s' r (closed s r) := by
  have hp := firstBlock_pos s.ninos
  have hlow := h.low
  have hh := h.high
  obtain ⟨s1, hr1, h1⟩ := writeFreemap_spec h hl (n := (s.ninos + sfsBlkbits - 1) / sfsBlkbits) (le_refl sfsBlknFreemap) rfl
    (flushed_refl s r)
  have hs : s.closing r sfsBlknSuper = (wordBytes (superWords s), sizeofSuper) := if_pos rfl
  obtain ⟨s2, hr2, h2⟩ := flushed_write h1 (b := sfsBlknSuper) (show 0 < s.ninos by omega)
    (by rw [hs]; exact show sizeofSuper ≤ sfsBlksize by decide)
  obtain ⟨s3, hr3, h3⟩ := flushLists_spec h hl (n := hashListSize) (i := 0) h2
  refine ⟨s3, ?_, ?_⟩
  · rw [Nat.sub_self, Nat.zero_mul] at hr1
    rw [hs] at hr2
    unfold closeSfs
    rw [hr1, bind_ok]
    obtain ⟨image, rfl⟩ := h1.state
    refine (congrArg (· >>= _) hr2).trans ?_
    rw [bind_ok, hr3]
  · refine cast (congrArg _ ?_) h3
    ext b
    simp only [Set.mem_union, Set.mem_insert_iff, Set.mem_ofPred_eq, Set.mem_empty_iff_false, false_or, closed]
    constructor
    · rintro ((hb | hb) | ⟨j, -, hb | hb⟩)
      · exact Or.inl hb
      · exact Or.inr (Or.inl hb)
      · obtain ⟨rfl, -⟩ := h.listed j b hb
        exact Or.inr (Or.inr (Or.inr hb))
      · exact Or.inr (Or.inr (Or.inl ((h.inodes j b).mp hb).1))
    · rintro (hb | hb | hb | hb)
      · exact Or.inl (Or.inl hb)
      · exact Or.inl (Or.inr hb)
      · refine Or.inr ⟨hash64 (s.ci b).real, ⟨Nat.zero_le _, ?_⟩, Or.inr ((h.inodes _ b).mpr ⟨hb, rfl⟩)⟩
        rw [Nat.zero_add]
        exact hash64_lt _
      · refine Or.inr ⟨hash32 0, ⟨Nat.zero_le _, by decide⟩, Or.inl hb⟩

end Close

/-! ## What the kernel reads -/

section Read

variable {data : Nat → UInt8} {pre : Nat → UInt8} {words : Nat → Nat} {len o w : Nat}

theorem written_of_lt (hk : k < len) (hlen : len ≤ sfsBlksize) : written data len pre k = data k := by
  rw [written, patch_of_mem (Nat.zero_le _) (by omega), Nat.sub_zero, if_pos hk]

theorem written_of_ge (hk : len ≤ k) (hlt : k < sfsBlksize) : written data len pre k = 0 := by
  rw [written, patch_of_mem (Nat.zero_le _) (by omega), Nat.sub_zero, if_neg (not_lt.mpr hk)]

theorem word_written (ho : o + 4 ≤ len) (hlen : len ≤ sfsBlksize) : word (written data len pre) o = word data o := by
  refine word_congr ?_
  intro k hk
  exact written_of_lt (by omega) hlen

theorem word_wordBytes (hw : words w < 2 ^ 32) : word (wordBytes words) (w * 4) = words w := by
  refine word_byteOf hw ?_
  intro k hk
  unfold wordBytes
  rw [show (w * 4 + k) / 4 = w by omega, show (w * 4 + k) % 4 = k by omega]

end Read

/-! ## The bitmap -/

theorem setBits_spec (data : Nat → BitVec 32) : (setBits n j data (k / 32)).getLsbD (k % 32) =
    ((data (k / 32)).getLsbD (k % 32) || decide (j ≤ k ∧ k < j + n)) := by
  induction n generalizing j data with
  | zero =>
    have hn : ¬(j ≤ k ∧ k < j + 0) := by omega
    rw [setBits, decide_eq_false hn, Bool.or_false]
  | succ n ih =>
    have hb : (update data (j / 32) (data (j / 32) ||| 1#32 <<< (j % 32)) (k / 32)).getLsbD (k % 32) =
        ((data (k / 32)).getLsbD (k % 32) || decide (k = j)) := by
      by_cases hw : k / 32 = j / 32
      · rw [hw, update_self, BitVec.getLsbD_or, BitmapAux.getLsbD_mask (Nat.mod_lt _ (by decide))]
        exact congrArg _ (decide_eq_decide.mpr (by omega))
      · rw [update_of_ne hw]
        have hne : k ≠ j := fun he => hw (by rw [he])
        simp [hne]
    rw [setBits, ih, hb, Bool.or_assoc, ← Bool.decide_or]
    exact congrArg _ (decide_eq_decide.mpr (by omega))

/-- The bit of a block in the block of the bitmap that begins with the block `i`. -/
theorem freemapWords_spec {ninos nextIno : Nat} (hk : k < sfsBlkbits) :
    (freemapWords ninos nextIno i (k / 32)).getLsbD (k % 32) = decide (nextIno ≤ i + k ∧ i + k < ninos) := by
  have hB : sfsBlkbits = 32768 := rfl
  unfold freemapWords
  split
  · dsimp only
    rw [setBits_spec, BitVec.getLsbD_zero, Bool.false_or]
    refine decide_eq_decide.mpr ?_
    split <;> split <;> omega
  · rw [BitVec.getLsbD_zero]
    exact (decide_eq_false (by omega)).symm

/-- The device that holds an image. -/
def device (s : Mksfs) (blocks : Nat) : SfsDevice := ⟨blocks, sfsBlksize, s.image⟩

section Mount

variable {w blocks unused : Nat} (h : s.Sound r ∅ ∅) (hl : s.Linked r) (hf : Flushed s s' r (closed s r))
include h hl hf

omit hl in
theorem image_super (hw : w < 3) : word (s'.image sfsBlknSuper) (w * 4) = superWords s w := by
  obtain ⟨pre, hp⟩ := hf.inside sfsBlknSuper (Or.inl rfl)
  have hsu : s.closing r sfsBlknSuper = (wordBytes (superWords s), sizeofSuper) := if_pos rfl
  have hs : sizeofSuper = 44 := rfl
  have hm := h.max
  have hM : sfsMaxNblks = 524288 := rfl
  have hu := h.unused
  rw [hp, hsu, word_written (by omega) (show sizeofSuper ≤ sfsBlksize by decide)]
  refine word_wordBytes ?_
  unfold superWords
  split
  · decide
  · split
    · omega
    · split <;> omega

/-- A word of the bitmap. -/
theorem deviceWord_spec (hw : w < (s.ninos + sfsBlkbits - 1) / sfsBlkbits * sfsBlkNentry) : deviceWord (device s' blocks) w =
      freemapWords s.ninos s.nextIno (w / sfsBlkNentry * sfsBlkbits) (w % sfsBlkNentry) := by
  have hN : sfsBlkNentry = 1024 := rfl
  have hb : sfsBlknFreemap + w / sfsBlkNentry < firstBlock s.ninos := by
    unfold firstBlock
    rw [hN] at hw ⊢
    omega
  obtain ⟨pre, hp⟩ := hf.inside (sfsBlknFreemap + w / sfsBlkNentry) (Or.inr (Or.inl ⟨Nat.le_add_right _ _, hb⟩))
  have hS : sfsBlksize = 4096 := rfl
  unfold deviceWord
  change BitVec.ofNat 32 (word (s'.image _) _) = _
  rw [hp, closing_freemap h hl (Nat.le_add_right _ _) hb, Nat.add_sub_cancel_left,
    word_written (by rw [hN, hS]; omega) (le_refl _), word_wordBytes (BitVec.isLt _), BitVec.ofNat_toNat, BitVec.setWidth_eq]

omit h hl hf in
theorem countUnused_spec {m : Bitmap} (hw : m.nbits ≤ m.nwords * 32) (hn : i + n ≤ m.nbits) :
    countUnused m n i unused = .ok (unused + Nat.count (fun k => i + k ∈ m.free) n) := by
  induction n generalizing i unused with
  | zero => rfl
  | succ n ih =>
    rw [countUnused, BitmapAux.bitmapTest_spec (by omega) hw, bind_ok, ih (by omega), Nat.count_succ']
    have hshift : (fun k => i + (k + 1) ∈ m.free) = fun k => i + 1 + k ∈ m.free := by
      funext k
      rw [Nat.add_right_comm, Nat.add_assoc]
    simp only [hshift, Nat.add_zero, decide_eq_true_eq]
    congr 1
    split <;> omega

/-- The bitmap of the volume that is mounted from an image. -/
def mountedMap (s s' : Mksfs) (blocks : Nat) : Bitmap :=
  let nblks := (s.ninos + sfsBlkbits - 1) / sfsBlkbits
  ⟨nblks * sfsBlkbits, nblks * sfsBlkNentry, deviceWord (device s' blocks)⟩

/-- The volume that is mounted from an image. -/
def volume (s s' : Mksfs) (blocks : Nat) : Sfs :=
  ⟨s.ninos, s.unusedBlocks, mountedMap s s' blocks, false, s'.image, fun i => ⟨.ofBytes (s'.image i), false⟩⟩

/-- The blocks that were never allocated are free. -/
theorem free_mountedMap (blocks : Nat) : (mountedMap s s' blocks).free = Finset.Ico s.nextIno s.ninos := by
  have hN : sfsBlkNentry = 1024 := rfl
  have hB : sfsBlkbits = 32768 := rfl
  have hh := h.high
  ext i
  rw [BitmapAux.mem_free, Finset.mem_Ico]
  change i < (s.ninos + sfsBlkbits - 1) / sfsBlkbits * sfsBlkNentry * 32 ∧
    (deviceWord (device s' blocks) (i / 32)).getLsbD (i % 32) = true ↔ _
  have hlt : i < s.ninos → i < (s.ninos + sfsBlkbits - 1) / sfsBlkbits * sfsBlkNentry * 32 := by
    rw [hN, hB]
    omega
  have hbit : i < (s.ninos + sfsBlkbits - 1) / sfsBlkbits * sfsBlkNentry * 32 →
      (deviceWord (device s' blocks) (i / 32)).getLsbD (i % 32) = decide (s.nextIno ≤ i ∧ i < s.ninos) := by
    intro hi
    rw [deviceWord_spec h hl hf (by rw [hN, hB] at hi ⊢; omega)]
    have hw : i / 32 % sfsBlkNentry = i % sfsBlkbits / 32 := by
      rw [hN, hB]
      omega
    have ho : i % 32 = i % sfsBlkbits % 32 := by
      rw [hB]
      omega
    have hs : i / 32 / sfsBlkNentry * sfsBlkbits + i % sfsBlkbits = i := by
      rw [hN, hB]
      omega
    rw [hw, ho, freemapWords_spec (Nat.mod_lt _ (by decide)), hs]
  constructor
  · rintro ⟨hi, hb⟩
    rw [hbit hi] at hb
    exact of_decide_eq_true hb
  · rintro hi
    refine ⟨hlt hi.2, ?_⟩
    rw [hbit (hlt hi.2)]
    exact decide_eq_true hi

omit h hl hf in
theorem bitmapCreate_of (hn : n ≠ 0) (hlt : n * sfsBlkbits + 32 < 2 ^ 32) :
    bitmapCreate (n * sfsBlkbits) = .ok ⟨n * sfsBlkbits, n * sfsBlkNentry, fun _ => BitVec.allOnes 32⟩ := by
  have hN : sfsBlkNentry = 1024 := rfl
  have hB : sfsBlkbits = 32768 := rfl
  have hw : (n * sfsBlkbits + 31) / 32 = n * sfsBlkNentry := by
    rw [hN, hB]
    omega
  unfold bitmapCreate
  rw [ensure_of ⟨by rw [hB]; omega, hlt⟩, bind_ok, hw]
  dsimp only
  rw [if_neg (by rw [hN, hB]; omega)]
  rfl

/-- The kernel mounts the image. -/
theorem sfsDoMount_spec (hb : s.ninos ≤ blocks) : sfsDoMount (device s' blocks) = .ok (0, some (volume s s' blocks)) := by
  have hN : sfsBlkNentry = 1024 := rfl
  have hB : sfsBlkbits = 32768 := rfl
  have hM : sfsMaxNblks = 524288 := rfl
  have hmax := h.max
  have hlow := h.low
  have hh := h.high
  have hp := firstBlock_pos s.ninos
  have hu := h.unused
  have hmagic : word ((device s' blocks).bytes sfsBlknSuper) 0 = sfsMagic := image_super h hf (w := 0) (by omega)
  have hn : word ((device s' blocks).bytes sfsBlknSuper) 4 = s.ninos := image_super h hf (w := 1) (by omega)
  have hfr : word ((device s' blocks).bytes sfsBlknSuper) 8 = s.unusedBlocks := image_super h hf (w := 2) (by omega)
  obtain ⟨nblks, hnb⟩ : ∃ nblks, nblks = (s.ninos + sfsBlkbits - 1) / sfsBlkbits := ⟨_, rfl⟩
  have hm : (⟨nblks * sfsBlkbits, nblks * sfsBlkNentry, deviceWord (device s' blocks)⟩ : Bitmap) = mountedMap s s' blocks := by
    rw [hnb]
    rfl
  have hc : countUnused (mountedMap s s' blocks) (nblks * sfsBlkbits) 0 0 = .ok s.unusedBlocks := by
    rw [← hm, countUnused_spec (by dsimp only; rw [hN, hB]; omega) (by dsimp only; omega), hm]
    simp only [Nat.zero_add, free_mountedMap h hl hf]
    rw [Nat.count_eq_card_filter_range, Finset.filter_mem_eq_inter, Finset.inter_eq_right.mpr ?_, Nat.card_Ico]
    · congr 1
      omega
    · intro i hi
      rw [Finset.mem_Ico] at hi
      rw [Finset.mem_range, hnb, hB]
      omega
  have hs : (device s' blocks).blocksize = sfsBlksize := rfl
  have hd : (device s' blocks).blocks = blocks := rfl
  unfold sfsDoMount
  rw [if_neg (not_not.mpr hs)]
  dsimp only
  rw [hd, hmagic, hn, hfr, if_neg (not_not.mpr rfl), if_neg (Nat.not_lt.mpr hb), ← hnb,
    bitmapCreate_of (by rw [hnb, hB]; omega) (by rw [hnb, hB]; omega)]
  have hin : sfsInitFreemap (device s' blocks) ⟨nblks * sfsBlkbits, nblks * sfsBlkNentry, fun _ => BitVec.allOnes 32⟩ nblks =
      .ok (mountedMap s s' blocks) := by
    unfold sfsInitFreemap
    rw [ensure_of (by dsimp only; rw [hN]; exact Nat.mul_assoc _ _ _), bind_ok, ← hm]
    rfl
  simp only [mapError_ok, bind_ok, hin, hc, ensure_of]
  rfl

end Mount

end MksfsAux

end Ucore
