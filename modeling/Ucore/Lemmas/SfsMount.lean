import Ucore.Theorems.SfsSync

/-!
# Mounted volumes

What a volume is whose inodes come and go (`Sfs.Mounted`): clean inodes are what their blocks hold, every inode can be loaded, and the
entries of the directories lead to inodes. An inode that has been written to its block can be forgotten: it is read back as it was
(`ofBytes_agree`), so that nothing but its mark changes (`mounted_forget`). A directory is searched without a change to the volume
(`searchSlots_spec`).
-/

namespace Ucore

open Checked Bytes Function

/-- The fields of an inode fit their places in its block. -/
structure DiskInode.Bounded (d : DiskInode) : Prop where
  size : d.size < 2 ^ 32
  nlinks : d.nlinks < 2 ^ 16
  blocks : d.blocks < 2 ^ 32
  direct : ∀ k < sfsNdirect, d.direct k < 2 ^ 32
  indirect : d.indirect < 2 ^ 32

/-- A volume whose inodes can be loaded and forgotten. -/
structure Sfs.Mounted (s : Sfs) (I : Finset Nat) (fix : Set Nat) : Prop extends s.Clean I fix where
  dense : ∀ i ∈ I, s.Dense i
  sizes : ∀ i ∈ I, (s.din i).size < 2 ^ 32
  links : ∀ i ∈ I, (s.din i).nlinks ≠ 0 ∧ (s.din i).nlinks < 2 ^ 16
  kinds : ∀ i ∈ I, (s.din i).type = .file ∨ (s.din i).type = .dir
  number : ∀ i ∈ I, i ≠ 0 ∧ i < s.blocks
  entries : ∀ i ∈ I, (s.din i).type = .dir → ∀ k < (s.din i).blocks,
    (SfsEntry.ofBytes (s.disk (s.fileBlock i k))).ino ≠ 0 → (SfsEntry.ofBytes (s.disk (s.fileBlock i k))).ino ∈ I
  root : sfsBlknRoot ∈ I ∧ (s.din sfsBlknRoot).type = .dir

/-- The entries of the used slots of a directory, among the `n` slots from `k` on. -/
def Sfs.usedFrom (s : Sfs) (i k n : Nat) : List SfsEntry :=
  ((List.range' k n).map fun j => SfsEntry.ofBytes (s.disk (s.fileBlock i j))).filter (·.ino ≠ 0)

/-- The entries of the used slots of a directory, in the order of the slots. -/
def Sfs.used (s : Sfs) (i : Nat) : List SfsEntry := s.usedFrom i 0 (s.din i).blocks

/-- What `sfs_getdirentry` returns and the name it finds: the offset counts used slots. -/
def Sfs.direntry (s : Sfs) (i : Nat) (offset : Int) (memory : Bool) : Int × List UInt8 :=
  if memory = false then (-eNoMem, [])
  else if offset < 0 ∨ offset % sfsDentrySize ≠ 0 then (-eInval, [])
  else (s.used i)[offset.toNat / sfsDentrySize]?.elim (-eNoent, []) fun e => (0, e.name)

namespace SfsAux

open Sfs

variable {s s' : Sfs} {I : Finset Nat} {fix : Set Nat} {i j k o n empty : Nat} {d d' : DiskInode} {f : Nat → UInt8}
  {name : List UInt8}

/-! ## The bytes of an inode -/

theorem ofCode_code (t : SfsType) : SfsType.ofCode t.code = t := by
  cases t <;> rfl

theorem code_lt (t : SfsType) : t.code < 2 ^ 16 := by
  cases t <;> decide

/-- An inode that is read back from the bytes of its block. -/
theorem ofBytes_agree (hb : d.Bounded) (hf : ∀ o < sizeofDiskInode, f o = d.bytes o) : (DiskInode.ofBytes f).Agree d where
  size := by
    refine word_byteOf hb.size fun k hk => ?_
    rw [hf _ (by unfold sizeofDiskInode; omega), Nat.zero_add]
    exact if_pos hk
  type := by
    have hc : half f 4 = d.type.code := by
      refine half_byteOf (code_lt _) fun k hk => ?_
      rw [hf _ (by unfold sizeofDiskInode; omega)]
      unfold DiskInode.bytes
      rw [if_neg (by omega), if_pos (by omega), Nat.add_sub_cancel_left]
    change SfsType.ofCode (half f 4) = d.type
    rw [hc, ofCode_code]
  nlinks := by
    refine half_byteOf hb.nlinks fun k hk => ?_
    rw [hf _ (by unfold sizeofDiskInode; omega)]
    unfold DiskInode.bytes
    rw [if_neg (by omega), if_neg (by omega), if_pos (by omega), Nat.add_sub_cancel_left]
  blocks := by
    refine word_byteOf hb.blocks fun k hk => ?_
    rw [hf _ (by unfold sizeofDiskInode; omega)]
    unfold DiskInode.bytes
    rw [if_neg (by omega), if_neg (by omega), if_neg (by omega), if_pos (by omega), Nat.add_sub_cancel_left]
  direct k hk := by
    have hk' : k < 12 := hk
    change (if k < sfsNdirect then word f (12 + k * 4) else 0) = d.direct k
    rw [if_pos hk]
    refine word_byteOf (hb.direct k hk) fun j hj => ?_
    rw [hf _ (by unfold sizeofDiskInode; omega)]
    unfold DiskInode.bytes
    rw [if_neg (by omega), if_neg (by omega), if_neg (by omega), if_neg (by omega), if_pos (by omega),
      show (12 + k * 4 + j - 12) / 4 = k by omega, show (12 + k * 4 + j) % 4 = j by omega]
  indirect := by
    refine word_byteOf hb.indirect fun k hk => ?_
    rw [hf _ (by unfold sizeofDiskInode; omega)]
    unfold DiskInode.bytes
    rw [if_neg (by omega), if_neg (by omega), if_neg (by omega), if_neg (by omega), if_neg (by omega), Nat.add_sub_cancel_left]

theorem Agree.bytes (h : d.Agree d') (o : Nat) : d.bytes o = d'.bytes o := by
  unfold DiskInode.bytes
  rw [h.size, h.type, h.nlinks, h.blocks, h.indirect]
  by_cases h60 : o < 60
  · rw [h.direct ((o - 12) / 4) (by unfold sfsNdirect; omega)]
  · rw [if_neg h60, if_neg h60]

/-! ## Inodes that come and go -/

section

variable (h : s.Mounted I fix)
include h

theorem Mounted.bounded (hi : i ∈ I) : (s.din i).Bounded where
  size := h.sizes i hi
  nlinks := (h.links i hi).2
  blocks := by
    have := blocks_le (h.dense i hi)
    unfold sfsNdirect sfsBlkNentry at this
    omega
  direct k hk := by
    rw [← fileBlock_direct hk]
    by_cases h0 : s.fileBlock i k = 0
    · rw [h0]
      decide
    · exact Nat.lt_trans (data_facts h.owned hi h0).1 h.owned.small
  indirect := by
    by_cases h0 : (s.din i).indirect = 0
    · rw [h0]
      decide
    · exact Nat.lt_trans (table_facts h.owned hi h0).1 h.owned.small

/-- A volume stays mounted when only fixed blocks change, and the inodes in their marks, as long as the clean ones are what their blocks
hold. -/
theorem Mounted.of_fixedOnly (hf : FixedOnly s s' I fix) (hs : ∀ i ∈ I, s'.Synced i) : s'.Mounted I fix where
  owned := hf.owned h.owned
  blocks := h.blocks
  covered i hi ht := hf.covered h.owned hi (h.covered i hi ((hf.din i hi).type.symm.trans ht))
  synced := hs
  dense i hi := hf.dense h.owned hi (h.dense i hi)
  sizes i hi := by
    rw [(hf.din i hi).size]
    exact h.sizes i hi
  links i hi := by
    rw [(hf.din i hi).nlinks]
    exact h.links i hi
  kinds i hi := by
    rw [(hf.din i hi).type]
    exact h.kinds i hi
  number i hi := by
    rw [hf.blocks]
    exact h.number i hi
  entries i hi ht k hk := by
    rw [(hf.din i hi).blocks] at hk
    have hb : s.fileBlock i k ≠ 0 := (h.dense i hi k).mpr hk
    rw [hf.fileBlock h.owned hi, hf.disk _ (data_facts h.owned hi hb).2.2]
    exact h.entries i hi ((hf.din i hi).type.symm.trans ht) k hk
  root := by
    rw [(hf.din _ h.root.1).type]
    exact h.root

theorem mounted_flushed (hi : i ∈ I) : (s.flushed i).Mounted I fix ∧ FixedOnly s (s.flushed i) I fix := by
  have hf : FixedOnly s (s.flushed i) I fix := FixedOnly.flushed (h.blocks i hi)
  refine ⟨Mounted.of_fixedOnly h hf ?_, hf⟩
  intro j hj
  by_cases he : j = i
  · rw [he]
    exact synced_flushed
  · intro hd o hlt
    rw [inodes_flushed he] at hd
    rw [disk_flushed he, din_flushed]
    exact h.synced j hj hd o hlt

/-- A clean inode is forgotten. -/
theorem mounted_forget (hi : i ∈ I) (hc : (s.inodes i).dirty = false) :
    (s.forget i).Mounted I fix ∧ FixedOnly s (s.forget i) I fix := by
  have hs : (s.forget i).din i = .ofBytes (s.disk i) := by
    unfold forget din
    dsimp only
    rw [update_self]
  have ho : ∀ j, j ≠ i → (s.forget i).inodes j = s.inodes j := fun j hj => update_of_ne hj _ _
  have ha : ((s.forget i).din i).Agree (s.din i) := by
    rw [hs]
    exact ofBytes_agree (Mounted.bounded h hi) (h.synced i hi hc)
  have hf : FixedOnly s (s.forget i) I fix := by
    refine ⟨?_, fun _ _ => rfl, rfl, rfl, rfl⟩
    intro j _
    by_cases he : j = i
    · rw [he]
      exact ha
    · exact .of_eq (din_of_inodes (ho j he))
  refine ⟨Mounted.of_fixedOnly h hf ?_, hf⟩
  intro j hj
  by_cases he : j = i
  · intro _ o hlt
    rw [he, Agree.bytes ha]
    exact h.synced i hi hc o hlt
  · intro hd o hlt
    rw [ho j he] at hd
    rw [din_of_inodes (ho j he)]
    exact h.synced j hj hd o hlt

theorem mounted_fsync (hi : i ∈ I) (hr : sfsFsync i s = .ok s') :
    s'.Mounted I fix ∧ FixedOnly s s' I fix ∧ (s'.inodes i).dirty = false := by
  rcases sfsFsync_cases hr with ⟨hc, rfl⟩ | ⟨-, rfl⟩
  · exact ⟨h, FixedOnly.refl, hc⟩
  · obtain ⟨hm, hf⟩ := mounted_flushed h hi
    refine ⟨hm, hf, ?_⟩
    unfold flushed setClean
    dsimp only
    rw [update_self]

/-- The block of an inode is in use. -/
theorem assertInuse_inode (hi : i ∈ I) : assertInuse i s = .ok () := by
  obtain ⟨h0, hlt⟩ := h.number i hi
  refine assertInuse_of h.owned h0 hlt fun hf => ?_
  exact (free_facts h.owned hf).2.2 (h.blocks i hi)

end

/-! ## Files that are written -/

/-- The bytes of a block of a file. -/
theorem image_block (hb : s.fileBlock i k ≠ 0) (ho : o < sfsBlksize) :
    s.image i (k * sfsBlksize + o) = s.disk (s.fileBlock i k) o := by
  have hd : (k * sfsBlksize + o) / sfsBlksize = k := by
    unfold sfsBlksize at ho ⊢
    omega
  have hm : (k * sfsBlksize + o) % sfsBlksize = o := by
    unfold sfsBlksize at ho ⊢
    omega
  unfold image
  rw [hd, hm, if_neg hb]

/-- An entry depends on the beginning of its block only. -/
theorem ofBytes_congr {g : Nat → UInt8} (h : ∀ o < sfsBlksize, f o = g o) : SfsEntry.ofBytes f = SfsEntry.ofBytes g := by
  have hw : word f 0 = word g 0 := word_congr fun k hk => h _ (by unfold sfsBlksize; omega)
  have hn : slice f 4 sfsMaxFnameLen = slice g 4 sfsMaxFnameLen := by
    refine slice_congr fun k hk => h _ ?_
    unfold sfsMaxFnameLen at hk
    unfold sfsBlksize
    omega
  unfold SfsEntry.ofBytes cString
  rw [hw, hn]

/-- A regular file changes, and stays covered by its blocks and marked where it has changed. -/
theorem Written.mounted (hw : Written s s' I fix i) (h : s.Mounted I fix) (hi : i ∈ I) (hr : (s.din i).type = .file) :
    s'.Mounted I fix := by
  have hd : ∀ j, j ≠ i → s'.din j = s.din j := fun j hj => din_of_inodes (hw.inodes j hj)
  have hdense : ∀ j ∈ I, s'.Dense j := by
    intro j hj
    by_cases he : j = i
    · rw [he]
      exact hw.covered.dense
    · intro k
      rw [hw.maps j hj he k, hd j he]
      exact h.dense j hj k
  refine { hw.clean h.toClean hi with dense := hdense, sizes := ?_, links := ?_, kinds := ?_, number := ?_, entries := ?_, root := ?_ }
  · intro j hj
    by_cases he : j = i
    · rw [he]
      have hs := hw.covered.size
      have hle := blocks_le (hdense i hi)
      unfold sfsBlksize at hs
      unfold sfsNdirect sfsBlkNentry at hle
      omega
    · rw [hd j he]
      exact h.sizes j hj
  · intro j hj
    by_cases he : j = i
    · rw [he, hw.nlinks]
      exact h.links i hi
    · rw [hd j he]
      exact h.links j hj
  · intro j hj
    by_cases he : j = i
    · rw [he, hw.type]
      exact h.kinds i hi
    · rw [hd j he]
      exact h.kinds j hj
  · intro j hj
    rw [hw.volume]
    exact h.number j hj
  · intro j hj ht k hk
    have he : j ≠ i := by
      rintro rfl
      rw [hw.type, hr] at ht
      nomatch ht
    rw [hd j he] at ht hk
    have hb : s.fileBlock j k ≠ 0 := (h.dense j hj k).mpr hk
    have hb' : s'.fileBlock j k ≠ 0 := by rwa [hw.maps j hj he k]
    have hen : SfsEntry.ofBytes (s'.disk (s'.fileBlock j k)) = SfsEntry.ofBytes (s.disk (s.fileBlock j k)) := by
      refine ofBytes_congr fun o ho => ?_
      rw [← image_block hb' ho, hw.images j hj he, image_block hb ho]
    rw [hen]
    exact h.entries j hj ht k hk
  · refine ⟨h.root.1, ?_⟩
    have he : sfsBlknRoot ≠ i := by
      rintro rfl
      exact absurd (h.root.2.symm.trans hr) (by decide)
    rw [hd _ he]
    exact h.root.2

/-! ## Directories -/

/-- A block of a directory is read. -/
theorem sfsDirentRead_spec (h : s.Owned I fix) (hi : i ∈ I) (hd : s.Dense i) (ht : (s.din i).type = .dir)
    (hk : k < (s.din i).blocks) : sfsDirentRead i k s = .ok (0, .ofBytes (s.disk (s.fileBlock i k)), s) := by
  have hb : s.fileBlock i k ≠ 0 := (hd k).mpr hk
  obtain ⟨hlt, hf, -⟩ := data_facts h hi hb
  unfold sfsDirentRead sfsRbuf bufInside
  rw [ensure_of ⟨ht, hk⟩, bind_ok, load_there h hi hd hk, bind_ok]
  dsimp only
  rw [if_neg (by decide), assertInuse_of h hb hlt hf, ensure_of (by decide), sfsRwblock_of hb hlt]
  simp only [Nat.zero_add, pure_eq_ok, bind_ok]

/-- The scan skips empty slots, and as many used ones as it is told to. -/
theorem sfsGetdirentrySub_spec (h : s.Mounted I fix) (hi : i ∈ I) (ht : (s.din i).type = .dir)
    (hn : k + n ≤ (s.din i).blocks) (slot : Nat) :
    sfsGetdirentrySub i n k slot s = .ok ((s.usedFrom i k n)[slot]?.elim (-eNoent, ⟨0, []⟩, s) fun e => (0, e, s)) := by
  induction n generalizing k slot with
  | zero => rfl
  | succ n ih =>
    rw [sfsGetdirentrySub, sfsDirentRead_spec h.owned hi (h.dense i hi) ht (by omega), bind_ok, usedFrom, List.range'_succ]
    dsimp only
    rw [List.map_cons]
    by_cases h0 : (SfsEntry.ofBytes (s.disk (s.fileBlock i k))).ino = 0
    · rw [if_pos h0, ih (by omega), List.filter_cons_of_neg (by simp [h0])]
      rfl
    · rw [if_neg h0, List.filter_cons_of_pos (by simp [h0])]
      cases slot with
      | zero => rfl
      | succ slot =>
        rw [ih (by omega)]
        rfl

theorem used_length_le (s : Sfs) (i : Nat) : (s.used i).length ≤ (s.din i).blocks := by
  refine (List.length_filter_le _ _).trans ?_
  rw [List.length_map, List.length_range']

theorem sfsGetdirentry_spec (h : s.Mounted I fix) (hi : i ∈ I) (ht : (s.din i).type = .dir) (offset : Int) (memory : Bool) :
    sfsGetdirentry i offset memory s = .ok ((s.direntry i offset memory).1, (s.direntry i offset memory).2, s) := by
  unfold sfsGetdirentry direntry
  split
  · rfl
  split
  · rfl
  dsimp only
  split
  · have hl := used_length_le s i
    rw [List.getElem?_eq_none (by omega)]
    rfl
  · rw [sfsGetdirentrySub_spec h hi ht (Nat.zero_add _).le]
    unfold used
    cases (s.usedFrom i 0 (s.din i).blocks)[offset.toNat / sfsDentrySize]? <;> rfl

/-- A search through slots of a directory leaves the volume as it is, and finds an inode of it or none. -/
theorem searchSlots_spec (h : s.Mounted I fix) (hi : i ∈ I) (ht : (s.din i).type = .dir) (hn : k + n ≤ (s.din i).blocks) :
    ∃ ret found, searchSlots i name n k empty s = .ok (ret, found, s) ∧
      ((ret = 0 ∧ ∃ ino ∈ I, found.inoStore = some ino) ∨ ret = -eNoent) := by
  induction n generalizing k empty with
  | zero => exact ⟨_, _, rfl, Or.inr rfl⟩
  | succ n ih =>
    rw [searchSlots, sfsDirentRead_spec h.owned hi (h.dense i hi) ht (by omega), bind_ok]
    dsimp only
    by_cases h0 : (SfsEntry.ofBytes (s.disk (s.fileBlock i k))).ino = 0
    · rw [if_pos h0]
      exact ih (by omega)
    · rw [if_neg h0]
      by_cases hna : strcmp name (SfsEntry.ofBytes (s.disk (s.fileBlock i k))).name = 0
      · rw [if_pos hna]
        exact ⟨_, _, rfl, Or.inl ⟨rfl, _, h.entries i hi ht k (by omega) h0, rfl⟩⟩
      · rw [if_neg hna]
        exact ih (by omega)

/-- `sfs_dirent_search_nolock`, for a name that is not too long. -/
theorem sfsDirentSearch_spec (memory : Bool) (h : s.Mounted I fix) (hi : i ∈ I) (ht : (s.din i).type = .dir)
    (hl : name.length ≤ sfsMaxFnameLen) : ∃ ret found, sfsDirentSearch i name memory s = .ok (ret, found, s) ∧
      (ret = 0 → ∃ ino ∈ I, found.inoStore = some ino) := by
  unfold sfsDirentSearch
  rw [ensure_of hl]
  split
  · exact ⟨_, _, rfl, fun hc => absurd hc (by decide)⟩
  · have hs : ∃ ret found, searchSlots i name (s.din i).blocks 0 (s.din i).blocks s = .ok (ret, found, s) ∧ _ :=
      searchSlots_spec h hi ht (Nat.zero_add _).le
    obtain ⟨ret, found, hr, hf⟩ := hs
    refine ⟨ret, found, hr, ?_⟩
    rintro rfl
    rcases hf with ⟨-, hino⟩ | hc
    · exact hino
    · exact absurd hc (by decide)

end SfsAux

end Ucore
