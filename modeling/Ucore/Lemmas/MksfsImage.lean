import Mathlib.Data.Set.Card
import Ucore.Lemmas.MksfsDir
import Ucore.Lemmas.MksfsWalk

/-!
# Reading an image

An image on its own, as the bytes of its blocks: the fields of its inodes, the blocks of a file through all its tables, the inodes
that can be reached from the root, and the entries that name an inode. An image that was built and closed holds its record
(`imagePlace_eq`, `imageReach_iff`, `ncard_imageLinkers`).
-/

namespace Ucore

open Checked Ownership Bytes MksfsAux MksfsDirAux MksfsWalkAux

section Image

variable (image : Nat → Nat → UInt8)

def imageType (ino : Nat) : SfsType := .ofCode (half (image ino) 4)

def imageNlinks (ino : Nat) : Nat := half (image ino) 6

def imageBlockCount (ino : Nat) : Nat := word (image ino) 8

def imageIndirect (ino : Nat) : Nat := word (image ino) 60

def imageDbIndirect (ino : Nat) : Nat := word (image ino) 64

/-- A word of a table. -/
def imageWord (table index : Nat) : Nat := word (image table) (index * 4)

/-- The block of a file at an index: a direct one, one of the table, or one of a table of the double table. -/
def imageBlock (ino index : Nat) : Nat :=
  if index < sfsNdirect then word (image ino) (12 + index * 4)
  else if index < sfsL1Nblks then imageWord image (imageIndirect image ino) (index - sfsNdirect)
  else imageWord image (imageWord image (imageDbIndirect image ino) ((index - sfsL1Nblks) / sfsBlkNentry))
    ((index - sfsL1Nblks) % sfsBlkNentry)

/-- The block in a place of a file, 0 where there is none. -/
def imagePlace : MksfsSlot → Nat
  | .inode file => if file ≠ sfsBlknRoot then file else 0
  | .data file index => if index < imageBlockCount image file then imageBlock image file index else 0
  | .table file => imageIndirect image file
  | .dbTable file => imageDbIndirect image file
  | .dbEntry file index =>
    if imageDbIndirect image file ≠ 0 ∧ index < sfsBlkNentry then imageWord image (imageDbIndirect image file) index else 0

/-- The inode that an entry of a directory names. -/
def imageTarget (dir slot : Nat) : Nat := word (image (imageBlock image dir slot)) 0

/-- The inodes that can be reached from the root through entries of directories. -/
inductive ImageReach : Nat → Prop
  | root : ImageReach sfsBlknRoot
  | entry {dir slot : Nat} : ImageReach dir → imageType image dir = .dir → slot < imageBlockCount image dir →
      ImageReach (imageTarget image dir slot)

/-- The entries that name an inode, each by its directory and its slot. -/
def imageLinkers (ino : Nat) : Set (Nat × Nat) :=
  { p | ImageReach image p.1 ∧ imageType image p.1 = .dir ∧ p.2 < imageBlockCount image p.1 ∧ imageTarget image p.1 p.2 = ino }

end Image

namespace MksfsImageAux

open Mksfs

variable {s s' : Mksfs} {r : Record} {c d i j k : Nat} {σ : MksfsSlot}

section Read

variable (h : s.Tracked r ∅) (hl : s.Linked r) (hf : Flushed s s' r (closed s r)) {e : Nat × List UInt8}
include h hl hf

section

variable (hc : c ∈ r.inos)
include hc

theorem imageType_eq : imageType s'.image c = (s.ci c).inode.type :=
  (din_volume 0 h hl hf hc).1

theorem imageNlinks_eq : imageNlinks s'.image c = (s.ci c).inode.nlinks :=
  (din_volume 0 h hl hf hc).2.1

theorem imageBlockCount_eq : imageBlockCount s'.image c = (r.blocks c).length :=
  (din_volume 0 h hl hf hc).2.2.1

theorem imageIndirect_eq : imageIndirect s'.image c = s.named r (.table c) :=
  ((din_volume 0 h hl hf hc).2.2.2.2).trans (named_table hc).symm

theorem imageDbIndirect_eq : imageDbIndirect s'.image c = s.named r (.dbTable c) := by
  obtain ⟨pre, hp⟩ := hf.inside c (Or.inr (Or.inr (Or.inl hc)))
  rw [closing_inode hl hc] at hp
  have hS : sizeofInode = 68 := rfl
  refine word_byteOf (named_lt h _) ?_
  intro k hk
  rw [hp, written_of_lt (by omega) (show sizeofInode ≤ sfsBlksize by decide), named_dbTable hc]
  change (s.ci c).inode.bytes (64 + k) = _
  rw [MksfsInode.bytes, if_neg (by omega), if_neg (by omega), if_neg (by omega), if_neg (by omega), if_neg (by omega),
    if_neg (by omega), Nat.add_sub_cancel_left]

end

omit hl in
/-- A word of the double table. -/
theorem imageWord_dbEntry (hc : c ∈ r.inos) (h0 : s.named r (.dbTable c) ≠ 0) (hj : j < sfsBlkNentry) :
    imageWord s'.image (s.named r (.dbTable c)) j = s.named r (.dbEntry c j) := by
  have hdb := named_dbTable (s := s) hc
  have he : s.named r (.dbEntry c j) = s.cache (s.named r (.dbTable c)) j := by
    rw [hdb] at h0 ⊢
    exact named_dbEntry hc h0 hj
  have hlt := named_lt h (.dbEntry c j)
  rw [he] at hlt ⊢
  exact word_table h hf (σ := .dbTable c) trivial h0 hj hlt

/-- The blocks of a file are those that were appended. -/
theorem imageBlock_eq (hc : c ∈ r.inos) (hi : i < (r.blocks c).length) : imageBlock s'.image c i = (r.blocks c).getD i 0 := by
  have hp := h.packed c hc
  have h12 : sfsNdirect = 12 := rfl
  have hL : sfsL1Nblks = 1036 := rfl
  have hN : sfsBlkNentry = 1024 := rfl
  have hli := hp.limit
  have hM : sfsLnNblks = 32768 := rfl
  unfold imageBlock
  by_cases h1 : i < sfsNdirect
  · rw [if_pos h1, ← (din_volume 0 h hl hf hc).2.2.2.1 i h1]
    exact (if_pos h1).symm
  by_cases h2 : i < sfsL1Nblks
  · rw [if_neg h1, if_pos h2, imageIndirect_eq h hl hf hc]
    have hi0 : s.named r (.table c) ≠ 0 := by
      rw [named_table hc]
      intro h0
      have := hp.indirect.mp h0
      omega
    have hca : s.cache (s.named r (.table c)) (i - sfsNdirect) = (r.blocks c).getD i 0 := by
      have ht := hp.table (by rw [← named_table hc]; exact hi0) (i - sfsNdirect) (by omega)
      rw [named_table hc, ht]
      exact congrArg (fun m => (r.blocks c).getD m 0) (by omega)
    have hlt := getD_lt h hc i
    rw [← hca] at hlt ⊢
    exact word_table h hf (σ := .table c) trivial hi0 (by omega) hlt
  · obtain ⟨q, hq⟩ : ∃ q, q = (i - sfsL1Nblks) / sfsBlkNentry := ⟨_, rfl⟩
    obtain ⟨m, hm⟩ : ∃ m, m = (i - sfsL1Nblks) % sfsBlkNentry := ⟨_, rfl⟩
    have hq' : q < sfsBlkNentry := by
      rw [hN] at hq ⊢
      omega
    have hm' : m < sfsBlkNentry := by
      rw [hN] at hm ⊢
      omega
    have hi' : sfsL1Nblks + sfsBlkNentry * q + m = i := by
      rw [hN] at hq hm ⊢
      omega
    have hdb : s.named r (.dbTable c) ≠ 0 := by
      rw [named_dbTable hc]
      intro h0
      have := hp.dbIndirect.mp h0
      omega
    rw [if_neg h1, if_neg h2, ← hq, ← hm, imageDbIndirect_eq h hl hf hc, imageWord_dbEntry h hf hc hdb hq']
    have hdb' : (s.ci c).inode.dbIndirect ≠ 0 := by rwa [← named_dbTable hc]
    have he : s.named r (.dbEntry c q) = s.cache (s.ci c).inode.dbIndirect q := named_dbEntry hc hdb' hq'
    have he0 : s.named r (.dbEntry c q) ≠ 0 := by
      rw [he]
      intro h0
      have := (hp.dtable hdb' q hq').mp h0
      omega
    have hca : s.cache (s.named r (.dbEntry c q)) m = (r.blocks c).getD i 0 := by
      rw [he] at he0 ⊢
      rw [hp.ltable hdb' q hq' he0 m hm', hi']
    have hlt := getD_lt h hc i
    rw [← hca] at hlt ⊢
    exact word_table h hf (σ := .dbEntry c q) trivial he0 hm' hlt

/-- The places of the image are those of the record. -/
theorem imagePlace_eq (hc : σ.file ∈ r.inos) : imagePlace s'.image σ = s.named r σ := by
  cases σ with
  | inode f =>
    have hc' : f ∈ r.inos := hc
    exact if_congr (by simp [hc']) rfl rfl
  | data f k =>
    have hc' : f ∈ r.inos := hc
    rw [imagePlace, named, imageBlockCount_eq h hl hf hc', if_pos hc']
    by_cases hk : k < (r.blocks f).length
    · rw [if_pos hk, imageBlock_eq h hl hf hc' hk]
    · rw [if_neg hk, getD_of_le (not_lt.mp hk)]
  | table f => exact imageIndirect_eq h hl hf hc
  | dbTable f => exact imageDbIndirect_eq h hl hf hc
  | dbEntry f k =>
    have hc' : f ∈ r.inos := hc
    rw [imagePlace, imageDbIndirect_eq h hl hf hc']
    by_cases hdb : s.named r (.dbTable f) ≠ 0 ∧ k < sfsBlkNentry
    · rw [if_pos hdb]
      exact imageWord_dbEntry h hf hc' hdb.1 hdb.2
    · rw [if_neg hdb, named, if_neg]
      rintro ⟨-, h1, h2⟩
      rw [named_dbTable hc'] at hdb
      exact hdb ⟨h1, h2⟩

/-! ## Entries -/

theorem imageTarget_eq (hc : c ∈ r.inos) (he : (r.entries c)[k]? = some e) : imageTarget s'.image c k = e.1 := by
  obtain ⟨hk, -⟩ := entry_ne_next h hl he
  obtain ⟨old, pre, him⟩ := hl.image c k e he
  have hS : sizeofName = 256 := rfl
  have hlt : e.1 < 2 ^ 32 := by
    have hlt := inode_lt h.sound hl (hl.targets c e (List.mem_of_getElem? he)).1
    have hh := h.sound.high
    have hm := h.sound.max
    have hM : sfsMaxNblks = 524288 := rfl
    omega
  unfold imageTarget
  rw [imageBlock_eq h hl hf hc hk, image_data h hl hf hc hk, him]
  refine word_byteOf hlt ?_
  intro j hj
  rw [Nat.zero_add, written_of_lt (by omega) (show sizeofName ≤ sfsBlksize by decide), fillEntry_ino hj]

omit hf in
omit h in
/-- Only directories have entries. -/
theorem dir_of_entry (he : e ∈ r.entries c) : c ∈ r.inos ∧ (s.ci c).inode.type = .dir := by
  have hc : c ∈ r.inos := by
    by_contra hn
    rw [(hl.outside c hn).2] at he
    nomatch he
  refine ⟨hc, ?_⟩
  by_contra hn
  rw [hl.others c hc hn] at he
  nomatch he

/-- The inodes that can be reached in the image are those of the record. -/
theorem imageReach_iff (hre : ∀ c ∈ r.inos, r.Reach sfsBlknRoot c) : ImageReach s'.image c ↔ c ∈ r.inos := by
  constructor
  · intro hr
    induction hr with
    | root => exact h.sound.root
    | @entry dir slot _ ht hs ih =>
      rw [imageType_eq h hl hf ih] at ht
      rw [imageBlockCount_eq h hl hf ih, ← hl.dirs dir ih ht] at hs
      have he := List.getElem?_eq_getElem hs
      rw [imageTarget_eq h hl hf ih he]
      exact (hl.targets dir _ (List.mem_of_getElem? he)).1
  · intro hc
    have hr := hre c hc
    clear hc
    induction hr with
    | refl => exact .root
    | @tail d e _ hn ih =>
      obtain ⟨name, hm⟩ := hn
      obtain ⟨hd, ht⟩ := dir_of_entry hl hm
      obtain ⟨k, he⟩ := List.mem_iff_getElem?.mp hm
      obtain ⟨hk, -⟩ := List.getElem?_eq_some_iff.mp he
      have hta : imageTarget s'.image d k = e := imageTarget_eq h hl hf hd he
      rw [← hta]
      refine .entry ih ?_ ?_
      · rw [imageType_eq h hl hf hd, ht]
      · rw [imageBlockCount_eq h hl hf hd, ← hl.dirs d hd ht]
        exact hk

omit h hl hf in
/-- The entries of a list that name an inode, counted by their slots. -/
theorem countP_eq_card (l : List (Nat × List UInt8)) (c : Nat) :
    l.countP (·.1 = c) = ((Finset.range l.length).filter fun k => (l[k]?.map Prod.fst) = some c).card := by
  induction l using List.reverseRecOn with
  | nil => rfl
  | append_singleton l e ih =>
    have hs : (Finset.range l.length).filter (fun k => ((l ++ [e])[k]?.map Prod.fst) = some c) =
        (Finset.range l.length).filter fun k => (l[k]?.map Prod.fst) = some c := by
      refine Finset.filter_congr ?_
      intro k hk
      rw [List.getElem?_append_left (Finset.mem_range.mp hk)]
    rw [List.countP_append, List.countP_singleton, List.length_append, List.length_singleton, Finset.range_add_one,
      Finset.filter_insert, hs, List.getElem?_concat_length, Option.map_some, ih]
    by_cases he : e.1 = c
    · rw [if_pos (decide_eq_true he), if_pos (congrArg some he), Finset.card_insert_of_notMem (by simp)]
    · rw [if_neg (by simpa using he), if_neg (by simpa using he)]
      rfl

/-- The entries that name an inode are counted by the record. -/
theorem ncard_imageLinkers (hre : ∀ c ∈ r.inos, r.Reach sfsBlknRoot c) : (imageLinkers s'.image c).ncard = r.links c := by
  classical
  obtain ⟨F, hF⟩ : ∃ F : Nat → Finset Nat, F = fun d => (Finset.range (r.entries d).length).filter
    fun k => ((r.entries d)[k]?.map Prod.fst) = some c := ⟨_, rfl⟩
  have hs : imageLinkers s'.image c = ((r.inos.biUnion fun d => (F d).image (d, ·) : Finset (Nat × Nat)) : Set (Nat × Nat)) := by
    ext ⟨d, k⟩
    rw [Finset.mem_coe, Finset.mem_biUnion]
    constructor
    · rintro ⟨hr, ht, hk, hta⟩
      have hd := (imageReach_iff h hl hf hre).mp hr
      rw [imageType_eq h hl hf hd] at ht
      rw [imageBlockCount_eq h hl hf hd, ← hl.dirs d hd ht] at hk
      have he := List.getElem?_eq_getElem hk
      refine ⟨d, hd, Finset.mem_image.mpr ⟨k, ?_, rfl⟩⟩
      rw [hF, Finset.mem_filter, Finset.mem_range, he, Option.map_some]
      exact ⟨hk, congrArg some ((imageTarget_eq h hl hf hd he).symm.trans hta)⟩
    · rintro ⟨d', hd, hm⟩
      obtain ⟨k', hk', heq⟩ := Finset.mem_image.mp hm
      obtain ⟨rfl, rfl⟩ := Prod.mk.inj heq
      rw [hF, Finset.mem_filter, Finset.mem_range] at hk'
      obtain ⟨hk, hn⟩ := hk'
      have he := List.getElem?_eq_getElem hk
      rw [he, Option.map_some] at hn
      obtain ⟨-, ht⟩ := dir_of_entry hl (List.mem_of_getElem? he)
      refine ⟨(imageReach_iff h hl hf hre).mpr hd, ?_, ?_, ?_⟩
      · rw [imageType_eq h hl hf hd, ht]
      · rw [imageBlockCount_eq h hl hf hd, ← hl.dirs d' hd ht]
        exact hk
      · exact (imageTarget_eq h hl hf hd he).trans (Option.some.inj hn)
  have hdi : Set.PairwiseDisjoint (r.inos : Set Nat) fun d => (F d).image (d, ·) := by
    intro d _ e _ hne
    refine Finset.disjoint_left.mpr ?_
    intro p hp hp'
    obtain ⟨k, -, rfl⟩ := Finset.mem_image.mp hp
    obtain ⟨k', -, heq⟩ := Finset.mem_image.mp hp'
    exact hne (Prod.mk.inj heq).1.symm
  rw [hs, Set.ncard_coe_finset, Finset.card_biUnion hdi]
  refine Finset.sum_congr rfl ?_
  intro d _
  rw [Finset.card_image_of_injective _ (Prod.mk_right_injective d), countP_eq_card, hF]

end Read

end MksfsImageAux

end Ucore
