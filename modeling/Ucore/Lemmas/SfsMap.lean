import Ucore.Lemmas.Sfs

/-!
# Mapping blocks into files

What `sfs_bmap_get_nolock`, `sfs_bmap_load_nolock` and `sfs_bmap_truncate_nolock` do to the maps of the files. A block that is there
is read (`sfsBmapGet_read`). A new one takes one free block, or two where the file has no table yet (`need`); with fewer the maps
stay as they were, also where the table was already allocated (`sfsBmapGet_create`).
-/

namespace Ucore

open Checked Bytes Ownership Function

namespace SfsAux

open Sfs

variable {s s' : Sfs} {I : Finset Nat} {fix : Set Nat} {b c i j k sin index ent v : Nat} {create : Bool} {f : Bitmap}
  {d : DiskInode}

/-- The free blocks that a new block of a file takes. -/
def need (s : Sfs) (sin index : Nat) : Nat := if sfsNdirect ≤ index ∧ (s.din sin).indirect = 0 then 2 else 1

/-- Nothing was mapped: at most the bytes of free blocks have changed. -/
structure Refused (s s' : Sfs) (I : Finset Nat) (fix : Set Nat) : Prop where
  owned : s'.Owned I fix
  free : s'.free = s.free
  blocks : s'.blocks = s.blocks
  inodes : s'.inodes = s.inodes
  disk : ∀ c, c ∉ s.free → s'.disk c = s.disk c

/-- The file `sin` has got the new block `b` of zeros at `index`; its inode has changed in the maps only. -/
structure Extended (s s' : Sfs) (I : Finset Nat) (fix : Set Nat) (sin index b : Nat) : Prop where
  owned : s'.Owned I fix
  new : b ∈ s.free
  card : s'.free.card + need s sin index = s.free.card
  sub : s'.free ⊆ s.free
  blocks : s'.blocks = s.blocks
  fileBlock : ∀ i ∈ I, ∀ k, s'.fileBlock i k = if i = sin ∧ k = index then b else s.fileBlock i k
  disk : ∀ c, c ∉ s.free → (c = (s.din sin).indirect → c = 0) → s'.disk c = s.disk c
  zero : ∀ j < sfsBlksize, s'.disk b j = 0
  others : ∀ i, i ≠ sin → s'.inodes i = s.inodes i
  size : (s'.din sin).size = (s.din sin).size
  type : (s'.din sin).type = (s.din sin).type
  count : (s'.din sin).blocks = (s.din sin).blocks
  table : (s.din sin).indirect ≠ 0 ∨ index < sfsNdirect → (s'.din sin).indirect = (s.din sin).indirect
  tabled : sfsNdirect ≤ index → (s'.din sin).indirect ≠ 0
  nlinks : (s'.din sin).nlinks = (s.din sin).nlinks
  marked : (s'.inodes sin).dirty = true ∨ s'.inodes sin = s.inodes sin

theorem Took.din (h : Took s s' b) (i : Nat) : s'.din i = s.din i := by
  unfold Sfs.din
  rw [h.inodes]

theorem Took.card (h : Took s s' b) : s'.free.card + 1 = s.free.card := by
  rw [h.free, Finset.card_erase_of_mem h.mem]
  exact Nat.sub_add_cancel (Finset.card_pos.mpr ⟨b, h.mem⟩)

theorem Took.sub (h : Took s s' b) : s'.free ⊆ s.free := by
  rw [h.free]
  exact Finset.erase_subset _ _

/-- Blocks in use keep their bytes. -/
theorem Took.kept (h : Took s s' b) (hc : c ∉ s.free) : s'.disk c = s.disk c := by
  refine h.disk c ?_
  rintro rfl
  exact hc h.mem

/-- The blocks of a file are in use. -/
theorem assertInuse_data (h : s.Owned I fix) (hsin : sin ∈ I) (hb : s.fileBlock sin k ≠ 0) :
    assertInuse (s.fileBlock sin k) s = .ok () := by
  obtain ⟨hlt, hf, -⟩ := data_facts h hsin hb
  exact assertInuse_of h hb hlt hf

theorem Extended.inuse (h : Extended s s' I fix sin index b) (hsin : sin ∈ I) (hb : b ≠ 0) : assertInuse b s' = .ok () := by
  have hbl : s'.fileBlock sin index = b := by
    rw [h.fileBlock sin hsin index, if_pos ⟨rfl, rfl⟩]
  rw [← hbl] at hb ⊢
  exact assertInuse_data h.owned hsin hb

theorem Refused.refl (h : s.Owned I fix) : Refused s s I fix := ⟨h, rfl, rfl, rfl, fun _ _ => rfl⟩

/-! ## Reading an entry -/

theorem sfsRbuf_entry (hb : ent ≠ 0) (hlt : ent < s.blocks) (hidx : index < sfsBlkNentry) :
    ∃ f, sfsRbuf 4 ent (index * 4) s = .ok f ∧ word f 0 = s.entry ent index := by
  refine ⟨fun i => s.disk ent (index * 4 + i), ?_, rfl⟩
  unfold sfsRbuf bufInside
  rw [ensure_of (by unfold sfsBlkNentry at hidx; unfold sfsBlksize; omega), sfsRwblock_of hb hlt]
  rfl

theorem sfsWbuf_entry (hb : ent ≠ 0) (hlt : ent < s.blocks) (hidx : index < sfsBlkNentry) :
    sfsWbuf (byteOf v) 4 ent (index * 4) s = .ok (writeEntry s ent index v) := by
  unfold sfsWbuf bufInside
  rw [ensure_of (by unfold sfsBlkNentry at hidx; unfold sfsBlksize; omega), sfsRwblock_of hb hlt]
  rfl

section

variable (h : s.Owned I fix) (hsin : sin ∈ I)
include h hsin

/-- An entry that is there, or that may not be created, is read. -/
theorem sfsBmapGetSub_read (hidx : index < sfsBlkNentry) (hc : s.fileBlock sin (sfsNdirect + index) ≠ 0 ∨ create = false) :
    sfsBmapGetSub (s.din sin).indirect index create s =
      .ok (0, s.fileBlock sin (sfsNdirect + index), (s.din sin).indirect, s) := by
  rw [fileBlock_indirect hidx] at hc ⊢
  unfold sfsBmapGetSub
  rw [ensure_of hidx, bind_ok]
  by_cases ht : (s.din sin).indirect = 0
  · rw [if_neg (not_not.mpr ht), if_pos ht]
    rw [if_pos ht] at hc
    rw [if_pos (hc.resolve_left (fun hne => hne rfl))]
    rfl
  · obtain ⟨f, hf, hw⟩ := sfsRbuf_entry ht (table_facts h hsin ht).1 hidx
    rw [if_neg ht] at hc
    rw [if_pos ht, hf, bind_ok, hw, if_pos hc, if_neg ht]
    rfl

/-- `sfs_bmap_get_nolock` reads a block that is there, or that it may not create. -/
theorem sfsBmapGet_read (hidx : index < sfsNdirect + sfsBlkNentry) (hc : s.fileBlock sin index ≠ 0 ∨ create = false) :
    sfsBmapGet sin index create s = .ok (0, s.fileBlock sin index, s) := by
  have hb : bmapGetBranch sin index create s = .ok (0, s.fileBlock sin index, s) := by
    unfold bmapGetBranch
    by_cases hd : index < sfsNdirect
    · rw [if_pos hd]
      rw [fileBlock_direct hd] at hc ⊢
      unfold bmapGetDirect
      rw [if_neg]
      rintro ⟨h0, hcr⟩
      rcases hc with hc | hc
      · exact hc h0
      · rw [hc] at hcr
        nomatch hcr
    · obtain ⟨n, rfl⟩ : ∃ n, index = sfsNdirect + n := ⟨index - sfsNdirect, by omega⟩
      have hn : n < sfsBlkNentry := by omega
      rw [if_neg hd, Nat.add_sub_cancel_left, if_pos hn]
      unfold bmapGetIndirect
      rw [sfsBmapGetSub_read h hsin hn hc, bind_ok]
      dsimp only
      rw [if_neg (by omega), if_neg (not_not.mpr rfl)]
      rfl
  unfold sfsBmapGet
  rw [hb, bind_ok]
  dsimp only
  by_cases h0 : s.fileBlock sin index = 0
  · rw [if_neg (not_not.mpr h0)]
    rfl
  · rw [if_pos h0, assertInuse_data h hsin h0]
    rfl

/-! ## Mapping a new block -/

/-- A direct block mapped. -/
theorem bmapGetDirect_create (hidx : index < sfsNdirect) (hn : s.fileBlock sin index = 0) :
    (s.free.card < need s sin index ∧ bmapGetDirect sin index true s = .ok (-eNoMem, 0, s)) ∨
      ∃ b s', bmapGetDirect sin index true s = .ok (0, b, s') ∧ Extended s s' I fix sin index b := by
  have hne : need s sin index = 1 := if_neg (by omega)
  rw [fileBlock_direct hidx] at hn
  unfold bmapGetDirect
  rw [if_pos ⟨hn, rfl⟩]
  rcases sfsBlockAlloc_spec h with ⟨he, hr⟩ | ⟨b, s1, hr, ht, ho, hfb⟩
  · refine Or.inl ⟨?_, ?_⟩
    · rw [he, Finset.card_empty]
      omega
    · rw [hr]
      rfl
  · obtain ⟨hb0, hb, hbf⟩ := free_facts h ht.mem
    have hd := ht.din
    have hna : ∀ σ : SfsSlot, σ.sin ∈ I →
        (setDirect s1 sin index b).named σ = if σ = .data sin index then b else s1.named σ := by
      intro σ hσ
      cases σ with
      | data i k =>
        show (setDirect s1 sin index b).fileBlock i k = _
        rw [fileBlock_setDirect hidx]
        exact if_congr (by simp) rfl rfl
      | table i =>
        exact (setDirect_fields s1 sin index b i).2.2.2
    have hsl : s1.named (.data sin index) = 0 := by
      show s1.fileBlock sin index = 0
      rw [fileBlock_direct hidx, hd]
      exact hn
    obtain ⟨hs, hty, hco, hta⟩ := setDirect_fields s1 sin index b sin
    rw [hd] at hs hty hco hta
    refine Or.inr ⟨b, setDirect s1 sin index b, ?_,
      owned_assign ho h.zero (ht.blocks.symm ▸ hb) hbf (show (SfsSlot.data sin index).sin ∈ I from hsin) hsl hna rfl rfl rfl, ht.mem, ?_,
      ht.sub, ht.blocks, ?_,
      fun c hc _ => ht.kept hc, ht.zero, ?_, hs, hty, hco, fun _ => hta, fun hge => absurd hidx (by omega), ?_,
      Or.inl dirty_setDirect⟩
    · rw [hr]
      rfl
    · rw [hne]
      exact ht.card
    · intro i hi k
      rw [fileBlock_setDirect hidx, hfb i hi k]
    · intro i hi
      show update (update s1.inodes sin _) sin _ i = _
      rw [update_of_ne hi, update_of_ne hi, ht.inodes]
    · rw [nlinks_setDirect, hd]

/-- The slots after an entry of the table of a file was written. -/
theorem named_writeEntry (ht : (s.din sin).indirect ≠ 0) (hidx : index < sfsBlkNentry)
    (hv : v < 2 ^ 32) {σ : SfsSlot} (hσ : σ.sin ∈ I) : (writeEntry s (s.din sin).indirect index v).named σ =
      if σ = .data sin (sfsNdirect + index) then v else s.named σ := by
  cases σ with
  | data i k =>
    have hi : i ∈ I := hσ
    refine (fileBlock_writeEntry h hsin hi ht hidx hv).trans ?_
    exact if_congr (by simp) rfl rfl
  | table i =>
    rfl

/-- An entry mapped in a table that is there. -/
theorem newEntry_table (ht : (s.din sin).indirect ≠ 0) (hidx : index < sfsBlkNentry)
    (hn : s.fileBlock sin (sfsNdirect + index) = 0) : (s.free.card < need s sin (sfsNdirect + index) ∧
        newEntry (s.din sin).indirect (s.din sin).indirect index s = .ok (-eNoMem, 0, (s.din sin).indirect, s)) ∨
      ∃ b s', newEntry (s.din sin).indirect (s.din sin).indirect index s = .ok (0, b, (s.din sin).indirect, s') ∧
        Extended s s' I fix sin (sfsNdirect + index) b := by
  have hne : need s sin (sfsNdirect + index) = 1 := if_neg (fun hc => ht hc.2)
  unfold newEntry
  rcases sfsBlockAlloc_spec h with ⟨hem, hr⟩ | ⟨b, s1, hr, hto, ho, hfb⟩
  · refine Or.inl ⟨?_, ?_⟩
    · rw [hem, Finset.card_empty]
      omega
    · rw [hr, bind_ok]
      dsimp only
      rw [if_neg (not_not.mpr rfl)]
      rfl
  · obtain ⟨hb0, hb, hbf⟩ := free_facts h hto.mem
    obtain ⟨htlt, htf, -⟩ := table_facts h hsin ht
    have hd := hto.din
    have hw : sfsWbuf (byteOf b) 4 (s.din sin).indirect (index * 4) s1 =
        .ok (writeEntry s1 (s1.din sin).indirect index b) := by
      rw [hd]
      exact sfsWbuf_entry ht (hto.blocks.symm ▸ htlt) hidx
    have ht1 : (s1.din sin).indirect ≠ 0 := by
      rw [hd]
      exact ht
    have hv : b < 2 ^ 32 := hb.trans h.small
    have hs : s1.named (.data sin (sfsNdirect + index)) = 0 := (hfb sin hsin _).trans hn
    refine Or.inr ⟨b, writeEntry s1 (s1.din sin).indirect index b, ?_,
      owned_assign ho h.zero (hto.blocks.symm ▸ hb) hbf (show (SfsSlot.data sin (sfsNdirect + index)).sin ∈ I from hsin) hs
        (fun σ hσ => named_writeEntry ho hsin ht1 hidx hv hσ) rfl rfl rfl,
      hto.mem, ?_, hto.sub, hto.blocks, ?_, ?_, ?_, ?_, ?_, ?_, ?_, ?_, ?_, congrArg DiskInode.nlinks (hd sin),
      Or.inr (congrFun hto.inodes sin)⟩
    · rw [hr, bind_ok]
      dsimp only
      rw [hw]
      rfl
    · rw [hne]
      exact hto.card
    · intro i hi k
      rw [fileBlock_writeEntry ho hsin hi ht1 hidx hv, hfb i hi k]
    · intro c hc hct
      show update s1.disk _ _ c = _
      rw [update_of_ne (fun he => ht (by rw [← hd, ← he, hct (by rw [he, hd])]))]
      exact hto.kept hc
    · intro j hj
      show update s1.disk _ _ b j = 0
      rw [update_of_ne, hto.zero j hj]
      rintro rfl
      rw [hd] at hto
      exact htf hto.mem
    · intro i _
      exact congrFun hto.inodes i
    · exact congrArg DiskInode.size (hd sin)
    · exact congrArg DiskInode.type (hd sin)
    · exact congrArg DiskInode.blocks (hd sin)
    · intro _
      exact congrArg DiskInode.indirect (hd sin)
    · intro _
      exact ht1

omit h hsin in
/-- A file without a table takes over one of zeros. -/
theorem owned_setIndirect (h : s.Owned I (insert ent fix)) (hz : 0 ∈ fix) (hlt : ent < s.blocks) (hf : ent ∉ fix)
    (hsin : sin ∈ I) (ht : (s.din sin).indirect = 0) (hze : ∀ j < sfsBlksize, s.disk ent j = 0) :
    (setIndirect s sin ent).Owned I fix := by
  refine owned_assign h hz hlt hf (show (SfsSlot.table sin).sin ∈ I from hsin) ht ?_ rfl rfl rfl
  intro σ hσ
  cases σ with
  | data i k =>
    rw [if_neg (by simp)]
    exact fileBlock_setIndirect ht hze
  | table i =>
    show ((setIndirect s sin ent).din i).indirect = _
    rw [setIndirect, din_setDirty, din_setDin]
    by_cases hi : i = sin
    · rw [if_pos hi, if_pos (by rw [hi])]
    · rw [if_neg hi, if_neg (by simpa using hi)]
      rfl

/-- An entry mapped in a new table, which is freed again where there is no block for the entry. -/
theorem newEntry_fresh {s1 : Sfs} (ht : (s.din sin).indirect = 0)
    (hidx : index < sfsBlkNentry) (hto : Took s s1 ent) (ho : s1.Owned I (insert ent fix))
    (hfb : ∀ i ∈ I, ∀ k, s1.fileBlock i k = s.fileBlock i k) :
    (∃ s', newEntry 0 ent index s1 = .ok (-eNoMem, 0, 0, s') ∧ s.free.card < 2 ∧ Refused s s' I fix) ∨
      ∃ b s2, newEntry 0 ent index s1 = .ok (0, b, ent, writeEntry s2 ent index b) ∧ b ≠ ent ∧
        Extended s (setIndirect (writeEntry s2 ent index b) sin ent) I fix sin (sfsNdirect + index) b ∧
        s2.din sin = s.din sin := by
  obtain ⟨he0, helt, hef⟩ := free_facts h hto.mem
  have helt1 : ent < s1.blocks := hto.blocks.symm ▸ helt
  have hca := hto.card
  unfold newEntry
  rcases sfsBlockAlloc_spec ho with ⟨he, hr⟩ | ⟨b, s2, hr, hto2, ho2, hfb2⟩
  · obtain ⟨f, hf, hff, hof⟩ := sfsBlockFree_spec ho h.zero helt1 hef
    refine Or.inl ⟨_, ?_, ?_, hof, ?_, hto.blocks, hto.inodes, fun c => hto.kept⟩
    · rw [hr, bind_ok]
      dsimp only
      rw [if_pos (by decide), if_pos he0, hf]
      rfl
    · rw [he, Finset.card_empty] at hca
      omega
    · show f.free = s.free
      rw [hff, hto.free, Finset.insert_erase hto.mem]
  · have hb1 : b ∈ s.free.erase ent := hto.free ▸ hto2.mem
    obtain ⟨hbe, hbs⟩ := Finset.mem_erase.mp hb1
    obtain ⟨hb0, hblt, hbf⟩ := free_facts h hbs
    have hv : b < 2 ^ 32 := hblt.trans h.small
    have hd : ∀ i, s2.din i = s.din i := fun i => (hto2.din i).trans (hto.din i)
    have hb : s2.blocks = s.blocks := hto2.blocks.trans hto.blocks
    have hz : ∀ j < sfsBlksize, s2.disk ent j = 0 := by
      intro j hj
      rw [hto2.disk ent hbe.symm]
      exact hto.zero j hj
    have ht2 : (s2.din sin).indirect = 0 := by
      rw [hd]
      exact ht
    -- the table goes to the file first, and then the block to the entry: the volume is the same
    have hot : (setIndirect s2 sin ent).Owned I (insert b fix) := by
      refine owned_setIndirect ?_ (Or.inr h.zero) (hb.symm ▸ helt) ?_ hsin ht2 hz
      · rw [Set.insert_comm]
        exact ho2
      · rintro (rfl | hm)
        · exact hbe rfl
        · exact hef hm
    have hind : ((setIndirect s2 sin ent).din sin).indirect = ent := by
      rw [setIndirect, din_setDirty, din_setDin_self]
    have hne : ((setIndirect s2 sin ent).din sin).indirect ≠ 0 := by
      rw [hind]
      exact he0
    have hsw : setIndirect (writeEntry s2 ent index b) sin ent =
        writeEntry (setIndirect s2 sin ent) ((setIndirect s2 sin ent).din sin).indirect index b := by
      rw [hind]
      rfl
    have hfbt : ∀ i ∈ I, ∀ k, (setIndirect s2 sin ent).fileBlock i k = s.fileBlock i k := by
      intro i hi k
      rw [fileBlock_setIndirect ht2 hz, hfb2 i hi k, hfb i hi k]
    have hs : (setIndirect (writeEntry s2 ent index b) sin ent).din sin = { s.din sin with indirect := ent } := by
      rw [setIndirect, din_setDirty, din_setDin_self]
      show { s2.din sin with indirect := ent } = _
      rw [hd]
    have hn : need s sin (sfsNdirect + index) = 2 := if_pos ⟨Nat.le_add_right _ _, ht⟩
    have hsl : (setIndirect s2 sin ent).named (.data sin (sfsNdirect + index)) = 0 := by
      refine (hfbt sin hsin _).trans ?_
      rw [fileBlock_indirect hidx, if_pos ht]
    refine Or.inr ⟨b, s2, ?_, hbe, ⟨?_, hbs, ?_, hto2.sub.trans hto.sub, hb, ?_, ?_, ?_, ?_, by rw [hs], by rw [hs], by rw [hs], ?_, ?_,
      by rw [hs], Or.inl dirty_setDirty⟩, hd sin⟩
    · rw [hr, bind_ok]
      dsimp only
      rw [if_neg (by decide), sfsWbuf_entry he0 (hb.symm ▸ helt) hidx]
      rfl
    · rw [hsw]
      exact owned_assign hot h.zero (hb.symm ▸ hblt) hbf (show (SfsSlot.data sin (sfsNdirect + index)).sin ∈ I from hsin)
        hsl (fun σ hσ => named_writeEntry hot hsin hne hidx hv hσ) rfl rfl rfl
    · show s2.free.card + _ = _
      have hcard2 := hto2.card
      omega
    · intro i hi k
      rw [hsw, fileBlock_writeEntry hot hsin hi hne hidx hv, hfbt i hi k]
    · intro c hc _
      have hce : c ≠ ent := by
        rintro rfl
        exact hc hto.mem
      have hcb : c ≠ b := by
        rintro rfl
        exact hc hbs
      show update s2.disk ent _ c = _
      rw [update_of_ne hce, hto2.disk c hcb, hto.disk c hce]
    · intro j hj
      show update s2.disk ent _ b j = 0
      rw [update_of_ne hbe, hto2.zero j hj]
    · intro i hi
      show update (update s2.inodes sin _) sin _ i = _
      rw [update_of_ne hi, update_of_ne hi, hto2.inodes, hto.inodes]
    · rintro (hc | hc)
      · exact absurd ht hc
      · omega
    · intro _
      rw [hs]
      exact he0

/-- An indirect block mapped. -/
theorem bmapGetIndirect_create (hidx : index < sfsBlkNentry) (hno : s.fileBlock sin (sfsNdirect + index) = 0) :
    (∃ s', bmapGetIndirect sin index true s = .ok (-eNoMem, 0, s') ∧ s.free.card < need s sin (sfsNdirect + index) ∧
        Refused s s' I fix) ∨
      ∃ b s', bmapGetIndirect sin index true s = .ok (0, b, s') ∧ Extended s s' I fix sin (sfsNdirect + index) b := by
  unfold bmapGetIndirect sfsBmapGetSub
  rw [ensure_of hidx, bind_ok]
  by_cases ht : (s.din sin).indirect = 0
  · have hne : need s sin (sfsNdirect + index) = 2 := if_pos ⟨Nat.le_add_right _ _, ht⟩
    rw [if_neg (not_not.mpr ht), if_neg (by decide), ht]
    rcases sfsBlockAlloc_spec h with ⟨hem, hr⟩ | ⟨ent, s1, hr, hto, ho, hfb⟩
    · refine Or.inl ⟨s, ?_, ?_, Refused.refl h⟩
      · rw [hr, bind_ok]
        rfl
      · rw [hem, hne, Finset.card_empty]
        omega
    · rw [hr, bind_ok]
      dsimp only
      rw [if_neg (by decide)]
      have he0 := (free_facts h hto.mem).1
      rcases newEntry_fresh h hsin ht hidx hto ho hfb with ⟨s', hn, hc, href⟩ | ⟨b, s2, hn, -, he, hd⟩
      · refine Or.inl ⟨s', ?_, by rw [hne]; exact hc, href⟩
        rw [hn, bind_ok]
        rfl
      · have hdin' : ((writeEntry s2 ent index b).din sin).indirect = 0 := by
          show (s2.din sin).indirect = 0
          rw [hd]
          exact ht
        refine Or.inr ⟨b, _, ?_, he⟩
        rw [hn, bind_ok]
        dsimp only
        rw [if_neg (by decide), if_pos (by rw [hdin']; exact he0), ensure_of hdin']
        rfl
  · obtain ⟨f, hf, hw⟩ := sfsRbuf_entry ht (table_facts h hsin ht).1 hidx
    have hz : s.entry (s.din sin).indirect index = 0 := by
      rwa [fileBlock_indirect hidx, if_neg ht] at hno
    rw [if_pos ht, hf, bind_ok, hw, if_neg (by rw [hz]; simp)]
    rcases newEntry_table h hsin ht hidx hno with ⟨hc, hn⟩ | ⟨b, s', hn, he⟩
    · refine Or.inl ⟨s, ?_, hc, Refused.refl h⟩
      rw [hn, bind_ok]
      rfl
    · refine Or.inr ⟨b, s', ?_, he⟩
      rw [hn, bind_ok]
      dsimp only
      rw [if_neg (by decide), if_neg (not_not.mpr (he.table (Or.inl ht)).symm)]
      rfl

/-- `sfs_bmap_get_nolock` maps a new block, or refuses for lack of free blocks. -/
theorem sfsBmapGet_create (hidx : index < sfsNdirect + sfsBlkNentry) (hno : s.fileBlock sin index = 0) :
    (∃ s', sfsBmapGet sin index true s = .ok (-eNoMem, 0, s') ∧ s.free.card < need s sin index ∧ Refused s s' I fix) ∨
      ∃ b s', sfsBmapGet sin index true s = .ok (0, b, s') ∧ Extended s s' I fix sin index b := by
  have hb : (∃ s', bmapGetBranch sin index true s = .ok (-eNoMem, 0, s') ∧ s.free.card < need s sin index ∧
        Refused s s' I fix) ∨
      ∃ b s', bmapGetBranch sin index true s = .ok (0, b, s') ∧ Extended s s' I fix sin index b := by
    unfold bmapGetBranch
    by_cases hd : index < sfsNdirect
    · rw [if_pos hd]
      rcases bmapGetDirect_create h hsin hd hno with ⟨hc, hr⟩ | hok
      · exact Or.inl ⟨s, hr, hc, Refused.refl h⟩
      · exact Or.inr hok
    · obtain ⟨n, rfl⟩ : ∃ n, index = sfsNdirect + n := ⟨index - sfsNdirect, by omega⟩
      have hn : n < sfsBlkNentry := by omega
      rw [if_neg hd, Nat.add_sub_cancel_left, if_pos hn]
      exact bmapGetIndirect_create h hsin hn hno
  unfold sfsBmapGet
  rcases hb with ⟨s', hr, hc, href⟩ | ⟨b, s', hr, he⟩
  · refine Or.inl ⟨s', ?_, hc, href⟩
    rw [hr, bind_ok]
    rfl
  · refine Or.inr ⟨b, s', ?_, he⟩
    have hb0 := (free_facts h he.new).1
    rw [hr, bind_ok]
    dsimp only
    rw [if_neg (by decide), if_pos hb0, he.inuse hsin hb0]
    rfl

end

/-- A file cannot have a block at an index behind the table. -/
theorem sfsBmapGet_out (hidx : sfsNdirect + sfsBlkNentry ≤ index) : sfsBmapGet sin index create s = .error .indexRange := by
  unfold sfsBmapGet bmapGetBranch
  rw [if_neg (by omega), if_neg (by omega)]
  rfl

/-! ## Other fields of an inode -/

theorem fileBlock_setDin (hd : d.direct = (s.din sin).direct) (ht : d.indirect = (s.din sin).indirect) :
    (s.setDin sin d).fileBlock i k = s.fileBlock i k := by
  by_cases hi : i = sin
  · subst hi
    unfold fileBlock
    rw [din_setDin_self, hd, ht]
    rfl
  · exact fileBlock_congr (din_setDin_of_ne hi) (fun _ => rfl)

theorem fileBlock_setDirty : (s.setDirty sin).fileBlock i k = s.fileBlock i k := fileBlock_congr din_setDirty (fun _ => rfl)

/-- The maps, and what is held, depend on the direct blocks and the table of an inode only. -/
theorem owned_setDin (h : s.Owned I fix) (hd : d.direct = (s.din sin).direct) (ht : d.indirect = (s.din sin).indirect) :
    (s.setDin sin d).Owned I fix := by
  refine ⟨h.exact.congr ?_, h.zero, h.nbits, h.nwords, h.small, h.count⟩
  intro σ
  refine held_congr (fun i _ k => fileBlock_setDin hd ht) ?_
  intro i _
  rw [din_setDin]
  by_cases hi : i = sin
  · rw [if_pos hi, hi, ht]
  · rw [if_neg hi]

theorem owned_setDirty (h : s.Owned I fix) : (s.setDirty sin).Owned I fix := by
  refine ⟨h.exact.congr ?_, h.zero, h.nbits, h.nwords, h.small, h.count⟩
  intro σ
  exact held_congr (fun i _ k => fileBlock_setDirty) (fun i _ => by rw [din_setDirty])

/-! ## Freeing a block -/

/-- The file `sin` has lost its block at `index`. -/
structure Dropped (s s' : Sfs) (I : Finset Nat) (fix : Set Nat) (sin index : Nat) : Prop where
  owned : s'.Owned I fix
  blocks : s'.blocks = s.blocks
  fileBlock : ∀ i ∈ I, ∀ k, s'.fileBlock i k = if i = sin ∧ k = index then 0 else s.fileBlock i k
  disk : ∀ c, (c = (s.din sin).indirect → c = 0) → s'.disk c = s.disk c
  others : ∀ i, i ≠ sin → s'.inodes i = s.inodes i
  size : (s'.din sin).size = (s.din sin).size
  type : (s'.din sin).type = (s.din sin).type
  count : (s'.din sin).blocks = (s.din sin).blocks
  table : (s'.din sin).indirect = (s.din sin).indirect
  nlinks : (s'.din sin).nlinks = (s.din sin).nlinks

/-- `sfs_block_free` reads and writes the bitmap only. -/
theorem sfsBlockFree_congr (s' : Sfs) (hm : s'.freemap = s.freemap) (hb : s'.blocks = s.blocks)
    (hr : sfsBlockFree b s' = .ok { s' with freemap := f, unusedBlocks := s'.unusedBlocks + 1, superDirty := true }) :
    sfsBlockFree b s = .ok { s with freemap := f, unusedBlocks := s.unusedBlocks + 1, superDirty := true } := by
  unfold sfsBlockFree assertInuse sfsBlockInuse at hr ⊢
  rw [hm, hb] at hr
  obtain ⟨u, hin, hre⟩ := bind_eq_ok.mp hr
  obtain ⟨g, hg, hs⟩ := bind_eq_ok.mp hre
  rw [hin, hg]
  injection hs with hs
  injection hs with _ _ hfg
  rw [hfg]
  rfl

theorem fileBlock_setFreemap {n : Nat} {d : Bool} :
    Sfs.fileBlock { s with freemap := f, unusedBlocks := n, superDirty := d } i k = s.fileBlock i k := rfl

/-- A direct block freed. -/
theorem bmapFree_direct (h : s.Owned I fix) (hsin : sin ∈ I) (hidx : index < sfsNdirect) (hb : s.fileBlock sin index ≠ 0) :
    ∃ s', sfsBmapFree sin index s = .ok s' ∧ Dropped s s' I fix sin index := by
  obtain ⟨hlt, -, hfix⟩ := data_facts h hsin hb
  have hd : (setDirect s sin index 0).Owned I (insert (s.fileBlock sin index) fix) := by
    refine owned_drop h (show (SfsSlot.data sin index).sin ∈ I from hsin) rfl hb ?_ rfl rfl rfl
    intro σ _
    cases σ with
    | data i k =>
      show (setDirect s sin index 0).fileBlock i k = _
      rw [fileBlock_setDirect hidx]
      exact if_congr (by simp) rfl rfl
    | table i =>
      rw [if_neg (by simp)]
      exact (setDirect_fields s sin index 0 i).2.2.2
  obtain ⟨f, hf, -, hof⟩ := sfsBlockFree_spec hd h.zero hlt hfix
  have hf' := sfsBlockFree_congr (s := s) (setDirect s sin index 0) rfl rfl hf
  have hdi : (s.din sin).direct index = s.fileBlock sin index := (fileBlock_direct hidx).symm
  obtain ⟨hs, hty, hc, ht⟩ := setDirect_fields s sin index 0 sin
  refine ⟨_, ?_, hof, rfl, ?_, fun _ _ => rfl, ?_, hs, hty, hc, ht, nlinks_setDirect⟩
  · unfold sfsBmapFree
    rw [if_pos hidx, if_pos (by rw [hdi]; exact hb), hdi, hf', bind_ok]
    rfl
  · intro i _ k
    rw [fileBlock_setFreemap, fileBlock_setDirect hidx]
  · intro i hi
    show update (update s.inodes sin _) sin _ i = _
    rw [update_of_ne hi, update_of_ne hi]

/-- An indirect block freed; its entry is cleared first. -/
theorem bmapFree_indirect (h : s.Owned I fix) (hsin : sin ∈ I) (hidx : index < sfsBlkNentry)
    (hb : s.fileBlock sin (sfsNdirect + index) ≠ 0) :
    ∃ s', sfsBmapFree sin (sfsNdirect + index) s = .ok s' ∧ Dropped s s' I fix sin (sfsNdirect + index) := by
  obtain ⟨hlt, -, hfix⟩ := data_facts h hsin hb
  have ht : (s.din sin).indirect ≠ 0 := by
    intro h0
    rw [fileBlock_indirect hidx, if_pos h0] at hb
    exact hb rfl
  obtain ⟨htlt, htf, -⟩ := table_facts h hsin ht
  have hen : s.entry (s.din sin).indirect index = s.fileBlock sin (sfsNdirect + index) := by
    rw [fileBlock_indirect hidx, if_neg ht]
  have hd : (writeEntry s (s.din sin).indirect index 0).Owned I (insert (s.fileBlock sin (sfsNdirect + index)) fix) :=
    owned_drop h (show (SfsSlot.data sin (sfsNdirect + index)).sin ∈ I from hsin) rfl hb
      (fun σ hσ => named_writeEntry h hsin ht hidx (by omega) hσ) rfl rfl rfl
  obtain ⟨f, hf, -, hof⟩ := sfsBlockFree_spec hd h.zero hlt hfix
  obtain ⟨g, hg, hw⟩ := sfsRbuf_entry ht htlt hidx
  refine ⟨_, ?_, hof, rfl, ?_, ?_, fun _ _ => rfl, rfl, rfl, rfl, rfl, rfl⟩
  · unfold sfsBmapFree
    rw [if_neg (by omega), Nat.add_sub_cancel_left, if_pos hidx, if_pos ht]
    unfold sfsBmapFreeSub
    rw [assertInuse_of h ht htlt htf, bind_ok, ensure_of hidx, bind_ok, hg, bind_ok, hw, hen, if_pos hb,
      sfsWbuf_entry ht htlt hidx, bind_ok]
    exact hf
  · intro i hi k
    rw [fileBlock_setFreemap, fileBlock_writeEntry h hsin hi ht hidx (by omega)]
  · intro c hc
    exact update_of_ne (fun he => ht (he.symm.trans (hc he))) _ _

/-- `sfs_bmap_free_nolock` of a block that is there. -/
theorem sfsBmapFree_spec (h : s.Owned I fix) (hsin : sin ∈ I) (hb : s.fileBlock sin index ≠ 0) :
    ∃ s', sfsBmapFree sin index s = .ok s' ∧ Dropped s s' I fix sin index := by
  by_cases hd : index < sfsNdirect
  · exact bmapFree_direct h hsin hd hb
  · obtain ⟨n, rfl⟩ : ∃ n, index = sfsNdirect + n := ⟨index - sfsNdirect, by omega⟩
    refine bmapFree_indirect h hsin ?_ hb
    by_contra hn
    exact hb (fileBlock_out (by omega))

/-- `sfs_bmap_free_nolock` does nothing behind the table. -/
theorem sfsBmapFree_out (hidx : sfsNdirect + sfsBlkNentry ≤ index) : sfsBmapFree sin index s = .ok s := by
  unfold sfsBmapFree
  rw [if_neg (by omega), if_neg (by omega)]

/-! ## Loading a block, and dropping the last one -/

/-- Another number of blocks is counted for a file. -/
def setBlocks (s : Sfs) (sin n : Nat) : Sfs := s.setDin sin { s.din sin with blocks := n }

theorem fileBlock_setBlocks (n : Nat) : (setBlocks s sin n).fileBlock i k = s.fileBlock i k := fileBlock_setDin rfl rfl

theorem owned_setBlocks (h : s.Owned I fix) (n : Nat) : (setBlocks s sin n).Owned I fix := owned_setDin h rfl rfl

theorem blocks_setBlocks (n : Nat) : ((setBlocks s sin n).din i).blocks = if i = sin then n else (s.din i).blocks := by
  rw [setBlocks, din_setDin]
  split <;> rfl

/-- What `sfs_bmap_load_nolock` can do. -/
inductive LoadResult (s : Sfs) (I : Finset Nat) (fix : Set Nat) (sin index : Nat) : Except SfsPanic (Int × Nat × Sfs) → Prop
  | behind : (s.din sin).blocks < index → LoadResult s I fix sin index (.error .loadIndex)
  | out : sfsNdirect + sfsBlkNentry ≤ index → LoadResult s I fix sin index (.error .indexRange)
  | read : index < (s.din sin).blocks → s.fileBlock sin index ≠ 0 →
      LoadResult s I fix sin index (.ok (0, s.fileBlock sin index, s))
  | counted : index = (s.din sin).blocks → s.fileBlock sin index ≠ 0 →
      LoadResult s I fix sin index (.ok (0, s.fileBlock sin index, setBlocks s sin (index + 1)))
  | refused {s' : Sfs} : index = (s.din sin).blocks → s.fileBlock sin index = 0 → s.free.card < need s sin index →
      Refused s s' I fix → LoadResult s I fix sin index (.ok (-eNoMem, 0, s'))
  | extended {s' : Sfs} {b : Nat} : index = (s.din sin).blocks → s.fileBlock sin index = 0 → Extended s s' I fix sin index b →
      LoadResult s I fix sin index (.ok (0, b, setBlocks s' sin (index + 1)))

/-- `sfs_bmap_load_nolock` -/
theorem sfsBmapLoad_spec (h : s.Owned I fix) (hsin : sin ∈ I) (hf : s.Full sin) (index : Nat) :
    LoadResult s I fix sin index (sfsBmapLoad sin index s) := by
  unfold sfsBmapLoad
  by_cases hle : index ≤ (s.din sin).blocks
  swap
  · rw [ensure_of_not hle]
    exact .behind (by omega)
  rw [ensure_of hle, bind_ok]
  dsimp only
  by_cases ho : sfsNdirect + sfsBlkNentry ≤ index
  · rw [sfsBmapGet_out ho]
    exact .out ho
  by_cases hlt : index < (s.din sin).blocks
  · have hb := hf index hlt (by omega)
    rw [decide_eq_false (by omega), sfsBmapGet_read h hsin (by omega) (Or.inl hb), bind_ok]
    dsimp only
    rw [if_neg (by decide), assertInuse_data h hsin hb]
    exact .read hlt hb
  · have heq : index = (s.din sin).blocks := by omega
    rw [decide_eq_true heq]
    by_cases hb : s.fileBlock sin index = 0
    · rcases sfsBmapGet_create h hsin (by omega) hb with ⟨s', hr, hc, href⟩ | ⟨b, s', hr, he⟩
      · rw [hr]
        exact .refused heq hb hc href
      · have hb0 := (free_facts h he.new).1
        rw [hr, bind_ok]
        dsimp only
        rw [if_neg (by decide), he.inuse hsin hb0, bind_ok, if_pos rfl, he.count, ← heq]
        exact .extended heq hb he
    · rw [sfsBmapGet_read h hsin (by omega) (Or.inl hb), bind_ok]
      dsimp only
      rw [if_neg (by decide), assertInuse_data h hsin hb, bind_ok, if_pos rfl, ← heq]
      exact .counted heq hb

/-- `sfs_bmap_truncate_nolock` of a file with blocks: the last one is dropped, if the map reaches that far. -/
theorem sfsBmapTruncate_spec (h : s.Owned I fix) (hsin : sin ∈ I) (hf : s.Full sin) (hb : (s.din sin).blocks ≠ 0) :
    ∃ s', sfsBmapTruncate sin s = .ok ((setBlocks s' sin ((s.din sin).blocks - 1)).setDirty sin) ∧
      (Dropped s s' I fix sin ((s.din sin).blocks - 1) ∨
        (sfsNdirect + sfsBlkNentry < (s.din sin).blocks ∧ s' = s)) := by
  unfold sfsBmapTruncate
  rw [ensure_of hb, bind_ok]
  by_cases hin : (s.din sin).blocks - 1 < sfsNdirect + sfsBlkNentry
  · obtain ⟨s', hr, hd⟩ := sfsBmapFree_spec h hsin (hf _ (by omega) hin)
    refine ⟨s', ?_, Or.inl hd⟩
    rw [hr, ← hd.count]
    rfl
  · refine ⟨s, ?_, Or.inr ⟨by omega, rfl⟩⟩
    rw [sfsBmapFree_out (by omega)]
    rfl

end SfsAux

end Ucore
