import Ucore.Lemmas.Mksfs

/-!
# Appending a block in the image builder

`append_block` gives a pending block its place, and allocates up to two tables on the way (`appendBlock_spec`). `Appended` is what
each of its three branches does: the ownership of blocks, the map of the file with the new block, and the maps of the other files.
-/

namespace Ucore

open Checked Ownership Function

/-- The file of a place. -/
def MksfsSlot.file : MksfsSlot → Nat
  | .inode file => file
  | .data file _ => file
  | .table file => file
  | .dbTable file => file
  | .dbEntry file _ => file

/-- The inodes keep their numbers, types and links. -/
structure Mksfs.SameMeta (s s' : Mksfs) : Prop where
  ino : ∀ c, (s'.ci c).ino = (s.ci c).ino
  real : ∀ c, (s'.ci c).real = (s.ci c).real
  type : ∀ c, (s'.ci c).inode.type = (s.ci c).inode.type
  nlinks : ∀ c, (s'.ci c).inode.nlinks = (s.ci c).inode.nlinks

/-- The blocks of a state are owned as the record says, and the maps of the files hold what was appended to them. -/
structure Mksfs.Tracked (s : Mksfs) (r : Record) (P : Set Nat) : Prop where
  sound : s.Sound r P ∅
  packed : ∀ c ∈ r.inos, Packed s.cache (s.ci c) (r.blocks c)

namespace MksfsAux

open Mksfs

variable {s s' s'' s1 : Mksfs} {r : Record} {P : Set Nat} {b c d i n m t ino size : Nat} {cb : Option Nat} {bs : List Nat}
  {σ : MksfsSlot}

/-- At most `n` blocks were allocated, and nothing was written. -/
structure Grown (s s' : Mksfs) (n : Nat) : Prop where
  ninos : s'.ninos = s.ninos
  le : s.nextIno ≤ s'.nextIno
  bound : s'.nextIno ≤ s.nextIno + n
  inodes : s'.inodes = s.inodes
  image : s'.image = s.image
  entry : s'.entry = s.entry

theorem Grown.refl (s : Mksfs) : Grown s s 0 := ⟨rfl, le_rfl, le_rfl, rfl, rfl, rfl⟩

theorem Grown.trans (h : Grown s s' n) (h' : Grown s' s'' m) : Grown s s'' (n + m) where
  ninos := h'.ninos.trans h.ninos
  le := h.le.trans h'.le
  bound := by
    have h1 := h.bound
    have h2 := h'.bound
    omega
  inodes := h'.inodes.trans h.inodes
  image := h'.image.trans h.image
  entry := h'.entry.trans h.entry

theorem Grown.mono (h : Grown s s' n) (hn : n ≤ m) : Grown s s' m :=
  ⟨h.ninos, h.le, h.bound.trans (Nat.add_le_add_left hn _), h.inodes, h.image, h.entry⟩

theorem grown_setCi {x : CacheInode} : Grown s (s.setCi c x) 0 := ⟨rfl, le_rfl, le_rfl, rfl, rfl, rfl⟩

theorem grown_setWord {v : Nat} : Grown s (s.setWord t i v) 0 := ⟨rfl, le_rfl, le_rfl, rfl, rfl, rfl⟩

/-! ## Tables -/

theorem named_table (hc : c ∈ r.inos) : s.named r (.table c) = (s.ci c).inode.indirect := if_pos hc

theorem named_dbTable (hc : c ∈ r.inos) : s.named r (.dbTable c) = (s.ci c).inode.dbIndirect := if_pos hc

theorem named_dbEntry (hc : c ∈ r.inos) (h0 : (s.ci c).inode.dbIndirect ≠ 0) (hi : i < sfsBlkNentry) :
    s.named r (.dbEntry c i) = s.cache (s.ci c).inode.dbIndirect i := if_pos ⟨hc, h0, hi⟩

/-- Only files have places. -/
theorem file_mem_of_named (h0 : s.named r σ ≠ 0) : σ.file ∈ r.inos := by
  by_contra hn
  cases σ with
  | inode f => exact h0 (if_neg fun h => hn h.1)
  | data f k => exact h0 (if_neg hn)
  | table f => exact h0 (if_neg hn)
  | dbTable f => exact h0 (if_neg hn)
  | dbEntry f k => exact h0 (if_neg fun h => hn h.1)

/-- The map of a file stays where its tables stay. -/
theorem packed_frame {cache' : Nat → Nat → Nat} (hd : d ∈ r.inos) (hp : Packed s.cache (s.ci d) bs)
    (hca : ∀ σ : MksfsSlot, σ.file = d → σ.IsTable → s.named r σ ≠ 0 → cache' (s.named r σ) = s.cache (s.named r σ)) :
    Packed cache' (s.ci d) bs := by
  refine Packed.congr hp ?_ ?_ ?_
  · intro h0
    rw [← named_table hd] at h0 ⊢
    exact hca (.table d) rfl trivial h0
  · intro h0
    rw [← named_dbTable hd] at h0 ⊢
    exact hca (.dbTable d) rfl trivial h0
  · intro h0 j hj hj0
    rw [← named_dbEntry hd h0 hj] at hj0 ⊢
    exact hca (.dbEntry d j) rfl trivial hj0

/-- What `update_cache` does: it returns the table that there is, or a new one of zeros, which is then pending. -/
structure Obtained (s s1 : Mksfs) (r : Record) (P : Set Nat) (ino t : Nat) : Prop where
  ne_zero : t ≠ 0
  ci : s1.ci = s.ci
  grown : Grown s s1 1
  cache : ∀ x, x ≠ s.nextIno → s1.cache x = s.cache x
  named : ∀ σ, s1.named r σ = s.named r σ
  old : ino ≠ 0 → t = ino ∧ s1.Sound r P ∅
  new : ino = 0 → t = s.nextIno ∧ (∀ k, s1.cache t k = 0) ∧ s1.Sound r P (insert t ∅)

theorem updateCache_spec (h : s.Sound r P ∅) (hcb : ino ≠ 0 → cb = some ino) :
    (s.ninos < s.nextIno + 1 ∧ updateCache cb ino s = .error .outOfSpace) ∨
      ∃ t s1, updateCache cb ino s = .ok (t, s1) ∧ Obtained s s1 r P ino t := by
  unfold updateCache
  by_cases h0 : ino = 0
  · by_cases hlt : s.nextIno < s.ninos
    · refine Or.inr ⟨s.nextIno, s.newTable, ?_, ?_, rfl, ⟨rfl, Nat.le_succ _, le_rfl, rfl, rfl, rfl⟩, ?_, ?_, ?_, ?_⟩
      · simp only [h0, if_true, allocCacheBlock, inoOrNew, ne_eq, not_true_eq_false, if_false, sfsAllocIno, if_pos hlt, bind_ok]
        rfl
      · have hpos := firstBlock_pos s.ninos
        have hl := h.low
        omega
      · intro x hx
        exact update_of_ne hx _ _
      · exact fun σ => named_newTable h
      · exact fun hn => absurd h0 hn
      · intro _
        refine ⟨rfl, ?_, sound_newTable h hlt⟩
        intro k
        change update s.cache s.nextIno (fun _ => 0) s.nextIno k = 0
        rw [update_self]
    · refine Or.inl ⟨by omega, ?_⟩
      simp only [h0, if_true, allocCacheBlock, inoOrNew, ne_eq, not_true_eq_false, if_false, sfsAllocIno, if_neg hlt, bind_error]
  · refine Or.inr ⟨ino, s, ?_, h0, rfl, (Grown.refl s).mono (Nat.zero_le _), fun _ _ => rfl, fun _ => rfl, fun _ => ⟨rfl, h⟩,
      fun hn => absurd hn h0⟩
    rw [if_neg h0, if_pos (hcb h0)]

/-- The table that `update_cache` returned is given to its place. -/
theorem sound_install (h : s.Sound r P ∅) (hob : Obtained s s1 r P ino t) (hino : s.named r σ = ino)
    (hσ : σ.IsTable) (hf : SameFrame s1 s') (hn : ∀ τ, s'.named r τ = if τ = σ then t else s1.named r τ) :
    s'.Sound r P ∅ ∧ ∀ τ, s'.named r τ = if τ = σ then t else s.named r τ := by
  refine ⟨?_, fun τ => by rw [hn, hob.named]⟩
  by_cases h0 : ino = 0
  · obtain ⟨ht, -, hs1⟩ := hob.new h0
    refine sound_assignTable hs1 ?_ (Set.notMem_empty t) hσ ?_ hf hn
    · intro hm
      have := (h.pending t (Or.inl hm)).2
      omega
    · rw [hob.named, hino, h0]
  · obtain ⟨ht, hs1⟩ := hob.old h0
    refine sound_congr hs1 hf fun τ => ?_
    rw [hn]
    by_cases hτ : τ = σ
    · rw [if_pos hτ, hτ, hob.named, hino, ht]
    · rw [if_neg hτ]

/-! ## The branches -/

/-- A branch of `append_block` has put the block `b` into the map of the file `c`. -/
structure Appended (s s' : Mksfs) (r : Record) (P : Set Nat) (c b : Nat) : Prop where
  sound : s'.Sound r P ∅
  grown : Grown s s' 2
  others : ∀ d, d ≠ c → s'.ci d = s.ci d
  ino : (s'.ci c).ino = (s.ci c).ino
  real : (s'.ci c).real = (s.ci c).real
  type : (s'.ci c).inode.type = (s.ci c).inode.type
  nlinks : (s'.ci c).inode.nlinks = (s.ci c).inode.nlinks
  packed : ∀ size, Packed s'.cache (counted (s'.ci c) size) (r.blocks c ++ [b])
  frame : ∀ d ∈ r.inos, d ≠ c → Packed s'.cache (s'.ci d) (r.blocks d)

section Branches

variable (h : s.Sound r P ∅) (hc : c ∈ r.inos) (hp : ∀ d ∈ r.inos, Packed s.cache (s.ci d) (r.blocks d)) {x : CacheInode}
include h hc hp

theorem appendDirect_spec (hn : (r.blocks c).length < sfsNdirect) :
    Appended s (appendDirect c (r.blocks c).length b s) r P c b := by
  have hci : (appendDirect c (r.blocks c).length b s).ci c = { s.ci c with inode := { (s.ci c).inode with
      direct := (update (s.ci c).inode.direct (r.blocks c).length b) } } := ci_setCi_self
  have ho : ∀ d, d ≠ c → (appendDirect c (r.blocks c).length b s).ci d = s.ci d := fun d hd => update_of_ne hd _ _
  refine ⟨?_, grown_setCi.mono (Nat.zero_le _), ho, by rw [hci], by rw [hci], by rw [hci], by rw [hci], ?_, ?_⟩
  · exact sound_congr h (sameFrame_setCi rfl rfl) fun σ => named_setCi rfl rfl
  · intro size
    rw [hci]
    exact packed_direct (hp c hc) hn
  · intro d hd hne
    rw [ho d hne]
    exact hp d hd

theorem appendIndirect_spec (hn : sfsNdirect ≤ (r.blocks c).length) (hn' : (r.blocks c).length < sfsL1Nblks) :
    (s.ninos < s.nextIno + 2 ∧ appendIndirect c ((r.blocks c).length - sfsNdirect) b s = .error .outOfSpace) ∨
      ∃ s', appendIndirect c ((r.blocks c).length - sfsNdirect) b s = .ok s' ∧ Appended s s' r P c b := by
  have hpc := hp c hc
  have hcb : (s.ci c).inode.indirect ≠ 0 → (s.ci c).l1 = some (s.ci c).inode.indirect := by
    intro h0
    refine hpc.l1 ?_ hn'.le
    by_contra hle
    exact h0 (hpc.indirect.mpr (by omega))
  unfold appendIndirect
  rcases updateCache_spec h hcb with ⟨hf, hr⟩ | ⟨t, s1, hr, hob⟩
  · refine Or.inl ⟨by omega, ?_⟩
    rw [hr, bind_error]
  -- the file has the table `t`
  let x : CacheInode := { s.ci c with l1 := some t, inode := { (s.ci c).inode with indirect := t } }
  obtain ⟨hs2, ht⟩ := sound_install h hob (named_table hc) trivial (sameFrame_setCi (by rw [hob.ci]) (by rw [hob.ci]))
    fun σ => named_setTable (x := x) hc (by rw [hob.ci])
  have hna : (s1.setCi c x).named r (.table c) = t := by rw [ht, if_pos rfl]
  have hdb : ∀ d, (s1.setCi c x).named r (.dbTable d) ≠ t := by
    intro d
    exact (ne_of_named (τ := .dbTable d) hs2 hna rfl hob.ne_zero nofun).symm
  have hci : ((s1.setCi c x).setWord t ((r.blocks c).length - sfsNdirect) b).ci c = x := ci_setCi_self
  have ho : ∀ d, d ≠ c → ((s1.setCi c x).setWord t ((r.blocks c).length - sfsNdirect) b).ci d = s.ci d := by
    intro d hd
    change update s1.ci c x d = _
    rw [update_of_ne hd, hob.ci]
  refine Or.inr ⟨(s1.setCi c x).setWord t ((r.blocks c).length - sfsNdirect) b, ?_, ?_, ?_, ho, by rw [hci], by rw [hci],
    by rw [hci], by rw [hci], ?_, ?_⟩
  · rw [hr, bind_ok]
    simp only [hob.ci]
    rfl
  · exact sound_congr hs2 sameFrame_setWord fun σ => named_setWord hdb
  · exact ((hob.grown.trans grown_setCi).trans grown_setWord).mono (by omega)
  · intro size
    have hpc1 : Packed s1.cache (s.ci c) (r.blocks c) := packed_frame hc hpc fun σ _ _ _ => hob.cache _ (named_ne_next h)
    rw [hci]
    exact packed_indirect hpc1 hn hn' hob.ne_zero (fun h0 => (hob.new h0).2.1) (fun h0 => (hob.old h0).1)
  · intro d hd hne
    rw [ho d hne]
    refine packed_frame hd (hp d hd) ?_
    intro σ hσ _ h0
    have hσc : σ ≠ .table c := by
      rintro rfl
      exact hne hσ.symm
    have hσn : (s1.setCi c x).named r σ = s.named r σ := by rw [ht, if_neg hσc]
    change update s1.cache t _ (s.named r σ) = _
    rw [update_of_ne (ne_of_named hs2 hσn hna h0 hσc), hob.cache _ (named_ne_next h)]

omit hp in
/-- The double table of the file: the one that it has, or a new one of zeros. -/
theorem dbTable_spec (hob : Obtained s s1 r P (s.ci c).inode.dbIndirect t)
    (hx : x = { s.ci c with l2 := some t, inode := { (s.ci c).inode with dbIndirect := t } }) :
    (s1.setCi c x).Sound r P ∅ ∧ ∀ σ, (s1.setCi c x).named r σ = if σ = .dbTable c then t else s.named r σ := by
  have hi : x.inode.indirect = (s1.ci c).inode.indirect := by rw [hob.ci, hx]
  have hd : x.inode.dbIndirect = t := by rw [hx]
  refine sound_install h hob (named_dbTable hc) trivial (sameFrame_setCi (by rw [hob.ci, hx]) (by rw [hob.ci, hx])) fun σ => ?_
  by_cases h0 : (s.ci c).inode.dbIndirect = 0
  · rw [named_setDbTable hc hi (by rw [hob.ci, h0]) (by rw [hd]; exact (hob.new h0).2.1), hd]
  · have ht := (hob.old h0).1
    rw [named_setCi hi (by rw [hd, hob.ci]; exact ht)]
    by_cases hσ : σ = .dbTable c
    · rw [if_pos hσ, hσ, hob.named, named_dbTable hc, ht]
    · rw [if_neg hσ]

omit hp in
/-- A table of the double table: the one that there is, or a new one of zeros. -/
theorem dbEntry_spec {t2 q : Nat} (hdb : (s.ci c).inode.dbIndirect = t2) (ht2 : t2 ≠ 0) (hq : q < sfsBlkNentry)
    (hob : Obtained s s1 r P (s.cache t2 q) t) (hx : x = { s.ci c with l1 := some t }) :
    ((s1.setCi c x).setWord t2 q t).Sound r P ∅ ∧
      ∀ σ, ((s1.setCi c x).setWord t2 q t).named r σ = if σ = .dbEntry c q then t else s.named r σ := by
  have hf : SameFrame s1 (s1.setCi c x) := sameFrame_setCi (by rw [hob.ci, hx]) (by rw [hob.ci, hx])
  have hci : ((s1.setCi c x).ci c).inode.dbIndirect = t2 := by rw [ci_setCi_self, hx, hdb]
  have hs : ∀ σ, (s1.setCi c x).named r σ = s1.named r σ :=
    fun σ => named_setCi (by rw [hob.ci, hx]) (by rw [hob.ci, hx])
  have hen : s.named r (.dbEntry c q) = s.cache t2 q := by
    rw [← hdb]
    exact named_dbEntry hc (by rw [hdb]; exact ht2) hq
  obtain ⟨T', hs2⟩ : ∃ T', (s1.setCi c x).Sound r P T' := by
    by_cases h0 : s.cache t2 q = 0
    · exact ⟨_, sound_congr (hob.new h0).2.2 hf hs⟩
    · exact ⟨_, sound_congr (hob.old h0).2 hf hs⟩
  refine sound_install h hob hen trivial ⟨hf.ninos, hf.nextIno, hf.unusedBlocks, hf.inodes, hf.blocks,
    hf.ino, hf.real⟩ fun σ => ?_
  have hset := named_setDbEntry (t := t) (σ := σ) hs2 hc (by rw [hci]; exact ht2) hq
  rwa [hci, hs] at hset

/-- The last table of the file is in the cache, where the double table has one. -/
theorem dbEntry_cached {q : Nat} (hob : Obtained s s1 r P (s.ci c).inode.dbIndirect t) (hqlt : q < sfsBlkNentry)
    (hq : q = ((r.blocks c).length - sfsL1Nblks) / sfsBlkNentry) (h0 : s1.cache t q ≠ 0) : (s.ci c).l1 = some (s1.cache t q) := by
  have hN : sfsBlkNentry = 1024 := rfl
  have hpc := hp c hc
  have hdb : (s.ci c).inode.dbIndirect ≠ 0 := fun he => h0 ((hob.new he).2.1 q)
  have hlt : sfsL1Nblks < (r.blocks c).length := by
    by_contra hle
    exact hdb (hpc.dbIndirect.mpr (by omega))
  have hca : s1.cache t = s.cache (s.ci c).inode.dbIndirect := by
    rw [(hob.old hdb).1, ← named_dbTable (s := s) hc]
    exact hob.cache _ (named_ne_next h)
  rw [hca] at h0 ⊢
  have hm : ¬ (r.blocks c).length ≤ sfsL1Nblks + sfsBlkNentry * q := fun hle => h0 ((hpc.dtable hdb q hqlt).mpr hle)
  have hl : ((r.blocks c).length - 1 - sfsL1Nblks) / sfsBlkNentry = q := by
    rw [hN] at hq hm ⊢
    omega
  rw [hpc.last hlt, hl]

theorem appendDbIndirect_spec (hn : sfsL1Nblks ≤ (r.blocks c).length) (hn' : (r.blocks c).length < sfsLnNblks) :
    (s.ninos < s.nextIno + 2 ∧ appendDbIndirect c ((r.blocks c).length - sfsL1Nblks) b s = .error .outOfSpace) ∨
      ∃ s', appendDbIndirect c ((r.blocks c).length - sfsL1Nblks) b s = .ok s' ∧ Appended s s' r P c b := by
  have hL : sfsL1Nblks = 1036 := rfl
  have hM : sfsLnNblks = 32768 := rfl
  have hN : sfsBlkNentry = 1024 := rfl
  have hpc := hp c hc
  have hcb2 : (s.ci c).inode.dbIndirect ≠ 0 → (s.ci c).l2 = some (s.ci c).inode.dbIndirect := by
    intro h0
    refine hpc.l2 ?_
    by_contra hle
    exact h0 (hpc.dbIndirect.mpr (by omega))
  unfold appendDbIndirect
  rcases updateCache_spec h hcb2 with ⟨hf, hr2⟩ | ⟨t2, s1, hr2, hob2⟩
  · refine Or.inl ⟨by omega, ?_⟩
    rw [hr2, bind_error]
  -- the file has the double table `t2`
  obtain ⟨q, hq⟩ : ∃ q, q = ((r.blocks c).length - sfsL1Nblks) / sfsBlkNentry := ⟨_, rfl⟩
  have hqlt : q < sfsBlkNentry := by
    rw [hN] at hq ⊢
    omega
  obtain ⟨x, hx⟩ : ∃ x : CacheInode, x = { s.ci c with l2 := some t2, inode := { (s.ci c).inode with dbIndirect := t2 } } := ⟨_, rfl⟩
  obtain ⟨hs2, hnamed2⟩ := dbTable_spec h hc hob2 hx
  have hci2 : (s1.setCi c x).ci c = x := ci_setCi_self
  have hz : (s.ci c).inode.dbIndirect = 0 → ∀ k, s1.cache t2 k = 0 := fun h0 => (hob2.new h0).2.1
  have hold : (s.ci c).inode.dbIndirect ≠ 0 → t2 = (s.ci c).inode.dbIndirect := fun h0 => (hob2.old h0).1
  have hcb1 : s1.cache t2 q ≠ 0 → ((s1.setCi c x).ci c).l1 = some (s1.cache t2 q) := by
    intro h0
    rw [hci2, hx]
    exact dbEntry_cached h hc hp hob2 hqlt hq h0
  rcases updateCache_spec hs2 hcb1 with ⟨hf, hr1⟩ | ⟨t1, s3, hr1, hob1⟩
  · refine Or.inl ⟨?_, ?_⟩
    · have h1 : (s1.setCi c x).ninos = s.ninos := hob2.grown.ninos
      have h2 : (s1.setCi c x).nextIno ≤ s.nextIno + 1 := hob2.grown.bound
      omega
    · rw [hr2, bind_ok]
      simp only [hob2.ci]
      rw [← hx, ← hq]
      exact (congrArg (· >>= _) hr1).trans (bind_error _ _)
  -- and the table `t1` in it
  obtain ⟨y, hy⟩ : ∃ y : CacheInode, y = { x with l1 := some t1 } := ⟨_, rfl⟩
  have hdb : ((s1.setCi c x).ci c).inode.dbIndirect = t2 := by rw [hci2, hx]
  obtain ⟨hs5, hn5⟩ := dbEntry_spec (x := y) hs2 hc hdb hob2.ne_zero hqlt hob1 (by rw [hy, hci2])
  obtain ⟨u, hu⟩ : ∃ u, u = (s3.setCi c y).setWord t2 q t1 := ⟨_, rfl⟩
  rw [← hu] at hs5 hn5
  have huci : u.ci c = y := by rw [hu]; exact ci_setCi_self
  have hin : u.named r (.table c) = (s.ci c).inode.indirect := by rw [named_table hc, huci, hy, hx]
  have hdbTable : u.named r (.dbTable c) = t2 := by rw [named_dbTable hc, huci, hy, hx]
  have hdbEntry : u.named r (.dbEntry c q) = t1 := by rw [hn5, if_pos rfl]
  have hne : t1 ≠ t2 := ne_of_named hs5 hdbEntry hdbTable hob1.ne_zero nofun
  have ht2next : t2 ≠ (s1.setCi c x).nextIno := by
    have := named_ne_next hs2 (σ := .dbTable c)
    rwa [hnamed2, if_pos rfl] at this
  have hc3 : s3.cache t2 = s1.cache t2 := hob1.cache t2 ht2next
  have hen : ∀ j < sfsBlkNentry, j ≠ q → u.named r (.dbEntry c j) = s3.cache t2 j := by
    intro j hj hjq
    rw [hn5, if_neg (by simp [hjq]), hc3, named_dbEntry hc (by rw [hdb]; exact hob2.ne_zero) hj, hdb]
    rfl
  have hca : ∀ σ, s.named r σ ≠ 0 → s3.cache (s.named r σ) = s.cache (s.named r σ) := by
    intro σ h0
    have hne1 : s.named r σ ≠ (s1.setCi c x).nextIno := by
      have hlt := (named_facts h h0).2.1
      have hle : s.nextIno ≤ (s1.setCi c x).nextIno := hob2.grown.le
      omega
    rw [hob1.cache _ hne1]
    exact hob2.cache _ (named_ne_next h)
  have hcu : u.cache = update s3.cache t2 (update (s3.cache t2) q t1) := by rw [hu]; rfl
  have hcw : (u.setWord t1 (((r.blocks c).length - sfsL1Nblks) % sfsBlkNentry) b).cache =
      update u.cache t1 (update (s3.cache t1) (((r.blocks c).length - sfsL1Nblks) % sfsBlkNentry) b) := by
    rw [cache_setWord, hcu, update_of_ne hne]
  have ho : ∀ d, d ≠ c → (u.setWord t1 (((r.blocks c).length - sfsL1Nblks) % sfsBlkNentry) b).ci d = s.ci d := by
    intro d hd
    rw [hu]
    change update s3.ci c y d = _
    rw [update_of_ne hd, hob1.ci]
    change update s1.ci c x d = _
    rw [update_of_ne hd, hob2.ci]
  have hci : (u.setWord t1 (((r.blocks c).length - sfsL1Nblks) % sfsBlkNentry) b).ci c = y := huci
  refine Or.inr ⟨u.setWord t1 (((r.blocks c).length - sfsL1Nblks) % sfsBlkNentry) b, ?_, ?_, ?_, ho, by rw [hci, hy, hx],
    by rw [hci, hy, hx], by rw [hci, hy, hx], by rw [hci, hy, hx], ?_, ?_⟩
  · rw [hr2, bind_ok]
    simp only [hob2.ci]
    rw [← hx, ← hq]
    refine (congrArg (· >>= _) hr1).trans ?_
    rw [bind_ok]
    simp only [hob1.ci, hci2]
    rw [← hy, ← hu]
    rfl
  · refine sound_congr hs5 sameFrame_setWord fun σ => named_setWord ?_
    intro d
    exact (ne_of_named (τ := .dbTable d) hs5 hdbEntry rfl hob1.ne_zero nofun).symm
  · rw [hu]
    exact (((((hob2.grown.trans grown_setCi).trans hob1.grown).trans grown_setCi).trans grown_setWord).trans grown_setWord)
  · intro size
    have hp3 : Packed s3.cache (s.ci c) (r.blocks c) := packed_frame hc hpc fun σ _ _ h0 => hca σ h0
    rw [hcw, hcu, hci, hy, hx]
    refine packed_dbIndirect hp3 hn hn' hq hob2.ne_zero hob1.ne_zero ?_ hold ?_ ?_ hne ?_ ?_ ?_ ?_
    · rw [hc3]
      exact hz
    · rw [hc3]
      exact fun h0 => (hob1.new h0).2.1
    · rw [hc3]
      exact fun h0 => (hob1.old h0).1
    · exact (ne_of_named hs5 hdbEntry hin hob1.ne_zero nofun).symm
    · exact (ne_of_named hs5 hdbTable hin hob2.ne_zero nofun).symm
    · intro j hj hjq h0
      refine ne_of_named hs5 (hen j hj hjq) hdbEntry h0 ?_
      simp [hjq]
    · intro j hj h0 he
      by_cases hjq : j = q
      · rw [hjq] at h0 he
        rw [hc3] at h0 he
        exact hne ((hob1.old h0).1.trans he)
      · exact ne_of_named hs5 (hen j hj hjq) hdbTable h0 nofun he
  · intro d hd hdc
    rw [ho d hdc]
    refine packed_frame hd (hp d hd) ?_
    intro σ hσ _ h0
    have h1 : σ ≠ .dbEntry c q := by
      rintro rfl
      exact hdc hσ.symm
    have h2 : σ ≠ .dbTable c := by
      rintro rfl
      exact hdc hσ.symm
    have hσu : u.named r σ = s.named r σ := by rw [hn5, if_neg h1, hnamed2, if_neg h2]
    rw [hcw, update_of_ne (ne_of_named hs5 hσu hdbEntry h0 h1), hcu,
      update_of_ne (ne_of_named hs5 hσu hdbTable h0 h2)]
    exact hca σ h0

end Branches

/-! ## The whole function -/

theorem appendBranch_spec (h : s.Sound r P ∅) (hc : c ∈ r.inos) (hp : ∀ d ∈ r.inos, Packed s.cache (s.ci d) (r.blocks d))
    (hn : (r.blocks c).length < sfsLnNblks) :
    (s.ninos < s.nextIno + 2 ∧ appendBranch c (r.blocks c).length b s = .error .outOfSpace) ∨
      ∃ s', appendBranch c (r.blocks c).length b s = .ok s' ∧ Appended s s' r P c b := by
  have hM : sfsLnNblks = 32768 := rfl
  have hL : sfsL2Nblks = 1049612 := rfl
  unfold appendBranch
  by_cases h1 : (r.blocks c).length < sfsNdirect
  · rw [if_pos h1]
    exact Or.inr ⟨_, rfl, appendDirect_spec h hc hp h1⟩
  · by_cases h2 : (r.blocks c).length < sfsL1Nblks
    · rw [if_neg h1, if_pos h2]
      exact appendIndirect_spec h hc hp (not_lt.mp h1) h2
    · rw [if_neg h1, if_neg h2, if_pos (by omega)]
      exact appendDbIndirect_spec h hc hp (not_lt.mp h2) hn

theorem Appended.sameMeta (h : Appended s s' r P c b) : SameMeta s (s'.setCi c (counted (s'.ci c) size)) := by
  have hf : ∀ {α : Type} (g : CacheInode → α), g (counted (s'.ci c) size) = g (s.ci c) →
      ∀ d, g ((s'.setCi c (counted (s'.ci c) size)).ci d) = g (s.ci d) := by
    intro α g hg d
    rw [ci_setCi]
    by_cases hd : d = c
    · rw [if_pos hd, hd, hg]
    · rw [if_neg hd, h.others d hd]
  exact ⟨hf (·.ino) h.ino, hf (·.real) h.real, hf (·.inode.type) h.type, hf (·.inode.nlinks) h.nlinks⟩

/-- `append_block` puts a pending block into the map of a file, where the file and the image have room for it. -/
theorem appendBlock_spec (h : s.Tracked r (insert b P)) (hb : b ∉ P) (hc : c ∈ r.inos) (hs : size ≤ sfsBlksize) :
    (sfsLnNblks ≤ (r.blocks c).length ∧ appendBlock c size b s = .error .fileTooBig) ∨
      (s.ninos < s.nextIno + 2 ∧ appendBlock c size b s = .error .outOfSpace) ∨
      ∃ s', appendBlock c size b s = .ok s' ∧ s'.Tracked (r.append c b) P ∧ Grown s s' 2 ∧ SameMeta s s' := by
  have hn : (s.ci c).nblks = (r.blocks c).length := (h.packed c hc).nblks
  unfold appendBlock
  rw [ensure_of hs, bind_ok, hn]
  by_cases hbig : sfsLnNblks ≤ (r.blocks c).length
  · rw [if_pos hbig]
    exact Or.inl ⟨hbig, rfl⟩
  rw [if_neg hbig]
  refine Or.inr ?_
  rcases appendBranch_spec (b := b) h.sound hc h.packed (not_le.mp hbig) with ⟨hf, hr⟩ | ⟨u, hr, hu⟩
  · refine Or.inl ⟨hf, ?_⟩
    rw [hr, bind_error]
  refine Or.inr ⟨u.setCi c (counted (u.ci c) size), ?_, ⟨?_, ?_⟩, ?_, hu.sameMeta⟩
  · rw [hr, bind_ok]
    rfl
  · refine sound_append ?_ (by simpa using hb) hc
    exact sound_congr hu.sound (sameFrame_setCi rfl rfl) fun σ => named_setCi rfl rfl
  · intro d hd
    rw [ci_setCi]
    by_cases hdc : d = c
    · rw [if_pos hdc, hdc]
      change Packed u.cache _ (update r.blocks c _ c)
      rw [update_self]
      exact hu.packed size
    · rw [if_neg hdc]
      change Packed u.cache _ (update r.blocks c _ d)
      rw [update_of_ne hdc]
      exact hu.frame d hd hdc
  · exact hu.grown.trans grown_setCi

/-- The block that was written: the first `len` bytes of `data`, and zeros. -/
def written (data : Nat → UInt8) (len : Nat) (old : Nat → UInt8) : Nat → UInt8 :=
  Bytes.patch old 0 sfsBlksize fun k => if k < len then data k else 0

/-- A block was allocated, written and appended. -/
structure Packs (s s' : Mksfs) (data : Nat → UInt8) (len : Nat) : Prop where
  ninos : s'.ninos = s.ninos
  lt : s.nextIno < s'.nextIno
  bound : s'.nextIno ≤ s.nextIno + 3
  inodes : s'.inodes = s.inodes
  entry : s'.entry = s.entry
  image : s'.image = update s.image s.nextIno (written data len (s.image s.nextIno))
  sameMeta : SameMeta s s'

theorem packBlock_spec (data : Nat → UInt8) {len : Nat} (h : s.Tracked r ∅) (hc : c ∈ r.inos) (hl : len ≤ sfsBlksize) :
    (sfsLnNblks ≤ (r.blocks c).length ∧ packBlock c data len s = .error .fileTooBig) ∨
      (s.ninos < s.nextIno + 3 ∧ packBlock c data len s = .error .outOfSpace) ∨
      ∃ s', packBlock c data len s = .ok (s.nextIno, s') ∧ s'.Tracked (r.append c s.nextIno) ∅ ∧ Packs s s' data len := by
  unfold packBlock sfsAllocIno
  by_cases hlt : s.nextIno < s.ninos
  · rw [if_pos hlt, bind_ok]
    obtain ⟨u, hu⟩ : ∃ u, u = { s.allocated with
      image := update s.image s.nextIno (written data len (s.image s.nextIno)) } := ⟨_, rfl⟩
    have hw : writeBlock data len s.nextIno s.allocated = .ok u := by
      unfold writeBlock
      rw [ensure_of ⟨hl, hlt⟩, bind_ok, hu]
      rfl
    have hTracked : u.Tracked r (insert s.nextIno ∅) := by
      rw [hu]
      exact ⟨sound_congr (sound_alloc h.sound hlt) ⟨rfl, rfl, rfl, rfl, rfl, fun _ => rfl, fun _ => rfl⟩ (fun _ => rfl), h.packed⟩
    have hn : u.nextIno = s.nextIno + 1 := by rw [hu]; rfl
    have hni : u.ninos = s.ninos := by rw [hu]; rfl
    have hr : ∀ f : Mksfs → Except MksfsError (Nat × Mksfs), writeBlock data len s.nextIno s.allocated >>= f = f u := by
      intro f
      rw [hw, bind_ok]
    rcases appendBlock_spec hTracked (Set.notMem_empty _) hc hl with ⟨hb, he⟩ | ⟨hf, he⟩ | ⟨s', hs', ht, hg, hm⟩
    · refine Or.inl ⟨hb, (hr _).trans ?_⟩
      rw [he, bind_error]
    · refine Or.inr (Or.inl ⟨by omega, (hr _).trans ?_⟩)
      rw [he, bind_error]
    · refine Or.inr (Or.inr ⟨s', (hr _).trans ?_, ht, ?_⟩)
      · rw [hs', bind_ok]
        rfl
      · have hle := hg.le
        have hbd := hg.bound
        refine ⟨hg.ninos.trans hni, by omega, by omega, ?_, ?_, ?_, ?_⟩
        · rw [hg.inodes, hu]
          rfl
        · rw [hg.entry, hu]
          rfl
        · rw [hg.image, hu]
        · have hci : u.ci = s.ci := by rw [hu]; rfl
          exact ⟨fun d => by rw [hm.ino, hci], fun d => by rw [hm.real, hci], fun d => by rw [hm.type, hci],
            fun d => by rw [hm.nlinks, hci]⟩
  · rw [if_neg hlt, bind_error]
    exact Or.inr (Or.inl ⟨by omega, rfl⟩)

end MksfsAux

end Ucore
