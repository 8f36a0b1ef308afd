import Mathlib.Algebra.BigOperators.Group.Finset.Piecewise
import Ucore.Lemmas.MksfsAppend

/-!
# Images under construction

An image is built by allocating inodes, packing blocks into files and links, and adding entries to directories (`Built`). A directory
has an entry in every block, and every inode counts the entries that name it (`Linked`). `built_spec` is what holds of every image
under construction.
-/

namespace Ucore

open Checked Ownership MksfsAux Function

namespace Record

/-- An entry in the block `b` of the directory `dir`. -/
def addEntry (r : Record) (dir b file : Nat) (name : List UInt8) : Record :=
  { r.append dir b with entries := update r.entries dir (r.entries dir ++ [(file, name)]) }

/-- The number of entries that name a file. -/
def links (r : Record) (file : Nat) : Nat := ∑ d ∈ r.inos, (r.entries d).countP (·.1 = file)

/-- An image with the root only. -/
def root : Record := ⟨{sfsBlknRoot}, fun _ => [], fun _ => []⟩

end Record

namespace Mksfs

/-- An inode is allocated. -/
def newInode (s : Mksfs) (real : Nat) (type : SfsType) : Mksfs :=
  { s.allocated with
    ci := (update s.ci s.nextIno (freshInode real s.nextIno type))
    inodes := (update s.inodes (hash64 real) (s.nextIno :: s.inodes (hash64 real))) }

/-- An image with the inode of the root. -/
def newImage (ninos : Nat) (entry : Nat → UInt8) (image : Nat → Nat → UInt8) : Mksfs where
  ninos := ninos
  nextIno := firstBlock ninos
  unusedBlocks := ninos - firstBlock ninos
  inodes := (update (fun _ => []) (hash64 0) [sfsBlknRoot])
  blocks _ := []
  ci := (update (fun ino => freshInode 0 ino .inval) sfsBlknRoot (freshInode 0 sfsBlknRoot .dir))
  cache _ _ := 0
  entry := entry
  image := image

/-- The entries of the record are in the blocks of the directories, and are counted by the inodes that they name. -/
structure Linked (s : Mksfs) (r : Record) : Prop where
  zero : 0 ∉ r.inos
  nonzero : ∀ c, 0 ∉ r.blocks c
  root : (s.ci sfsBlknRoot).inode.type = .dir
  outside : ∀ c, c ∉ r.inos → r.blocks c = [] ∧ r.entries c = []
  dirs : ∀ c ∈ r.inos, (s.ci c).inode.type = .dir → (r.entries c).length = (r.blocks c).length
  others : ∀ c ∈ r.inos, (s.ci c).inode.type ≠ .dir → r.entries c = []
  targets : ∀ c, ∀ e ∈ r.entries c, e.1 ∈ r.inos ∧ e.2.length ≤ sfsMaxFnameLen
  image : ∀ c k e, (r.entries c)[k]? = some e →
    ∃ old pre, s.image ((r.blocks c).getD k 0) = written (fillEntry old e.1 e.2) sizeofName pre
  nlinks : ∀ c ∈ r.inos, (s.ci c).inode.nlinks = r.links c % 2 ^ 16

end Mksfs

/-- The images that the calls of `mksfs` build. -/
inductive Built : Mksfs → Record → Prop
  | create {s : Mksfs} {size : Nat} {entry : Nat → UInt8} {image : Nat → Nat → UInt8} :
      createSfs size entry image = .ok s → Built s .root
  | inode {s s' : Mksfs} {r : Record} {c real : Nat} {type : SfsType} :
      Built s r → allocCacheInode real 0 type s = .ok (c, s') → Built s' (r.insertIno c)
  | block {s s' : Mksfs} {r : Record} {c b len : Nat} {data : Nat → UInt8} :
      Built s r → c ∈ r.inos → (s.ci c).inode.type ≠ .dir → len ≤ sfsBlksize →
      packBlock c data len s = .ok (b, s') → Built s' (r.append c b)
  | entry {s s' : Mksfs} {r : Record} {dir file : Nat} {name : List UInt8} :
      Built s r → dir ∈ r.inos → file ∈ r.inos →
      Ucore.addEntry dir file name s = .ok s' → Built s' (r.addEntry dir s.nextIno file name)

namespace MksfsAux

open Mksfs

variable {s s' : Mksfs} {r : Record} {P T : Set Nat} {b c d i n real file len size : Nat} {σ : MksfsSlot} {type : SfsType}
  {name : List UInt8} {data : Nat → UInt8} {cache : Nat → Nat → Nat} {e : Nat × List UInt8}

/-! ## New inodes -/

/-- The next block is no inode yet. -/
theorem next_not_mem (h : s.Sound r P T) : s.nextIno ∉ r.inos := by
  intro hm
  have hp := firstBlock_pos s.ninos
  have hlow := h.low
  have hr : s.nextIno ≠ sfsBlknRoot := by
    have h1 : sfsBlknRoot = 1 := rfl
    omega
  have hne : s.named r (.inode s.nextIno) ≠ s.nextIno := named_ne_next h
  exact hne (if_pos ⟨hm, hr⟩)

theorem ne_next (h : s.Sound r P T) (hc : c ∈ r.inos) : c ≠ s.nextIno := by
  rintro rfl
  exact next_not_mem h hc

theorem named_newInode (h : s.Sound r P T) (hb : r.blocks s.nextIno = []) :
    (s.newInode real type).named (r.insertIno s.nextIno) σ = if σ = .inode s.nextIno then s.nextIno else s.named r σ := by
  have hr : s.nextIno ≠ sfsBlknRoot := by
    have hp := firstBlock_pos s.ninos
    have hlow := h.low
    have h1 : sfsBlknRoot = 1 := rfl
    omega
  have hnot := next_not_mem h
  have hm : ∀ f, f ∈ (r.insertIno s.nextIno).inos ↔ f = s.nextIno ∨ f ∈ r.inos := fun f => Finset.mem_insert
  have hs : (s.newInode real type).ci s.nextIno = freshInode real s.nextIno type := update_self _ _ _
  have ho : ∀ f, f ≠ s.nextIno → (s.newInode real type).ci f = s.ci f := fun f hf => update_of_ne hf _ _
  cases σ with
  | inode f =>
    by_cases hf : f = s.nextIno
    · rw [hf, if_pos rfl]
      exact if_pos ⟨(hm _).mpr (Or.inl rfl), hr⟩
    · rw [if_neg (by simp [hf])]
      exact if_congr (by rw [hm]; simp [hf]) rfl rfl
  | data f k =>
    rw [if_neg (by simp)]
    by_cases hf : f = s.nextIno
    · rw [hf, named, named, if_pos ((hm _).mpr (Or.inl rfl)), if_neg hnot]
      change (r.blocks s.nextIno).getD k 0 = 0
      rw [hb]
      rfl
    · exact if_congr (by rw [hm]; simp [hf]) rfl rfl
  | table f | dbTable f =>
    rw [if_neg (by simp)]
    by_cases hf : f = s.nextIno
    · rw [hf, named, named, if_pos ((hm _).mpr (Or.inl rfl)), if_neg hnot, hs]
      rfl
    · rw [named, ho f hf]
      exact if_congr (by rw [hm]; simp [hf]) rfl rfl
  | dbEntry f k =>
    rw [if_neg (by simp)]
    by_cases hf : f = s.nextIno
    · rw [hf, named, named, if_neg (show ¬(_ ∧ _) from fun hn => hnot hn.1), hs, if_neg (fun hn => hn.2.1 rfl)]
    · rw [named, ho f hf]
      exact if_congr (by rw [hm]; simp [hf]) rfl rfl

theorem mem_inodes_newInode : c ∈ (s.newInode real type).inodes i ↔ (i = hash64 real ∧ c = s.nextIno) ∨ c ∈ s.inodes i := by
  change c ∈ update s.inodes (hash64 real) _ i ↔ _
  by_cases hi : i = hash64 real
  · rw [hi, update_self]
    simp
  · simp [hi]

/-- `alloc_cache_inode` makes the next block an inode. -/
theorem sound_newInode (h : s.Sound r ∅ ∅) (hbl : r.blocks s.nextIno = []) (hlt : s.nextIno < s.ninos) :
    (s.newInode real type).Sound (r.insertIno s.nextIno) ∅ ∅ := by
  have ha := sound_alloc h hlt
  have hnot := next_not_mem h
  have hmem : ∀ f, f ∈ (r.insertIno s.nextIno).inos ↔ f = s.nextIno ∨ f ∈ r.inos := fun f => Finset.mem_insert
  have ho : ∀ f, f ≠ s.nextIno → (s.newInode real type).ci f = s.ci f := fun f hf => update_of_ne hf _ _
  have hs : (s.newInode real type).ci s.nextIno = freshInode real s.nextIno type := update_self _ _ _
  have hnext0 : s.nextIno ≠ 0 := pending_ne_zero ha (Or.inl (Or.inl rfl))
  refine ⟨h.max, ha.low, ha.high, ha.unused, (hmem _).mpr (Or.inr h.root), ?_, ?_, ?_, ?_, ?_, ?_, ?_, ?_⟩
  · have hex : Exact s.region (insert s.nextIno (∅ ∪ ∅)) (Finset.Ico (s.nextIno + 1) s.ninos) (names (s.named r)) :=
      exact_alloc h hlt
    have h0 : s.named r (.inode s.nextIno) = 0 := if_neg fun hn => hnot hn.1
    exact hex.assign_name ⟨h.low, hlt⟩ (by simp) hnext0 h0 fun σ => named_newInode h hbl
  · intro b hb
    simp at hb
  · intro i b hb
    obtain ⟨hi, hr, hσ⟩ := h.listed i b hb
    refine ⟨hi, ⟨hr.1, Nat.lt_succ_of_lt hr.2⟩, ?_⟩
    intro σ hn
    rw [named_newInode h hbl] at hn
    split at hn
    · omega
    · exact hσ σ hn
  · intro σ hσ h0
    rw [named_newInode h hbl] at h0 ⊢
    have hne : σ ≠ .inode s.nextIno := by
      rintro rfl
      exact hσ
    rw [if_neg hne] at h0 ⊢
    exact h.tables σ hσ h0
  · intro b hb
    exact absurd hb (Set.notMem_empty b)
  · intro t ht
    exact absurd ht (Set.notMem_empty t)
  · intro c hc
    rcases (hmem c).mp hc with rfl | hc
    · rw [hs]
      rfl
    · rw [ho c (ne_next h hc)]
      exact h.ino c hc
  · intro i c
    rw [mem_inodes_newInode, hmem, h.inodes]
    by_cases hc : c = s.nextIno
    · rw [hc, hs]
      constructor
      · rintro (⟨rfl, -⟩ | ⟨hm, -⟩)
        · exact ⟨Or.inl rfl, rfl⟩
        · exact absurd hm hnot
      · rintro ⟨-, hi⟩
        exact Or.inl ⟨hi.symm, rfl⟩
    · rw [ho c hc]
      simp [hc]

/-! ## What the calls do -/

theorem packed_fresh {ino : Nat} : Packed cache (freshInode real ino type) [] := by
  refine ⟨rfl, rfl, Nat.zero_le _, fun k _ => rfl, by simp [freshInode], fun h0 => absurd rfl h0, by simp [freshInode],
    fun h0 => absurd rfl h0, fun h0 => absurd rfl h0, ?_, ?_, ?_⟩
  · exact fun hlt => absurd hlt (Nat.not_lt_zero _)
  · exact fun hlt => absurd hlt (Nat.not_lt_zero _)
  · exact fun hlt => absurd hlt (Nat.not_lt_zero _)

section

variable (h : s.Tracked r ∅) (hl : s.Linked r)
include h hl

theorem tracked_newInode (hlt : s.nextIno < s.ninos) : (s.newInode real type).Tracked (r.insertIno s.nextIno) ∅ := by
  have hn := next_not_mem h.sound
  have hb := (hl.outside _ hn).1
  refine ⟨sound_newInode h.sound hb hlt, ?_⟩
  intro c hc
  rcases Finset.mem_insert.mp hc with rfl | hc
  · change Packed s.cache (update s.ci s.nextIno _ s.nextIno) (r.blocks s.nextIno)
    rw [update_self, hb]
    exact packed_fresh
  · change Packed s.cache (update s.ci s.nextIno _ c) (r.blocks c)
    rw [update_of_ne (ne_next h.sound hc)]
    exact h.packed c hc

omit h hl in
theorem links_insertIno (hn : c ∉ r.inos) (he : r.entries c = []) (f : Nat) : (r.insertIno c).links f = r.links f := by
  unfold Record.links Record.insertIno
  rw [Finset.sum_insert hn, he]
  exact Nat.zero_add _

theorem linked_newInode : (s.newInode real type).Linked (r.insertIno s.nextIno) := by
  have hnot := next_not_mem h.sound
  obtain ⟨hb, hen⟩ := hl.outside _ hnot
  have ho : ∀ f ∈ r.inos, (s.newInode real type).ci f = s.ci f :=
    fun f hf => update_of_ne (ne_next h.sound hf) _ _
  have hs : (s.newInode real type).ci s.nextIno = freshInode real s.nextIno type := update_self _ _ _
  refine ⟨?_, ?_, ?_, ?_, ?_, ?_, ?_, hl.image, ?_⟩
  · intro h0
    rcases Finset.mem_insert.mp h0 with h0 | h0
    · have hp := firstBlock_pos s.ninos
      have hlow := h.sound.low
      omega
    · exact hl.zero h0
  · exact hl.nonzero
  · rw [ho _ h.sound.root]
    exact hl.root
  · intro c hc
    exact hl.outside c fun hm => hc (Finset.mem_insert_of_mem hm)
  · intro c hc ht
    rcases Finset.mem_insert.mp hc with rfl | hc
    · change (r.entries s.nextIno).length = (r.blocks s.nextIno).length
      rw [hen, hb]
      rfl
    · rw [ho c hc] at ht
      exact hl.dirs c hc ht
  · intro c hc ht
    rcases Finset.mem_insert.mp hc with rfl | hc
    · exact hen
    · rw [ho c hc] at ht
      exact hl.others c hc ht
  · intro c e he
    obtain ⟨hm, hn⟩ := hl.targets c e he
    exact ⟨Finset.mem_insert_of_mem hm, hn⟩
  · intro c hc
    rw [links_insertIno hnot hen]
    rcases Finset.mem_insert.mp hc with rfl | hc
    · rw [hs]
      -- no entry can name an inode that is new
      have hz : r.links s.nextIno = 0 := by
        refine Finset.sum_eq_zero fun d _ => List.countP_eq_zero.mpr ?_
        intro e he hn
        exact hnot ((of_decide_eq_true hn) ▸ (hl.targets d e he).1)
      rw [hz]
      rfl
    · rw [ho c hc]
      exact hl.nlinks c hc

omit h hl in
/-- `alloc_cache_inode` with a new number. -/
theorem allocCacheInode_spec (real : Nat) (type : SfsType) (h : s.Tracked r ∅) (hl : s.Linked r) :
    (s.ninos < s.nextIno + 1 ∧ allocCacheInode real 0 type s = .error .outOfSpace) ∨
      (allocCacheInode real 0 type s = .ok (s.nextIno, s.newInode real type) ∧
        (s.newInode real type).Tracked (r.insertIno s.nextIno) ∅ ∧ (s.newInode real type).Linked (r.insertIno s.nextIno)) := by
  unfold allocCacheInode inoOrNew sfsAllocIno
  rw [if_neg (not_not.mpr rfl)]
  by_cases hlt : s.nextIno < s.ninos
  · rw [if_pos hlt, bind_ok]
    exact Or.inr ⟨rfl, tracked_newInode h hl hlt, linked_newInode h hl⟩
  · rw [if_neg hlt, bind_error]
    exact Or.inl ⟨by omega, rfl⟩

/-- The block of an entry is not the one that is allocated next. -/
theorem entry_ne_next {k : Nat} (he : (r.entries c)[k]? = some e) :
    k < (r.blocks c).length ∧ (r.blocks c).getD k 0 ≠ s.nextIno := by
  have hc : c ∈ r.inos := by
    by_contra hn
    rw [(hl.outside c hn).2] at he
    nomatch he
  have hd : (s.ci c).inode.type = .dir := by
    by_contra hn
    rw [hl.others c hc hn] at he
    nomatch he
  obtain ⟨hk, -⟩ := List.getElem?_eq_some_iff.mp he
  rw [hl.dirs c hc hd] at hk
  have hna : s.named r (.data c k) = (r.blocks c).getD k 0 := if_pos hc
  exact ⟨hk, hna ▸ named_ne_next h.sound⟩

omit h hl in
theorem blocks_append (c d b : Nat) : (r.append c b).blocks d = if d = c then r.blocks c ++ [b] else r.blocks d :=
  update_apply _ _ _ _

theorem nonzero_append (d : Nat) : 0 ∉ (r.append c s.nextIno).blocks d := by
  rw [blocks_append]
  split
  · intro hm
    rcases List.mem_append.mp hm with hm | hm
    · exact hl.nonzero c hm
    · have h0 := List.mem_singleton.mp hm
      have hp := firstBlock_pos s.ninos
      have hlow := h.sound.low
      omega
  · exact hl.nonzero d

/-- The blocks of entries stay where another block is packed. -/
theorem image_packs {k : Nat} (hp : Packs s s' data len) (he : (r.entries d)[k]? = some e) : ∃ old pre,
      s'.image (((r.append c s.nextIno).blocks d).getD k 0) = written (fillEntry old e.1 e.2) sizeofName pre := by
  obtain ⟨hk, hne⟩ := entry_ne_next h hl he
  have hs : ((r.append c s.nextIno).blocks d).getD k 0 = (r.blocks d).getD k 0 := by
    rw [blocks_append]
    by_cases hd : d = c
    · rw [if_pos hd, getD_append, ← hd, if_neg hk.ne]
    · rw [if_neg hd]
  rw [hs, hp.image, update_of_ne hne]
  exact hl.image d k e he

theorem linked_block (hp : Packs s s' data len) (hc : c ∈ r.inos)
    (ht : (s.ci c).inode.type ≠ .dir) : s'.Linked (r.append c s.nextIno) := by
  have hm := hp.sameMeta
  refine ⟨hl.zero, nonzero_append h hl, ?_, ?_, ?_, ?_, hl.targets, fun d k e he => image_packs h hl hp he, ?_⟩
  · rw [hm.type]
    exact hl.root
  · intro d hd
    have hne : d ≠ c := by
      rintro rfl
      exact hd hc
    rw [blocks_append, if_neg hne]
    exact hl.outside d hd
  · intro d hd hdir
    rw [hm.type] at hdir
    have hne : d ≠ c := by
      rintro rfl
      exact ht hdir
    rw [blocks_append, if_neg hne]
    exact hl.dirs d hd hdir
  · intro d hd hdir
    rw [hm.type] at hdir
    exact hl.others d hd hdir
  · intro d hd
    rw [hm.nlinks]
    exact hl.nlinks d hd

end

/-! ## Entries -/

theorem links_addEntry (hd : d ∈ r.inos) (f : Nat) : (r.addEntry d b file name).links f = r.links f + if f = file then 1 else 0 := by
  have hs : ∀ e ∈ r.inos, ((r.addEntry d b file name).entries e).countP (·.1 = f) =
      (r.entries e).countP (·.1 = f) + if e = d then (if f = file then 1 else 0) else 0 := by
    intro e _
    change (update r.entries d _ e).countP _ = _
    by_cases he : e = d
    · rw [he, update_self, List.countP_append, if_pos rfl, List.countP_singleton]
      exact congrArg _ (if_congr (by simp [eq_comm]) rfl rfl)
    · rw [update_of_ne he, if_neg he, Nat.add_zero]
  calc (r.addEntry d b file name).links f
    _ = ∑ e ∈ r.inos, ((r.entries e).countP (·.1 = f) + if e = d then (if f = file then 1 else 0) else 0) :=
      Finset.sum_congr rfl hs
    _ = r.links f + ∑ e ∈ r.inos, if e = d then (if f = file then 1 else 0) else 0 := Finset.sum_add_distrib
    _ = r.links f + if f = file then 1 else 0 := by rw [Finset.sum_ite_eq' r.inos d, if_pos hd]

/-- The links of an inode are not part of its map. -/
theorem packed_nlinks {ci : CacheInode} {bs : List Nat} {nlinks : Nat} (h : Packed cache ci bs) :
    Packed cache { ci with inode := { ci.inode with nlinks := nlinks } } bs :=
  ⟨h.nblks, h.blocks, h.limit, h.direct, h.indirect, h.table, h.dbIndirect, h.dtable, h.ltable, h.l1, h.last, h.l2⟩

/-- Nor are the entries. -/
theorem sound_entries {entries : Nat → List (Nat × List UInt8)} (h : s.Sound r P T) : s.Sound { r with entries := entries } P T :=
  ⟨h.max, h.low, h.high, h.unused, h.root, h.exact, h.pending, h.listed, h.tables, h.plain, h.cached, h.ino, h.inodes⟩

theorem entries_addEntry (c : Nat) :
    (r.addEntry d b file name).entries c = if c = d then r.entries d ++ [(file, name)] else r.entries c :=
  update_apply _ _ _ _

/-- What `add_entry` leaves of a state. -/
structure Entered (s s' : Mksfs) : Prop where
  ninos : s'.ninos = s.ninos
  lt : s.nextIno < s'.nextIno
  bound : s'.nextIno ≤ s.nextIno + 3
  inodes : s'.inodes = s.inodes
  ino : ∀ c, (s'.ci c).ino = (s.ci c).ino
  real : ∀ c, (s'.ci c).real = (s.ci c).real
  type : ∀ c, (s'.ci c).inode.type = (s.ci c).inode.type

section Entry

variable {u : Mksfs}

/-- The last step of `add_entry`. -/
def linkTo (file : Nat) (u : Mksfs) : Mksfs :=
  u.setCi file { u.ci file with inode := { (u.ci file).inode with nlinks := ((u.ci file).inode.nlinks + 1) % 2 ^ 16 } }

theorem ci_linkTo_of_ne (h : c ≠ file) : (linkTo file u).ci c = u.ci c := update_of_ne h _ _

theorem ci_linkTo_self : (linkTo file u).ci file =
    { u.ci file with inode := { (u.ci file).inode with nlinks := ((u.ci file).inode.nlinks + 1) % 2 ^ 16 } } :=
  update_self _ _ _

theorem type_linkTo : ((linkTo file u).ci c).inode.type = (u.ci c).inode.type := by
  by_cases hc : c = file
  · rw [hc, ci_linkTo_self]
  · rw [ci_linkTo_of_ne hc]

theorem tracked_linkTo (h : u.Tracked r P) : (linkTo file u).Tracked r P := by
  refine ⟨sound_congr h.sound (sameFrame_setCi rfl rfl) fun σ => named_setCi rfl rfl, ?_⟩
  intro c hc
  by_cases hcf : c = file
  · rw [hcf] at hc ⊢
    rw [ci_linkTo_self]
    exact packed_nlinks (h.packed file hc)
  · rw [ci_linkTo_of_ne hcf]
    exact h.packed c hc

theorem entered_linkTo {e : Nat → UInt8} (hp : Packs { s with entry := e } u data len) : Entered s (linkTo file u) := by
  have hm := hp.sameMeta
  refine ⟨hp.ninos, hp.lt, hp.bound, hp.inodes, ?_, ?_, ?_⟩
  · intro c
    refine Eq.trans ?_ (hm.ino c)
    by_cases hc : c = file
    · rw [hc, ci_linkTo_self]
    · rw [ci_linkTo_of_ne hc]
  · intro c
    refine Eq.trans ?_ (hm.real c)
    by_cases hc : c = file
    · rw [hc, ci_linkTo_self]
    · rw [ci_linkTo_of_ne hc]
  · intro c
    exact type_linkTo.trans (hm.type c)

theorem linked_entry {old : Nat → UInt8} (h : s.Tracked r ∅) (hl : s.Linked r)
    (hp : Packs { s with entry := fillEntry old file name } u (fillEntry old file name) sizeofName) (hd : d ∈ r.inos)
    (ht : (s.ci d).inode.type = .dir) (hf : file ∈ r.inos) (hn : name.length ≤ sfsMaxFnameLen) :
    (linkTo file u).Linked (r.addEntry d s.nextIno file name) := by
  have hm := hp.sameMeta
  have hty : ∀ c, ((linkTo file u).ci c).inode.type = (s.ci c).inode.type := fun c => type_linkTo.trans (hm.type c)
  have hb : (r.addEntry d s.nextIno file name).blocks = (r.append d s.nextIno).blocks := rfl
  refine ⟨hl.zero, nonzero_append h hl, ?_, ?_, ?_, ?_, ?_, ?_, ?_⟩
  · rw [hty]
    exact hl.root
  · intro c hc
    have hne : c ≠ d := by
      rintro rfl
      exact hc hd
    rw [hb, blocks_append, entries_addEntry, if_neg hne, if_neg hne]
    exact hl.outside c hc
  · intro c hc hdir
    rw [hty] at hdir
    rw [hb, blocks_append, entries_addEntry]
    by_cases hcd : c = d
    · rw [if_pos hcd, if_pos hcd, List.length_append, List.length_append, hl.dirs d hd ht]
      rfl
    · rw [if_neg hcd, if_neg hcd]
      exact hl.dirs c hc hdir
  · intro c hc hdir
    rw [hty] at hdir
    have hne : c ≠ d := by
      rintro rfl
      exact hdir ht
    rw [entries_addEntry, if_neg hne]
    exact hl.others c hc hdir
  · intro c e he
    rw [entries_addEntry] at he
    by_cases hcd : c = d
    · rw [if_pos hcd] at he
      rcases List.mem_append.mp he with he | he
      · exact hl.targets d e he
      · obtain rfl := List.mem_singleton.mp he
        exact ⟨hf, hn⟩
    · rw [if_neg hcd] at he
      exact hl.targets c e he
  · intro c k e he
    have h' : ({ s with entry := fillEntry old file name } : Mksfs).Tracked r ∅ :=
      ⟨sound_congr h.sound ⟨rfl, rfl, rfl, rfl, rfl, fun _ => rfl, fun _ => rfl⟩ (fun _ => rfl), h.packed⟩
    have hl' : ({ s with entry := fillEntry old file name } : Mksfs).Linked r :=
      ⟨hl.zero, hl.nonzero, hl.root, hl.outside, hl.dirs, hl.others, hl.targets, hl.image, hl.nlinks⟩
    rw [entries_addEntry] at he
    by_cases hcd : c = d
    · rw [if_pos hcd] at he
      by_cases hk : k < (r.entries d).length
      · rw [List.getElem?_append_left hk, ← hcd] at he
        exact (image_packs (c := d) h' hl' hp he :)
      · -- the new entry is in the new block
        have hk' : k = (r.entries d).length := by
          obtain ⟨hlt, -⟩ := List.getElem?_eq_some_iff.mp he
          rw [List.length_append, List.length_singleton] at hlt
          omega
        rw [hk', List.getElem?_concat_length] at he
        cases he
        refine ⟨old, s.image s.nextIno, ?_⟩
        have hs : ((r.append d s.nextIno).blocks c).getD k 0 = s.nextIno := by
          rw [blocks_append, if_pos hcd, getD_append, if_pos (by rw [hk', hl.dirs d hd ht])]
        rw [hb, hs]
        change u.image s.nextIno = _
        rw [hp.image]
        exact update_self _ _ _
    · rw [if_neg hcd] at he
      exact (image_packs (c := d) h' hl' hp he :)
  · intro c hc
    rw [links_addEntry hd]
    by_cases hcf : c = file
    · rw [hcf, ci_linkTo_self, if_pos rfl]
      change ((u.ci file).inode.nlinks + 1) % 2 ^ 16 = _
      rw [hm.nlinks]
      change ((s.ci file).inode.nlinks + 1) % 2 ^ 16 = _
      rw [hl.nlinks file hf]
      omega
    · rw [ci_linkTo_of_ne hcf, if_neg hcf, hm.nlinks]
      exact hl.nlinks c hc

/-- `add_entry` appends a block with the entry to the directory, and counts a link of the file. -/
theorem addEntry_spec (h : s.Tracked r ∅) (hl : s.Linked r) (hd : d ∈ r.inos) (ht : (s.ci d).inode.type = .dir) (hf : file ∈ r.inos)
    (hn : name.length ≤ sfsMaxFnameLen) : (sfsLnNblks ≤ (r.blocks d).length ∧ addEntry d file name s = .error .fileTooBig) ∨
      (s.ninos < s.nextIno + 3 ∧ addEntry d file name s = .error .outOfSpace) ∨
      ∃ s', addEntry d file name s = .ok s' ∧ s'.Tracked (r.addEntry d s.nextIno file name) ∅ ∧
        s'.Linked (r.addEntry d s.nextIno file name) ∧ Entered s s' := by
  have hino : (s.ci file).ino = file := h.sound.ino file hf
  have h' : ({ s with entry := fillEntry s.entry file name } : Mksfs).Tracked r ∅ :=
    ⟨sound_congr h.sound ⟨rfl, rfl, rfl, rfl, rfl, fun _ => rfl, fun _ => rfl⟩ (fun _ => rfl), h.packed⟩
  unfold addEntry
  rw [ensure_of ⟨ht, hn⟩, bind_ok, hino]
  dsimp only
  rcases packBlock_spec _ h' hd (show sizeofName ≤ sfsBlksize by decide) with ⟨hb, he⟩ | ⟨hfu, he⟩ | ⟨u, he, htr, hp⟩
  · refine Or.inl ⟨hb, ?_⟩
    rw [he, bind_error]
  · refine Or.inr (Or.inl ⟨hfu, ?_⟩)
    rw [he, bind_error]
  · refine Or.inr (Or.inr ⟨linkTo file u, ?_, ?_, linked_entry h hl hp hd ht hf hn, entered_linkTo hp⟩)
    · rw [he, bind_ok]
      rfl
    · have htr' : u.Tracked (r.addEntry d s.nextIno file name) ∅ :=
        ⟨sound_entries htr.sound, htr.packed⟩
      exact tracked_linkTo htr'

end Entry

/-! ## New images -/

section New

variable {entry : Nat → UInt8} {image : Nat → Nat → UInt8}

/-- The number of blocks that `create_sfs` makes of an image file. -/
def imageBlocks (size : Nat) : Nat := min (size / sfsBlksize % 2 ^ 32) sfsMaxNblks

theorem createSfs_eq : createSfs size entry image =
    if imageBlocks size ≤ firstBlock (imageBlocks size) then .error .imgTooSmall else .ok (newImage (imageBlocks size) entry image) := rfl

theorem ci_newImage_root : (newImage n entry image).ci sfsBlknRoot = freshInode 0 sfsBlknRoot .dir := by simp [newImage]

theorem mem_root : c ∈ Record.root.inos ↔ c = sfsBlknRoot := Finset.mem_singleton

theorem named_newImage : (newImage n entry image).named .root σ = 0 := by
  cases σ with
  | inode f => exact if_neg fun h => h.2 (mem_root.mp h.1)
  | data f k => exact ite_self 0
  | table f | dbTable f =>
    rw [named]
    split
    · rename_i hf
      rw [mem_root.mp hf, ci_newImage_root]
      rfl
    · rfl
  | dbEntry f k => exact ite_self 0

theorem mem_inodes_newImage : c ∈ (newImage n entry image).inodes i ↔ i = hash64 0 ∧ c = sfsBlknRoot := by
  change c ∈ update (fun _ => []) (hash64 0) [sfsBlknRoot] i ↔ _
  by_cases hi : i = hash64 0
  · rw [hi, update_self]
    simp
  · rw [update_of_ne hi]
    simp [hi]

theorem sound_newImage (hm : n ≤ sfsMaxNblks) (hlt : firstBlock n < n) : (newImage n entry image).Sound .root ∅ ∅ := by
  have hn : ∀ σ, names ((newImage n entry image).named .root) σ = none := fun σ => if_pos named_newImage
  refine ⟨hm, le_rfl, hlt.le, Nat.sub_add_cancel hlt.le, mem_root.mpr rfl, ⟨?_, ?_, ?_, ?_⟩, ?_, ?_, ?_, ?_,
    ?_, ?_, ?_⟩
  · intro b hb
    exact ⟨Finset.mem_Ico.mp hb, by simp⟩
  · intro σ b hb
    rw [hn] at hb
    nomatch hb
  · intro σ τ b hb
    rw [hn] at hb
    nomatch hb
  · exact fun b hb => Or.inl (Finset.mem_Ico.mpr hb)
  · intro b hb
    simp at hb
  · intro i b hb
    exact absurd hb List.not_mem_nil
  · exact fun σ _ h0 => absurd named_newImage h0
  · exact fun b hb => absurd hb (Set.notMem_empty b)
  · exact fun t ht => absurd ht (Set.notMem_empty t)
  · intro c hc
    rw [mem_root.mp hc, ci_newImage_root]
    rfl
  · intro i c
    rw [mem_inodes_newImage, mem_root]
    constructor
    · rintro ⟨rfl, rfl⟩
      exact ⟨rfl, by rw [ci_newImage_root]; rfl⟩
    · rintro ⟨rfl, hi⟩
      rw [ci_newImage_root] at hi
      exact ⟨hi.symm, rfl⟩

theorem linked_newImage : (newImage n entry image).Linked .root := by
  refine ⟨by simp [mem_root, sfsBlknRoot], fun _ => List.not_mem_nil, by rw [ci_newImage_root]; rfl, fun _ _ => ⟨rfl, rfl⟩,
    fun _ _ _ => rfl, fun _ _ _ => rfl, ?_, ?_, ?_⟩
  · intro c e he
    nomatch he
  · intro c k e he
    nomatch he
  · intro c hc
    rw [mem_root.mp hc, ci_newImage_root]
    rfl

theorem tracked_newImage (hm : n ≤ sfsMaxNblks) (hlt : firstBlock n < n) : (newImage n entry image).Tracked .root ∅ := by
  refine ⟨sound_newImage hm hlt, ?_⟩
  intro c hc
  rw [mem_root.mp hc, ci_newImage_root]
  exact packed_fresh

theorem createSfs_spec (size : Nat) (entry : Nat → UInt8) (image : Nat → Nat → UInt8) :
    createSfs size entry image = .error .imgTooSmall ∨
      (createSfs size entry image = .ok (newImage (imageBlocks size) entry image) ∧
        (newImage (imageBlocks size) entry image).Tracked .root ∅) := by
  rw [createSfs_eq]
  split
  · exact Or.inl rfl
  · rename_i hlt
    exact Or.inr ⟨rfl, tracked_newImage (Nat.min_le_right _ _) (not_le.mp hlt)⟩

end New

/-- What holds of an image under construction. -/
theorem built_spec (h : Built s r) : s.Tracked r ∅ ∧ s.Linked r := by
  induction h with
  | create hr =>
    rcases createSfs_spec _ _ _ with he | ⟨he, htr⟩
    · rw [hr] at he
      nomatch he
    · rw [hr] at he
      cases he
      exact ⟨htr, linked_newImage⟩
  | inode _ hr ih =>
    rcases allocCacheInode_spec _ _ ih.1 ih.2 with ⟨-, he⟩ | ⟨he, hs⟩
    · rw [hr] at he
      nomatch he
    · rw [hr] at he
      cases he
      exact hs
  | block _ hc ht hlen hr ih =>
    rcases packBlock_spec _ ih.1 hc hlen with ⟨-, he⟩ | ⟨-, he⟩ | ⟨s', he, htr, hp⟩
    · rw [hr] at he
      nomatch he
    · rw [hr] at he
      nomatch he
    · rw [hr] at he
      cases he
      exact ⟨htr, linked_block ih.1 ih.2 hp hc ht⟩
  | @entry s s' r dir file name _ hd hf hr ih =>
    obtain ⟨⟨ht, hn⟩, -⟩ := ensure_bind_eq_ok.mp hr
    rcases addEntry_spec ih.1 ih.2 hd ht hf hn with ⟨-, he⟩ | ⟨-, he⟩ | ⟨s', he, htr, hl, -⟩
    · rw [hr] at he
      nomatch he
    · rw [hr] at he
      nomatch he
    · rw [hr] at he
      cases he
      exact ⟨htr, hl⟩

end MksfsAux

end Ucore
