import Mathlib.Order.Interval.Finset.Nat
import Ucore.Lemmas.MksfsMap
import Ucore.Lib.Ownership

/-!
# Ownership in the image builder

Every block that `mksfs` has allocated is an inode, a block of a file or a directory, or a table, and only one of them (`Sound`).
Between its allocation and the place that it gets, a block is pending: a plain one, or one that is a cache block already. The
functions that allocate a block make it pending (`sound_alloc`, `sound_newTable`), and `append_block` gives it its place
(`appendBlock_spec`).
-/

namespace Ucore

open Checked Ownership Function

/-- What was put into an image: its inodes, the blocks that `append_block` was called with for each of them, and the entries, a number
and a name, that `add_entry` added to each directory. -/
structure Record where
  inos : Finset Nat
  blocks : Nat → List Nat
  entries : Nat → List (Nat × List UInt8)

namespace Record

/-- A block is appended to a file. -/
def append (r : Record) (file ino : Nat) : Record := { r with blocks := update r.blocks file (r.blocks file ++ [ino]) }

/-- A new inode. -/
def insertIno (r : Record) (ino : Nat) : Record := { r with inos := insert ino r.inos }

end Record

/-- The places that a block of an image can have. -/
inductive MksfsSlot
  | inode (file : Nat)
  | data (file index : Nat)
  | table (file : Nat)
  | dbTable (file : Nat)
  | dbEntry (file index : Nat)
  deriving DecidableEq

/-- The places of cache blocks. -/
def MksfsSlot.IsTable : MksfsSlot → Prop
  | .inode _ => False
  | .data _ _ => False
  | .table _ => True
  | .dbTable _ => True
  | .dbEntry _ _ => True

/-- The first block behind the bitmap. -/
def firstBlock (ninos : Nat) : Nat := sfsBlknFreemap + (ninos + sfsBlkbits - 1) / sfsBlkbits

namespace Mksfs

/-- The blocks behind the bitmap. -/
def region (s : Mksfs) : Set Nat := { b | firstBlock s.ninos ≤ b ∧ b < s.ninos }

/-- The block in a place, 0 where there is none. The root is not behind the bitmap. -/
def named (s : Mksfs) (r : Record) : MksfsSlot → Nat
  | .inode file => if file ∈ r.inos ∧ file ≠ sfsBlknRoot then file else 0
  | .data file index => if file ∈ r.inos then (r.blocks file).getD index 0 else 0
  | .table file => if file ∈ r.inos then (s.ci file).inode.indirect else 0
  | .dbTable file => if file ∈ r.inos then (s.ci file).inode.dbIndirect else 0
  | .dbEntry file index =>
    if file ∈ r.inos ∧ (s.ci file).inode.dbIndirect ≠ 0 ∧ index < sfsBlkNentry then s.cache (s.ci file).inode.dbIndirect index else 0

/-- Every block behind the bitmap is free, pending (`P`, or `T` for a cache block), or in one place, and the hash lists hold the cache
blocks and the inodes. -/
structure Sound (s : Mksfs) (r : Record) (P T : Set Nat) : Prop where
  max : s.ninos ≤ sfsMaxNblks
  low : firstBlock s.ninos ≤ s.nextIno
  high : s.nextIno ≤ s.ninos
  unused : s.unusedBlocks + s.nextIno = s.ninos
  root : sfsBlknRoot ∈ r.inos
  exact : Exact s.region (P ∪ T) (Finset.Ico s.nextIno s.ninos) (names (s.named r))
  pending : ∀ b ∈ P ∪ T, firstBlock s.ninos ≤ b ∧ b < s.nextIno
  listed : ∀ i b, b ∈ s.blocks i → i = hash32 0 ∧ (firstBlock s.ninos ≤ b ∧ b < s.nextIno) ∧ ∀ σ, s.named r σ = b → σ.IsTable
  tables : ∀ σ, σ.IsTable → s.named r σ ≠ 0 → s.named r σ ∈ s.blocks (hash32 0)
  plain : ∀ b ∈ P, ∀ i, b ∉ s.blocks i
  cached : ∀ t ∈ T, t ∈ s.blocks (hash32 0)
  ino : ∀ c ∈ r.inos, (s.ci c).ino = c
  inodes : ∀ i c, c ∈ s.inodes i ↔ c ∈ r.inos ∧ hash64 (s.ci c).real = i

/-- A block is allocated. -/
def allocated (s : Mksfs) : Mksfs := { s with unusedBlocks := s.unusedBlocks - 1, nextIno := s.nextIno + 1 }

/-- A cache block is allocated. -/
def newTable (s : Mksfs) : Mksfs :=
  { s.allocated with
    cache := (update s.cache s.nextIno fun _ => 0)
    blocks := (update s.blocks (hash32 0) (s.nextIno :: s.blocks (hash32 0))) }

end Mksfs

namespace MksfsAux

open Mksfs

variable {s s' : Mksfs} {r : Record} {P T : Set Nat} {b c d i t v : Nat} {σ τ : MksfsSlot} {x : CacheInode}

theorem firstBlock_pos (n : Nat) : 2 ≤ firstBlock n := Nat.le_add_right _ _

section Facts

variable (h : s.Sound r P T)
include h

/-- A block that is in a place lies behind the bitmap, is allocated, and is not pending. -/
theorem named_facts (hb : s.named r σ ≠ 0) : firstBlock s.ninos ≤ s.named r σ ∧ s.named r σ < s.nextIno ∧ s.named r σ ∉ P ∪ T := by
  obtain ⟨hU, hf, hfix⟩ := h.exact.held_mem σ _ (names_eq_some.mpr ⟨rfl, hb⟩)
  refine ⟨hU.1, ?_, hfix⟩
  by_contra hc
  exact hf (Finset.mem_Ico.mpr ⟨by omega, hU.2⟩)

theorem named_inj (hb : s.named r σ ≠ 0) (he : s.named r σ = s.named r τ) : σ = τ :=
  h.exact.inj σ τ _ (names_eq_some.mpr ⟨rfl, hb⟩) (names_eq_some.mpr ⟨he.symm, hb⟩)

/-- The blocks of different places differ. -/
theorem ne_of_named {a b : Nat} (hσ : s.named r σ = a) (hτ : s.named r τ = b) (h0 : a ≠ 0) (hne : σ ≠ τ) : a ≠ b := by
  intro he
  exact hne (named_inj h (by rw [hσ]; exact h0) (by rw [hσ, hτ, he]))

theorem named_ne_next : s.named r σ ≠ s.nextIno := by
  intro he
  have hp := firstBlock_pos s.ninos
  have hl := h.low
  have hb : s.named r σ ≠ 0 := by omega
  have := (named_facts h hb).2.1
  omega

theorem pending_ne_zero (ht : t ∈ P ∪ T) : t ≠ 0 := by
  have hp := firstBlock_pos s.ninos
  have hl := (h.pending t ht).1
  omega

omit h in
theorem free_erase : (Finset.Ico s.nextIno s.ninos).erase s.nextIno = Finset.Ico (s.nextIno + 1) s.ninos := by
  ext b
  simp only [Finset.mem_erase, Finset.mem_Ico]
  omega

/-- The next block is allocated. -/
theorem exact_alloc (hlt : s.nextIno < s.ninos) :
    Exact s.region (insert s.nextIno (P ∪ T)) (Finset.Ico (s.nextIno + 1) s.ninos) (names (s.named r)) := by
  rw [← free_erase]
  exact h.exact.take (Finset.mem_Ico.mpr ⟨le_rfl, hlt⟩)

/-- `sfs_alloc_ino` makes a block pending. -/
theorem sound_alloc (hlt : s.nextIno < s.ninos) : s.allocated.Sound r (insert s.nextIno P) T where
  max := h.max
  low := Nat.le_succ_of_le h.low
  high := hlt
  unused := by
    have := h.unused
    show s.unusedBlocks - 1 + (s.nextIno + 1) = s.ninos
    omega
  root := h.root
  exact := by
    rw [Set.insert_union]
    exact exact_alloc h hlt
  pending b hb := by
    rw [Set.insert_union] at hb
    rcases hb with rfl | hb
    · exact ⟨h.low, Nat.lt_succ_self _⟩
    · exact ⟨(h.pending b hb).1, Nat.lt_succ_of_lt (h.pending b hb).2⟩
  listed i b hb := by
    obtain ⟨hi, hr, hσ⟩ := h.listed i b hb
    exact ⟨hi, ⟨hr.1, Nat.lt_succ_of_lt hr.2⟩, hσ⟩
  tables := h.tables
  plain b hb i := by
    rcases hb with rfl | hb
    · intro hm
      exact lt_irrefl _ (h.listed i _ hm).2.1.2
    · exact h.plain b hb i
  cached := h.cached
  ino := h.ino
  inodes := h.inodes

/-- A new cache block is not the double table of a file. -/
theorem named_newTable : s.newTable.named r σ = s.named r σ := by
  cases σ with
  | inode f => rfl
  | data f k => rfl
  | table f => rfl
  | dbTable f => rfl
  | dbEntry f k =>
    show (if _ ∧ _ then update s.cache s.nextIno (fun _ => 0) (s.ci f).inode.dbIndirect k else 0) = _
    refine ite_congr rfl ?_ (fun _ => rfl)
    intro hc
    have hne : s.named r (.dbTable f) ≠ s.nextIno := named_ne_next h
    rw [named, if_pos hc.1] at hne
    rw [update_of_ne hne]

/-- `alloc_cache_block` makes a cache block pending. -/
theorem sound_newTable (hlt : s.nextIno < s.ninos) : s.newTable.Sound r P (insert s.nextIno T) := by
  have he := exact_alloc h hlt
  have hmem : ∀ i b, b ∈ s.newTable.blocks i ↔ (i = hash32 0 ∧ b = s.nextIno) ∨ b ∈ s.blocks i := by
    intro i b
    show b ∈ update s.blocks (hash32 0) _ i ↔ _
    by_cases hi : i = hash32 0
    · rw [hi, update_self]
      simp
    · rw [update_of_ne hi]
      simp [hi]
  refine ⟨h.max, Nat.le_succ_of_le h.low, hlt, ?_, h.root, ?_, ?_, ?_, ?_, ?_, ?_, h.ino, h.inodes⟩
  · have := h.unused
    show s.unusedBlocks - 1 + (s.nextIno + 1) = s.ninos
    omega
  · rw [Set.union_insert]
    exact he.congr_names fun σ => named_newTable h
  · intro b hb
    rw [Set.union_insert] at hb
    rcases hb with rfl | hb
    · exact ⟨h.low, Nat.lt_succ_self _⟩
    · exact ⟨(h.pending b hb).1, Nat.lt_succ_of_lt (h.pending b hb).2⟩
  · intro i b hb
    rcases (hmem i b).mp hb with ⟨hi, rfl⟩ | hb
    · refine ⟨hi, ⟨h.low, Nat.lt_succ_self _⟩, ?_⟩
      intro σ hσ
      rw [named_newTable h] at hσ
      exact absurd hσ (named_ne_next h)
    · obtain ⟨hi, hr, hσ⟩ := h.listed i b hb
      refine ⟨hi, ⟨hr.1, Nat.lt_succ_of_lt hr.2⟩, ?_⟩
      intro σ hσ'
      rw [named_newTable h] at hσ'
      exact hσ σ hσ'
  · intro σ hσ h0
    rw [named_newTable h] at h0 ⊢
    exact (hmem _ _).mpr (Or.inr (h.tables σ hσ h0))
  · intro b hb i hm
    rcases (hmem i b).mp hm with ⟨-, rfl⟩ | hm
    · exact lt_irrefl _ (h.pending _ (Or.inl hb)).2
    · exact h.plain b hb i hm
  · intro t ht
    rcases ht with rfl | ht
    · exact (hmem _ _).mpr (Or.inl ⟨rfl, rfl⟩)
    · exact (hmem _ _).mpr (Or.inr (h.cached t ht))

end Facts

/-! ## Changes of inodes and tables -/

/-- Two states that differ in tables and in the maps of inodes only. -/
structure SameFrame (s s' : Mksfs) : Prop where
  ninos : s'.ninos = s.ninos
  nextIno : s'.nextIno = s.nextIno
  unusedBlocks : s'.unusedBlocks = s.unusedBlocks
  inodes : s'.inodes = s.inodes
  blocks : s'.blocks = s.blocks
  ino : ∀ c, (s'.ci c).ino = (s.ci c).ino
  real : ∀ c, (s'.ci c).real = (s.ci c).real

/-- Some blocks that were pending get a place: a cache block that of a table, another one that of something else. -/
theorem Sound.place {r' : Record} {P' T' : Set Nat} (h : s.Sound r P T) (hf : SameFrame s s') (hr : r'.inos = r.inos) (hP : P' ⊆ P)
    (hT : T' ⊆ T) (he : Exact s.region (P' ∪ T') (Finset.Ico s.nextIno s.ninos) (names (s'.named r')))
    (hpl : ∀ σ, s'.named r' σ = s.named r σ ∨ (σ.IsTable ∧ s'.named r' σ ∈ T) ∨ (¬σ.IsTable ∧ s'.named r' σ ∈ P)) :
    s'.Sound r' P' T' := by
  have hreg : s'.region = s.region := by
    unfold region
    rw [hf.ninos]
  refine ⟨?_, ?_, ?_, ?_, hr ▸ h.root, ?_, ?_, ?_, ?_, ?_, ?_, ?_, ?_⟩
  · rw [hf.ninos]
    exact h.max
  · rw [hf.ninos, hf.nextIno]
    exact h.low
  · rw [hf.ninos, hf.nextIno]
    exact h.high
  · rw [hf.ninos, hf.nextIno, hf.unusedBlocks]
    exact h.unused
  · rw [hreg, hf.ninos, hf.nextIno]
    exact he
  · rw [hf.ninos, hf.nextIno]
    exact fun b hb => h.pending b (hb.imp (fun hm => hP hm) (fun hm => hT hm))
  · intro i b hb
    rw [hf.blocks] at hb
    rw [hf.ninos, hf.nextIno]
    refine ⟨(h.listed i b hb).1, (h.listed i b hb).2.1, ?_⟩
    rintro σ rfl
    rcases hpl σ with hn | ⟨hσ, -⟩ | ⟨-, hp⟩
    · exact (h.listed i _ hb).2.2 σ hn.symm
    · exact hσ
    · exact absurd hb (h.plain _ hp i)
  · intro σ hσ h0
    rw [hf.blocks]
    rcases hpl σ with hn | ⟨-, ht⟩ | ⟨hno, -⟩
    · rw [hn] at h0 ⊢
      exact h.tables σ hσ h0
    · exact h.cached _ ht
    · exact absurd hσ hno
  · rw [hf.blocks]
    exact fun b hb => h.plain b (hP hb)
  · rw [hf.blocks]
    exact fun t ht => h.cached t (hT ht)
  · intro c hc
    rw [hf.ino c]
    exact h.ino c (hr ▸ hc)
  · intro i c
    rw [hf.inodes, hf.real c, hr]
    exact h.inodes i c

/-- No place has changed. -/
theorem sound_congr (h : s.Sound r P T) (hf : SameFrame s s') (hn : ∀ σ, s'.named r σ = s.named r σ) : s'.Sound r P T :=
  Sound.place h hf rfl subset_rfl subset_rfl (h.exact.congr_names hn) fun σ => Or.inl (hn σ)

/-- A pending cache block gets its place. -/
theorem sound_assignTable (h : s.Sound r P (insert t T)) (htP : t ∉ P) (htT : t ∉ T) (hτ : τ.IsTable) (h0 : s.named r τ = 0)
    (hf : SameFrame s s') (hn : ∀ σ, s'.named r σ = if σ = τ then t else s.named r σ) : s'.Sound r P T := by
  have ht : t ∈ P ∪ insert t T := Or.inr (Or.inl rfl)
  have hmem : t ∈ s.region := ⟨(h.pending t ht).1, Nat.lt_of_lt_of_le (h.pending t ht).2 h.high⟩
  have hne : t ∉ P ∪ T := fun hm => hm.elim htP htT
  refine Sound.place h hf rfl subset_rfl (Set.subset_insert t T) ?_ ?_
  · refine Exact.assign_name ?_ hmem hne (pending_ne_zero h ht) h0 hn
    rw [← Set.union_insert]
    exact h.exact
  · intro σ
    rw [hn σ]
    by_cases he : σ = τ
    · rw [if_pos he, he]
      exact Or.inr (Or.inl ⟨hτ, Or.inl rfl⟩)
    · exact Or.inl (if_neg he)

/-- A pending block is appended to a file. -/
theorem sound_append (h : s.Sound r (insert b P) T) (hb : b ∉ P ∪ T) (hc : c ∈ r.inos) : s.Sound (r.append c b) P T := by
  have hp : b ∈ insert b P ∪ T := Or.inl (Or.inl rfl)
  have hb0 := pending_ne_zero h hp
  have hm : b ∈ s.region := ⟨(h.pending b hp).1, Nat.lt_of_lt_of_le (h.pending b hp).2 h.high⟩
  have hn : ∀ σ, s.named (r.append c b) σ = if σ = .data c (r.blocks c).length then b else s.named r σ := by
    intro σ
    cases σ with
    | data f k =>
      by_cases hf : f = c
      · subst hf
        show (if f ∈ r.inos then (update r.blocks f _ f).getD k 0 else 0) = _
        rw [if_pos hc, update_self, getD_append]
        show _ = if _ then b else (if f ∈ r.inos then (r.blocks f).getD k 0 else 0)
        rw [if_pos hc]
        exact if_congr (by simp) rfl rfl
      · rw [if_neg (by simp [hf])]
        show (if f ∈ r.inos then (update r.blocks c _ f).getD k 0 else 0) = _
        rw [update_of_ne hf]
        rfl
    | inode f => rfl
    | table f => rfl
    | dbTable f => rfl
    | dbEntry f k => rfl
  have h0 : s.named r (.data c (r.blocks c).length) = 0 := by
    show (if c ∈ r.inos then _ else 0) = 0
    rw [if_pos hc]
    exact getD_of_le le_rfl
  refine Sound.place h ⟨rfl, rfl, rfl, rfl, rfl, fun _ => rfl, fun _ => rfl⟩ rfl (Set.subset_insert b P) subset_rfl ?_ ?_
  · refine Exact.assign_name ?_ hm hb hb0 h0 hn
    rw [← Set.insert_union]
    exact h.exact
  · intro σ
    rw [hn σ]
    by_cases he : σ = .data c (r.blocks c).length
    · rw [if_pos he, he]
      exact Or.inr (Or.inr ⟨id, Or.inl rfl⟩)
    · exact Or.inl (if_neg he)

/-! ## Words of tables and fields of inodes -/

theorem ci_setCi : (s.setCi c x).ci d = if d = c then x else s.ci d := update_apply _ _ _ _

theorem ci_setCi_self : (s.setCi c x).ci c = x := update_self _ _ _

/-- What the new value of an inode has in common with the old one stays. -/
theorem field_setCi {α : Type} (g : CacheInode → α) (hg : g x = g (s.ci c)) (d : Nat) : g ((s.setCi c x).ci d) = g (s.ci d) := by
  rw [ci_setCi]
  by_cases hd : d = c
  · rw [if_pos hd, hd, hg]
  · rw [if_neg hd]

/-- An inode keeps its numbers. -/
theorem sameFrame_setCi (hi : x.ino = (s.ci c).ino) (hr : x.real = (s.ci c).real) : SameFrame s (s.setCi c x) :=
  ⟨rfl, rfl, rfl, rfl, rfl, field_setCi (·.ino) hi, field_setCi (·.real) hr⟩

/-- An inode keeps its tables. -/
theorem named_setCi (h1 : x.inode.indirect = (s.ci c).inode.indirect)
    (h2 : x.inode.dbIndirect = (s.ci c).inode.dbIndirect) : (s.setCi c x).named r σ = s.named r σ := by
  have hi := field_setCi (·.inode.indirect) h1
  have hd := field_setCi (·.inode.dbIndirect) h2
  cases σ with
  | inode f => rfl
  | data f k => rfl
  | table f =>
    show (if f ∈ r.inos then _ else 0) = _
    rw [hi f]
    rfl
  | dbTable f =>
    show (if f ∈ r.inos then _ else 0) = _
    rw [hd f]
    rfl
  | dbEntry f k =>
    show (if f ∈ r.inos ∧ _ then _ else 0) = _
    rw [hd f]
    rfl

/-- A file gets the new table `t`. -/
theorem named_setTable (hc : c ∈ r.inos) (h2 : x.inode.dbIndirect = (s.ci c).inode.dbIndirect) :
    (s.setCi c x).named r σ = if σ = .table c then x.inode.indirect else s.named r σ := by
  have hd := field_setCi (·.inode.dbIndirect) h2
  cases σ with
  | inode f => rfl
  | data f k => rfl
  | table f =>
    show (if f ∈ r.inos then ((s.setCi c x).ci f).inode.indirect else 0) = _
    rw [ci_setCi]
    by_cases hf : f = c
    · rw [if_pos hf, hf, if_pos hc, if_pos rfl]
    · rw [if_neg hf, if_neg (show ¬(MksfsSlot.table f = .table c) by simp [hf])]
      rfl
  | dbTable f =>
    show (if f ∈ r.inos then _ else 0) = _
    rw [hd f]
    rfl
  | dbEntry f k =>
    show (if f ∈ r.inos ∧ _ then _ else 0) = _
    rw [hd f]
    rfl

/-- A file gets the new double table `t` of zeros. -/
theorem named_setDbTable (hc : c ∈ r.inos) (h1 : x.inode.indirect = (s.ci c).inode.indirect)
    (h0 : (s.ci c).inode.dbIndirect = 0) (hz : ∀ k, s.cache x.inode.dbIndirect k = 0) :
    (s.setCi c x).named r σ = if σ = .dbTable c then x.inode.dbIndirect else s.named r σ := by
  cases σ with
  | inode f => rfl
  | data f k => rfl
  | table f =>
    show (if f ∈ r.inos then ((s.setCi c x).ci f).inode.indirect else 0) = _
    rw [field_setCi (·.inode.indirect) h1 f]
    rfl
  | dbTable f =>
    show (if f ∈ r.inos then ((s.setCi c x).ci f).inode.dbIndirect else 0) = _
    rw [ci_setCi]
    by_cases hf : f = c
    · rw [if_pos hf, hf, if_pos hc, if_pos rfl]
    · rw [if_neg hf, if_neg (show ¬(MksfsSlot.dbTable f = .dbTable c) by simp [hf])]
      rfl
  | dbEntry f k =>
    rw [if_neg (by simp)]
    show (if f ∈ r.inos ∧ ((s.setCi c x).ci f).inode.dbIndirect ≠ 0 ∧ k < sfsBlkNentry then
      s.cache ((s.setCi c x).ci f).inode.dbIndirect k else 0) = _
    rw [ci_setCi]
    by_cases hf : f = c
    · rw [if_pos hf, hz k, ite_self]
      show 0 = if f ∈ r.inos ∧ (s.ci f).inode.dbIndirect ≠ 0 ∧ _ then _ else 0
      rw [if_neg (fun hn => hn.2.1 (by rw [hf, h0]))]
    · rw [if_neg hf]
      rfl

theorem cache_setWord : (s.setWord t i v).cache = update s.cache t (update (s.cache t) i v) := rfl

theorem sameFrame_setWord : SameFrame s (s.setWord t i v) := ⟨rfl, rfl, rfl, rfl, rfl, fun _ => rfl, fun _ => rfl⟩

/-- A word of a cache block that is no double table. -/
theorem named_setWord (hdb : ∀ d, s.named r (.dbTable d) ≠ t) : (s.setWord t i v).named r σ = s.named r σ := by
  cases σ with
  | inode f => rfl
  | data f k => rfl
  | table f => rfl
  | dbTable f => rfl
  | dbEntry f k =>
    show (if _ ∧ _ then update s.cache t _ (s.ci f).inode.dbIndirect k else 0) = _
    refine ite_congr rfl ?_ (fun _ => rfl)
    intro hc
    have hne := hdb f
    rw [named, if_pos hc.1] at hne
    rw [update_of_ne hne]

/-- An entry of the double table of a file. -/
theorem named_setDbEntry (h : s.Sound r P T) (hc : c ∈ r.inos) (h0 : (s.ci c).inode.dbIndirect ≠ 0) (hi : i < sfsBlkNentry) :
    (s.setWord (s.ci c).inode.dbIndirect i t).named r σ = if σ = .dbEntry c i then t else s.named r σ := by
  have hdb : s.named r (.dbTable c) = (s.ci c).inode.dbIndirect := if_pos hc
  cases σ with
  | inode f => rfl
  | data f k => rfl
  | table f => rfl
  | dbTable f => rfl
  | dbEntry f k =>
    show (if f ∈ r.inos ∧ (s.ci f).inode.dbIndirect ≠ 0 ∧ k < sfsBlkNentry then
      update s.cache (s.ci c).inode.dbIndirect _ (s.ci f).inode.dbIndirect k else 0) = _
    by_cases hf : f = c
    · subst hf
      rw [update_self, update_apply]
      by_cases hk : k = i
      · rw [if_pos ⟨hc, h0, by omega⟩, if_pos hk, if_pos (by rw [hk])]
      · rw [if_neg hk, if_neg (show ¬(MksfsSlot.dbEntry f k = .dbEntry f i) by simp [hk])]
        rfl
    · rw [if_neg (show ¬(MksfsSlot.dbEntry f k = .dbEntry c i) by simp [hf])]
      refine ite_congr rfl ?_ (fun _ => rfl)
      intro hn
      refine congrFun (update_of_ne ?_ _ _) k
      intro he
      have hfd : s.named r (.dbTable f) = (s.ci f).inode.dbIndirect := if_pos hn.1
      have := named_inj h (τ := .dbTable c) (by rw [hfd]; exact hn.2.1) (by rw [hfd, hdb, he])
      injection this with this
      exact hf this

end MksfsAux

end Ucore
