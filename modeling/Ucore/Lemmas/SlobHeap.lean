import Mathlib.Algebra.GroupWithZero.Nat
import Ucore.Lemmas.SlobAlloc

/-!
# The kernel heap and what its callers hold

The blocks that callers hold lie in the pages that the heap has got, apart from each other and from the free list (`Slob.Core`).
The large allocations are the records of the list at `bigblocks`, in its order (`BigChain`). Together they make the invariant
`Slob.Inv`; `kmalloc` and `kfree` keep it (`kmalloc_small`, `kmalloc_big`, `kfree_small`, `kfree_big`).
-/

namespace Ucore

open Checked Rings Function

/-- A block out of the heap, by its address and its units. -/
structure SlobBlock where
  addr : Nat
  units : Nat
  deriving DecidableEq

/-- A large allocation: its record, its pages, and the order of their number. -/
structure BigBlock where
  record : Nat
  pages : Nat
  order : Nat
  deriving DecidableEq

/-- The addresses of a block. -/
def SlobBlock.span (x : SlobBlock) : Set Nat := Set.Ico x.addr (x.addr + slobUnit * x.units)

/-- The block that a record takes up. -/
def BigBlock.block (d : BigBlock) : SlobBlock := ⟨d.record, slobUnits bigblockSize⟩

/-- What the heap has given to its callers, and the pages that it has got for its blocks. -/
structure Held where
  live : List SlobBlock
  bigs : List BigBlock
  pages : List Nat

/-- The live blocks: those of callers, and the records. -/
def Held.blocks (h : Held) : List SlobBlock := h.live ++ h.bigs.map BigBlock.block

/-- The `n` pages at `p` have no address in common with the `k` pages at `q`. -/
def PagesApart (p n q k : Nat) : Prop := p + pgSize * n ≤ q ∨ q + pgSize * k ≤ p

instance (p n q k : Nat) : Decidable (PagesApart p n q k) := inferInstanceAs (Decidable (_ ∨ _))

/-- The `n` pages at `p` are new: aligned, apart from the pages of the heap and of its large allocations, and not next to the
arena. -/
structure Held.Fresh (h : Held) (arena p n : Nat) : Prop where
  aligned : p % pgSize = 0
  ne : p ≠ 0
  below : p + pgSize * n ≤ addrSize
  pages : ∀ q ∈ h.pages, PagesApart p n q 1
  bigs : ∀ d ∈ h.bigs, PagesApart p n d.pages (2 ^ d.order)
  arena : p + pgSize * n < arena ∨ arena + slobUnit < p

/-- The answers of the page allocator to one call of `kmalloc`: new pages, all different. -/
structure Held.Answers (h : Held) (arena size : Nat) (grows : List Nat) (big : Option Nat) : Prop where
  fresh : ∀ p ∈ grows, h.Fresh arena p 1
  distinct : grows.Nodup
  big : ∀ q ∈ big, h.Fresh arena q (2 ^ findOrder size) ∧ ∀ p ∈ grows, PagesApart q (2 ^ findOrder size) p 1

/-- What is held after a call of `kmalloc` that returned `ptr`. -/
def Held.malloc (h : Held) (size ptr : Nat) (got : List Nat) (s' : Slob) : Held :=
  let h := { h with pages := got ++ h.pages }
  if ptr = 0 then h
  else if size < pgSize - slobUnit then
    { h with live := ⟨ptr - slobUnit, slobUnits (size + slobUnit)⟩ :: h.live }
  else { h with bigs := ⟨s'.bigblocks, ptr, findOrder size⟩ :: h.bigs }

namespace SlobAux

open Slob

variable {s s' : Slob} {arena a b m p u v bb k n block size : Nat} {B B' : Finset Nat} {blocks : List SlobBlock}
  {pages got grows : List Nat} {x : SlobBlock} {h : Held} {d : BigBlock} {ds pre post : List BigBlock} {last : Option Nat}

/-! ## Blocks in pages -/

/-- The blocks that are held, in the pages of the heap, and the free list. -/
structure Core (s : Slob) (arena : Nat) (blocks : List SlobBlock) (pages : List Nat) (B : Finset Nat) : Prop where
  free : s.Free arena B
  used : ∀ x ∈ blocks, x.span ⊆ pageRegion pages
  two : ∀ x ∈ blocks, 2 ≤ x.units
  apart : blocks.Pairwise fun x y => Disjoint x.span y.span
  clear : ∀ x ∈ blocks, Disjoint x.span (Rings.region s.bytes B)
  inside : Rings.region s.bytes B ⊆ pageRegion pages ∪ Set.Ico arena (arena + slobUnit)
  sum : ∑ y ∈ B, s.bytes y + slobUnit * (blocks.map SlobBlock.units).sum = pgSize * pages.length + slobUnit
  range : ∀ p ∈ pages, p ≠ 0 ∧ p + pgSize ≤ addrSize ∧ (p + pgSize < arena ∨ arena + slobUnit < p)

theorem Core.perm {blocks' : List SlobBlock} (hc : Core s arena blocks pages B) (hp : blocks.Perm blocks') :
    Core s arena blocks' pages B where
  free := hc.free
  used x hx := hc.used x (hp.mem_iff.mpr hx)
  two x hx := hc.two x (hp.mem_iff.mpr hx)
  apart := (hp.pairwise_iff (fun h => Disjoint.symm h)).mp hc.apart
  clear x hx := hc.clear x (hp.mem_iff.mpr hx)
  inside := hc.inside
  sum := by
    rw [← (hp.map SlobBlock.units).sum_eq]
    exact hc.sum
  range := hc.range

theorem arena_span (hf : s.Free arena B) : Set.Ico arena (arena + slobUnit) ⊆ Rings.region s.bytes B := by
  intro a ha
  refine ⟨arena, hf.arenaMem, ha.1, ?_⟩
  unfold bytes
  rw [hf.one]
  exact ha.2

/-- A word outside of the free list may change. -/
theorem Core.store (hc : Core s arena blocks pages B) (ha : a ∉ Rings.region s.bytes B) :
    Core (s.store a v) arena blocks pages B := by
  obtain ⟨hf, hb⟩ := Free.store hc.free ha
  have hr := region_congr hb
  refine ⟨hf, hc.used, hc.two, hc.apart, ?_, ?_, ?_, hc.range⟩
  · rw [hr]
    exact hc.clear
  · rw [hr]
    exact hc.inside
  · rw [Finset.sum_congr rfl hb]
    exact hc.sum

/-- A word of a held block is written: the free list and the other blocks stay. -/
theorem Core.write (hc : Core s arena (x :: blocks) pages B) (ha : a ∈ x.span) :
    Core (s.store a v) arena (x :: blocks) pages B ∧ ∀ y ∈ blocks, ∀ w ∈ y.span, (s.store a v).mem w = s.mem w := by
  refine ⟨hc.store (Set.disjoint_left.mp (hc.clear x List.mem_cons_self) ha), ?_⟩
  intro y hy w hw
  refine update_of_ne ?_ _ _
  rintro rfl
  exact Set.disjoint_left.mp ((List.pairwise_cons.mp hc.apart).1 y hy) ha hw

theorem Core.setBigblocks (hc : Core s arena blocks pages B) (bb : Nat) : Core { s with bigblocks := bb } arena blocks pages B :=
  ⟨⟨hc.free.list, hc.free.tight, hc.free.head, hc.free.arenaMem, hc.free.one, hc.free.below, hc.free.zero⟩, hc.used, hc.two,
    hc.apart, hc.clear, hc.inside, hc.sum, hc.range⟩

/-- The pages of a search come new to the heap. -/
structure Arrivals (arena : Nat) (pages grows : List Nat) : Prop where
  range : ∀ p ∈ grows, p ≠ 0 ∧ p + pgSize ≤ addrSize ∧ (p + pgSize < arena ∨ arena + slobUnit < p)
  new : ∀ p ∈ grows, Disjoint (Set.Ico p (p + pgSize)) (pageRegion pages)
  apart : grows.Pairwise fun p q => Disjoint (Set.Ico p (p + pgSize)) (Set.Ico q (q + pgSize))

theorem Core.growing (hc : Core s arena blocks pages B) (ha : Arrivals arena pages grows) : Growing s arena B grows := by
  refine ⟨?_, ha.apart⟩
  intro p hp
  obtain ⟨hne, hlt, har⟩ := ha.range p hp
  refine ⟨hne, by decide, ?_, ?_, ?_, ?_⟩
  · rw [slobUnits_pgSize]
    refine Disjoint.mono_right hc.inside (Set.disjoint_union_right.mpr ⟨ha.new p hp, ?_⟩)
    rw [Set.disjoint_left]
    rintro a ⟨h1, h2⟩ ⟨h3, h4⟩
    omega
  · exact hlt
  · omega
  · rw [slobUnits_pgSize]
    omega

theorem pageRegion_append {l1 l2 : List Nat} : pageRegion (l1 ++ l2) = pageRegion l1 ∪ pageRegion l2 := by
  ext a
  simp [pageRegion, or_and_right, exists_or]

/-- The arrivals that a search took are apart from what the heap had. -/
theorem Arrivals.disjoint (ha : Arrivals arena pages grows) (hpre : got <+: grows) :
    Disjoint (pageRegion got) (pageRegion pages) := by
  rw [Set.disjoint_left]
  rintro a ⟨p, hp, hap⟩ hpa
  exact Set.disjoint_left.mp (ha.new p (hpre.subset hp)) hap hpa

section

variable (hc : Core s arena blocks pages B) (harr : Arrivals arena pages grows) (hpre : got <+: grows)
include hc harr hpre

/-- A held block is apart from the free list and the pages that came in, and its words stay. -/
theorem Core.off (hx : x ∈ blocks) (ha : a ∈ x.span) : a ∉ Rings.region s.bytes B ∧ a ∉ pageRegion got :=
  ⟨Set.disjoint_left.mp (hc.clear x hx) ha,
    fun hg => Set.disjoint_left.mp (harr.disjoint hpre) hg (hc.used x hx ha)⟩

/-- A search that got pages but found no block. -/
theorem Core.null (hal : Allocated s s' arena B got 0 u B') : Core s' arena blocks (got ++ pages) B' := by
  have hre := hal.region
  rw [if_pos rfl, Set.empty_union] at hre
  refine ⟨hal.free, ?_, hc.two, hc.apart, ?_, ?_, ?_, ?_⟩
  · intro x hx
    rw [pageRegion_append]
    exact (hc.used x hx).trans Set.subset_union_right
  · intro x hx
    rw [← hre, Set.disjoint_left]
    rintro a ha (hg | hr)
    · exact (hc.off harr hpre hx ha).2 hg
    · exact (hc.off harr hpre hx ha).1 hr
  · rw [← hre, pageRegion_append]
    rintro a (hg | hr)
    · exact Or.inl (Or.inl hg)
    · rcases hc.inside hr with hp | ha
      · exact Or.inl (Or.inr hp)
      · exact Or.inr ha
  · have h1 := hal.sum
    have h2 := hc.sum
    rw [if_pos rfl] at h1
    rw [List.length_append, Nat.mul_add]
    omega
  · intro p hp
    rcases List.mem_append.mp hp with hp | hp
    · exact harr.range p (hpre.subset hp)
    · exact hc.range p hp

/-- A search that found a block. -/
theorem Core.take (hu : 2 ≤ u) (hm : m ≠ 0) (hal : Allocated s s' arena B got m u B') :
    Core s' arena (⟨m, u⟩ :: blocks) (got ++ pages) B' := by
  have hre := hal.region
  rw [if_neg hm] at hre
  have hd := hal.disjoint hm
  have hs : Set.Ico m (m + slobUnit * u) ⊆ pageRegion got ∪ Rings.region s.bytes B := by
    rw [hre]
    exact Set.subset_union_left
  have hsub' : Rings.region s'.bytes B' ⊆ pageRegion got ∪ Rings.region s.bytes B := by
    rw [hre]
    exact Set.subset_union_right
  have hgot : ∀ a ∈ pageRegion got ∪ Rings.region s.bytes B,
      a ∈ pageRegion (got ++ pages) ∪ Set.Ico arena (arena + slobUnit) := by
    rw [pageRegion_append]
    rintro a (hg | hr)
    · exact Or.inl (Or.inl hg)
    · rcases hc.inside hr with hp | ha
      · exact Or.inl (Or.inr hp)
      · exact Or.inr ha
  refine ⟨hal.free, ?_, ?_, ?_, ?_, fun a ha => hgot a (hsub' ha), ?_, ?_⟩
  · intro x hx
    rcases List.mem_cons.mp hx with rfl | hx
    · intro a ha
      rcases hgot a (hs ha) with hp | har
      · exact hp
      · exact absurd (arena_span hal.free har) (Set.disjoint_left.mp hd ha)
    · rw [pageRegion_append]
      exact (hc.used x hx).trans Set.subset_union_right
  · intro x hx
    rcases List.mem_cons.mp hx with rfl | hx
    · exact hu
    · exact hc.two x hx
  · refine List.pairwise_cons.mpr ⟨?_, hc.apart⟩
    intro x hx
    rw [Set.disjoint_left]
    intro a ha hax
    rcases hs ha with hg | hr
    · exact (hc.off harr hpre hx hax).2 hg
    · exact (hc.off harr hpre hx hax).1 hr
  · intro x hx
    rcases List.mem_cons.mp hx with rfl | hx
    · exact hd
    · rw [Set.disjoint_left]
      intro a ha har
      rcases hsub' har with hg | hr
      · exact (hc.off harr hpre hx ha).2 hg
      · exact (hc.off harr hpre hx ha).1 hr
  · have h1 := hal.sum
    have h2 := hc.sum
    rw [if_neg hm] at h1
    rw [List.length_append, List.map_cons, List.sum_cons, Nat.mul_add, Nat.mul_add]
    dsimp only
    omega
  · intro p hp
    rcases List.mem_append.mp hp with hp | hp
    · exact harr.range p (hpre.subset hp)
    · exact hc.range p hp

end

section

variable (hc : Core s arena (x :: blocks) pages B)
include hc

/-- A held block can be put back into the free list. -/
theorem Core.loose : Loose s arena B x.addr x.units := by
  have ht := hc.two x List.mem_cons_self
  have hu := hc.used x List.mem_cons_self
  have hf : x.addr ∈ x.span := ⟨le_rfl, by unfold slobUnit; omega⟩
  have hl : x.addr + slobUnit * x.units - 1 ∈ x.span := by
    unfold SlobBlock.span slobUnit
    exact ⟨by omega, by omega⟩
  obtain ⟨p, hp, hp1, hp2⟩ := hu hf
  obtain ⟨q, hq, hq1, hq2⟩ := hu hl
  have hpr := hc.range p hp
  have hqr := hc.range q hq
  unfold slobUnit pgSize at *
  refine ⟨by omega, by omega, hc.clear x List.mem_cons_self, ?_, ?_, ?_⟩
  · unfold slobUnit
    omega
  · unfold slobUnit
    omega
  · unfold slobUnit
    omega

/-- A held block put back. -/
theorem Core.release (hf : Freed s s' arena B x.addr x.units B') : Core s' arena blocks pages B' := by
  obtain ⟨hap, hr⟩ := List.pairwise_cons.mp hc.apart
  refine ⟨hf.free, fun y hy => hc.used y (List.mem_cons_of_mem _ hy), fun y hy => hc.two y (List.mem_cons_of_mem _ hy), hr,
    ?_, ?_, ?_, hc.range⟩
  · intro y hy
    rw [hf.region, Set.disjoint_union_right]
    exact ⟨(hap y hy).symm, hc.clear y (List.mem_cons_of_mem _ hy)⟩
  · rw [hf.region]
    exact Set.union_subset ((hc.used x List.mem_cons_self).trans Set.subset_union_left) hc.inside
  · have h1 := hf.sum
    have h2 := hc.sum
    rw [List.map_cons, List.sum_cons, Nat.mul_add] at h2
    omega

/-- The words of the other held blocks stay. -/
theorem Core.release_frame {y : SlobBlock}
    (hf : Freed s s' arena B x.addr x.units B') (hy : y ∈ blocks) (ha : a ∈ y.span) : s'.mem a = s.mem a := by
  refine hf.frame a (Set.disjoint_left.mp (hc.clear y (List.mem_cons_of_mem _ hy)) ha) ?_
  have hd := (List.pairwise_cons.mp hc.apart).1 y hy
  have ht := hc.two x List.mem_cons_self
  by_contra hno
  refine Set.disjoint_left.mp hd ⟨by omega, ?_⟩ ha
  unfold slobUnit
  omega

end

/-! ## The list of large allocations -/

/-- From `bb` on, the records of the list. -/
def BigChain (s : Slob) : Nat → List BigBlock → Prop
  | bb, [] => bb = 0
  | bb, d :: ds => bb = d.record ∧ s.order bb = d.order ∧ s.pages bb = d.pages ∧ BigChain s (s.bigNext bb) ds

theorem record_word (d : BigBlock) (hk : k < 16) : d.record + k ∈ d.block.span :=
  ⟨Nat.le_add_right _ _, Nat.add_lt_add_left hk _⟩

/-- The list reads only the words of its records. -/
theorem BigChain.congr (hch : BigChain s bb ds)
    (hm : ∀ d ∈ ds, ∀ a ∈ d.block.span, s'.mem a = s.mem a) : BigChain s' bb ds := by
  induction ds generalizing bb with
  | nil => exact hch
  | cons d ds ih =>
    obtain ⟨rfl, ho, hp, hch⟩ := hch
    have hw : ∀ k < 16, s'.mem (d.record + k) = s.mem (d.record + k) :=
      fun k hk => hm d List.mem_cons_self _ (record_word d hk)
    refine ⟨rfl, (hw 0 (by omega)).trans ho, (hw 4 (by omega)).trans hp, ?_⟩
    have hn : s'.bigNext d.record = s.bigNext d.record := hw 8 (by omega)
    rw [hn]
    exact ih hch (fun e he => hm e (List.mem_cons_of_mem _ he))

theorem BigChain.order (hch : BigChain s bb (pre ++ d :: post)) : s.order d.record = d.order := by
  induction pre generalizing bb with
  | nil =>
    obtain ⟨rfl, ho, -⟩ := hch
    exact ho
  | cons e pre ih => exact ih hch.2.2.2

/-- The search does not find a pointer that no record has. -/
theorem findBig_none (hch : BigChain s bb ds) (hne : ∀ d ∈ ds, d.record ≠ 0) (hno : ∀ d ∈ ds, d.pages ≠ block)
    (hn : ds.length < n) : findBig block n last bb s = .ok none := by
  induction ds generalizing bb n last with
  | nil =>
    obtain ⟨n, rfl⟩ := Nat.exists_eq_add_one_of_ne_zero (Nat.ne_zero_of_lt hn)
    exact if_pos hch
  | cons d ds ih =>
    obtain ⟨n, rfl⟩ := Nat.exists_eq_add_one_of_ne_zero (Nat.ne_zero_of_lt hn)
    obtain ⟨rfl, -, hp, hch⟩ := hch
    unfold findBig
    rw [if_neg (hne d List.mem_cons_self), if_neg (hp.symm ▸ hno d List.mem_cons_self)]
    refine ih hch (fun e he => hne e (List.mem_cons_of_mem _ he)) (fun e he => hno e (List.mem_cons_of_mem _ he)) ?_
    simp only [List.length_cons] at hn
    omega

/-- The record before a record of the list. -/
def lastOf (last : Option Nat) : List BigBlock → Option Nat
  | [] => last
  | d :: ds => lastOf (some d.record) ds

theorem lastOf_mem (f : BigBlock) (pre : List BigBlock) : ∃ g ∈ f :: pre, lastOf (some f.record) pre = some g.record := by
  induction pre generalizing f with
  | nil => exact ⟨f, List.mem_singleton.mpr rfl, rfl⟩
  | cons g pre ih =>
    obtain ⟨k, hk, heq⟩ := ih g
    exact ⟨k, List.mem_cons_of_mem _ hk, heq⟩

/-- The search finds the record of a pointer, and the record before it. -/
theorem findBig_some (hch : BigChain s bb (pre ++ d :: post)) (hne : ∀ e ∈ pre ++ d :: post, e.record ≠ 0)
    (hno : ∀ e ∈ pre, e.pages ≠ d.pages) (hn : pre.length < n) :
    findBig d.pages n last bb s = .ok (some (lastOf last pre, d.record)) := by
  induction pre generalizing bb n last with
  | nil =>
    obtain ⟨n, rfl⟩ := Nat.exists_eq_add_one_of_ne_zero (Nat.ne_zero_of_lt hn)
    obtain ⟨rfl, -, hp, -⟩ := hch
    unfold findBig
    rw [if_neg (hne d List.mem_cons_self), if_pos hp]
    rfl
  | cons e pre ih =>
    obtain ⟨n, rfl⟩ := Nat.exists_eq_add_one_of_ne_zero (Nat.ne_zero_of_lt hn)
    obtain ⟨rfl, -, hp, hch⟩ := hch
    unfold findBig
    rw [if_neg (hne e List.mem_cons_self), if_neg (hp.symm ▸ hno e List.mem_cons_self)]
    refine ih hch (fun f hf => hne f (List.mem_cons_of_mem _ hf)) (fun f hf => hno f (List.mem_cons_of_mem _ hf)) ?_
    simp only [List.length_cons] at hn
    omega

/-- A record linked out behind the record `e`. -/
theorem BigChain.unlink {e : BigBlock} (hch : BigChain s bb (e :: pre ++ d :: post))
    (hap : ((e :: pre ++ d :: post).map BigBlock.block).Pairwise fun x y => Disjoint x.span y.span) :
    BigChain (unlinkBig (lastOf (some e.record) pre) d.record s) bb (e :: pre ++ post) := by
  induction pre generalizing bb e with
  | nil =>
    obtain ⟨rfl, ho, hp, hdr, -, -, hr⟩ := hch
    obtain ⟨hfar, -⟩ := List.pairwise_cons.mp hap
    have hw : ∀ a, a ≠ e.record + 8 → (s.store (e.record + 8) (s.bigNext d.record)).mem a = s.mem a :=
      fun a ha => update_of_ne ha _ _
    refine ⟨rfl, (hw _ (by omega)).trans ho, (hw _ (by omega)).trans hp, ?_⟩
    have hne : (unlinkBig (lastOf (some e.record) []) d.record s).bigNext e.record = s.bigNext d.record :=
      update_self _ _ _
    rw [hne]
    refine BigChain.congr (hdr ▸ hr) ?_
    intro f hf a ha
    refine hw a ?_
    rintro rfl
    have hd := hfar f.block (List.mem_map_of_mem (List.mem_cons_of_mem _ hf))
    exact Set.disjoint_left.mp hd (record_word e (by omega)) ha
  | cons f pre ih =>
    obtain ⟨rfl, ho, hp, hch⟩ := hch
    obtain ⟨hfar, hr⟩ := List.pairwise_cons.mp hap
    obtain ⟨g, hg, hgeq⟩ := lastOf_mem f pre
    have hw : ∀ k < 16, (unlinkBig (lastOf (some f.record) pre) d.record s).mem (e.record + k) = s.mem (e.record + k) := by
      intro k hk
      rw [hgeq]
      refine update_of_ne ?_ _ _
      intro he
      have hd := hfar g.block (List.mem_map_of_mem (List.mem_append_left _ hg))
      refine Set.disjoint_left.mp hd (record_word e hk) ?_
      rw [he]
      exact record_word g (by omega)
    refine ⟨rfl, (hw 0 (by omega)).trans ho, (hw 4 (by omega)).trans hp, ?_⟩
    have hn : (unlinkBig (lastOf (some f.record) pre) d.record s).bigNext e.record = s.bigNext e.record := hw 8 (by omega)
    show BigChain _ ((unlinkBig (lastOf (some f.record) pre) d.record s).bigNext e.record) _
    rw [hn]
    exact ih hch hr

/-! ## The whole heap -/

/-- The heap and what it has given out. -/
structure Inv (s : Slob) (arena : Nat) (h : Held) (B : Finset Nat) : Prop where
  core : Core s arena h.blocks h.pages B
  headers : ∀ x ∈ h.live, s.units x.addr = x.units
  chain : BigChain s s.bigblocks h.bigs
  aligned : ∀ d ∈ h.bigs, d.pages % pgSize = 0 ∧ d.pages ≠ 0
  outside : ∀ d ∈ h.bigs, ∀ p ∈ h.pages, PagesApart d.pages (2 ^ d.order) p 1
  bigsApart : h.bigs.Pairwise fun d e => PagesApart d.pages (2 ^ d.order) e.pages (2 ^ e.order)

/-- What the held blocks keep in memory stays where their words do. -/
theorem contents_frame (hh : ∀ x ∈ h.live, s.units x.addr = x.units) (hch : BigChain s b h.bigs)
    (ht : ∀ x ∈ h.blocks, 2 ≤ x.units) (hm : ∀ x ∈ h.blocks, ∀ a ∈ x.span, s'.mem a = s.mem a) :
    (∀ x ∈ h.live, s'.units x.addr = x.units) ∧ BigChain s' b h.bigs := by
  constructor
  · intro x hx
    have hxb : x ∈ h.blocks := List.mem_append_left _ hx
    have := ht x hxb
    rw [← hh x hx]
    refine hm x hxb _ ⟨le_rfl, ?_⟩
    unfold slobUnit
    omega
  · refine hch.congr ?_
    intro d hd
    exact hm d.block (List.mem_append_right _ (List.mem_map_of_mem hd))

theorem arrivals {big : Option Nat} (ha : h.Answers arena size grows big) : Arrivals arena h.pages grows := by
  refine ⟨?_, ?_, ?_⟩
  · intro p hp
    have h1 := (ha.fresh p hp).below
    have h2 := (ha.fresh p hp).arena
    exact ⟨(ha.fresh p hp).ne, h1, h2⟩
  · intro p hp
    rw [Set.disjoint_left]
    rintro a ⟨h2, h3⟩ ⟨q, hq, h4, h5⟩
    have := (ha.fresh p hp).pages q hq
    unfold PagesApart at this
    omega
  · refine ha.distinct.imp_of_mem ?_
    intro p q hp hq hne
    have h1 := (ha.fresh p hp).aligned
    have h2 := (ha.fresh q hq).aligned
    rw [Set.disjoint_left]
    rintro a ⟨h3, h4⟩ ⟨h5, h6⟩
    unfold pgSize at *
    omega

section Request

variable {size : Nat} {grows : List Nat} {big : Option Nat} (hi : Inv s arena h B) (ha : h.Answers arena size grows big)
include hi ha

/-- The large allocations are apart from the pages that came in. -/
theorem outside_grow (hpre : got <+: grows) : ∀ d ∈ h.bigs, ∀ p ∈ got ++ h.pages, PagesApart d.pages (2 ^ d.order) p 1 := by
  intro d hd p hp
  rcases List.mem_append.mp hp with hp | hp
  · exact ((ha.fresh p (hpre.subset hp)).bigs d hd).symm
  · exact hi.outside d hd p hp

/-- `slob_alloc` for a request of at least two units. -/
theorem slobAlloc_spec {n : Nat} (hn : n + slobUnit < pgSize) (ht : 2 ≤ slobUnits n) :
    ∃ m got s' B', slobAlloc n grows s = .ok (m, got, s') ∧ got <+: grows ∧ s'.bigblocks = s.bigblocks ∧
      (m ≠ 0 → s'.units m = slobUnits n) ∧ (∀ x ∈ h.blocks, ∀ a ∈ x.span, s'.mem a = s.mem a) ∧
      Core s' arena (if m = 0 then h.blocks else ⟨m, slobUnits n⟩ :: h.blocks) (got ++ h.pages) B' := by
  have harr := arrivals ha
  obtain ⟨m, got, s', B', hl, hpre, hal⟩ := slobLoop_spec hi.core.free ht (hi.core.growing harr)
  refine ⟨m, got, s', B', ?_, hpre, hal.bigblocks, hal.header, ?_, ?_⟩
  · unfold slobAlloc
    rw [ensure_of hn]
    exact hl
  · intro x hx a hax
    obtain ⟨h1, h2⟩ := hi.core.off harr hpre hx hax
    exact hal.frame a h1 h2
  · by_cases hm : m = 0
    · subst hm
      exact hi.core.null harr hpre hal
    · rw [if_neg hm]
      exact hi.core.take harr hpre ht hm hal

/-- `kmalloc` of a small size. -/
theorem kmalloc_small (hp : 1 ≤ size) (hs : size + 2 * slobUnit < pgSize) :
    ∃ ptr got s' B', kmalloc size grows big s = .ok (ptr, got, s') ∧ Inv s' arena (h.malloc size ptr got s') B' := by
  have hlt : size < pgSize - slobUnit := by
    omega
  obtain ⟨m, got, s', B', hr, hpre, hb, hhe, hmem, hco⟩ := slobAlloc_spec hi ha (n := size + slobUnit) (by omega) (by
    unfold slobUnits slobUnit
    omega)
  obtain ⟨hh, hch⟩ := contents_frame hi.headers hi.chain hi.core.two hmem
  refine ⟨if m = 0 then 0 else m + slobUnit, got, s', B', ?_, ?_⟩
  · unfold kmalloc
    rw [if_pos hlt, hr]
    rfl
  · unfold Held.malloc
    by_cases hm : m = 0
    · rw [if_pos hm] at hco ⊢
      exact ⟨hco, hh, hb.symm ▸ hch, hi.aligned, outside_grow hi ha hpre, hi.bigsApart⟩
    · rw [if_neg hm] at hco ⊢
      rw [if_neg (by unfold slobUnit; omega), if_pos hlt]
      refine ⟨hco, ?_, hb.symm ▸ hch, hi.aligned, outside_grow hi ha hpre, hi.bigsApart⟩
      intro x hx
      rcases List.mem_cons.mp hx with rfl | hx
      · exact hhe hm
      · exact hh x hx

/-- `kmalloc` of a large size. -/
theorem kmalloc_big (hs : pgSize - slobUnit ≤ size) :
    ∃ ptr got s' B', kmalloc size grows big s = .ok (ptr, got, s') ∧ Inv s' arena (h.malloc size ptr got s') B' := by
  obtain ⟨bb, got, s1, B1, hr, hpre, hbig, -, hm, hco⟩ := slobAlloc_spec hi ha (n := bigblockSize) (by decide) (by decide)
  obtain ⟨hh, hch⟩ := contents_frame hi.headers hi.chain hi.core.two hm
  have ho := outside_grow hi ha hpre
  unfold kmalloc
  rw [if_neg (not_lt.mpr hs), hr, bind_ok]
  dsimp only
  by_cases hbb : bb = 0
  · rw [if_pos hbb] at hco
    refine ⟨0, got, s1, B1, by rw [if_pos hbb]; rfl, ?_⟩
    exact ⟨hco, hh, hbig.symm ▸ hch, hi.aligned, ho, hi.bigsApart⟩
  · rw [if_neg hbb] at hco ⊢
    -- the order and the pages are written into the new block
    obtain ⟨hc2, hm2⟩ := hco.write (a := bb) (record_word (k := 0) ⟨bb, 0, 0⟩ (by omega))
    obtain ⟨hc3, hm3⟩ := hc2.write (a := bb + 4) (record_word ⟨bb, 0, 0⟩ (by omega))
    have hmem3 : ∀ x ∈ h.blocks, ∀ a ∈ x.span,
        ((s1.store bb (findOrder size)).store (bb + 4) (big.getD 0)).mem a = s1.mem a :=
      fun x hx a hax => (hm3 x hx a hax).trans (hm2 x hx a hax)
    obtain ⟨hh3, hch3⟩ := contents_frame hh hch hi.core.two hmem3
    cases hbi : big with
    | none =>
      rw [hbi] at hc3 hh3 hch3
      obtain ⟨s', B', hfr, hf⟩ := slobFree_spec bigblockSize hc3.free hc3.loose rfl
      obtain ⟨hh', hch'⟩ := contents_frame hh3 hch3 hi.core.two (fun x hx a hax => hc3.release_frame hf hx hax)
      refine ⟨0, got, s', B', ?_, hc3.release hf, hh', ?_, hi.aligned, ho, hi.bigsApart⟩
      · rw [hfr]
        rfl
      · have hb : s'.bigblocks = s.bigblocks := hf.bigblocks.trans hbig
        rw [hb]
        exact hch'
    | some q =>
      obtain ⟨hfh, hg⟩ := ha.big q hbi
      rw [hbi] at hc3 hh3 hch3
      obtain ⟨hc4, hm4⟩ := hc3.write (a := bb + 8) (record_word ⟨bb, 0, 0⟩ (by omega))
      obtain ⟨hh4, hch4⟩ := contents_frame hh3 hch3 hi.core.two hm4
      refine ⟨q, got, { ((s1.store bb (findOrder size)).store (bb + 4) q).store (bb + 8) s1.bigblocks with bigblocks := bb }, B1,
        rfl, ?_⟩
      unfold Held.malloc
      rw [if_neg hfh.ne, if_neg (not_lt.mpr hs)]
      refine ⟨(hc4.setBigblocks bb).perm List.perm_middle.symm, hh4, ⟨rfl, ?_, ?_, ?_⟩, ?_, ?_, ?_⟩
      · show update (update (update s1.mem bb _) (bb + 4) q) (bb + 8) _ bb = _
        rw [update_of_ne (by omega), update_of_ne (by omega), update_self]
      · show update (update (update s1.mem bb _) (bb + 4) q) (bb + 8) _ (bb + 4) = _
        rw [update_of_ne (by omega), update_self]
      · have hn : Slob.bigNext { ((s1.store bb (findOrder size)).store (bb + 4) q).store (bb + 8) s1.bigblocks with
            bigblocks := bb } bb = s.bigblocks := (update_self _ _ _).trans hbig
        rw [hn]
        exact hch4.congr (fun _ _ _ _ => rfl)
      · intro d hd
        rcases List.mem_cons.mp hd with rfl | hd
        · exact ⟨hfh.aligned, hfh.ne⟩
        · exact hi.aligned d hd
      · intro d hd p hp
        rcases List.mem_cons.mp hd with rfl | hd
        · rcases List.mem_append.mp hp with hp | hp
          · exact hg p (hpre.subset hp)
          · exact hfh.pages p hp
        · exact ho d hd p hp
      · exact List.pairwise_cons.mpr ⟨fun d hd => hfh.bigs d hd, hi.bigsApart⟩

end Request

/-! ## Freeing -/

/-- A held block begins at an address of a page. -/
theorem Core.addr_range (hc : Core s arena blocks pages B) (hx : x ∈ blocks) : x.addr ≠ 0 ∧ x.addr < addrSize := by
  have ht := hc.two x hx
  obtain ⟨p, hp, h1, h2⟩ := hc.used x hx (show x.addr ∈ x.span from ⟨le_rfl, by unfold slobUnit; omega⟩)
  have := hc.range p hp
  omega

theorem Core.addr_nodup (hc : Core s arena blocks pages B) : (blocks.map SlobBlock.addr).Nodup := by
  refine List.pairwise_map.mpr (hc.apart.imp_of_mem ?_)
  intro x y hx hy hd he
  have h1 := hc.two x hx
  have h2 := hc.two y hy
  refine Set.disjoint_left.mp hd (show x.addr ∈ x.span from ⟨le_rfl, by unfold slobUnit; omega⟩) ?_
  rw [he]
  exact ⟨le_rfl, by unfold slobUnit; omega⟩

section

variable (hi : Inv s arena h B)
include hi

/-- The list of large allocations is shorter than the search may be. -/
theorem bigs_length : (∀ d ∈ h.bigs, d.record ≠ 0) ∧ h.bigs.length < addrSize := by
  have hr : ∀ d ∈ h.bigs, d.record ≠ 0 ∧ d.record < addrSize :=
    fun d hd => hi.core.addr_range (List.mem_append_right _ (List.mem_map_of_mem hd))
  have hnd : (h.bigs.map BigBlock.record).Nodup := by
    have h1 := hi.core.addr_nodup
    rw [Held.blocks, List.map_append, List.map_map] at h1
    exact (List.nodup_append.mp h1).2.1
  refine ⟨fun d hd => (hr d hd).1, ?_⟩
  have hl := length_le_addrSize (l := 0 :: h.bigs.map BigBlock.record) (List.nodup_cons.mpr ⟨?_, hnd⟩) ?_
  · rwa [List.length_cons, List.length_map] at hl
  · intro hm
    obtain ⟨d, hd, h0⟩ := List.mem_map.mp hm
    exact (hr d hd).1 h0
  · intro x hx
    rcases List.mem_cons.mp hx with rfl | hx
    · decide
    · obtain ⟨d, hd, rfl⟩ := List.mem_map.mp hx
      exact (hr d hd).2

/-- `kfree` of a pointer from the small path. No record has its address, even where it is aligned to a page. -/
theorem kfree_small (hx : x ∈ h.live) :
    ∃ s' B', kfree (x.addr + slobUnit) s = .ok (none, s') ∧ Inv s' arena { h with live := h.live.erase x } B' ∧
      Rings.region s'.bytes B' = x.span ∪ Rings.region s.bytes B := by
  have hxb : x ∈ h.blocks := List.mem_append_left _ hx
  have ht := hi.core.two x hxb
  have hno : ∀ d ∈ h.bigs, d.pages ≠ x.addr + slobUnit := by
    intro d hd he
    have hs : x.addr + slobUnit ∈ x.span := by
      unfold SlobBlock.span slobUnit
      exact ⟨by omega, by omega⟩
    obtain ⟨p, hp, h1, h2⟩ := hi.core.used x hxb hs
    have hap := hi.outside d hd p hp
    have hpow : 0 < 2 ^ d.order := Nat.two_pow_pos _
    unfold PagesApart pgSize at *
    omega
  obtain ⟨hne, hl⟩ := bigs_length hi
  have hfo : lookupBig (x.addr + slobUnit) s = .ok none := by
    unfold lookupBig
    rw [findBig_none hi.chain hne hno hl, ite_self]
  have hpe : h.blocks.Perm (x :: ({ h with live := h.live.erase x } : Held).blocks) :=
    (List.perm_cons_erase hx).append_right _
  have hco := hi.core.perm hpe
  have hu : x.units = if (0 : Nat) ≠ 0 then slobUnits 0 else s.units x.addr := by
    rw [if_neg (by omega), hi.headers x hx]
  obtain ⟨s', B', hfr, hf⟩ := slobFree_spec 0 hco.free hco.loose hu
  obtain ⟨hh, hch⟩ := contents_frame (h := { h with live := h.live.erase x })
    (fun y hy => hi.headers y (List.mem_of_mem_erase hy)) hi.chain (fun y hy => hco.two y (List.mem_cons_of_mem _ hy))
    (fun y hy a ha => hco.release_frame hf hy ha)
  refine ⟨s', B', ?_, ⟨hco.release hf, hh, hf.bigblocks.symm ▸ hch, hi.aligned, hi.outside, hi.bigsApart⟩, hf.region⟩
  unfold kfree
  rw [hfo]
  rw [Nat.add_sub_cancel, hfr]
  rfl

/-- A record linked out of the list. -/
theorem unlinkBig_spec (hs : h.bigs = pre ++ d :: post) :
    Core (unlinkBig (lastOf none pre) d.record s) arena h.blocks h.pages B ∧
      (∀ x ∈ h.live, (unlinkBig (lastOf none pre) d.record s).units x.addr = x.units) ∧
      BigChain (unlinkBig (lastOf none pre) d.record s) (unlinkBig (lastOf none pre) d.record s).bigblocks (pre ++ post) ∧
      (unlinkBig (lastOf none pre) d.record s).order d.record = d.order ∧
      Rings.region (unlinkBig (lastOf none pre) d.record s).bytes B = Rings.region s.bytes B := by
  have hch := hi.chain
  rw [hs] at hch
  cases pre with
  | nil =>
    obtain ⟨hb, ho, -, hr⟩ := hch
    rw [hb] at ho hr
    exact ⟨hi.core.setBigblocks _, hi.headers, hr.congr (fun _ _ _ _ => rfl), ho, rfl⟩
  | cons e pre =>
    obtain ⟨g, hg, hl⟩ := lastOf_mem e pre
    have hap := hi.core.apart
    rw [Held.blocks, hs] at hap
    obtain ⟨-, hre, hcr⟩ := List.pairwise_append.mp hap
    have hgb : g ∈ h.bigs := hs ▸ List.mem_append_left _ hg
    have hgblock : g.block ∈ h.blocks := List.mem_append_right _ (List.mem_map_of_mem hgb)
    have hst : unlinkBig (lastOf none (e :: pre)) d.record s = s.store (g.record + 8) (s.bigNext d.record) := by
      show unlinkBig (lastOf (some e.record) pre) d.record s = _
      rw [hl]
      rfl
    have hout : g.record + 8 ∉ Rings.region s.bytes B :=
      Set.disjoint_left.mp (hi.core.clear _ hgblock) (record_word g (by omega))
    refine ⟨hst ▸ hi.core.store hout, ?_, ?_, ?_, hst ▸ region_congr (Free.store hi.core.free hout).2⟩
    · intro x hx
      rw [hst, ← hi.headers x hx]
      refine update_of_ne ?_ _ _
      intro he
      have ht := hi.core.two x (List.mem_append_left _ hx)
      have hgm : g.block ∈ (e :: pre ++ d :: post).map BigBlock.block := List.mem_map_of_mem (List.mem_append_left _ hg)
      refine Set.disjoint_left.mp (hcr x hx _ hgm) (show x.addr ∈ x.span from ⟨le_rfl, by unfold slobUnit; omega⟩) ?_
      rw [he]
      exact record_word g (by omega)
    · have hbb : (unlinkBig (lastOf none (e :: pre)) d.record s).bigblocks = s.bigblocks := by
        rw [hst]
        rfl
      rw [hbb]
      exact hch.unlink hre
    · rw [hst, ← hch.order]
      refine update_of_ne ?_ _ _
      intro he
      rw [List.map_append, List.pairwise_append] at hre
      have hd := hre.2.2 g.block (List.mem_map_of_mem hg) d.block List.mem_cons_self
      refine Set.disjoint_left.mp hd (record_word g (k := 8) (by omega)) ?_
      rw [← he]
      exact record_word d (k := 0) (by omega)

/-- `kfree` of a pointer from the large path: its pages are given back, and its record goes. -/
theorem kfree_big (hd : d ∈ h.bigs) :
    ∃ s' B', kfree d.pages s = .ok (some (d.pages, d.order), s') ∧ Inv s' arena { h with bigs := h.bigs.erase d } B' ∧
      Rings.region s'.bytes B' = d.block.span ∪ Rings.region s.bytes B := by
  obtain ⟨hal, hnz⟩ := hi.aligned d hd
  obtain ⟨hne, hl⟩ := bigs_length hi
  obtain ⟨pre, post, -, hs, her⟩ := List.exists_erase_eq hd
  have hb := hi.bigsApart
  rw [hs, List.pairwise_append] at hb
  have hfi : ∀ e ∈ pre, e.pages ≠ d.pages := by
    intro e he heq
    have hap := hb.2.2 e he d List.mem_cons_self
    have h1 : 0 < 2 ^ e.order := Nat.two_pow_pos _
    have h2 : 0 < 2 ^ d.order := Nat.two_pow_pos _
    unfold PagesApart pgSize at hap
    omega
  have hlen' : pre.length < addrSize := by
    rw [hs, List.length_append] at hl
    omega
  have hfo : lookupBig d.pages s = .ok (some (lastOf none pre, d.record)) :=
    (if_pos hal).trans (findBig_some (hs ▸ hi.chain) (hs ▸ hne) hfi hlen')
  obtain ⟨hco, hh, hch, ho, hr⟩ := unlinkBig_spec hi hs
  have hp : h.blocks.Perm (d.block :: ({ h with bigs := h.bigs.erase d } : Held).blocks) := by
    refine (((List.perm_cons_erase hd).map BigBlock.block).append_left h.live).trans ?_
    exact List.perm_middle
  have hc' := hco.perm hp
  obtain ⟨s', B', hfr, hf⟩ := slobFree_spec bigblockSize hc'.free hc'.loose rfl
  have hch' : BigChain (unlinkBig (lastOf none pre) d.record s) (unlinkBig (lastOf none pre) d.record s).bigblocks
      ({ h with bigs := h.bigs.erase d } : Held).bigs := her.symm ▸ hch
  obtain ⟨hh'', hch''⟩ := contents_frame (h := { h with bigs := h.bigs.erase d }) hh hch'
    (fun y hy => hc'.two y (List.mem_cons_of_mem _ hy)) (fun y hy a ha => hc'.release_frame hf hy ha)
  refine ⟨s', B', ?_, ⟨hc'.release hf, hh'', hf.bigblocks.symm ▸ hch'', fun e he => hi.aligned e (List.mem_of_mem_erase he),
    fun e he => hi.outside e (List.mem_of_mem_erase he), hi.bigsApart.sublist List.erase_sublist⟩, hf.region.trans (by rw [hr]; rfl)⟩
  unfold kfree
  rw [if_neg hnz, hfo, bind_ok]
  dsimp only
  rw [ho]
  show (slobFree d.block.addr bigblockSize _ >>= _) = _
  rw [hfr]
  rfl

end

end SlobAux

end Ucore
