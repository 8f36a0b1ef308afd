import Ucore.Lemmas.Vmm

/-!
# Editing a VMA list

`mm_map`, `mm_unmap` and `dup_mmap` edit the VMA list of an address space by a few small steps: a VMA is made, leaves the list, is
cut, or is put into the list. Between two such steps some VMAs are `detached`: they are in no list, and are put back or freed
later. `Mm.Tidy` is what holds of the list and the detached VMAs in any case, and `Mm.Sorted` that their ranges do not meet, which
`mm_brk` does not keep. `Edits` collects what a part of a run does: both are kept, the VMAs cover no more addresses than before,
and what they no longer cover has been unmapped. What becomes of a list one of whose VMAs is rewritten (`Mm.set`) is said once, for
VMAs that are new, cut or made longer.

Most lemmas here start from a call that returned, so the assertions that the call passed are among what they can use.
-/

namespace Ucore

open Checked Spans Function

/-- A range that `unmap_range` takes: pages of the user's. -/
def Fits (start stop : Nat) : Prop := (start % pgSize = 0 ∧ stop % pgSize = 0) ∧ UserAccess start stop

/-- The bookkeeping of a VMA list while the VMAs `detached` are out of it. -/
structure Mm.Tidy (fresh : Nat) (detached : List Nat) (mm : Mm) : Prop where
  nodup : (mm.mmapList ++ detached).Nodup
  named : ∀ v ∈ mm.mmapList ++ detached, v < fresh
  fits : ∀ v ∈ mm.mmapList ++ detached, Fits (mm.lo v) (mm.hi v)
  owner : ∀ v ∈ mm.mmapList, (mm.vmas v).vmMm = mm.id
  cache : ∀ v, mm.mmapCache = some v → v ∈ mm.mmapList

/-- The list is sorted, and no two ranges meet, those of the detached VMAs included. -/
structure Mm.Sorted (detached : List Nat) (mm : Mm) : Prop where
  ordered : Ordered mm.lo mm.hi mm.mmapList
  apart : (mm.mmapList ++ detached).Pairwise (Apart mm.lo mm.hi)

/-- A VMA, detached or not, holds the address and has these flags. -/
def Mm.Covers (mm : Mm) (detached : List Nat) (a flags : Nat) : Prop :=
  ∃ v ∈ mm.mmapList ++ detached, mm.Has a v ∧ (mm.vmas v).vmFlags = flags

/-- No VMA has an address of the range. -/
def Mm.Unoccupied (mm : Mm) (start stop : Nat) : Prop := ∀ a f, mm.Covers [] a f → ¬(start ≤ a ∧ a < stop)

/-- What a part of a run keeps of an address space: its identity, its directory and its break. -/
def Mm.Same (mm mm' : Mm) : Prop := mm'.id = mm.id ∧ mm'.pgdir = mm.pgdir ∧ mm'.brkStart = mm.brkStart ∧ mm'.brk = mm.brk

/-- `unmap_range` of one range after the other. -/
def unmapRanges (pgdir : Nat) (ranges : List (Nat × Nat)) (mem : Memory) : Except VmPanic Memory :=
  ranges.foldlM (fun m r => (unmapRange pgdir r.1 r.2 m).mapError VmPanic.mem) mem

/-- What a part of a run does to an address space, where `ranges` are the ranges it unmapped, in this order. -/
structure Edits (detached detached' : List Nat) (ranges : List (Nat × Nat)) (s s' : Vm) : Prop where
  tidy : s'.mm.Tidy s'.kmallocs detached'
  sorted : s.mm.Sorted detached → s'.mm.Sorted detached'
  count : s'.mm.mapCount + s.mm.mmapList.length = s.mm.mapCount + s'.mm.mmapList.length
  mem : unmapRanges s.mm.pgdir ranges s.mem = .ok s'.mem
  covers : ∀ a f, s'.mm.Covers detached' a f → s.mm.Covers detached a f
  lost : ∀ a f, s.mm.Covers detached a f → s'.mm.Covers detached' a f ∨ ∃ r ∈ ranges, r.1 ≤ a ∧ a < r.2
  inside : ∀ r ∈ ranges, ∀ a, r.1 ≤ a → a < r.2 → ∃ f, s.mm.Covers detached a f
  fields : s.mm.Same s'.mm
  le : s.kmallocs ≤ s'.kmallocs

/-- What a part of a run does to an address space that covers one more range, with the VMA that it makes or makes longer. -/
structure Adds (start stop flags : Nat) (s s' : Vm) : Prop where
  tidy : s'.mm.Tidy s'.kmallocs []
  sorted : s.mm.Sorted [] → s.mm.Unoccupied start stop → s'.mm.Sorted []
  count : s.mm.mapCount = s.mm.mmapList.length → s'.mm.mapCount = s'.mm.mmapList.length
  mem : s'.mem = s.mem
  covers : ∀ a f, s'.mm.Covers [] a f ↔ s.mm.Covers [] a f ∨ (start ≤ a ∧ a < stop) ∧ flags = f
  fields : s.mm.Same s'.mm
  le : s.kmallocs ≤ s'.kmallocs

/-- Only the cache has changed, and `kmalloc` may have seen requests. -/
structure Kept (s s' : Vm) : Prop where
  mm : ∃ c : Option Nat, (∀ v, c = some v → v ∈ s.mm.mmapList) ∧ s'.mm = { s.mm with mmapCache := c }
  mem : s'.mem = s.mem
  le : s.kmallocs ≤ s'.kmallocs

variable {kmalloc : Nat → Bool} {mm mm' : Mm} {s s' s'' : Vm} {fresh v start stop flags : Nat} {w : Vma}
  {detached detached' detached'' : List Nat} {ranges ranges' : List (Nat × Nat)}

theorem Mm.Same.trans {mm'' : Mm} (h : mm.Same mm') (h' : mm'.Same mm'') : mm.Same mm'' :=
  ⟨h'.1.trans h.1, h'.2.1.trans h.2.1, h'.2.2.1.trans h.2.2.1, h'.2.2.2.trans h.2.2.2⟩

theorem Mm.Same.refl (mm : Mm) : mm.Same mm := ⟨rfl, rfl, rfl, rfl⟩

theorem Mm.Tidy.nonempty (h : mm.Tidy fresh detached) : ∀ v ∈ mm.mmapList ++ detached, mm.lo v < mm.hi v :=
  fun v hv => (h.fits v hv).2.2.1

theorem Edits.refl (h : s.mm.Tidy s.kmallocs detached) : Edits detached detached [] s s :=
  ⟨h, id, rfl, rfl, fun _ _ => id, fun _ _ => Or.inl, nofun, .refl _, le_rfl⟩

theorem Edits.trans (h : Edits detached detached' ranges s s') (h' : Edits detached' detached'' ranges' s' s'') :
    Edits detached detached'' (ranges ++ ranges') s s'' := by
  have h1 := h.count
  have h2 := h'.count
  refine ⟨h'.tidy, fun hs => h'.sorted (h.sorted hs), by omega, ?_, fun a f ha => h.covers a f (h'.covers a f ha), ?_, ?_,
    h.fields.trans h'.fields, h.le.trans h'.le⟩
  · have hm := h'.mem
    rw [unmapRanges, List.foldlM_append, ← unmapRanges, h.mem, ← h.fields.2.1]
    exact hm
  · intro a f ha
    rcases h.lost a f ha with ha | ⟨r, hr, har⟩
    · rcases h'.lost a f ha with ha | ⟨r, hr, har⟩
      · exact Or.inl ha
      · exact Or.inr ⟨r, List.mem_append_right _ hr, har⟩
    · exact Or.inr ⟨r, List.mem_append_left _ hr, har⟩
  · intro r hr a ha1 ha2
    rcases List.mem_append.mp hr with hr | hr
    · exact h.inside r hr a ha1 ha2
    · obtain ⟨f, hf⟩ := h'.inside r hr a ha1 ha2
      exact ⟨f, h.covers a f hf⟩

theorem Edits.covers_iff (h : Edits detached detached' [] s s') (a f : Nat) :
    s'.mm.Covers detached' a f ↔ s.mm.Covers detached a f := by
  refine ⟨h.covers a f, fun ha => ?_⟩
  rcases h.lost a f ha with ha | ⟨r, hr, -⟩
  · exact ha
  · cases hr

theorem Edits.mem_eq (h : Edits detached detached' [] s s') : s'.mem = s.mem := by
  have hm : (Except.ok s.mem : Except VmPanic Memory) = .ok s'.mem := h.mem
  exact (Except.ok.inj hm).symm

theorem Edits.unoccupied (h : Edits [] [] ranges s s') (hf : s.mm.Unoccupied start stop) : s'.mm.Unoccupied start stop :=
  fun a f ha => hf a f (h.covers a f ha)

/-- Steps before that unmap nothing. -/
theorem Adds.of_edits (he : Edits [] [] [] s s') (h : Adds start stop flags s' s'') : Adds start stop flags s s'' := by
  have h1 := he.count
  have h2 := h.count
  refine ⟨h.tidy, ?_, by omega, h.mem.trans he.mem_eq, ?_, he.fields.trans h.fields, he.le.trans h.le⟩
  · exact fun hs hf => h.sorted (he.sorted hs) (he.unoccupied hf)
  · intro a f
    rw [h.covers a f, he.covers_iff a f]

theorem Kept.trans (h : Kept s s') (h' : Kept s' s'') : Kept s s'' := by
  obtain ⟨c, hc, hmm⟩ := h.mm
  obtain ⟨c', hc', hmm'⟩ := h'.mm
  rw [hmm] at hc' hmm'
  exact ⟨⟨c', hc', hmm'⟩, h'.mem.trans h.mem, h.le.trans h'.le⟩

namespace VmmAux

variable {fresh' u a f : Nat} {c o : Option Nat}

/-! ## The two invariants -/

theorem tidy_mono (h : mm.Tidy fresh detached) (hle : fresh ≤ fresh') : mm.Tidy fresh' detached :=
  { h with named := fun v hv => (h.named v hv).trans_le hle }

theorem tidy_setCache (h : mm.Tidy fresh detached) (hc : ∀ v, c = some v → v ∈ mm.mmapList) :
    Mm.Tidy fresh detached { mm with mmapCache := c } :=
  { h with cache := hc }

theorem ne_fresh (h : mm.Tidy fresh detached) (hu : u ∈ mm.mmapList ++ detached) : u ≠ fresh :=
  (h.named u hu).ne

theorem sorted_of_ordered (h : Ordered mm.lo mm.hi mm.mmapList) : mm.Sorted [] := by
  refine ⟨h, ?_⟩
  rw [List.append_nil]
  exact h.apart.imp Or.inl

/-- The list of an address space with nothing detached is that of `Mm.Inv`. -/
theorem inv_of_tidy (h : mm.Tidy fresh []) (hs : mm.Sorted []) : mm.Inv fresh := by
  have hf : ∀ v ∈ mm.mmapList, Fits (mm.lo v) (mm.hi v) := fun v hv => h.fits v (List.mem_append_left _ hv)
  exact ⟨hs.ordered, h.owner, fun v hv => (hf v hv).1, fun v hv => ⟨(hf v hv).2.1, (hf v hv).2.2.2⟩, h.cache,
    fun v hv => h.named v (List.mem_append_left _ hv)⟩

theorem tidy_of_inv (h : mm.Inv fresh) : mm.Tidy fresh [] ∧ mm.Sorted [] := by
  have hm : ∀ v ∈ mm.mmapList ++ [], v ∈ mm.mmapList := fun v hv => by rwa [List.append_nil] at hv
  refine ⟨⟨?_, fun v hv => h.named v (hm v hv), ?_, h.owner, h.cache⟩, sorted_of_ordered h.ordered⟩
  · rw [List.append_nil]
    exact h.ordered.nodup
  · intro v hv
    have hu := h.user v (hm v hv)
    exact ⟨h.aligned v (hm v hv), hu.1, h.ordered.nonempty v (hm v hv), hu.2⟩

theorem coverage_eq_some (h : mm.Inv fresh) : mm.coverage a = some f ↔ mm.Covers [] a f := by
  unfold Mm.Covers
  rw [List.append_nil]
  constructor
  · intro hf
    obtain ⟨v, hv, hfl⟩ := Option.map_eq_some_iff.mp hf
    exact ⟨v, (mem_of_find? hv).1, (mem_of_find? hv).2, hfl⟩
  · rintro ⟨v, hv, hh, rfl⟩
    exact coverage_eq h hv hh

/-- Two address spaces cover an address alike when they cover it with the same flags. -/
theorem coverage_congr (h : mm.Inv fresh) (h' : mm'.Inv fresh') (hs : ∀ f, mm'.Covers [] a f ↔ mm.Covers [] a f) :
    mm'.coverage a = mm.coverage a := by
  refine Option.ext fun f => ?_
  rw [coverage_eq_some h, coverage_eq_some h']
  exact hs f

theorem covers_of_perm {d d' : List Nat} (hp : (mm'.mmapList ++ d').Perm (mm.mmapList ++ d))
    (hv : ∀ u, mm'.lo u = mm.lo u ∧ mm'.hi u = mm.hi u ∧ (mm'.vmas u).vmFlags = (mm.vmas u).vmFlags) (a f : Nat) :
    mm'.Covers d' a f ↔ mm.Covers d a f := by
  have hh : ∀ u, mm'.Has a u ↔ mm.Has a u := by
    intro u
    change mm'.lo u ≤ a ∧ a < mm'.hi u ↔ mm.lo u ≤ a ∧ a < mm.hi u
    rw [(hv u).1, (hv u).2.1]
  unfold Mm.Covers
  simp only [hp.mem_iff, hh, (hv _).2.2]

/-- A step that moves VMAs between the list and the detached ones, and changes no range. -/
theorem edits_of_perm (h : s.mm.Tidy s.kmallocs detached) (hp : (mm'.mmapList ++ detached').Perm (s.mm.mmapList ++ detached))
    (hv : ∀ u, mm'.lo u = s.mm.lo u ∧ mm'.hi u = s.mm.hi u ∧ (mm'.vmas u).vmFlags = (s.mm.vmas u).vmFlags)
    (how : ∀ u ∈ mm'.mmapList, (mm'.vmas u).vmMm = mm'.id) (hca : ∀ u, mm'.mmapCache = some u → u ∈ mm'.mmapList)
    (hc : mm'.mapCount + s.mm.mmapList.length = s.mm.mapCount + mm'.mmapList.length)
    (ho : s.mm.Sorted detached → Ordered mm'.lo mm'.hi mm'.mmapList) (hf : s.mm.Same mm') :
    Edits detached detached' [] s { s with mm := mm' } := by
  have hlo : mm'.lo = s.mm.lo := funext fun u => (hv u).1
  have hhi : mm'.hi = s.mm.hi := funext fun u => (hv u).2.1
  refine ⟨⟨hp.nodup_iff.mpr h.nodup, ?_, ?_, how, hca⟩, ?_, hc, rfl, ?_, ?_, nofun, hf, le_rfl⟩
  · exact fun u hu => h.named u (hp.mem_iff.mp hu)
  · intro u hu
    rw [hlo, hhi]
    exact h.fits u (hp.mem_iff.mp hu)
  · intro hs
    refine ⟨ho hs, ?_⟩
    rw [hlo, hhi, hp.pairwise_iff (fun hab => hab.symm)]
    exact hs.apart
  · exact fun a f => (covers_of_perm hp hv a f).mp
  · exact fun a f ha => Or.inl ((covers_of_perm hp hv a f).mpr ha)

/-- The cache has changed, or `kmalloc` has seen requests. -/
theorem edits_kept (h : s.mm.Tidy s.kmallocs []) (hk : Kept s s') : Edits [] [] [] s s' := by
  obtain ⟨⟨c, hc, hmm⟩, hm, hle⟩ := hk
  obtain ⟨mm', mem', k⟩ := s'
  subst hmm hm
  exact ⟨tidy_mono (tidy_setCache h hc) hle, fun hs => ⟨hs.ordered, hs.apart⟩, rfl, rfl, fun _ _ => id, fun _ _ => Or.inl,
    nofun, .refl _, hle⟩

theorem kept_refl (h : s.mm.Tidy s.kmallocs detached) : Kept s s := ⟨⟨s.mm.mmapCache, h.cache, rfl⟩, rfl, le_rfl⟩

/-- `find_vma` changes nothing but the cache; what it returns holds the address, and it returns something if a VMA does. -/
theorem findVma_tidy (h : s.mm.Tidy s.kmallocs detached) (a : Nat) :
    Kept s { s with mm := (findVma a s.mm).2 } ∧ (∀ v, (findVma a s.mm).1 = some v → v ∈ s.mm.mmapList ∧ s.mm.Has a v) ∧
      ((findVma a s.mm).1 = none → ∀ v ∈ s.mm.mmapList, ¬s.mm.Has a v) := by
  unfold findVma
  cases hc : s.mm.mmapCache.filter (fun v => decide (s.mm.Has a v)) with
  | some v =>
    obtain ⟨hca, hh⟩ := Option.filter_eq_some_iff.mp hc
    refine ⟨kept_refl h, ?_, nofun⟩
    rintro u ⟨⟩
    exact ⟨h.cache v hca, by simpa using hh⟩
  | none =>
    cases hf : s.mm.mmapList.find? (fun v => decide (s.mm.Has a v)) with
    | some v =>
      have hm := mem_of_find? hf
      refine ⟨⟨⟨some v, ?_, rfl⟩, rfl, le_rfl⟩, ?_, nofun⟩
      · rintro u ⟨⟩
        exact hm.1
      · rintro u ⟨⟩
        exact hm
    | none => exact ⟨kept_refl h, nofun, fun _ v hv => not_has_of_find? hf hv⟩

/-! ## Taking a VMA off the list -/

theorem removeVmaStruct_edits (h : s.mm.Tidy s.kmallocs detached) (hv : v ∈ s.mm.mmapList) :
    ∃ mm', removeVmaStruct v s.mm = .ok mm' ∧ mm'.mmapList = s.mm.mmapList.erase v ∧ mm'.vmas = s.mm.vmas ∧
      Edits detached (v :: detached) [] s { s with mm := mm' } := by
  unfold removeVmaStruct
  rw [ensure_of (h.owner v hv).symm]
  refine ⟨_, rfl, rfl, rfl, edits_of_perm h ?_ (fun _ => ⟨rfl, rfl, rfl⟩) ?_ ?_ ?_ ?_ (.refl _)⟩
  · exact List.perm_middle.trans ((List.perm_cons_erase hv).symm.append_right detached)
  · exact fun u hu => h.owner u (List.mem_of_mem_erase hu)
  · intro u hu
    split at hu
    · cases hu
    · rename_i hne
      refine (List.mem_erase_of_ne ?_).mpr (h.cache u hu)
      rintro rfl
      exact hne hu
  · have hl := List.length_erase_of_mem hv
    have hp := List.length_pos_of_mem hv
    dsimp only
    omega
  · exact fun hs => hs.ordered.sublist List.erase_sublist

/-- The first loop of `mm_unmap`: it takes the VMAs off the list that start before `stop`, up to the first that does not. -/
theorem detachLoop_edits (stop : Nat) :
    ∀ (le before detached : List Nat) (s : Vm), s.mm.Tidy s.kmallocs detached → s.mm.mmapList = before ++ le →
      ∃ d, detachLoop stop le detached s.mm = .ok d ∧ Edits detached d.1 [] s { s with mm := d.2 } ∧ d.2.vmas = s.mm.vmas ∧
        d.1 = (le.takeWhile (fun v => decide (s.mm.lo v < stop))).reverse ++ detached ∧
        d.2.mmapList = before ++ le.dropWhile (fun v => decide (s.mm.lo v < stop)) := by
  intro le
  induction le with
  | nil =>
    intro before detached s h hl
    exact ⟨_, rfl, Edits.refl h, rfl, rfl, hl⟩
  | cons v le ih =>
    intro before detached s h hl
    rw [detachLoop]
    by_cases hlt : s.mm.lo v < stop
    · have hv : v ∈ s.mm.mmapList := by
        rw [hl]
        exact List.mem_append_cons_self
      obtain ⟨mm1, hre, hlist1, hvm, hes⟩ := removeVmaStruct_edits h hv
      have hn : v ∉ before := by
        have hnd := h.nodup
        rw [hl, List.append_assoc, List.nodup_append] at hnd
        exact fun hb => hnd.2.2 v hb v (by simp) rfl
      rw [hl, List.erase_append_right _ hn, List.erase_cons_head] at hlist1
      obtain ⟨d, hr, he, hvmas', hd1, hd2⟩ := ih before (v :: detached) { s with mm := mm1 } hes.tidy hlist1
      have hlo : mm1.lo = s.mm.lo := by
        funext u
        rw [Mm.lo, hvm, Mm.lo]
      rw [hlo] at hd1 hd2
      rw [if_pos (show (s.mm.vmas v).vmStart < stop from hlt), hre]
      refine ⟨d, hr, hes.trans he, hvmas'.trans hvm, ?_, ?_⟩
      · rw [hd1, List.takeWhile_cons_of_pos (by simpa using hlt), List.reverse_cons, List.append_assoc]
        rfl
      · rw [hd2, List.dropWhile_cons_of_pos (by simpa using hlt)]
    · rw [if_neg (show ¬(s.mm.vmas v).vmStart < stop from hlt)]
      refine ⟨_, rfl, Edits.refl h, rfl, ?_, ?_⟩
      · rw [List.takeWhile_cons_of_neg (by simpa using hlt)]
        rfl
      · rw [List.dropWhile_cons_of_neg (by simpa using hlt)]
        exact hl

/-! ## Putting a VMA into the list -/

theorem checkVmaOverlap_eq_ok {prev next : Vma} (h : checkVmaOverlap prev next = .ok ()) : prev.vmEnd ≤ next.vmStart := by
  obtain ⟨-, h⟩ := ensure_bind_eq_ok.mp h
  exact (ensure_bind_eq_ok.mp h).1

theorem forM_eq_ok {f : Nat → Except VmPanic Unit} (h : o.forM f = .ok ()) (hu : o = some u) : f u = .ok () := by
  subst hu
  exact h

/-- What `insert_vma_struct` has checked and done where it returns. -/
theorem insertVmaStruct_eq_ok (hr : insertVmaStruct v mm = .ok mm') :
    (Ordered mm.lo mm.hi mm.mmapList → ∀ u ∈ mm.mmapList, Apart mm.lo mm.hi u v) ∧ mm' = { mm with
      vmas := (update mm.vmas v { mm.vmas v with vmMm := mm.id })
      mmapList := placed mm v
      mapCount := mm.mapCount + 1 } := by
  obtain ⟨-, hr⟩ := ensure_bind_eq_ok.mp hr
  obtain ⟨⟨⟩, hp, hr⟩ := bind_eq_ok.mp hr
  obtain ⟨⟨⟩, hn, hr⟩ := bind_eq_ok.mp hr
  refine ⟨?_, ?_⟩
  · intro ho
    refine ho.apart_of_neighbours (fun u => decide ((mm.vmas u).vmStart ≤ (mm.vmas v).vmStart)) ?_ ?_
    · exact fun u hu => checkVmaOverlap_eq_ok (forM_eq_ok hp hu)
    · exact fun u hu => checkVmaOverlap_eq_ok (forM_eq_ok hn hu)
  · cases hr
    rfl

theorem placed_perm (mm : Mm) (v : Nat) : (placed mm v).Perm (v :: mm.mmapList) := by
  refine List.perm_middle.trans ?_
  rw [List.takeWhile_append_dropWhile]

theorem apart_detached (hs : mm.Sorted (v :: detached)) : ∀ u ∈ mm.mmapList, Apart mm.lo mm.hi u v :=
  fun u hu => (List.pairwise_append.mp hs.apart).2.2 u hu v List.mem_cons_self

theorem insertVmaStruct_edits (h : s.mm.Tidy s.kmallocs (v :: detached)) (hr : insertVmaStruct v s.mm = .ok mm') :
    Edits (v :: detached) detached [] s { s with mm := mm' } := by
  obtain ⟨-, rfl⟩ := insertVmaStruct_eq_ok hr
  have hm : v ∈ s.mm.mmapList ++ v :: detached := List.mem_append_cons_self
  have hv : ∀ u, ((update s.mm.vmas v { s.mm.vmas v with vmMm := s.mm.id }) u).vmStart = (s.mm.vmas u).vmStart ∧
      ((update s.mm.vmas v { s.mm.vmas v with vmMm := s.mm.id }) u).vmEnd = (s.mm.vmas u).vmEnd ∧
      ((update s.mm.vmas v { s.mm.vmas v with vmMm := s.mm.id }) u).vmFlags = (s.mm.vmas u).vmFlags := by
    intro u
    rcases eq_or_ne u v with rfl | hu
    · simp
    · simp [hu]
  refine edits_of_perm h ?_ hv ?_ ?_ ?_ ?_ (.refl _)
  · exact ((placed_perm s.mm v).append_right detached).trans List.perm_middle.symm
  · intro u hu
    dsimp only
    rcases eq_or_ne u v with rfl | huv
    · simp
    · rw [update_of_ne huv]
      exact h.owner u ((mem_placed.mp hu).resolve_left huv)
  · exact fun u hu => mem_placed.mpr (Or.inr (h.cache u hu))
  · have hl := (placed_perm s.mm v).length_eq
    dsimp only
    rw [hl, List.length_cons]
    omega
  · intro hs
    refine (insertVmaStruct_spec s.mm hs.ordered (h.nonempty v hm) (apart_detached hs)).2.congr ?_
    exact fun u _ => ⟨(hv u).1, (hv u).2.1⟩

/-! ## Rewriting a VMA -/

end VmmAux

/-- One VMA rewritten. -/
def Mm.set (mm : Mm) (v : Nat) (w : Vma) : Mm := { mm with vmas := (update mm.vmas v w) }

/-- A VMA other than `v`, detached or not, holds the address and has these flags. -/
def Mm.CoversBut (mm : Mm) (detached : List Nat) (v a flags : Nat) : Prop :=
  ∃ u ∈ mm.mmapList ++ detached, u ≠ v ∧ mm.Has a u ∧ (mm.vmas u).vmFlags = flags

namespace VmmAux

theorem vmas_set (mm : Mm) (v : Nat) (w : Vma) (u : Nat) : (mm.set v w).vmas u = if u = v then w else mm.vmas u :=
  update_apply ..

theorem vmas_set_self (mm : Mm) (v : Nat) (w : Vma) : (mm.set v w).vmas v = w := update_self ..

theorem vmas_set_of_ne {u : Nat} (h : u ≠ v) : (mm.set v w).vmas u = mm.vmas u := update_of_ne h ..

/-- The bookkeeping when a VMA is rewritten that is new, or was there before. -/
theorem tidy_set {fresh' : Nat} (h : mm.Tidy fresh detached)
    (hm : ∀ u ∈ mm.mmapList ++ detached', u = v ∨ u ∈ mm.mmapList ++ detached) (hno : (mm.mmapList ++ detached').Nodup)
    (hn : ∀ u ∈ mm.mmapList ++ detached', u < fresh') (hf : Fits w.vmStart w.vmEnd)
    (ho : v ∈ mm.mmapList → w.vmMm = mm.id) : (mm.set v w).Tidy fresh' detached' := by
  refine ⟨hno, hn, ?_, ?_, h.cache⟩
  · intro u hu
    rw [Mm.lo, Mm.hi, vmas_set]
    split
    · exact hf
    · rename_i huv
      exact h.fits u ((hm u hu).resolve_left huv)
  · intro u hu
    rw [vmas_set]
    split
    · rename_i huv
      exact ho (huv ▸ hu)
    · exact h.owner u hu

theorem covers_set (mm : Mm) (detached : List Nat) (v : Nat) (w : Vma) (a f : Nat) : (mm.set v w).Covers detached a f ↔
    mm.CoversBut detached v a f ∨ v ∈ mm.mmapList ++ detached ∧ (w.vmStart ≤ a ∧ a < w.vmEnd) ∧ w.vmFlags = f := by
  constructor
  · rintro ⟨u, hu, hh, hf⟩
    rcases eq_or_ne u v with rfl | huv
    · rw [Mm.Has, vmas_set_self] at hh
      rw [vmas_set_self] at hf
      exact Or.inr ⟨hu, hh, hf⟩
    · rw [Mm.Has, vmas_set_of_ne huv] at hh
      rw [vmas_set_of_ne huv] at hf
      exact Or.inl ⟨u, hu, huv, hh, hf⟩
  · rintro (⟨u, hu, huv, hh, hf⟩ | ⟨hv, hh, hf⟩)
    · exact ⟨u, hu, by rwa [Mm.Has, vmas_set_of_ne huv], by rwa [vmas_set_of_ne huv]⟩
    · exact ⟨v, hv, by rwa [Mm.Has, vmas_set_self], by rwa [vmas_set_self]⟩

/-- What a VMA covers, and what the others do. -/
theorem covers_split (mm : Mm) (detached : List Nat) (v a f : Nat) : mm.Covers detached a f ↔
    mm.CoversBut detached v a f ∨ v ∈ mm.mmapList ++ detached ∧ mm.Has a v ∧ (mm.vmas v).vmFlags = f := by
  have hs : mm.set v (mm.vmas v) = mm := by
    rw [Mm.set, update_eq_self]
  have h := covers_set mm detached v (mm.vmas v) a f
  rwa [hs] at h

/-! ## Cutting a VMA -/

/-- A VMA as `vma_resize` leaves it. -/
def resized (mm : Mm) (v start stop : Nat) : Mm := mm.set v { mm.vmas v with vmStart := start, vmEnd := stop }

theorem vmaResize_eq_ok (hr : vmaResize v start stop mm = .ok mm') :
    start % pgSize = 0 ∧ stop % pgSize = 0 ∧ mm.lo v ≤ start ∧ start < stop ∧ stop ≤ mm.hi v ∧ mm' = resized mm v start stop := by
  obtain ⟨hal, hr⟩ := ensure_bind_eq_ok.mp hr
  obtain ⟨hra, hr⟩ := ensure_bind_eq_ok.mp hr
  cases hr
  exact ⟨hal.1, hal.2, hra.1, hra.2.1, hra.2.2, rfl⟩

theorem vmaResize_ok (hal : start % pgSize = 0 ∧ stop % pgSize = 0)
    (hr : mm.lo v ≤ start ∧ start < stop ∧ stop ≤ mm.hi v) : vmaResize v start stop mm = .ok (resized mm v start stop) := by
  have hrange' : (mm.vmas v).vmStart ≤ start ∧ start < stop ∧ stop ≤ (mm.vmas v).vmEnd := hr
  unfold vmaResize
  rw [ensure_of hal, ensure_of hrange']
  rfl

/-- The invariants of a list one of whose VMAs is cut. -/
theorem tidy_resized (h : mm.Tidy fresh detached) (hv : v ∈ mm.mmapList ++ detached) (hal : start % pgSize = 0 ∧ stop % pgSize = 0)
    (hlo : mm.lo v ≤ start) (hlt : start < stop) (hhi : stop ≤ mm.hi v) :
    (resized mm v start stop).Tidy fresh detached ∧ (mm.Sorted detached → (resized mm v start stop).Sorted detached) := by
  have hsp : ∀ u ∈ mm.mmapList ++ detached, mm.lo u ≤ (resized mm v start stop).lo u ∧
      (resized mm v start stop).lo u < (resized mm v start stop).hi u ∧ (resized mm v start stop).hi u ≤ mm.hi u := by
    intro u hu
    rw [Mm.lo, Mm.lo, Mm.hi, resized, vmas_set]
    split
    · rename_i huv
      subst huv
      exact ⟨hlo, hlt, hhi⟩
    · exact ⟨le_rfl, h.nonempty u hu, le_rfl⟩
  obtain ⟨-, hba, -, ht⟩ := h.fits v hv
  refine ⟨tidy_set h (fun u hu => Or.inr hu) h.nodup h.named ⟨hal, ?_⟩ (h.owner v), ?_⟩
  · exact ⟨hba.trans hlo, hlt, hhi.trans ht⟩
  · intro hs
    refine ⟨hs.ordered.shrink fun u hu => hsp u (List.mem_append_left _ hu), ?_⟩
    refine hs.apart.imp_of_mem ?_
    intro a b ha hb hab
    exact hab.shrink ⟨(hsp a ha).1, (hsp a ha).2.2⟩ ⟨(hsp b hb).1, (hsp b hb).2.2⟩

/-- A VMA that has been cut covers no more than before, and less only outside of the range it kept. -/
theorem covers_resized (hlo : mm.lo v ≤ start) (hhi : stop ≤ mm.hi v) (a f : Nat) :
    ((resized mm v start stop).Covers detached a f → mm.Covers detached a f) ∧
      (mm.Covers detached a f → (resized mm v start stop).Covers detached a f ∨ mm.Has a v ∧ ¬(start ≤ a ∧ a < stop)) := by
  rw [resized, covers_set, covers_split mm detached v]
  constructor
  · rintro (hb | ⟨hv, hh, hf⟩)
    · exact Or.inl hb
    · exact Or.inr ⟨hv, ⟨hlo.trans hh.1, hh.2.trans_le hhi⟩, hf⟩
  · rintro (hb | ⟨hv, hh, hf⟩)
    · exact Or.inl (Or.inl hb)
    · by_cases hin : start ≤ a ∧ a < stop
      · exact Or.inl (Or.inr ⟨hv, hin, hf⟩)
      · exact Or.inr ⟨hh, hin⟩

/-! ## Unmapping -/

theorem unmapRange_eq_ok (hr : s.unmapRange start stop = .ok s') :
    ∃ mem', (Ucore.unmapRange s.mm.pgdir start stop s.mem).mapError VmPanic.mem = .ok mem' ∧ s' = { s with mem := mem' } := by
  obtain ⟨mem', hm, hr⟩ := bind_eq_ok.mp hr
  cases hr
  exact ⟨mem', hm, rfl⟩

/-- The VMA `v` is the only one that is changed; what goes back of it into the list lies outside of the range from `p` to `q`. -/
structure Trims (v p q : Nat) (s s' : Vm) : Prop where
  list : ∀ u ∈ s'.mm.mmapList, u ∈ s.mm.mmapList ∨ u = v ∧ (s'.mm.hi v ≤ p ∨ q ≤ s'.mm.lo v)
  vmas : ∀ u, u ≠ v → s'.mm.vmas u = s.mm.vmas u

/-- A detached VMA cut and put back, and the part that it lost unmapped. -/
theorem cut_edits {x y p q : Nat} {mm1 mm2 : Mm} (h : s.mm.Tidy s.kmallocs (v :: detached))
    (hre : vmaResize v start stop s.mm = .ok mm1) (hit : insertVmaStruct v mm1 = .ok mm2)
    (hun : { s with mm := mm2 }.unmapRange x y = .ok s')
    (hcut : ∀ a, s.mm.Has a v → ¬(start ≤ a ∧ a < stop) → x ≤ a ∧ a < y) (hin : s.mm.lo v ≤ x ∧ y ≤ s.mm.hi v)
    (ho : stop ≤ p ∨ q ≤ start) :
    Edits (v :: detached) detached [(x, y)] s s' ∧ Trims v p q s s' := by
  have hv : v ∈ s.mm.mmapList ++ v :: detached := List.mem_append_cons_self
  obtain ⟨mem', hm, rfl⟩ := unmapRange_eq_ok hun
  obtain ⟨hal1, hal2, hlo, hlt, hhi, rfl⟩ := vmaResize_eq_ok hre
  obtain ⟨-, hmm2⟩ := insertVmaStruct_eq_ok hit
  rw [show mm2.pgdir = s.mm.pgdir by rw [hmm2]; rfl] at hm
  obtain ⟨ht, hs⟩ := tidy_resized h hv ⟨hal1, hal2⟩ hlo hlt hhi
  let s1 : Vm := { s with mm := resized s.mm v start stop, mem := mem' }
  have hcutted : Edits (v :: detached) (v :: detached) [(x, y)] s s1 := by
    refine ⟨ht, hs, rfl, ?_, fun a f => (covers_resized hlo hhi a f).1, ?_, ?_, .refl _, le_rfl⟩
    · rw [unmapRanges, List.foldlM_cons, hm]
      rfl
    · intro a f ha
      refine ((covers_resized hlo hhi a f).2 ha).imp_right ?_
      exact fun hc => ⟨(x, y), List.mem_singleton_self _, hcut a hc.1 hc.2⟩
    · intro r hr a ha1 ha2
      rw [List.mem_singleton.mp hr] at ha1 ha2
      exact ⟨_, v, hv, ⟨hin.1.trans ha1, ha2.trans_le hin.2⟩, rfl⟩
  refine ⟨hcutted.trans (insertVmaStruct_edits hcutted.tidy hit), ?_, ?_⟩
  · intro u hu
    rw [hmm2] at hu ⊢
    refine (mem_placed.mp hu).symm.imp_right fun huv => ⟨huv, ?_⟩
    simpa [Mm.lo, Mm.hi, resized, Mm.set] using ho
  · intro u huv
    rw [hmm2]
    simp [resized, Mm.set, huv]

/-- A detached VMA freed, and its range unmapped. -/
theorem drop_edits (p q : Nat) (h : s.mm.Tidy s.kmallocs (v :: detached)) (hun : s.unmapRange (s.mm.lo v) (s.mm.hi v) = .ok s') :
    Edits (v :: detached) detached [(s.mm.lo v, s.mm.hi v)] s s' ∧ Trims v p q s s' := by
  obtain ⟨mem', hm, rfl⟩ := unmapRange_eq_ok hun
  have hsub : (s.mm.mmapList ++ detached).Sublist (s.mm.mmapList ++ v :: detached) :=
    (List.sublist_cons_self v detached).append_left _
  refine ⟨⟨⟨h.nodup.sublist hsub, fun u hu => h.named u (hsub.subset hu), fun u hu => h.fits u (hsub.subset hu), h.owner,
    h.cache⟩, fun hs => ⟨hs.ordered, hs.apart.sublist hsub⟩, rfl, ?_, ?_, ?_, ?_, .refl _, le_rfl⟩,
    fun u hu => Or.inl hu, fun _ _ => rfl⟩
  · rw [unmapRanges, List.foldlM_cons, hm]
    rfl
  · rintro a f ⟨u, hu, hc⟩
    exact ⟨u, hsub.subset hu, hc⟩
  · rintro a f ⟨u, hu, hh, hf⟩
    rw [List.mem_append, List.mem_cons] at hu
    rcases hu with hu | rfl | hu
    · exact Or.inl ⟨u, List.mem_append_left _ hu, hh, hf⟩
    · exact Or.inr ⟨_, List.mem_singleton_self _, hh⟩
    · exact Or.inl ⟨u, List.mem_append_right _ hu, hh, hf⟩
  · intro r hr a ha1 ha2
    rw [List.mem_singleton.mp hr] at ha1 ha2
    exact ⟨_, v, List.mem_append_cons_self, ⟨ha1, ha2⟩, rfl⟩

/-- One round of the second loop of `mm_unmap`: the part of the VMA from `max start lo` on is unmapped, up to its end or to `stop`. -/
theorem trimVma_edits (h : s.mm.Tidy s.kmallocs (v :: detached)) (hr : trimVma start stop v s = .ok s') :
    ∃ x y, Edits (v :: detached) detached [(x, y)] s s' ∧ Trims v start stop s s' ∧ x = max start (s.mm.lo v) ∧
      y = if s.mm.lo v < start then s.mm.hi v else min stop (s.mm.hi v) := by
  rw [trimVma] at hr
  by_cases hlo : s.mm.lo v < start
  · rw [if_pos (show (s.mm.vmas v).vmStart < start from hlo)] at hr
    obtain ⟨mm1, hre, hr⟩ := bind_eq_ok.mp hr
    obtain ⟨mm2, hin, hr⟩ := bind_eq_ok.mp hr
    obtain ⟨he, ht⟩ := cut_edits h hre hin hr (by rintro a ⟨ha1, ha2⟩ ho; omega)
      ⟨hlo.le, le_rfl⟩ (Or.inl le_rfl)
    exact ⟨_, _, he, ht, by omega, (if_pos hlo).symm⟩
  · rw [if_neg (show ¬(s.mm.vmas v).vmStart < start from hlo)] at hr
    rw [if_neg hlo]
    by_cases hhi : stop < s.mm.hi v
    · rw [if_pos (show stop < (s.mm.vmas v).vmEnd from hhi)] at hr
      obtain ⟨mm1, hre, hr⟩ := bind_eq_ok.mp hr
      obtain ⟨mm2, hin, hr⟩ := bind_eq_ok.mp hr
      obtain ⟨he, ht⟩ := cut_edits h hre hin hr (by rintro a ⟨ha1, ha2⟩ ho; omega)
        ⟨le_rfl, hhi.le⟩ (Or.inr le_rfl)
      refine ⟨_, _, he, ht, ?_, by omega⟩
      change s.mm.lo v = _
      omega
    · rw [if_neg (show ¬stop < (s.mm.vmas v).vmEnd from hhi)] at hr
      obtain ⟨he, ht⟩ := drop_edits start stop h hr
      exact ⟨_, _, he, ht, by omega, by omega⟩

/-- The second loop of `mm_unmap`. Where every detached VMA meets the range and one that begins before it ends in it, only ranges
in it are unmapped, and no VMA put back meets it. -/
theorem trimVmas_edits (start stop : Nat) : ∀ (detached : List Nat) (s s' : Vm), s.mm.Tidy s.kmallocs detached →
      detached.foldlM (fun s v => trimVma start stop v s) s = .ok s' → ∃ ranges, Edits detached [] ranges s s' ∧
        ((∀ v ∈ detached, s.mm.lo v < start → s.mm.hi v ≤ stop) → (∀ r ∈ ranges, start ≤ r.1 ∧ r.2 ≤ stop) ∧
          ((∀ u ∈ s.mm.mmapList, s.mm.hi u ≤ start ∨ stop ≤ s.mm.lo u) →
            ∀ u ∈ s'.mm.mmapList, s'.mm.hi u ≤ start ∨ stop ≤ s'.mm.lo u)) := by
  intro detached
  induction detached with
  | nil =>
    intro s s' h hrun
    cases hrun
    exact ⟨[], Edits.refl h, fun _ => ⟨nofun, id⟩⟩
  | cons v detached ih =>
    intro s s' h hrun
    obtain ⟨s1, ho, hre⟩ := bind_eq_ok.mp hrun
    obtain ⟨x, y, hes, ht, hx, hy⟩ := trimVma_edits h ho
    obtain ⟨ranges', hedits', hw⟩ := ih s1 s' hes.tidy hre
    refine ⟨_, hes.trans hedits', fun hen => ?_⟩
    have hn : v ∉ s.mm.mmapList ∧ v ∉ detached := by
      have hnd := List.nodup_middle.mp h.nodup
      exact ⟨fun hc => (List.nodup_cons.mp hnd).1 (List.mem_append_left _ hc),
        fun hc => (List.nodup_cons.mp hnd).1 (List.mem_append_right _ hc)⟩
    have hs : ∀ u, u ≠ v → s1.mm.lo u = s.mm.lo u ∧ s1.mm.hi u = s.mm.hi u := by
      intro u huv
      rw [Mm.lo, Mm.hi, ht.vmas u huv]
      exact ⟨rfl, rfl⟩
    obtain ⟨hin, hcl⟩ := hw (by
      intro u hu
      rw [(hs u (fun he => hn.2 (he ▸ hu))).1, (hs u (fun he => hn.2 (he ▸ hu))).2]
      exact hen u (List.mem_cons_of_mem _ hu))
    have hend := hen v List.mem_cons_self
    refine ⟨?_, fun hl => hcl ?_⟩
    · intro r hr
      rcases List.mem_cons.mp hr with rfl | hr
      · rw [hy]
        split <;> omega
      · exact hin r hr
    · intro u hu
      rcases ht.list u hu with hu | ⟨rfl, hout⟩
      · have huv : u ≠ v := fun he => hn.1 (he ▸ hu)
        rw [(hs u huv).1, (hs u huv).2]
        exact hl u hu
      · exact hout

/-! ## A new VMA -/

/-- The fields of a new VMA. -/
def created (mm : Mm) (v start stop flags : Nat) : Mm :=
  mm.set v { mm.vmas v with vmStart := start, vmEnd := stop, vmFlags := flags }

theorem vmaCreate_eq (kmalloc : Nat → Bool) (start stop flags : Nat) (s : Vm) :
    vmaCreate kmalloc start stop flags s = if kmalloc s.kmallocs then
      (some s.kmallocs, { s with mm := created s.mm s.kmallocs start stop flags, kmallocs := s.kmallocs + 1 })
    else (none, { s with kmallocs := s.kmallocs + 1 }) := rfl

/-- A VMA with a new name, as one that is detached. -/
theorem tidy_created (flags : Nat) (h : mm.Tidy fresh detached) (hf : Fits start stop) :
    (created mm fresh start stop flags).Tidy (fresh + 1) (fresh :: detached) := by
  have hn : fresh ∉ mm.mmapList ++ detached := fun hc => ne_fresh h hc rfl
  have hm : ∀ u ∈ mm.mmapList ++ fresh :: detached, u = fresh ∨ u ∈ mm.mmapList ++ detached :=
    fun u hu => List.mem_cons.mp (List.perm_middle.mem_iff.mp hu)
  refine tidy_set h hm (List.nodup_middle.mpr (List.nodup_cons.mpr ⟨hn, h.nodup⟩)) ?_ hf ?_
  · intro u hu
    rcases hm u hu with rfl | hu
    · exact Nat.lt_succ_self _
    · exact Nat.lt_succ_of_lt (h.named u hu)
  · exact fun hc => absurd (List.mem_append_left _ hc) hn

theorem vmas_created {u : Nat} (h : mm.Tidy fresh detached) (hu : u ∈ mm.mmapList ++ detached) :
    (created mm fresh start stop flags).vmas u = mm.vmas u := vmas_set_of_ne (ne_fresh h hu)

theorem sorted_created (h : mm.Tidy fresh detached) (hs : mm.Sorted detached)
    (hap : ∀ u ∈ mm.mmapList ++ detached, mm.hi u ≤ start ∨ stop ≤ mm.lo u) :
    (created mm fresh start stop flags).Sorted (fresh :: detached) := by
  refine ⟨hs.ordered.congr ?_, ?_⟩
  · intro u hu
    rw [Mm.lo, Mm.hi, vmas_created h (List.mem_append_left _ hu)]
    exact ⟨rfl, rfl⟩
  · rw [List.perm_middle.pairwise_iff (fun hab => hab.symm), List.pairwise_cons]
    refine ⟨?_, hs.apart.imp_of_mem ?_⟩
    · intro u hu
      rw [Apart, Mm.lo, Mm.hi, Mm.lo, Mm.hi, created, vmas_set_self, vmas_set_of_ne (ne_fresh h hu)]
      exact (hap u hu).symm
    · intro a b ha hb hab
      rw [Apart, Mm.lo, Mm.hi, Mm.lo, Mm.hi, vmas_created h ha, vmas_created h hb]
      exact hab

theorem covers_created (start stop flags : Nat) (h : mm.Tidy fresh detached) (a f : Nat) :
    (created mm fresh start stop flags).Covers (fresh :: detached) a f ↔
      mm.Covers detached a f ∨ (start ≤ a ∧ a < stop) ∧ flags = f := by
  have hb : mm.CoversBut (fresh :: detached) fresh a f ↔ mm.Covers detached a f := by
    unfold Mm.CoversBut Mm.Covers
    simp only [List.perm_middle.mem_iff, List.mem_cons]
    constructor
    · rintro ⟨u, hu, hne, hc⟩
      exact ⟨u, hu.resolve_left hne, hc⟩
    · rintro ⟨u, hu, hc⟩
      exact ⟨u, Or.inr hu, ne_fresh h hu, hc⟩
  rw [created, covers_set, hb]
  have hm : fresh ∈ mm.mmapList ++ fresh :: detached := List.mem_append_cons_self
  simp only [hm, true_and]

/-- A range that no VMA has lies apart from each VMA. -/
theorem apart_of_unoccupied (h : mm.Tidy fresh []) (hlt : start < stop) (hf : mm.Unoccupied start stop) :
    ∀ u ∈ mm.mmapList ++ [], mm.hi u ≤ start ∨ stop ≤ mm.lo u := by
  intro u hu
  have hne := h.nonempty u hu
  have hat : ¬(start ≤ mm.lo u ∧ mm.lo u < stop) := hf (mm.lo u) _ ⟨u, hu, ⟨le_rfl, hne⟩, rfl⟩
  by_contra hno
  rw [not_or, Nat.not_le] at hno
  exact hf start _ ⟨u, hu, ⟨by change mm.lo u ≤ start; omega, hno.1⟩, rfl⟩ ⟨le_rfl, hlt⟩

/-- A range that lies apart from each VMA is one that no VMA has. -/
theorem unoccupied_of_apart (h : ∀ u ∈ mm.mmapList, mm.hi u ≤ start ∨ stop ≤ mm.lo u) : mm.Unoccupied start stop := by
  rintro a f ⟨u, hu, ⟨hlo, hhi⟩, -⟩ ha
  rw [List.append_nil] at hu
  have hap : (mm.vmas u).vmEnd ≤ start ∨ stop ≤ (mm.vmas u).vmStart := h u hu
  omega

/-- A new VMA that `insert_vma_struct` accepts. -/
theorem adds_of_insert (h : s.mm.Tidy s.kmallocs []) (hf : Fits start stop)
    (hr : insertVmaStruct s.kmallocs (created s.mm s.kmallocs start stop flags) = .ok mm') :
    Adds start stop flags s { s with mm := mm', kmallocs := s.kmallocs + 1 } ∧
      (s.mm.Sorted [] → s.mm.Unoccupied start stop) := by
  let s1 : Vm := { s with mm := created s.mm s.kmallocs start stop flags, kmallocs := s.kmallocs + 1 }
  have he := insertVmaStruct_edits (s := s1) (tidy_created flags h hf) hr
  have hc : mm'.mapCount + s.mm.mmapList.length = s.mm.mapCount + mm'.mmapList.length := he.count
  refine ⟨⟨he.tidy, ?_, ?_, rfl, ?_, he.fields, Nat.le_succ _⟩, ?_⟩
  · exact fun hs hfr => he.sorted (sorted_created h hs (apart_of_unoccupied h hf.2.2.1 hfr))
  · dsimp only
    omega
  · intro a f
    rw [← covers_created start stop flags h a f]
    exact he.covers_iff a f
  · intro hs
    have hold : ∀ u ∈ s.mm.mmapList, (created s.mm s.kmallocs start stop flags).vmas u = s.mm.vmas u := fun u hu =>
      vmas_created h (List.mem_append_left _ hu)
    refine unoccupied_of_apart ?_
    intro u hu
    have ha := (insertVmaStruct_eq_ok hr).1 (hs.ordered.congr fun u hu => by
      rw [Mm.lo, Mm.hi, hold u hu]
      exact ⟨rfl, rfl⟩) u hu
    rw [Apart, Mm.lo, Mm.hi, Mm.lo, Mm.hi, hold u hu, created, vmas_set_self] at ha
    exact ha

/-- A new VMA for a range that no VMA has is accepted. -/
theorem insert_created (flags : Nat) (h : mm.Tidy fresh []) (hs : mm.Sorted []) (hf : Fits start stop)
    (hfr : mm.Unoccupied start stop) : ∃ mm', insertVmaStruct fresh (created mm fresh start stop flags) = .ok mm' := by
  have hs' : (created mm fresh start stop flags).Sorted [fresh] :=
    sorted_created h hs (apart_of_unoccupied h hf.2.2.1 hfr)
  have hne := (tidy_created flags h hf).nonempty fresh List.mem_append_cons_self
  exact ⟨_, (insertVmaStruct_spec _ hs'.ordered hne (apart_detached hs')).1⟩

/-- A new VMA has its place in the layout, behind the VMAs that start before it. -/
theorem layout_inserted (h : mm.Tidy fresh []) (hrun : insertVmaStruct fresh (created mm fresh start stop flags) = .ok mm') :
    ∃ l1 l2, mm.layout = l1 ++ l2 ∧ mm'.layout = l1 ++ (start, stop, flags) :: l2 ∧ ∀ r ∈ l1, r.1 ≤ start := by
  obtain ⟨-, rfl⟩ := insertVmaStruct_eq_ok hrun
  let mm1 := created mm fresh start stop flags
  have hs : mm1.vmas fresh = { mm.vmas fresh with vmStart := start, vmEnd := stop, vmFlags := flags } := vmas_set_self _ _ _
  have hold : ∀ u ∈ mm.mmapList, u ≠ fresh ∧ mm1.vmas u = mm.vmas u := fun u hu =>
    ⟨ne_fresh h (List.mem_append_left _ hu), vmas_created h (List.mem_append_left _ hu)⟩
  refine ⟨(mm.mmapList.takeWhile (fun u => decide (mm1.lo u ≤ mm1.lo fresh))).map
      (fun v => (mm.lo v, mm.hi v, (mm.vmas v).vmFlags)),
    (mm.mmapList.dropWhile (fun u => decide (mm1.lo u ≤ mm1.lo fresh))).map
      (fun v => (mm.lo v, mm.hi v, (mm.vmas v).vmFlags)), ?_, ?_, ?_⟩
  · rw [← List.map_append, List.takeWhile_append_dropWhile, Mm.layout]
  · rw [Mm.layout]
    rw [placed, List.map_append]
    refine congrArg₂ (· ++ ·) (List.map_congr_left ?_) (congrArg₂ List.cons ?_ (List.map_congr_left ?_))
    · intro u hu
      obtain ⟨hne, hv⟩ := hold u (List.takeWhile_subset _ hu)
      simp only [Mm.lo, Mm.hi, update_of_ne hne]
      rw [hv]
    · simp only [Mm.lo, Mm.hi, update_self]
      rw [hs]
    · intro u hu
      obtain ⟨hne, hv⟩ := hold u ((List.dropWhile_sublist _).subset hu)
      simp only [Mm.lo, Mm.hi, update_of_ne hne]
      rw [hv]
  · intro r hr
    obtain ⟨u, hu, rfl⟩ := List.mem_map.mp hr
    have hle := List.mem_takeWhile_imp hu
    rw [decide_eq_true_iff, Mm.lo, Mm.lo, (hold u (List.takeWhile_subset _ hu)).2, hs] at hle
    exact hle

/-! ## A VMA made longer -/

/-- The VMA that ends at `start` made longer, as `mm_brk` does. -/
theorem adds_extended (h : s.mm.Tidy s.kmallocs []) (hv : v ∈ s.mm.mmapList) (he : s.mm.hi v = start)
    (hal : stop % pgSize = 0) (hlt : start < stop) (ht : stop ≤ userTop) :
    Adds start stop (s.mm.vmas v).vmFlags s { s with mm := s.mm.set v { s.mm.vmas v with vmEnd := stop } } := by
  have hm : v ∈ s.mm.mmapList ++ [] := List.mem_append_left _ hv
  obtain ⟨⟨halv, -⟩, hba, hne, -⟩ := h.fits v hm
  have hlt' : s.mm.lo v < stop := by omega
  refine ⟨tidy_set h (fun u hu => Or.inr hu) h.nodup h.named ⟨⟨halv, hal⟩, hba, hlt', ht⟩ (h.owner v), ?_, id, rfl, ?_,
    .refl _, le_rfl⟩
  · intro hs hfr
    have hlo : (s.mm.set v { s.mm.vmas v with vmEnd := stop }).lo = s.mm.lo := by
      funext u
      rw [Mm.lo, vmas_set, Mm.lo]
      split
      · rename_i huv
        rw [huv]
      · rfl
    have hhi : (s.mm.set v { s.mm.vmas v with vmEnd := stop }).hi = update s.mm.hi v stop := by
      funext u
      rw [Mm.hi, vmas_set, update_apply]
      split
      · rfl
      · rfl
    refine sorted_of_ordered ?_
    rw [hlo, hhi]
    refine hs.ordered.extend hv hlt' ?_
    intro u hu _ hle
    have hne := hs.ordered.nonempty u hu
    rcases apart_of_unoccupied h hlt hfr u (List.mem_append_left _ hu) with hap | hap
    · omega
    · exact hap
  · intro a f
    rw [covers_set, covers_split s.mm [] v]
    have hh : s.mm.Has a v ↔ (s.mm.vmas v).vmStart ≤ a ∧ a < start := by
      rw [← he]
      rfl
    have hvlo : (s.mm.vmas v).vmStart < start := he ▸ hne
    simp only [hm, true_and, hh]
    constructor
    · rintro (hb | ⟨ha, hf⟩)
      · exact Or.inl (Or.inl hb)
      · by_cases hin : a < start
        · exact Or.inl (Or.inr ⟨⟨ha.1, hin⟩, hf⟩)
        · exact Or.inr ⟨⟨not_lt.mp hin, ha.2⟩, hf⟩
    · rintro ((hb | ⟨ha, hf⟩) | ⟨ha, hf⟩)
      · exact Or.inl hb
      · exact Or.inr ⟨⟨ha.1, ha.2.trans hlt⟩, hf⟩
      · exact Or.inr ⟨⟨by omega, ha.2⟩, hf⟩

end VmmAux

end Ucore
