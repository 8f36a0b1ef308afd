import Ucore.Vmm
import Ucore.Lib.Spans
import Ucore.Theorems.PageTable

/-!
# What the functions on address spaces do

`Mm.Inv` is the invariant of a VMA list: the VMAs are ordered spans of pages of the user's, `mmap_cache` is one of them, and their
names are those of blocks that `kmalloc` has handed out. `find_vma` then finds the one VMA that holds an address, and changes
nothing but the cache.
-/

namespace Ucore

open Checked Spans

/-- Where a VMA begins. -/
def Mm.lo (mm : Mm) (v : Nat) : Nat := (mm.vmas v).vmStart

/-- Where a VMA ends. -/
def Mm.hi (mm : Mm) (v : Nat) : Nat := (mm.vmas v).vmEnd

/-- The invariant of a VMA list; the blocks that `kmalloc` handed out have names below `fresh`. -/
structure Mm.Inv (fresh : Nat) (mm : Mm) : Prop where
  ordered : Ordered mm.lo mm.hi mm.mmapList
  owner : ∀ v ∈ mm.mmapList, (mm.vmas v).vmMm = mm.id
  aligned : ∀ v ∈ mm.mmapList, mm.lo v % pgSize = 0 ∧ mm.hi v % pgSize = 0
  user : ∀ v ∈ mm.mmapList, userBase ≤ mm.lo v ∧ mm.hi v ≤ userTop
  cache : ∀ v, mm.mmapCache = some v → v ∈ mm.mmapList
  named : ∀ v ∈ mm.mmapList, v < fresh

/-- What `find_vma` needs: the VMAs are ordered spans, and `mmap_cache` is one of them. -/
structure Mm.Searchable (mm : Mm) : Prop where
  ordered : Ordered mm.lo mm.hi mm.mmapList
  cache : ∀ v, mm.mmapCache = some v → v ∈ mm.mmapList

theorem Mm.Inv.searchable {fresh : Nat} {mm : Mm} (h : mm.Inv fresh) : mm.Searchable := ⟨h.ordered, h.cache⟩

/-- The VMAs of an address space let the user at the bytes from `start` up to `stop`: each lies in a VMA with the flag, and for
writes every stack among those VMAs is met behind its first page. -/
structure Mm.Grants (mm : Mm) (write : Bool) (start stop : Nat) : Prop where
  flag : ∀ a, start ≤ a → a < stop →
    ∃ v ∈ mm.mmapList, mm.Has a v ∧ (mm.vmas v).vmFlags &&& (if write then vmWrite else vmRead) ≠ 0
  stack : write = true → ∀ v ∈ mm.mmapList, (mm.vmas v).vmFlags &&& vmStack ≠ 0 →
    (∃ a, start ≤ a ∧ a < stop ∧ mm.Has a v) → (mm.vmas v).vmStart + pgSize ≤ max start (mm.vmas v).vmStart

/-- The ranges and flags of the VMAs, in the order of the list. -/
def Mm.layout (mm : Mm) : List (Nat × Nat × Nat) := mm.mmapList.map (fun v => (mm.lo v, mm.hi v, (mm.vmas v).vmFlags))

/-- The flags of the VMA that holds an address. -/
def Mm.coverage (mm : Mm) (a : Nat) : Option Nat :=
  (mm.mmapList.find? (fun v => decide (mm.Has a v))).map (fun v => (mm.vmas v).vmFlags)

/-! ## Rounding -/

theorem roundDown_eq {a : Nat} (h : a % pgSize = 0) : roundDown a pgSize = a := by
  rw [roundDown, h, Nat.sub_zero]

theorem roundDown_aligned (a : Nat) : roundDown a pgSize % pgSize = 0 := by
  unfold roundDown pgSize
  omega

theorem roundUp_aligned (a : Nat) : roundUp a pgSize % pgSize = 0 := roundDown_aligned _

theorem roundUp_eq {a : Nat} (h : a % pgSize = 0) (hlt : a ≤ userTop) : roundUp a pgSize = a := by
  unfold userTop at hlt
  unfold roundUp roundDown addrSize pgSize at *
  omega

/-- A rounded request is not below the request, or it is zero. -/
theorem le_roundUp {a : Nat} (ha : a < addrSize) : a ≤ roundUp a pgSize ∨ roundUp a pgSize = 0 := by
  unfold addrSize at ha
  unfold roundUp roundDown addrSize pgSize
  omega

namespace VmmAux

variable {mm : Mm} {fresh v a u start stop : Nat} {write : Bool} {vma prev next : Vma}

/-! ## Only the cache changes -/

theorem inv_setCache (h : mm.Inv fresh) {c : Option Nat} (hc : ∀ v, c = some v → v ∈ mm.mmapList) :
    Mm.Inv fresh { mm with mmapCache := c } :=
  ⟨h.ordered, h.owner, h.aligned, h.user, hc, h.named⟩

/-- `find_vma` finds the VMA that holds the address. -/
theorem findVma_spec (h : mm.Searchable) (a : Nat) : ∃ c : Option Nat, (∀ v, c = some v → v ∈ mm.mmapList) ∧
      findVma a mm = (mm.mmapList.find? (fun v => decide (mm.Has a v)), { mm with mmapCache := c }) := by
  unfold findVma
  cases hc : mm.mmapCache.filter (fun v => decide (mm.Has a v)) with
  | some v =>
    obtain ⟨hca, hh⟩ := Option.filter_eq_some_iff.mp hc
    rw [decide_eq_true_iff] at hh
    have hfi := h.ordered.find?_eq (h.cache v hca) hh
    refine ⟨mm.mmapCache, h.cache, ?_⟩
    exact Prod.ext hfi.symm rfl
  | none =>
    cases hf : mm.mmapList.find? (fun v => decide (mm.Has a v)) with
    | some v =>
      refine ⟨some v, ?_, rfl⟩
      intro u hu
      cases hu
      exact List.mem_of_find?_eq_some hf
    | none => exact ⟨mm.mmapCache, h.cache, rfl⟩

theorem find?_eq_some (h : mm.Inv fresh) (hv : v ∈ mm.mmapList) (ha : mm.Has a v) :
    mm.mmapList.find? (fun v => decide (mm.Has a v)) = some v :=
  h.ordered.find?_eq hv ha

theorem mem_of_find? (hf : mm.mmapList.find? (fun v => decide (mm.Has a v)) = some v) : v ∈ mm.mmapList ∧ mm.Has a v :=
  ⟨List.mem_of_find?_eq_some hf, by simpa using List.find?_some hf⟩

theorem not_has_of_find? (hf : mm.mmapList.find? (fun v => decide (mm.Has a v)) = none) (hv : v ∈ mm.mmapList) : ¬mm.Has a v := by
  simpa using List.find?_eq_none.mp hf v hv

/-! ## Checks of the user's memory -/

theorem has_unique (h : mm.Searchable) (hu : u ∈ mm.mmapList) (hv : v ∈ mm.mmapList) (hau : mm.Has a u) (hav : mm.Has a v) :
    u = v := h.ordered.eq_of_within hu hv hau hav

theorem permits_iff : vma.permits start write = true ↔
    vma.vmFlags &&& (if write then vmWrite else vmRead) ≠ 0 ∧
      (write = true → vma.vmFlags &&& vmStack ≠ 0 → vma.vmStart + pgSize ≤ start) := by
  cases write
  · simp [Vma.permits]
  · simp [Vma.permits, or_iff_not_imp_left]

/-- One round of the loop: the check goes on behind the VMA that holds the first byte. -/
theorem grants_step (h : mm.Searchable) (hlt : start < stop) (hv : v ∈ mm.mmapList) (hh : mm.Has start v) :
    mm.Grants write start stop ↔
      (mm.vmas v).permits start write = true ∧ mm.Grants write (mm.vmas v).vmEnd stop := by
  have he : start < (mm.vmas v).vmEnd := hh.2
  have hm : max start (mm.vmas v).vmStart = start := Nat.max_eq_left hh.1
  rw [permits_iff]
  constructor
  · intro hg
    obtain ⟨u, hu, hau, hf⟩ := hg.flag start le_rfl hlt
    rw [has_unique h hu hv hau hh] at hf
    refine ⟨⟨hf, ?_⟩, ?_, ?_⟩
    · intro hw hs
      rw [← hm]
      exact hg.stack hw v hv hs ⟨start, le_rfl, hlt, hh⟩
    · intro a hle hst
      exact hg.flag a (by omega) hst
    · rintro hw u hu hs ⟨a, hle, hst, hau⟩
      have := hg.stack hw u hu hs ⟨a, by omega, hst, hau⟩
      omega
  · rintro ⟨⟨hf, hstack⟩, hg⟩
    refine ⟨?_, ?_⟩
    · intro a hle hst
      by_cases hin : a < (mm.vmas v).vmEnd
      · exact ⟨v, hv, ⟨hh.1.trans hle, hin⟩, hf⟩
      · exact hg.flag a (by omega) hst
    · rintro hw u hu hs ⟨a, hle, hst, hau⟩
      by_cases hin : a < (mm.vmas v).vmEnd
      · obtain rfl := has_unique h hu hv hau ⟨hh.1.trans hle, hin⟩
        rw [hm]
        exact hstack hw hs
      -- a stack behind the first VMA is met at its first byte, which the rest of the check does not allow
      · have hr := hg.stack hw u hu hs ⟨a, by omega, hst, hau⟩
        have hne : u ≠ v := by
          rintro rfl
          exact hin hau.2
        have ha : (mm.vmas u).vmEnd ≤ (mm.vmas v).vmStart ∨ (mm.vmas v).vmEnd ≤ (mm.vmas u).vmStart :=
          h.ordered.apart_of_ne hu hv hne
        have hl := hau.2
        omega

/-- The loop of `user_mem_check` ends, tells whether the bytes may be used, and changes nothing but the cache. -/
theorem userMemLoop_spec (stop : Nat) (write : Bool) : ∀ (rounds start : Nat) (mm : Mm), mm.Searchable → stop - start < rounds →
      ∃ b, ∃ c : Option Nat, (b = true ↔ mm.Grants write start stop) ∧ (∀ v, c = some v → v ∈ mm.mmapList) ∧
        userMemLoop stop write rounds start mm = .ok (b, { mm with mmapCache := c }) := by
  intro rounds
  induction rounds with
  | zero =>
    intro start mm _ hr
    omega
  | succ rounds ih =>
    intro start mm h hr
    rw [userMemLoop]
    by_cases hlt : start < stop
    swap
    · rw [if_neg hlt]
      refine ⟨true, mm.mmapCache, iff_of_true rfl ⟨?_, ?_⟩, h.cache, rfl⟩
      · intro a hle hs
        omega
      · rintro - v - - ⟨a, hle, hs, -⟩
        omega
    rw [if_pos hlt]
    obtain ⟨c, hc, hf⟩ := findVma_spec h start
    rw [hf]
    cases hfi : mm.mmapList.find? (fun v => decide (mm.Has start v)) with
    | none =>
      refine ⟨false, c, iff_of_false (by decide) ?_, hc, rfl⟩
      intro hg
      obtain ⟨v, hv, hh, -⟩ := hg.flag start le_rfl hlt
      exact not_has_of_find? hfi hv hh
    | some v =>
      obtain ⟨hv, hh⟩ := mem_of_find? hfi
      have he : start < (mm.vmas v).vmEnd := hh.2
      dsimp only
      rw [if_neg (not_lt.mpr hh.1)]
      by_cases hp : (mm.vmas v).permits start write = true
      · rw [if_pos hp]
        obtain ⟨b, c', hb, hc', hl⟩ := ih (mm.vmas v).vmEnd { mm with mmapCache := c } ⟨h.ordered, hc⟩ (by omega)
        refine ⟨b, c', ?_, hc', hl⟩
        rw [hb, grants_step h hlt hv hh, and_iff_right hp]
        exact ⟨fun hg => ⟨hg.flag, hg.stack⟩, fun hg => ⟨hg.flag, hg.stack⟩⟩
      · rw [if_neg hp]
        refine ⟨false, c, iff_of_false (by decide) ?_, hc, rfl⟩
        rw [grants_step h hlt hv hh]
        exact fun hg => hp hg.1

theorem userMemCheck_spec (h : mm.Searchable) (addr len : Nat) (write : Bool) : ∃ b, ∃ c : Option Nat, (b = true ↔
        UserAccess addr ((addr + len) % addrSize) ∧ mm.Grants write addr ((addr + len) % addrSize)) ∧
      (∀ v, c = some v → v ∈ mm.mmapList) ∧ userMemCheck addr len write mm = .ok (b, { mm with mmapCache := c }) := by
  unfold userMemCheck
  by_cases ha : UserAccess addr ((addr + len) % addrSize)
  · rw [if_neg (by simpa using ha), and_iff_right ha]
    exact userMemLoop_spec _ write _ addr mm h (by omega)
  · rw [if_pos ha]
    exact ⟨false, mm.mmapCache, iff_of_false (by decide) (fun hg => ha hg.1), h.cache, rfl⟩

/-! ## Coverage -/

theorem coverage_eq (h : mm.Inv fresh) (hv : v ∈ mm.mmapList) (ha : mm.Has a v) : mm.coverage a = some (mm.vmas v).vmFlags := by
  rw [Mm.coverage, find?_eq_some h hv ha, Option.map_some]

/-! ## Insertion -/

theorem checkVmaOverlap_ok (h1 : prev.vmStart < prev.vmEnd) (h2 : prev.vmEnd ≤ next.vmStart) (h3 : next.vmStart < next.vmEnd) :
    checkVmaOverlap prev next = .ok () := by
  unfold checkVmaOverlap
  rw [ensure_of h1, bind_ok, ensure_of h2, bind_ok, ensure_of h3]

/-- The list with a VMA put in its place. -/
def placed (mm : Mm) (v : Nat) : List Nat :=
  mm.mmapList.takeWhile (fun u => decide (mm.lo u ≤ mm.lo v)) ++ v ::
    mm.mmapList.dropWhile (fun u => decide (mm.lo u ≤ mm.lo v))

theorem mem_placed : u ∈ placed mm v ↔ u = v ∨ u ∈ mm.mmapList := by
  have hs : u ∈ mm.mmapList ↔ u ∈ mm.mmapList.takeWhile (fun u => decide (mm.lo u ≤ mm.lo v)) ∨
      u ∈ mm.mmapList.dropWhile (fun u => decide (mm.lo u ≤ mm.lo v)) := by
    rw [← List.mem_append, List.takeWhile_append_dropWhile]
  rw [placed, List.mem_append, List.mem_cons, hs]
  exact or_left_comm

/-- `insert_vma_struct` of a VMA that meets no other. -/
theorem insertVmaStruct_spec (mm : Mm) (h : Ordered mm.lo mm.hi mm.mmapList) (hne : mm.lo v < mm.hi v)
    (hf : ∀ u ∈ mm.mmapList, mm.hi u ≤ mm.lo v ∨ mm.hi v ≤ mm.lo u) : insertVmaStruct v mm = .ok { mm with
      vmas := (Function.update mm.vmas v { mm.vmas v with vmMm := mm.id })
      mmapList := placed mm v
      mapCount := mm.mapCount + 1 } ∧ Ordered mm.lo mm.hi (placed mm v) := by
  obtain ⟨ho, hb, ha⟩ := h.insert hne hf
  refine ⟨?_, ho⟩
  unfold insertVmaStruct
  have hne' : (mm.vmas v).vmStart < (mm.vmas v).vmEnd := hne
  rw [ensure_of hne']
  dsimp only
  have hp : (mm.mmapList.takeWhile (fun u => decide ((mm.vmas u).vmStart ≤ (mm.vmas v).vmStart))).getLast?.forM
      (fun u => checkVmaOverlap (mm.vmas u) (mm.vmas v)) = .ok () := by
    cases hl : (mm.mmapList.takeWhile (fun u => decide ((mm.vmas u).vmStart ≤ (mm.vmas v).vmStart))).getLast? with
    | none => rfl
    | some u =>
      have hu := List.mem_of_getLast? hl
      exact checkVmaOverlap_ok (h.nonempty u (List.takeWhile_subset _ hu)) (hb u hu) hne
  have hn : (mm.mmapList.dropWhile (fun u => decide ((mm.vmas u).vmStart ≤ (mm.vmas v).vmStart))).head?.forM
      (fun u => checkVmaOverlap (mm.vmas v) (mm.vmas u)) = .ok () := by
    cases hl : (mm.mmapList.dropWhile (fun u => decide ((mm.vmas u).vmStart ≤ (mm.vmas v).vmStart))).head? with
    | none => rfl
    | some u =>
      have hu := List.mem_of_head? hl
      exact checkVmaOverlap_ok hne (ha u hu) (h.nonempty u ((List.dropWhile_sublist _).subset hu))
  rw [hp, hn]
  rfl

end VmmAux

end Ucore
