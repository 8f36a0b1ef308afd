import Ucore.Lemmas.Slob

/-!
# Taking blocks of the kernel heap

A way round the free list finds a block with enough units or shows that there is none (`scan_spec`). A block that is found is
taken out, or its front is (`takeBlock_spec`). Where none is found, a page is put into the list and the search goes on
(`slobLoop_spec`).
-/

namespace Ucore

open Checked Rings Function

variable {s : Slob} {arena a b cur prev u x y : Nat} {B : Finset Nat}

namespace SlobAux

open Slob

variable {l pages got grows : List Nat} {n units p m page size : Nat} {B' B1 : Finset Nat} {s' s1 : Slob}

/-! ## The search -/

theorem scan_linked (hl : Linked s.next prev l s.slobfree) (hne : s.slobfree ∉ l) (hn : l.length < n) :
    (∃ p ∈ prev :: l, units ≤ s.units (s.next p) ∧ scan units n prev (s.next prev) s = .ok (some (p, s.next p))) ∨
      ((∀ x ∈ l ++ [s.slobfree], s.units x < units) ∧ scan units n prev (s.next prev) s = .ok none) := by
  induction l generalizing prev n with
  | nil =>
    obtain ⟨n, rfl⟩ := Nat.exists_eq_add_one_of_ne_zero (Nat.ne_zero_of_lt hn)
    have hl : s.next prev = s.slobfree := hl
    unfold scan
    by_cases hfit : units ≤ s.units (s.next prev)
    · exact Or.inl ⟨prev, List.mem_singleton.mpr rfl, hfit, if_pos hfit⟩
    · refine Or.inr ⟨?_, by rw [if_neg hfit, if_pos hl]⟩
      intro x hx
      obtain rfl := List.mem_singleton.mp hx
      rw [hl] at hfit
      omega
  | cons w l ih =>
    obtain ⟨n, rfl⟩ := Nat.exists_eq_add_one_of_ne_zero (Nat.ne_zero_of_lt hn)
    obtain ⟨hw, hl⟩ := hl
    have hn' : l.length < n := by
      simp only [List.length_cons] at hn
      omega
    have hwf : w ≠ s.slobfree := fun he => hne (he ▸ List.mem_cons_self)
    unfold scan
    by_cases hfit : units ≤ s.units (s.next prev)
    · exact Or.inl ⟨prev, List.mem_cons_self, hfit, if_pos hfit⟩
    · rw [if_neg hfit, if_neg (by rw [hw]; exact hwf), hw]
      rcases ih hl (fun hm => hne (List.mem_cons_of_mem _ hm)) hn' with ⟨p, hp, hu, hr⟩ | ⟨ha, hr⟩
      · exact Or.inl ⟨p, List.mem_cons_of_mem _ hp, hu, hr⟩
      · refine Or.inr ⟨?_, hr⟩
        intro x hx
        rcases List.mem_cons.mp hx with rfl | hx
        · rw [hw] at hfit
          omega
        · exact ha x hx

/-- One way round: the first block that fits, or no block does. -/
theorem scan_ring (units : Nat) (h : FreeRing s.next s.bytes B) (hh : s.slobfree ∈ B)
    (hb : ∀ x ∈ region s.bytes B, x < addrSize) : (∃ p ∈ B, units ≤ s.units (s.next p) ∧
        scan units addrSize s.slobfree (s.next s.slobfree) s = .ok (some (p, s.next p))) ∨
      ((∀ x ∈ B, s.units x < units) ∧ scan units addrSize s.slobfree (s.next s.slobfree) s = .ok none) := by
  obtain ⟨l, hl, hnd, hm, hlen⟩ := ring_walk h hh hb
  rcases scan_linked hl (List.nodup_cons.mp hnd).1 hlen with ⟨p, hp, hu, hr⟩ | ⟨ha, hr⟩
  · exact Or.inl ⟨p, (hm p).mp hp, hu, hr⟩
  · refine Or.inr ⟨?_, hr⟩
    intro x hx
    refine ha x ?_
    rw [List.mem_append, List.mem_singleton]
    exact (List.mem_cons.mp ((hm x).mpr hx)).symm

theorem scan_spec (units : Nat) (h : s.Free arena B) : (∃ p ∈ B, units ≤ s.units (s.next p) ∧
        scan units addrSize s.slobfree (s.next s.slobfree) s = .ok (some (p, s.next p))) ∨
      ((∀ x ∈ B, s.units x < units) ∧ scan units addrSize s.slobfree (s.next s.slobfree) s = .ok none) :=
  scan_ring units h.list h.head h.below

/-! ## A block taken -/

/-- The list after the `u` units at `m` were taken out of it. -/
structure Taken (s s' : Slob) (arena : Nat) (B : Finset Nat) (m u : Nat) (B' : Finset Nat) : Prop where
  free : s'.Free arena B'
  region : Rings.region s.bytes B = Set.Ico m (m + slobUnit * u) ∪ Rings.region s'.bytes B'
  disjoint : Disjoint (Set.Ico m (m + slobUnit * u)) (Rings.region s'.bytes B')
  sum : slobUnit * u + ∑ x ∈ B', s'.bytes x = ∑ x ∈ B, s.bytes x
  header : s'.units m = u
  bigblocks : s'.bigblocks = s.bigblocks
  frame : ∀ a, a ∉ Rings.region s.bytes B → s'.mem a = s.mem a

/-- What is below an address, and is not the null address, stays so when blocks are taken away. -/
theorem Free.of_subset (s' : Slob) (h : s.Free arena B) (hs : Rings.region s'.bytes B' ⊆ Rings.region s.bytes B) :
    (∀ x ∈ Rings.region s'.bytes B', x < addrSize) ∧ 0 ∉ Rings.region s'.bytes B' :=
  ⟨fun x hx => h.below x (hs hx), fun hx => h.zero (hs hx)⟩

section Take

variable {units : Nat} (h : s.Free arena B) (hp : prev ∈ B) (hunits : 2 ≤ units) (hfit : units ≤ s.units (s.next prev))
include h hp hunits hfit

omit hp in
/-- A block that can be taken is not the arena. -/
theorem next_ne_arena : s.next prev ≠ arena := by
  intro he
  rw [he, h.one] at hfit
  omega

/-- A block that can be taken is not alone in the list. -/
theorem next_ne_prev : s.next prev ≠ prev := by
  intro hs
  have := h.list.eq_of_next_self hp hs h.arenaMem
  exact next_ne_arena h hunits hfit (by rw [hs, this])

/-- The block behind `prev` fits exactly: it is taken out as it is. -/
theorem takeBlock_exact (he : s.units (s.next prev) = units) :
    Taken s (takeBlock units prev (s.next prev) s) arena B (s.next prev) units (B.erase (s.next prev)) := by
  have hne := next_ne_prev h hp hunits hfit
  have hc := h.list.next_mem hp
  have heq : takeBlock units prev (s.next prev) s =
      { s.setHeader prev (s.units prev) (s.next (s.next prev)) with slobfree := prev } := by
    rw [setHeader_units]
    exact if_pos he
  set s' := s.setHeader prev (s.units prev) (s.next (s.next prev)) with hs'
  have hb : ∀ x ∈ B, s'.bytes x = s.bytes x := by
    intro x hx
    rw [hs', bytes_setHeader (far h.list hx hp)]
    exact congrFun (update_eq_self _ _) x
  have hn : ∀ x ∈ B, s'.next x = update s.next prev (s.next (s.next prev)) x :=
    fun x hx => next_setHeader (far h.list hx hp)
  have hl : ∀ x ∈ B.erase (s.next prev), s'.bytes x = s.bytes x := fun x hx => hb x (Finset.mem_of_mem_erase hx)
  have hcb : s.bytes (s.next prev) = slobUnit * units := congrArg (slobUnit * ·) he
  have hr : Rings.region s.bytes B = Set.Ico (s.next prev) (s.next prev + slobUnit * units) ∪
      Rings.region s'.bytes (B.erase (s.next prev)) := by
    rw [region_congr hl, region_erase hc, hcb]
  have hra := Free.of_subset s' h (hr ▸ Set.subset_union_right)
  have hre := (h.list.remove hp hne).congr (fun x hx => hn x (Finset.mem_of_mem_erase hx)) hl
  rw [heq]
  refine ⟨⟨hre, ?_, Finset.mem_erase.mpr ⟨hne.symm, hp⟩,
    Finset.mem_erase.mpr ⟨(next_ne_arena h hunits hfit).symm, h.arenaMem⟩, (units_of_bytes (hb _ h.arenaMem)).trans h.one,
    hra.1, hra.2⟩, hr, ?_, ?_, (units_of_bytes (hb _ hc)).trans he, rfl, ?_⟩
  · intro x hx
    change x + s'.bytes x ≠ s'.next x
    rw [hl x hx, hn x (Finset.mem_of_mem_erase hx)]
    exact h.list.tight_remove h.tight hp hne x hx
  · rw [← hcb]
    change Disjoint _ (Rings.region s'.bytes _)
    rw [region_congr hl]
    exact h.list.disjoint_erase hc
  · rw [← Finset.add_sum_erase B s.bytes hc, hcb, ← Finset.sum_congr rfl hl]
    rfl
  · intro a ha
    refine mem_setHeader ?_
    by_contra hno
    exact ha (header_mem h.list hp (by omega) (by omega))

/-- Every other block is apart from the header of the rest. -/
theorem rest_apart (hla : s.units (s.next prev) ≠ units) (hx : x ∈ B) (hxc : x ≠ s.next prev) :
    x + 8 ≤ s.next prev + slobUnit * units ∨ s.next prev + slobUnit * units + 8 ≤ x := by
  have hc := h.list.next_mem hp
  have hlt : slobUnit * units < s.bytes (s.next prev) := by
    unfold bytes slobUnit
    omega
  have hpos := h.list.pos x hx
  unfold bytes slobUnit at hlt hpos
  rcases Nat.lt_or_gt_of_ne hxc with hl | hh
  · have := h.list.apart x hx _ hc hl
    unfold bytes slobUnit at this
    unfold slobUnit
    omega
  · have := h.list.apart _ hc x hx hh
    unfold bytes slobUnit at this
    unfold slobUnit
    omega

/-- The cells after the block was split: the rest is a block of its own, which the block before links to. -/
theorem split_cells (hl : s.units (s.next prev) ≠ units) :
    takeBlock units prev (s.next prev) s = { ((s.setHeader prev (s.units prev) (s.next prev + slobUnit * units)).setHeader
      (s.next prev + slobUnit * units) (s.units (s.next prev) - units) (s.next (s.next prev))).setUnits (s.next prev) units with
        slobfree := prev } ∧
    (∀ x ∈ insert (s.next prev + slobUnit * units) (B.erase (s.next prev)), (takeBlock units prev (s.next prev) s).bytes x =
      update s.bytes (s.next prev + slobUnit * units) (s.bytes (s.next prev) - slobUnit * units) x) ∧
    ∀ x ∈ insert (s.next prev + slobUnit * units) (B.erase (s.next prev)), (takeBlock units prev (s.next prev) s).next x =
      update (update s.next (s.next prev + slobUnit * units) (s.next (s.next prev))) prev (s.next prev + slobUnit * units) x := by
  have hne := next_ne_prev h hp hunits hfit
  have hc := h.list.next_mem hp
  have hr := fun x (hx : x ∈ B) hxc => rest_apart h hp hunits hfit hl hx hxc
  have hpr := hr prev hp hne.symm
  have hpc := far h.list hp hc
  generalize hcdef : s.next prev = cur at *
  have hrdef : slobUnit * units = 8 * units := rfl
  generalize hrd : cur + slobUnit * units = rest at *
  obtain ⟨s', hs'⟩ : ∃ s', s' = (s.setHeader prev (s.units prev) rest).setHeader rest (s.units cur - units) (s.next cur) := ⟨_, rfl⟩
  have heq : takeBlock units prev cur s = { s'.setUnits cur units with slobfree := prev } := by
    unfold takeBlock
    rw [if_neg hl]
    dsimp only
    rw [hrd, units_setNext, if_neg (by omega), next_setUnits, if_neg (by omega), next_setNext, if_neg hne, hs', setHeader_units]
    rfl
  have hunits' : ∀ x, x ≠ cur → (takeBlock units prev cur s).bytes x = s'.bytes x := by
    intro x hxc
    unfold bytes
    rw [heq]
    change slobUnit * (s'.setUnits cur units).units x = _
    rw [units_setUnits, if_neg hxc]
  have hb : ∀ x ∈ insert rest (B.erase cur), (takeBlock units prev cur s).bytes x =
      update s.bytes rest (s.bytes cur - slobUnit * units) x := by
    intro x hx
    rcases Finset.mem_insert.mp hx with rfl | hx
    · rw [hunits' x (by omega), hs', bytes_setHeader (Or.inl rfl), update_self, update_self, Nat.mul_sub]
      rfl
    · obtain ⟨hxc, hx⟩ := Finset.mem_erase.mp hx
      have h1 := hr x hx hxc
      rw [hunits' x hxc, hs', bytes_setHeader (Or.inr h1), update_of_ne (by omega), update_of_ne (by omega),
        bytes_setHeader (far h.list hx hp)]
      exact congrFun (update_eq_self _ _) x
  have hn : ∀ x ∈ insert rest (B.erase cur), (takeBlock units prev cur s).next x =
      update (update s.next rest (s.next cur)) prev rest x := by
    intro x hx
    have hcx : x + 4 ≠ cur := by
      rcases Finset.mem_insert.mp hx with rfl | hx
      · omega
      · have := far h.list (Finset.mem_of_mem_erase hx) hc
        have := Finset.ne_of_mem_erase hx
        omega
    rw [heq]
    change (s'.setUnits cur units).next x = _
    rw [next_setUnits, if_neg hcx, hs', update_comm (by omega)]
    rcases Finset.mem_insert.mp hx with rfl | hx
    · rw [next_setHeader (Or.inl rfl), update_self, update_self]
    · obtain ⟨hxc, hx⟩ := Finset.mem_erase.mp hx
      have h1 := hr x hx hxc
      rw [next_setHeader (Or.inr h1), update_of_ne (by omega), update_of_ne (by omega), next_setHeader (far h.list hx hp)]
  rw [← hs']
  exact ⟨heq, hb, hn⟩

/-- The block behind `prev` is larger: its front is taken out. -/
theorem takeBlock_split (hl : s.units (s.next prev) ≠ units) :
    Taken s (takeBlock units prev (s.next prev) s) arena B (s.next prev) units
      (insert (s.next prev + slobUnit * units) (B.erase (s.next prev))) := by
  have hne := next_ne_prev h hp hunits hfit
  have hc := h.list.next_mem hp
  have hk : 0 < slobUnit * units := by
    unfold slobUnit
    omega
  have hlt : slobUnit * units < s.bytes (s.next prev) := by
    unfold bytes slobUnit
    omega
  obtain ⟨heq, hb, hn⟩ := split_cells h hp hunits hfit hl
  have hunitsCur : (takeBlock units prev (s.next prev) s).units (s.next prev) = units := by
    rw [heq]
    exact update_self ..
  have hre : Rings.region s.bytes B = Set.Ico (s.next prev) (s.next prev + slobUnit * units) ∪
      Rings.region (takeBlock units prev (s.next prev) s).bytes
        (insert (s.next prev + slobUnit * units) (B.erase (s.next prev))) := by
    rw [region_congr hb]
    exact h.list.region_cut hp hk hlt
  have hra := Free.of_subset _ h (hre ▸ Set.subset_union_right)
  have hcut := (h.list.cut hp hk hlt hne h.tight)
  refine ⟨⟨hcut.congr hn hb, ?_, ?_, ?_, ?_, hra.1, hra.2⟩, hre, ?_, ?_, hunitsCur, ?_, ?_⟩
  · intro x hx
    rw [hn x hx, hb x hx]
    exact hcut.tight_of_gap (h.list.gap_cut hp hk hlt h.tight) x hx
  · rw [heq]
    exact Finset.mem_insert_of_mem (Finset.mem_erase.mpr ⟨hne.symm, hp⟩)
  · exact Finset.mem_insert_of_mem (Finset.mem_erase.mpr ⟨(next_ne_arena h hunits hfit).symm, h.arenaMem⟩)
  · have har := (next_ne_arena h hunits hfit).symm
    have h1 := rest_apart h hp hunits hfit hl h.arenaMem har
    refine (units_of_bytes ?_).trans h.one
    rw [hb arena (Finset.mem_insert_of_mem (Finset.mem_erase.mpr ⟨har, h.arenaMem⟩)), update_of_ne (by omega)]
  · rw [region_congr hb]
    exact h.list.disjoint_cut hp hk hlt
  · rw [Finset.sum_congr rfl hb]
    exact h.list.sum_cut hp hk hlt
  · rw [heq]
    rfl
  · intro a ha
    have hcurOut : a < s.next prev ∨ s.next prev + s.bytes (s.next prev) ≤ a := by
      by_contra hno
      exact ha ⟨s.next prev, hc, by omega, by omega⟩
    have hprevOut : a < prev ∨ prev + 8 ≤ a := by
      by_contra hno
      exact ha (header_mem h.list hp (by omega) (by omega))
    unfold bytes slobUnit at hcurOut hlt
    have hrdef : slobUnit * units = 8 * units := rfl
    rw [heq]
    change (setUnits _ _ _).mem a = _
    rw [mem_setUnits (by omega), mem_setHeader (by omega), mem_setHeader hprevOut]

/-- A block that fits is taken out, with what it has beyond the units left in the list. -/
theorem takeBlock_spec : ∃ B', Taken s (takeBlock units prev (s.next prev) s) arena B (s.next prev) units B' := by
  by_cases he : s.units (s.next prev) = units
  · exact ⟨_, takeBlock_exact h hp hunits hfit he⟩
  · exact ⟨_, takeBlock_split h hp hunits hfit he⟩

end Take

/-! ## Growing -/

/-- The addresses of pages. -/
def pageRegion (pages : List Nat) : Set Nat := { a | ∃ p ∈ pages, a ∈ Set.Ico p (p + pgSize) }

theorem pageRegion_cons : pageRegion (p :: pages) = Set.Ico p (p + pgSize) ∪ pageRegion pages := by
  ext a
  simp [pageRegion]

theorem pageRegion_nil : pageRegion [] = ∅ := by
  ext a
  simp [pageRegion]

/-- The list after the pages of `got` were put into it and, unless `m` is `NULL`, the `u` units at `m` taken out. -/
structure Allocated (s s' : Slob) (arena : Nat) (B : Finset Nat) (got : List Nat) (m u : Nat) (B' : Finset Nat) : Prop where
  free : s'.Free arena B'
  region : pageRegion got ∪ Rings.region s.bytes B =
    (if m = 0 then ∅ else Set.Ico m (m + slobUnit * u)) ∪ Rings.region s'.bytes B'
  disjoint : m ≠ 0 → Disjoint (Set.Ico m (m + slobUnit * u)) (Rings.region s'.bytes B')
  sum : (if m = 0 then 0 else slobUnit * u) + ∑ x ∈ B', s'.bytes x = pgSize * got.length + ∑ x ∈ B, s.bytes x
  header : m ≠ 0 → s'.units m = u
  bigblocks : s'.bigblocks = s.bigblocks
  frame : ∀ a, a ∉ Rings.region s.bytes B → a ∉ pageRegion got → s'.mem a = s.mem a

/-- No block and no page: nothing has changed. -/
theorem Allocated.null (h : s.Free arena B) : Allocated s s arena B [] 0 u B where
  free := h
  region := by simp [pageRegion_nil]
  disjoint h0 := absurd rfl h0
  sum := by simp
  header h0 := absurd rfl h0
  bigblocks := rfl
  frame _ _ _ := rfl

theorem Allocated.taken (h : s.Free arena B) (hu : 0 < u) (ht : Taken s s' arena B m u B') :
    Allocated s s' arena B [] m u B' := by
  have hm : m ≠ 0 := by
    rintro rfl
    refine h.zero ?_
    rw [ht.region]
    exact Or.inl ⟨le_rfl, by unfold slobUnit; omega⟩
  refine ⟨ht.free, ?_, fun _ => ht.disjoint, ?_, fun _ => ht.header, ht.bigblocks, fun a ha _ => ht.frame a ha⟩
  · rw [pageRegion_nil, Set.empty_union, if_neg hm]
    exact ht.region
  · rw [if_neg hm, List.length_nil, Nat.mul_zero, Nat.zero_add]
    exact ht.sum

/-- The units of a page. -/
theorem slobUnits_pgSize : slobUnit * slobUnits pgSize = pgSize := rfl

theorem Allocated.grow (hf : Freed s s1 arena B page (slobUnits pgSize) B1) (ha : Allocated s1 s' arena B1 got m u B') :
    Allocated s s' arena B (page :: got) m u B' := by
  have hr := hf.region
  rw [slobUnits_pgSize] at hr
  refine ⟨ha.free, ?_, ha.disjoint, ?_, ha.header, ha.bigblocks.trans hf.bigblocks, ?_⟩
  · rw [← ha.region, hr, pageRegion_cons, Set.union_assoc, Set.union_left_comm]
  · have hs := hf.sum
    rw [slobUnits_pgSize] at hs
    rw [ha.sum, hs, List.length_cons, Nat.mul_add]
    omega
  · intro a h1 h2
    rw [pageRegion_cons] at h2
    have hpa : a < page ∨ page + pgSize ≤ a := by
      by_contra hno
      exact h2 (Or.inl ⟨by omega, by omega⟩)
    rw [ha.frame a, hf.frame a h1]
    · unfold pgSize at hpa
      omega
    · rw [hr]
      rintro (h3 | h3)
      · exact h2 (Or.inl h3)
      · exact h1 h3
    · exact fun h3 => h2 (Or.inr h3)

/-- The pages that a search may get: each one apart from the free list, from the arena and from the others. -/
structure Growing (s : Slob) (arena : Nat) (B : Finset Nat) (grows : List Nat) : Prop where
  loose : ∀ p ∈ grows, Loose s arena B p (slobUnits pgSize)
  apart : grows.Pairwise fun p q => Disjoint (Set.Ico p (p + pgSize)) (Set.Ico q (q + pgSize))

/-- The other pages are still apart once one was put into the list. -/
theorem Growing.tail (hg : Growing s arena B (page :: grows)) (hf : Freed s s1 arena B page (slobUnits pgSize) B1) :
    Growing s1 arena B1 grows := by
  obtain ⟨hpa, hr⟩ := List.pairwise_cons.mp hg.apart
  refine ⟨?_, hr⟩
  intro q hq
  have hl := hg.loose q (List.mem_cons_of_mem _ hq)
  refine ⟨hl.ne, hl.pos, ?_, hl.below, hl.low, hl.high⟩
  rw [hf.region, Set.disjoint_union_right]
  exact ⟨(hpa q hq).symm, hl.clear⟩

/-- `slob_alloc`'s loop returns: a block of the units asked for, or `NULL` where the pages ran out. -/
theorem slobLoop_spec (h : s.Free arena B) (hs : 2 ≤ slobUnits size) (hg : Growing s arena B grows) :
    ∃ m got s' B', slobLoop size grows s = .ok (m, got, s') ∧ got <+: grows ∧
      Allocated s s' arena B got m (slobUnits size) B' := by
  induction grows generalizing s B
  -- a block that fits is taken, whatever pages are left
  all_goals
    unfold slobLoop
    rcases scan_spec (slobUnits size) h with ⟨p, hp, hfit, hr⟩ | ⟨-, hr⟩
    · obtain ⟨B', ht⟩ := takeBlock_spec h hp hs hfit
      rw [hr]
      exact ⟨_, [], _, B', rfl, List.nil_prefix, Allocated.taken h (by omega) ht⟩
    rw [hr]
  case nil =>
    refine ⟨0, [], s, B, ?_, List.nil_prefix, Allocated.null h⟩
    simp only [bind_ok]
    exact ite_self _
  case cons page grows ih =>
    by_cases hpg : size = pgSize
    · refine ⟨0, [], s, B, ?_, List.nil_prefix, Allocated.null h⟩
      simp only [bind_ok]
      rw [if_pos hpg]
      rfl
    · obtain ⟨s1, B1, hfr, hf⟩ := slobFree_spec pgSize h (hg.loose page List.mem_cons_self) rfl
      obtain ⟨m, got, s', B', hl, hpre, ha⟩ := ih hf.free (hg.tail hf)
      refine ⟨m, page :: got, s', B', ?_, List.cons_prefix_cons.mpr ⟨rfl, hpre⟩, ha.grow hf⟩
      simp only [bind_ok]
      rw [if_neg hpg]
      simp only [hfr, hl, bind_ok, pure_eq_ok]

/-! ## At most one page -/

end SlobAux

/-- The block `m` of the free list of `s` served a request for `u` units: it has `u` units now, and what it had beyond them stands
behind the roving pointer. -/
structure SlobCut (s s' : Slob) (m u : Nat) : Prop where
  onList : ∃ n, s.next^[n] s.slobfree = m
  fits : u ≤ s.units m
  units : s'.units m = u
  whole : s.units m = u → s'.next s'.slobfree = s.next m
  rest : s.units m ≠ u → s'.next s'.slobfree = m + slobUnit * u ∧ s'.units (m + slobUnit * u) = s.units m - u

/-- A page that the page allocator may answer with: apart from the free blocks, and anywhere between them. -/
structure NewPage (s : Slob) (B : Finset Nat) (p : Nat) : Prop where
  ne : p ≠ 0
  below : p + pgSize ≤ addrSize
  clear : Disjoint (Set.Ico p (p + pgSize)) (region s.bytes B)

namespace SlobAux

open Slob

variable {units p page size : Nat} {grows : List Nat}

/-- The search of `s` ends at the block behind `p`, which has the units asked for. The header of `p` is apart from that block's, and
from that of what will be left of it. -/
structure Found (s : Slob) (units p : Nat) : Prop where
  scan : scan units addrSize s.slobfree (s.next s.slobfree) s = .ok (some (p, s.next p))
  fits : units ≤ s.units (s.next p)
  onList : ∃ n, s.next^[n] s.slobfree = s.next p
  ne : s.next p ≠ 0
  apart : s.next p = p ∨ p + 8 ≤ s.next p ∨
    s.next p + 8 ≤ p ∧ (s.units (s.next p) ≠ units → s.next p + 8 * units + 8 ≤ p)

/-- A search that ends in a list without overlaps. -/
theorem found_of_ring (h : FreeRing s.next s.bytes B) (hh : s.slobfree ∈ B) (hz : 0 ∉ region s.bytes B) (hp : p ∈ B)
    (hfit : units ≤ s.units (s.next p))
    (hsc : Ucore.scan units addrSize s.slobfree (s.next s.slobfree) s = .ok (some (p, s.next p))) : Found s units p := by
  have hm := h.next_mem hp
  refine ⟨hsc, hfit, (h.ring.reaches_iff hh).mpr hm, ?_, ?_⟩
  · intro h0
    refine hz (header_mem h hm ?_ ?_)
    · omega
    · omega
  · by_cases hs : s.next p = p
    · exact Or.inl hs
    · have hpos := h.pos p hp
      have hp' := h.pos _ hm
      unfold bytes slobUnit at hpos hp'
      rcases Nat.lt_or_gt_of_ne hs with hlt | hlt
      · have := h.apart _ hm p hp hlt
        unfold bytes slobUnit at this
        exact Or.inr (Or.inr ⟨by omega, by omega⟩)
      · have := h.apart p hp _ hm hlt
        unfold bytes slobUnit at this
        exact Or.inr (Or.inl (by omega))

theorem Found.cut (hf : Found s units p) (hunits : 0 < units) : SlobCut s (takeBlock units p (s.next p) s) (s.next p) units := by
  have hfit := hf.fits
  have ha := hf.apart
  have hc : s.next p ≠ p + 4 := by omega
  refine ⟨hf.onList, hfit, ?_, ?_, ?_⟩
  · unfold takeBlock
    by_cases he : s.units (s.next p) = units
    · rw [if_pos he]
      change (s.setNext p _).units (s.next p) = units
      rw [units_setNext, if_neg hc]
      exact he
    · rw [if_neg he]
      change (setUnits _ (s.next p) units).units (s.next p) = units
      rw [units_setUnits, if_pos rfl]
  · intro he
    unfold takeBlock
    rw [if_pos he]
    change (s.setNext p (s.next (s.next p))).next p = _
    rw [next_setNext, if_pos rfl]
  · intro hl
    have hr : slobUnit * units = 8 * units := rfl
    unfold takeBlock
    rw [if_neg hl]
    constructor
    · change (setUnits (setNext (setUnits (s.setNext p _) _ _) _ _) (s.next p) units).next p = _
      rw [next_setUnits, if_neg (by omega), next_setNext, if_neg (by omega), next_setUnits, if_neg (by omega), next_setNext,
        if_pos rfl]
    · change (setUnits (setNext (setUnits (s.setNext p _) _ _) _ _) (s.next p) units).units _ = _
      rw [units_setUnits, if_neg (by omega), units_setNext, if_neg (by omega), units_setUnits, if_pos rfl, units_setNext,
        if_neg hc]

/-- A block does not get smaller when the next one is joined to it. -/
theorem units_joinNext_self : s.units b ≤ (joinNext b cur s).units b := by
  unfold joinNext
  by_cases ha : b + slobUnit * s.units b = s.next cur
  · rw [if_pos ha]
    rw [units_setNext, if_neg (by omega), units_setUnits, if_pos rfl]
    exact Nat.le_add_right _ _
  · rw [if_neg ha, units_setNext, if_neg (by omega)]

/-- The page was not joined to the block before it: it stands right behind the roving pointer. -/
theorem found_behind (hbc : cur + 8 ≤ b ∨ b + pgSize ≤ cur) (hb : b ≠ 0) (hu : units ≤ s.units b)
    (hm : 8 * units + 8 ≤ pgSize) : Found { s.setNext cur b with slobfree := cur } units cur := by
  have hn : ({ s.setNext cur b with slobfree := cur } : Slob).next cur = b := by
    change (s.setNext cur b).next cur = b
    rw [next_setNext, if_pos rfl]
  have hunits : ({ s.setNext cur b with slobfree := cur } : Slob).units b = s.units b := by
    change (s.setNext cur b).units b = s.units b
    rw [units_setNext, if_neg (by omega)]
  refine ⟨?_, ?_, ⟨1, rfl⟩, ?_, ?_⟩
  · rw [hn]
    change scan units (addrSize - 1 + 1) cur b _ = _
    unfold scan
    rw [hunits, if_pos hu]
  · rw [hn, hunits]
    exact hu
  · rw [hn]
    exact hb
  · omega

/-- The page was joined to the block before it, which the roving pointer is at: the list is a ring, and that block is large
enough if no other is. -/
theorem found_joined {s1 : Slob} {B1 : Finset Nat} (h : FreeRing s.next s.bytes B) (hj : Joined s s1 B B1 b cur)
    (hi : Incoming s B b cur) (ha : cur + s1.bytes cur = b) (hb : b ≠ 0) (hu : units ≤ s1.units b)
    (hbe : ∀ x ∈ region s.bytes B, x < addrSize) (hz : 0 ∉ region s.bytes B) (hlim : b + s.bytes b ≤ addrSize) :
    ∃ p, Found { joinPrev b cur s1 with slobfree := cur } units p := by
  obtain ⟨B2, hl, -, hc, hr, -⟩ := joinPrev_spec hj hi h
  have hca : ∀ x ∈ Rings.region (joinPrev b cur s1).bytes B2, b ≤ x ∧ x < b + s.bytes b ∨ x ∈ Rings.region s.bytes B := by
    intro x hx
    rwa [hr] at hx
  have hbelow' : ∀ x ∈ Rings.region (joinPrev b cur s1).bytes B2, x < addrSize := by
    intro x hx
    rcases hca x hx with hx | hx
    · omega
    · exact hbe x hx
  have hzero' : 0 ∉ Rings.region (joinPrev b cur s1).bytes B2 := by
    intro hx
    rcases hca 0 hx with hx | hx
    · omega
    · exact hz hx
  have hla : units ≤ (joinPrev b cur s1).units cur := by
    unfold joinPrev
    rw [if_pos (show cur + slobUnit * s1.units cur = b from ha)]
    change units ≤ (setNext _ cur _).units cur
    rw [units_setNext, if_neg (by omega), units_setUnits, if_pos rfl]
    omega
  rcases scan_ring (s := { joinPrev b cur s1 with slobfree := cur }) units hl hc hbelow' with
    ⟨p, hp, hfit, hsc⟩ | ⟨hs, -⟩
  · exact ⟨p, found_of_ring (s := { joinPrev b cur s1 with slobfree := cur }) hl hc hzero' hp hfit hsc⟩
  · exact absurd hla (Nat.not_le_of_lt (hs cur hc))

/-- Once a page was put into the list, wherever it lies, the search finds a block. -/
theorem found_after_page (h : s.Free arena B) (hp : NewPage s B page) (hm : 8 * units + 8 ≤ pgSize) :
    ∃ s1 p, slobFree page pgSize s = .ok s1 ∧ Found s1 units p := by
  have hpg : pgSize = 4096 := rfl
  have ho : page ∉ region s.bytes B := Set.disjoint_left.mp hp.clear ⟨le_rfl, by omega⟩
  obtain ⟨hf, hb⟩ : (s.setUnits page (slobUnits pgSize)).Free arena B ∧
      ∀ y ∈ B, (s.setUnits page (slobUnits pgSize)).bytes y = s.bytes y := Free.store h ho
  have hse : (s.setUnits page (slobUnits pgSize)).units page = 512 := by
    rw [units_setUnits, if_pos rfl]
    rfl
  have hr : ∀ cur, findPoint page addrSize (s.setUnits page (slobUnits pgSize)).slobfree
        (s.setUnits page (slobUnits pgSize)) = .ok cur → slobFree page pgSize s =
        .ok { joinPrev page cur (joinNext page cur (s.setUnits page (slobUnits pgSize))) with slobfree := cur } := by
    intro cur hcur
    have hne : pgSize ≠ 0 := by decide
    unfold slobFree
    rw [if_neg hp.ne]
    simp only [if_pos hne, hcur, bind_ok, pure_eq_ok]
  generalize s.setUnits page (slobUnits pgSize) = t at hf hb hse hr
  have hs : t.bytes page = pgSize := by
    unfold bytes
    rw [hse]
    rfl
  have hc : ∀ y ∈ B, y + t.bytes y ≤ page ∨ page + t.bytes page ≤ y := by
    intro y hy
    rw [hb y hy, hs]
    exact (h.list.clear_iff (by decide)).mp hp.clear y hy
  have hn : page ∉ B := by
    intro hmem
    have := hc page hmem
    omega
  obtain ⟨cur, hcur, hfi, hpl⟩ := findPoint_spec hf hn
  have hi : Incoming t B page cur := ⟨hcur, hpl, by omega, hc⟩
  have hfar : cur + 8 ≤ page ∨ page + pgSize ≤ cur := by
    have := hc cur hcur
    have hpos := hf.list.pos cur hcur
    rw [hs] at this
    unfold bytes slobUnit at this hpos
    omega
  have hl : units ≤ (joinNext page cur t).units page := le_trans (by omega) units_joinNext_self
  by_cases hpr : cur + (joinNext page cur t).bytes cur = page
  · obtain ⟨B1, hj⟩ : ∃ B1, Joined t (joinNext page cur t) B B1 page cur := by
      by_cases ha : page + t.bytes page = t.next cur
      · exact ⟨_, joinNext_touch hf.list hf.tight hi ha (by omega)⟩
      · exact ⟨_, joinNext_apart hf.list hf.tight hi ha⟩
    obtain ⟨p, hfo⟩ := found_joined hf.list hj hi hpr hp.ne hl hf.below hf.zero (hs ▸ hp.below)
    exact ⟨_, p, hr cur hfi, hfo⟩
  · have hli : joinPrev page cur (joinNext page cur t) = (joinNext page cur t).setNext cur page := if_neg hpr
    refine ⟨_, cur, hr cur hfi, ?_⟩
    rw [hli]
    exact found_behind hfar hp.ne hl hm

/-- The loop of `slob_alloc` where its search finds a block. -/
theorem Found.loop (hf : Found s (slobUnits size) p) :
    slobLoop size grows s = .ok (s.next p, [], takeBlock (slobUnits size) p (s.next p) s) := by
  unfold slobLoop
  rw [hf.scan]
  rfl

/-- `slob_alloc` returns, with at most one page taken: a block cut from the list, or `NULL` where there was no page to be had. -/
theorem slobAlloc_returns (h : s.Free arena B) (hpos : 0 < size) (hm : size + slobUnit < pgSize)
    (hg : ∀ p ∈ grows.head?, NewPage s B p) : (slobAlloc size grows s = .ok (0, [], s) ∧ grows = []) ∨
      ∃ m got s1 s', slobAlloc size grows s = .ok (m, got, s') ∧ m ≠ 0 ∧ SlobCut s1 s' m (slobUnits size) ∧
        (got = [] ∧ s1 = s ∨ ∃ page, got = [page] ∧ grows.head? = some page ∧ slobFree page pgSize s = .ok s1) := by
  have hunits : 0 < slobUnits size ∧ 8 * slobUnits size + 8 ≤ pgSize := by
    unfold slobUnits
    unfold slobUnit pgSize at *
    omega
  unfold slobAlloc
  rw [ensure_of hm, bind_ok]
  rcases scan_spec (slobUnits size) h with ⟨p, hp, hfit, hs⟩ | ⟨-, hs⟩
  · have hf := found_of_ring h.list h.head h.zero hp hfit hs
    exact Or.inr ⟨_, [], s, _, hf.loop, hf.ne, hf.cut hunits.1, Or.inl ⟨rfl, rfl⟩⟩
  · have hne : size ≠ pgSize := by
      unfold slobUnit at hm
      omega
    cases grows with
    | nil =>
      refine Or.inl ⟨?_, rfl⟩
      unfold slobLoop
      simp only [hs, bind_ok, if_neg hne, pure_eq_ok]
    | cons page grows =>
      obtain ⟨s1, p, hfr, hf⟩ := found_after_page h (hg page rfl) hunits.2
      refine Or.inr ⟨s1.next p, [page], s1, _, ?_, hf.ne, hf.cut hunits.1, Or.inr ⟨page, rfl, rfl, hfr⟩⟩
      unfold slobLoop
      simp only [hs, bind_ok, if_neg hne, hfr, hf.loop, pure_eq_ok]

end SlobAux

end Ucore
