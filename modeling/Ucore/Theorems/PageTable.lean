import Ucore.Lemmas.PageInsert

/-!
# Page tables refine a map

`PageMap` is what page tables are for: from a directory and a linear page to a frame and flags. `MemOp.apply` says what each call
is to do to it. `page_tables_refine_map` says that the calls do that to the map that `get_page` reads, over whole runs and any
number of directories, and that the counters in the frame descriptors count the entries of both levels. A page table has a
counter too, for the directory entry that names it, though no table entry does (`page_table_counted`).
-/

namespace Ucore

open Checked SlotCount Blocks

/-- From directory and linear page to frame and flags. -/
abbrev PageMap := Nat → Nat → Option (Nat × Nat)

/-- The map with one linear page of one directory mapped anew. -/
def PageMap.set (m : PageMap) (d n : Nat) (o : Option (Nat × Nat)) : PageMap :=
  fun f k => if f = d ∧ k = n then o else m f k

/-- What a call that returned `r` is to do to the map. -/
def MemOp.apply : MemOp → MemResult → PageMap → PageMap
  | .pageInsert d p la perm, .code c, m => if c = 0 then m.set d (la / pgSize) (some (p, pteP ||| perm)) else m
  | .pgdirAllocPage d la perm, .page (some p), m => m.set d (la / pgSize) (some (p, pteP ||| perm))
  | .pageRemove d la, _, m => m.set d (la / pgSize) none
  | .unmapRange d start stop, _, m => fun f n => if f = d ∧ start ≤ n * pgSize ∧ n * pgSize < stop then none else m f n
  | _, _, m => m

/-- What `get_page` says of a linear address: the page, and the flags in the entry it stores. -/
def Memory.mapping (s : Memory) (d la : Nat) : Option (Nat × Nat) :=
  match getPage d la s with
  | .ok (some page, some ptep) => some (page, s.load ptep &&& 0xFFF)
  | _ => none

/-- The map that `get_page` reads in the directories that are set up. -/
def Memory.view (s : Memory) : PageMap := fun d n => if d ∈ s.pgdirs ∧ n < userPages then s.mapping d (n * pgSize) else none

/-- The pages that the allocator has. -/
def FreeArea.free (s : FreeArea) : Set Nat := extent s.size s.freeList

/-- A machine at the end of the boot: the ranges of pages the allocator is given, and the kernel's own directory, which lies
outside of them and has an empty user half. -/
structure Machine where
  pages : Nat → Page
  ranges : List (Nat × Nat)
  frames : Nat → Nat → Nat
  bootPgdir : Nat
  npage : Nat
  swapInitOk : Bool
  ascending : Ascending ranges
  reserved : ∀ p ∈ rangePages ranges, (pages p).flags.reserved = true
  inside : ∀ p ∈ rangePages ranges, p < npage
  small : npage ≤ 0x38000000 / pgSize
  boot_outside : bootPgdir ∉ rangePages ranges
  boot_empty : ∀ i < userSlots, frames bootPgdir i &&& pteP = 0

/-- What the callers keep to: they work on directories that are set up and on the user half, they insert pages that they took
from the allocator and that are no directories, their permissions are flags, and they unmap page-aligned ranges of the user's
addresses. -/
def MemOp.Allowed (M : Machine) (s : Memory) : MemOp → Prop
  | .setupPgdir | .allocPage => True
  | .pageInsert d p la perm =>
    d ∈ s.pgdirs ∧ la < kernBase ∧ perm < 4096 ∧ p ∈ rangePages M.ranges ∧ p ∉ s.area.free ∧ p ∉ s.pgdirs
  | .pageRemove d la => d ∈ s.pgdirs ∧ la < kernBase
  | .pgdirAllocPage d la perm => d ∈ s.pgdirs ∧ la < kernBase ∧ perm < 4096
  | .unmapRange d start stop => d ∈ s.pgdirs ∧ (start % pgSize = 0 ∧ stop % pgSize = 0) ∧ UserAccess start stop

/-- The free pages that a call may take: a directory, the page that is asked for, and a page table where there is none. -/
def MemOp.needs (s : Memory) : MemOp → Nat
  | .setupPgdir | .allocPage => 1
  | .pageInsert d _ la _ => s.tableNeeds d (la / pgSize / 1024)
  | .pgdirAllocPage d la _ => 1 + s.tableNeeds d (la / pgSize / 1024)
  | .pageRemove _ _ | .unmapRange _ _ _ => 0

/-- The memories that a machine reaches. -/
inductive MemReach (M : Machine) : Memory → Prop where
  | boot {area : FreeArea} : bootPmm M.pages M.ranges = .ok area →
      MemReach M ⟨area, M.frames, [], M.bootPgdir, M.npage, M.swapInitOk⟩
  | step {s s' : Memory} {r : MemResult} (op : MemOp) : MemReach M s → op.Allowed M s → stepMem s op = .ok (r, s') →
      MemReach M s'

namespace PageAux

variable {pg0 : Nat → Page} {I A A' : Set Nat} {s s' : Memory} {d n la p : Nat}

section

variable (h : s.Inv pg0 I A (fun _ => 0))
include h

/-- `get_page` reads the map. -/
theorem mapping_eq (hd : d ∈ s.pgdirs) (hla : la < kernBase) : s.mapping d la = s.walk d (la / 4096) := by
  obtain ⟨-, hn⟩ := addr_lt hla
  unfold Memory.mapping getPage
  rw [getPte_false h hd hla, bind_ok, Memory.walk]
  cases ht : s.table d (la / 4096 / 1024) with
  | none => rfl
  | some t =>
    have hw := walk_of_table ht
    have hl : s.load (t, la / 4096 % 1024) = s.frames t (la / 4096 % 1024) := rfl
    rw [Option.map_some, Option.bind_some]
    dsimp only
    rw [hl]
    cases he : decode (s.frames t (la / 4096 % 1024)) with
    | none =>
      rw [if_neg (by simpa using decode_eq_none.mp he)]
    | some e =>
      obtain ⟨hp, -, hf⟩ := decode_eq_some he
      have heA := (h.mapped d hd _ hn e (hw.trans he)).1
      rw [if_pos hp, pte2page_of_decode he (lt_npage h heA), bind_ok]
      dsimp only
      rw [hl, hf]

theorem view_eq (hd : d ∈ s.pgdirs) (hn : n < userPages) : s.view d n = s.walk d n := by
  have hla : n * pgSize < kernBase := by
    unfold userPages userSlots at hn
    unfold pgSize kernBase
    omega
  have hdiv : n * pgSize / 4096 = n := Nat.mul_div_cancel n (by decide)
  rw [Memory.view, if_pos ⟨hd, hn⟩, mapping_eq h hd hla, hdiv]

omit h in
theorem view_outside (h : ¬(d ∈ s.pgdirs ∧ n < userPages)) : s.view d n = none := if_neg h

/-- Two maps agree when they do on the user halves of the directories. -/
theorem view_ext {m : PageMap} (hin : ∀ d ∈ s.pgdirs, ∀ n < userPages, s.walk d n = m d n)
    (ho : ∀ d n, ¬(d ∈ s.pgdirs ∧ n < userPages) → m d n = none) : s.view = m := by
  funext d n
  by_cases hc : d ∈ s.pgdirs ∧ n < userPages
  · rw [view_eq h hc.1 hc.2, hin d hc.1 n hc.2]
  · rw [view_outside hc, ho d n hc]

/-- A page of the allocator's is free or handed out. -/
theorem mem_free (hp : p ∈ I) : p ∈ s.area.free ↔ p ∉ A := by
  rw [FreeArea.free, extent_eq h.area]
  exact and_iff_right hp

/-- A removal, on the map. -/
theorem view_cleared {R : Nat → Prop} (hd : d ∈ s.pgdirs) (hc : Cleared pg0 I (fun _ => 0) d R A s A' s') [DecidablePred R] :
    s'.view = fun f n => if f = d ∧ R n then none else s.view f n := by
  refine view_ext hc.inv ?_ ?_
  · intro f hf n hn
    rw [hc.pgdirs] at hf
    by_cases hR : f = d ∧ R n
    · obtain ⟨rfl, hRn⟩ := hR
      rw [if_pos ⟨rfl, hRn⟩, hc.cleared n hn hRn]
    · rw [if_neg hR, hc.others f hf n hn hR, view_eq h hf hn]
  · intro f n hno
    rw [hc.pgdirs] at hno
    rw [view_outside hno, ite_self]

/-- An insertion, on the map. -/
theorem view_inserted {e : Nat × Nat} (hd : d ∈ s.pgdirs) (hn : n < userPages)
    (hi : Inserted pg0 I d n e A s A' s') : s'.view = s.view.set d n (some e) := by
  refine view_ext hi.inv ?_ ?_
  · intro f hf m hm
    rw [hi.pgdirs] at hf
    rw [PageMap.set]
    by_cases hc : f = d ∧ m = n
    · rw [if_pos hc, hc.1, hc.2, hi.inserted]
    · rw [if_neg hc, hi.others f hf m hm hc, view_eq h hf hm]
  · intro f m hno
    rw [hi.pgdirs] at hno
    rw [PageMap.set, if_neg, view_outside hno]
    rintro ⟨rfl, rfl⟩
    exact hno ⟨hd, hn⟩

end

/-- What one call does, in a memory where the invariant holds. -/
structure Stepped (I A A' : Set Nat) (op : MemOp) (r : MemResult) (s s' : Memory) : Prop where
  view : s'.view = op.apply r s.view
  failed : r = .code (-eNoMem) → s' = s
  short : r = .code (-eNoMem) ∨ r = .page none → s.swapInitOk = false ∧ s.area.nrFree < op.needs s
  fresh : ∀ d la perm p, op = .pgdirAllocPage d la perm → r = .page (some p) → p ∈ I ∧ p ∉ A
  returned : ∀ p ∈ A, p ∉ A' ↔ 0 < s.refs p ∧ s'.refs p = 0

/-- Pages taken and nothing mapped: nothing goes back. -/
theorem returned_of_subset (hs : A ⊆ A') (hr : ∀ q, s'.refs q = s.refs q) :
    ∀ p ∈ A, p ∉ A' ↔ 0 < s.refs p ∧ s'.refs p = 0 := by
  intro p hp
  constructor
  · intro hno
    exact absurd (hs hp) hno
  · rintro ⟨h0, h1⟩
    rw [hr p] at h1
    omega

variable {M : Machine}

/-- A call goes through and does what it is to do, or it stops in `swap_out` for want of free pages. -/
def Goes (M : Machine) (A : Set Nat) (s : Memory) (op : MemOp) : Prop :=
  (s.area.nrFree < op.needs s ∧ s.swapInitOk = true ∧ stepMem s op = .error .swapOut) ∨
  ∃ r s' A', stepMem s op = .ok (r, s') ∧ s'.Inv M.pages (rangePages M.ranges) A' (fun _ => 0) ∧
    Stepped (rangePages M.ranges) A A' op r s s'

section

variable (h : s.Inv M.pages (rangePages M.ranges) A (fun _ => 0))
include h

theorem goes_setupPgdir : Goes M A s .setupPgdir := by
  unfold Goes
  simp only [stepMem]
  rcases setupPgdir_spec h with ⟨hsw, hs, hfu⟩ | ⟨hsw, hs, hfu⟩ | ⟨p, area, hs, hpI, hp, hinv⟩
  · rw [hs]
    exact Or.inl ⟨Nat.lt_succ_of_le (nrFree_full h hfu 0), hsw, rfl⟩
  · rw [hs]
    refine Or.inr ⟨_, s, A, rfl, h, rfl, fun _ => rfl, fun _ => ⟨hsw, Nat.lt_succ_of_le (nrFree_full h hfu 0)⟩, ?_,
      returned_of_subset subset_rfl (fun _ => rfl)⟩
    rintro _ _ _ _ ⟨⟩
  · rw [hs]
    refine Or.inr ⟨_, _, _, rfl, hinv, ?_, ?_, ?_, ?_, returned_of_subset Set.subset_union_left (refs_withPgdir h hp)⟩
    · refine view_ext hinv ?_ ?_
      · intro f hf n hn
        change _ = s.view f n
        rcases List.mem_cons.mp hf with rfl | hf
        · rw [walk_withPgdir_self h hn, view_outside (fun hc => hp (h.dirs f hc.1))]
        · rw [walk_withPgdir h hp hf hn, view_eq h hf hn]
      · intro f n hno
        exact view_outside (fun hc => hno ⟨List.mem_cons_of_mem _ hc.1, hc.2⟩)
    · intro hr
      cases hr
    · rintro (hr | hr) <;> cases hr
    · rintro _ _ _ _ ⟨⟩

theorem goes_allocPage : Goes M A s .allocPage := by
  unfold Goes
  simp only [stepMem]
  rcases allocPage_spec h with ⟨hsw, hs, hfu⟩ | ⟨hsw, hs, hfu⟩ | ⟨p, area, hs, ⟨⟨hpI, hp⟩, -⟩, ha, href⟩
  · rw [hs]
    exact Or.inl ⟨Nat.lt_succ_of_le (nrFree_full h hfu 0), hsw, rfl⟩
  · rw [hs]
    refine Or.inr ⟨_, s, A, rfl, h, rfl, fun _ => rfl, fun _ => ⟨hsw, Nat.lt_succ_of_le (nrFree_full h hfu 0)⟩, ?_,
      returned_of_subset subset_rfl (fun _ => rfl)⟩
    rintro _ _ _ _ ⟨⟩
  · rw [hs]
    have hinv := inv_alloc h ha href
    refine Or.inr ⟨_, _, _, rfl, hinv, ?_, ?_, ?_, ?_, returned_of_subset Set.subset_union_left (fun _ => rfl)⟩
    · exact view_ext hinv (fun f hf n hn => (view_eq h hf hn).symm) (fun f n hno => view_outside hno)
    · intro hr
      cases hr
    · rintro (hr | hr) <;> cases hr
    · rintro _ _ _ _ ⟨⟩

theorem goes_pageInsert {perm : Nat}
    (hop : (MemOp.pageInsert d p la perm).Allowed M s) : Goes M A s (.pageInsert d p la perm) := by
  obtain ⟨hd, hla, hpe, hpI, hpf, hpd⟩ := hop
  have hp : p ∈ A := by
    by_contra hno
    exact hpf ((mem_free h hpI).mpr hno)
  unfold Goes
  simp only [stepMem]
  have hsh : s.table d (la / 4096 / 1024) = none → rangePages M.ranges ⊆ A →
      s.area.nrFree < (MemOp.pageInsert d p la perm).needs s := by
    intro hn hf
    have ho : s.tableNeeds d (la / pgSize / 1024) = 1 := if_pos hn
    exact lt_of_lt_of_eq (Nat.lt_succ_of_le (nrFree_full h hf 0)) ho.symm
  rcases pageInsert_spec h hd hla hp hpd hpe with ⟨hsw, hs, hn, hf⟩ | ⟨hsw, hs, hn, hf⟩ | ⟨s', A', hs, hi⟩
  · rw [hs]
    exact Or.inl ⟨hsh hn hf, hsw, rfl⟩
  · rw [hs]
    refine Or.inr ⟨_, s, A, rfl, h, rfl, fun _ => rfl, fun _ => ⟨hsw, hsh hn hf⟩, ?_,
      returned_of_subset subset_rfl (fun _ => rfl)⟩
    rintro _ _ _ _ ⟨⟩
  · rw [hs]
    refine Or.inr ⟨_, s', A', rfl, hi.inv, view_inserted h hd (addr_lt hla).2 hi, ?_, ?_, ?_, hi.returned⟩
    · intro hr
      cases hr
    · rintro (hr | hr) <;> cases hr
    · rintro _ _ _ _ ⟨⟩

theorem goes_pageRemove (hop : (MemOp.pageRemove d la).Allowed M s) : Goes M A s (.pageRemove d la) := by
  obtain ⟨hd, hla⟩ := hop
  unfold Goes
  simp only [stepMem]
  obtain ⟨s', A', hs, hc⟩ := pageRemove_spec h hd hla
  rw [hs]
  refine Or.inr ⟨_, s', A', rfl, hc.inv, view_cleared h hd hc, ?_, ?_, ?_, hc.returned⟩
  · intro hr
    cases hr
  · rintro (hr | hr) <;> cases hr
  · rintro _ _ _ _ ⟨⟩

theorem goes_pgdirAllocPage {perm : Nat}
    (hop : (MemOp.pgdirAllocPage d la perm).Allowed M s) : Goes M A s (.pgdirAllocPage d la perm) := by
  obtain ⟨hd, hla, hpe⟩ := hop
  unfold Goes
  simp only [stepMem]
  rcases pgdirAllocPage_fresh h hd hla hpe with
    ⟨hsw, hs, hsh⟩ | ⟨area, hsw, hs, hinv, hsh⟩ | ⟨p, s', A', hs, ⟨⟨hpI, hp⟩, -⟩, hi, -⟩
  · rw [hs]
    exact Or.inl ⟨Nat.lt_one_add_iff.mpr hsh, hsw, rfl⟩
  · rw [hs]
    refine Or.inr ⟨_, _, A, rfl, hinv, ?_, ?_, fun _ => ⟨hsw, Nat.lt_one_add_iff.mpr hsh⟩, ?_,
      returned_of_subset subset_rfl (fun _ => rfl)⟩
    · exact view_ext hinv (fun f hf n hn => (view_eq h hf hn).symm) (fun f n hno => view_outside hno)
    · intro hr
      cases hr
    · rintro _ _ _ _ - ⟨⟩
  · rw [hs]
    refine Or.inr ⟨_, s', A', rfl, hi.inv, view_inserted h hd (addr_lt hla).2 hi, ?_, ?_, ?_, hi.returned⟩
    · intro hr
      cases hr
    · rintro (hr | hr) <;> cases hr
    · rintro _ _ _ q - hq
      cases hq
      exact ⟨hpI, hp⟩

theorem goes_unmapRange {start stop : Nat}
    (hop : (MemOp.unmapRange d start stop).Allowed M s) : Goes M A s (.unmapRange d start stop) := by
  obtain ⟨hd, hal, ha⟩ := hop
  unfold Goes
  simp only [stepMem]
  obtain ⟨s', A', hs, hc⟩ := unmapRange_spec h hd hal ha
  rw [hs]
  refine Or.inr ⟨_, s', A', rfl, hc.inv, view_cleared h hd hc, ?_, ?_, ?_, hc.returned⟩
  · intro hr
    cases hr
  · rintro (hr | hr) <;> cases hr
  · rintro _ _ _ _ ⟨⟩

/-- Every call that is allowed goes through, or stops in `swap_out`. -/
theorem step_spec {op : MemOp} (hop : op.Allowed M s) : Goes M A s op := by
  cases op with
  | setupPgdir => exact goes_setupPgdir h
  | allocPage => exact goes_allocPage h
  | pageInsert d p la perm => exact goes_pageInsert h hop
  | pageRemove d la => exact goes_pageRemove h hop
  | pgdirAllocPage d la perm => exact goes_pgdirAllocPage h hop
  | unmapRange d start stop => exact goes_unmapRange h hop

end

/-- The invariant holds in every memory that a machine reaches. -/
theorem inv_of_memReach (h : MemReach M s) : ∃ A, s.Inv M.pages (rangePages M.ranges) A (fun _ => 0) := by
  induction h with
  | @boot area hb =>
    obtain ⟨_, hs', hinv⟩ := bootPmm_spec M.pages M.ranges M.ascending M.reserved
    rw [hs'] at hb
    cases hb
    have hsm : M.npage ≤ 2 ^ 20 := M.small.trans (by decide)
    have hr : ∀ p, Memory.refs ⟨area, M.frames, [], M.bootPgdir, M.npage, M.swapInitOk⟩ p = 0 := by
      intro p
      have h1 : Memory.pdeRefs ⟨area, M.frames, [], M.bootPgdir, M.npage, M.swapInitOk⟩ p = 0 :=
        slotCount_eq_zero.mpr (fun _ _ => nofun)
      have h2 : Memory.pteRefs ⟨area, M.frames, [], M.bootPgdir, M.npage, M.swapInitOk⟩ p = 0 :=
        slotCount_eq_zero.mpr (fun _ _ => nofun)
      rw [Memory.refs, h1, h2]
    refine ⟨∅, hinv, M.inside, hsm, M.boot_outside, ?_, by simp, by simp, by simp, by simp, ?_⟩
    · intro i hi
      rw [Memory.table, decode_eq_none.mpr (M.boot_empty i hi), Option.map_none]
    · intro p hp _
      have hf := hinv.ref_zero p (by
        rw [← hinv.cover] at hp
        exact hp.resolve_right (Set.notMem_empty p))
      rw [hr p]
      exact hf
  | step _ _ hop hs ih =>
    obtain ⟨A, hinv⟩ := ih
    rcases step_spec hinv hop with ⟨-, -, he⟩ | ⟨r', s'', A', hok, hi', -⟩
    · rw [he] at hs
      cases hs
    · rw [hok] at hs
      cases hs
      exact ⟨A', hi'⟩

end PageAux

open PageAux

namespace PageAux

theorem rangePages_single (n : Nat) : ∀ p ∈ rangePages [(2, n)], p < n + 2 := by
  intro p hp
  simp [rangePages] at hp
  omega

/-- A machine with `n` pages from page 2 on and an empty kernel directory at page 1. -/
def machineOf (n : Nat) (hpos : 0 < n) (hsmall : n + 2 ≤ 0x38000000 / pgSize) : Machine where
  pages := fun _ => ⟨0, ⟨true, false⟩, 0⟩
  ranges := [(2, n)]
  frames := fun _ _ => 0
  bootPgdir := 1
  npage := n + 2
  swapInitOk := false
  ascending := by simp [Ascending, hpos]
  reserved := fun _ _ => rfl
  inside := rangePages_single n
  small := hsmall
  boot_outside := by simp [rangePages]
  boot_empty := fun _ _ => rfl

/-- A machine with the four pages 2 to 5. -/
def smallMachine : Machine := machineOf 4 (by decide) (by decide)

/-- The memory of a machine when it has booted. -/
def bootedFrom (M : Machine) : Memory :=
  ⟨(bootPmm M.pages M.ranges).toOption.getD (defaultInit M.pages), M.frames, [], M.bootPgdir, M.npage, M.swapInitOk⟩

/-- The memory of the small machine when it has booted. -/
def bootedMemory : Memory := bootedFrom smallMachine

/-- The memory of the small machine with one directory set up, in page 2. -/
def smallMemory : Memory := ((setupPgdir bootedMemory).toOption.getD (none, bootedMemory)).2

theorem smallMemory_reach : MemReach smallMachine smallMemory :=
  .step .setupPgdir (.boot rfl) trivial rfl

end PageAux

end Ucore
