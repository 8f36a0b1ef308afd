import Ucore.Lemmas.VmaOps

/-!
# Runs of `do_brk`

`do_brk` moves the end of a process's heap. It tells whether the heap may grow from `find_vma` at the old break alone, so it does
not see a VMA that begins between the old break and the new one: the growth then stops the kernel at an assertion, or makes the
heap overlap that VMA (`brk_over_stack`). In runs where no request reaches over the beginning of a VMA (`Vm.Clear`), the VMA list
stays ordered, the heap is covered, and nothing but the heap changes (`brk_runs_consistent`).
-/

namespace Ucore

open Checked Spans PageAux

/-- An address space as `load_icode` leaves it: ordered VMAs, and the break at its start, which is page aligned and in no VMA. -/
structure Loaded (M : Machine) (s : Vm) : Prop where
  inv : s.mm.Inv s.kmallocs
  brk : s.mm.brk = s.mm.brkStart
  aligned : s.mm.brkStart % pgSize = 0
  apart : ∀ v ∈ s.mm.mmapList, s.mm.hi v ≤ s.mm.brkStart ∨ s.mm.brkStart ≤ s.mm.lo v
  mem : MemReach M s.mem
  pgdir : s.mm.pgdir ∈ s.mem.pgdirs

/-- No VMA begins between the break and the new break that is asked for. A request beyond the user's addresses is refused in any
case. -/
def Vm.Clear (s : Vm) (brk : Nat) : Prop :=
  roundUp brk pgSize ≤ userTop → ∀ v ∈ s.mm.mmapList, ¬(s.mm.brk < s.mm.lo v ∧ s.mm.lo v < roundUp brk pgSize)

instance (s : Vm) (brk : Nat) : Decidable (s.Clear brk) :=
  inferInstanceAs (Decidable (roundUp brk pgSize ≤ userTop →
    ∀ v ∈ s.mm.mmapList, ¬(s.mm.brk < s.mm.lo v ∧ s.mm.lo v < roundUp brk pgSize)))

/-- The address spaces that requests lead to, each of which reaches over the beginning of no VMA. In between the process may touch
its memory, which changes the page tables. -/
inductive BrkReach (kmalloc : Nat → Bool) (M : Machine) : Vm → Prop where
  | loaded {s : Vm} : Loaded M s → BrkReach kmalloc M s
  | request {s s' : Vm} {r : Int} (brkStore brk : Nat) : BrkReach kmalloc M s → brk < addrSize → s.Clear brk →
      doBrk kmalloc brkStore brk s = .ok (r, s') → BrkReach kmalloc M s'
  | touch {s : Vm} {mem : Memory} : BrkReach kmalloc M s → MemReach M mem → s.mm.pgdir ∈ mem.pgdirs →
      BrkReach kmalloc M { s with mem := mem }

namespace VmmAux

/-- What holds at every point of a run: the VMAs are in order, the heap is covered by VMAs that can be read and written, and so is
the memory. -/
structure Good (M : Machine) (s : Vm) : Prop where
  inv : s.mm.Inv s.kmallocs
  brk_aligned : s.mm.brk % pgSize = 0
  le : s.mm.brkStart ≤ s.mm.brk
  heap : ∀ a, s.mm.brkStart ≤ a → a < s.mm.brk → s.mm.Covers [] a (vmRead ||| vmWrite)
  backed : s.Backed M.pages (rangePages M.ranges)

/-- What a request does: it changes no VMA and not the break, or it moves the break to where it was asked to, and the coverage
changes between the two breaks only. -/
def Moved (brk : Nat) (mm mm' : Mm) : Prop :=
  (mm'.brk = mm.brk ∧ mm'.layout = mm.layout) ∨
  (mm'.brk = roundUp brk pgSize ∧
    ∀ a, ¬(min mm.brk mm'.brk ≤ a ∧ a < max mm.brk mm'.brk) → mm'.coverage a = mm.coverage a)

variable {kmalloc : Nat → Bool} {M : Machine} {s s' : Vm} {mm : Mm} {brk : Nat}

theorem inv_setBrk {fresh : Nat} (h : mm.Inv fresh) (b : Nat) : Mm.Inv fresh { mm with brk := b } :=
  ⟨h.ordered, h.owner, h.aligned, h.user, h.cache, h.named⟩

/-- Nothing but the cache has changed. -/
theorem good_of_kept (brk : Nat) (h : Good M s) (hk : Kept s s') : Good M s' ∧ s'.mm.brkStart = s.mm.brkStart ∧ Moved brk s.mm s'.mm := by
  obtain ⟨ht, hs⟩ := tidy_of_inv h.inv
  have he := edits_kept ht hk
  obtain ⟨-, -, hst, hb⟩ := he.fields
  refine ⟨⟨inv_of_tidy he.tidy (he.sorted hs), hb ▸ h.brk_aligned, hst ▸ hb ▸ h.le, ?_, backed_edits h.backed he⟩, hst,
    Or.inl ⟨hb, ?_⟩⟩
  · intro a ha1 ha2
    exact (he.covers_iff a _).mpr (h.heap a (hst ▸ ha1) (hb ▸ ha2))
  · obtain ⟨c, -, hmm⟩ := hk.mm
    rw [hmm]
    rfl

theorem good_self (h : Good M s) : Good M s ∧ s.mm.brkStart = s.mm.brkStart ∧ Moved brk s.mm s.mm :=
  good_of_kept _ h (kept_refl (tidy_of_inv h.inv).1)

/-- What moving the break to `newbrk` comes to: it failed and changed nothing, or the break can be set. -/
def Settled (M : Machine) (brk : Nat) (s : Vm) (b : Bool) (s' : Vm) : Prop :=
  (b = false ∧ Kept s s') ∨ (b = true ∧ Good M { s' with mm := { s'.mm with brk := roundUp brk pgSize } } ∧
    s'.mm.brkStart = s.mm.brkStart ∧ Moved brk s.mm { s'.mm with brk := roundUp brk pgSize })

/-- A request to move the break down. -/
theorem moveBrk_down (h : Good M s) (hstart : s.mm.brkStart ≤ brk) (hb : brk < addrSize) (hlt : roundUp brk pgSize < s.mm.brk) :
    ∃ b s', moveBrk kmalloc (roundUp brk pgSize) s = .ok (b, s') ∧ Settled M brk s b s' := by
  obtain ⟨ht, hs⟩ := tidy_of_inv h.inv
  have hal := roundUp_aligned brk
  have hle := le_roundUp hb
  unfold moveBrk Settled Moved
  rw [if_pos hlt]
  generalize roundUp brk pgSize = newbrk at hlt hal hle ⊢
  obtain ⟨r, s', hrun⟩ := mmUnmap_ok kmalloc newbrk (s.mm.brk - newbrk) ht hs h.backed
  have hbrk : newbrk + (s.mm.brk - newbrk) = s.mm.brk := Nat.add_sub_cancel' hlt.le
  rw [hrun]
  rcases mmUnmap_edits ht (roundDown_eq hal) rfl hrun with ⟨hk, hz⟩ | ⟨rfl, hf, -, ranges, he, hre⟩
  · refine ⟨_, _, rfl, Or.inl ⟨decide_eq_false ?_, hk⟩⟩
    -- a VMA holds the new break, unless the rounding wrapped around to zero, which is no address of the user's
    intro hr
    obtain ⟨hf, hn⟩ := hz hr
    have hba : 0x200000 ≤ newbrk := hf.2.1
    obtain ⟨v, hv, hh, -⟩ := h.heap newbrk (by omega) hlt
    rw [List.append_nil] at hv
    exact hn v hv hh
  · obtain ⟨hw, -⟩ := hre hs
    have hba : 0x200000 ≤ newbrk := hf.2.1
    obtain ⟨-, -, hs', hbrk'⟩ := he.fields
    have hinv := inv_of_tidy he.tidy (he.sorted hs)
    have hst : roundUp ((newbrk + (s.mm.brk - newbrk)) % addrSize) pgSize = s.mm.brk := by
      obtain ⟨v, hv, hh, -⟩ := h.heap (s.mm.brk - 1) (by omega) (by omega)
      rw [List.append_nil] at hv
      have htop : (s.mm.vmas v).vmEnd ≤ 2952790016 := (h.inv.user v hv).2
      have hl := hh.2
      rw [hbrk, Nat.mod_eq_of_lt (by unfold addrSize; omega), roundUp_eq h.brk_aligned (by unfold userTop; omega)]
    rw [hst] at hw
    have hlo : ∀ a f, s.mm.Covers [] a f → ¬(newbrk ≤ a ∧ a < s.mm.brk) → s'.mm.Covers [] a f := by
      intro a f ha ho
      refine (he.lost a f ha).resolve_right ?_
      rintro ⟨q, hq, ha1, ha2⟩
      exact ho ⟨Nat.le_trans (hw q hq).1 ha1, ha2.trans_le (hw q hq).2⟩
    refine ⟨_, _, rfl, Or.inr ⟨rfl, ⟨inv_setBrk hinv _, hal, ?_, ?_, ?_⟩, hs', Or.inr ⟨rfl, ?_⟩⟩⟩
    · change s'.mm.brkStart ≤ newbrk
      omega
    · intro a ha1 ha2
      dsimp only at ha1 ha2
      exact hlo a _ (h.heap a (hs' ▸ ha1) (by omega)) (by omega)
    · exact ⟨(backed_edits h.backed he).inv, (backed_edits h.backed he).dir⟩
    · intro a ha
      rw [Nat.min_eq_right hlt.le, Nat.max_eq_left hlt.le] at ha
      exact coverage_congr h.inv (inv_setBrk hinv _) fun f => ⟨he.covers a f, fun hc => hlo a f hc ha⟩

/-- No VMA has an address between the break and the new break. -/
theorem unoccupied_of_clear (hc : s.Clear brk) (ht : roundUp brk pgSize ≤ userTop)
    (hn : ∀ v ∈ s.mm.mmapList, ¬s.mm.Has s.mm.brk v) : s.mm.Unoccupied s.mm.brk (roundUp brk pgSize) := by
  refine unoccupied_of_apart fun u hu => ?_
  have hno := hc ht u hu
  have ho : ¬(s.mm.lo u ≤ s.mm.brk ∧ s.mm.brk < s.mm.hi u) := hn u hu
  omega

/-- A request to move the break up. -/
theorem moveBrk_up (h : Good M s) (hcl : s.Clear brk) (hlt : s.mm.brk < roundUp brk pgSize) :
    ∃ b s', moveBrk kmalloc (roundUp brk pgSize) s = .ok (b, s') ∧ Settled M brk s b s' := by
  obtain ⟨ht, hs⟩ := tidy_of_inv h.inv
  have hal := roundUp_aligned brk
  obtain ⟨hk, hfo, hn⟩ := findVma_tidy ht s.mm.brk
  have hc := edits_kept ht hk
  have hfr := unoccupied_of_clear hcl
  unfold moveBrk findVmaIntersection Settled Moved
  dsimp only
  rw [if_neg (by omega)]
  have hlt32 : roundUp brk pgSize < addrSize := by
    unfold roundUp roundDown addrSize pgSize
    omega
  generalize roundUp brk pgSize = newbrk at hlt hlt32 hal hfr ⊢
  have hst : roundUp ((s.mm.brk + (newbrk - s.mm.brk)) % addrSize) pgSize = newbrk := by
    unfold roundUp roundDown addrSize pgSize at *
    omega
  have hfs : (findVma s.mm.brk s.mm).2.vmas = s.mm.vmas := by
    obtain ⟨c, -, hmm⟩ := hk.mm
    dsimp only at hmm
    rw [hmm]
  rw [hfs]
  split
  · exact ⟨_, _, rfl, Or.inl ⟨rfl, hk⟩⟩
  rename_i hf
  rcases mmBrk_cases kmalloc (roundDown_eq h.brk_aligned) hst with
    heq | ⟨hfi, -⟩
  · rw [heq]
    exact ⟨_, _, rfl, Or.inl ⟨rfl, hk⟩⟩
  have htop : newbrk ≤ 2952790016 := hfi.2.2.2
  have hg : ∀ v ∈ s.mm.mmapList, ¬s.mm.Has s.mm.brk v := by
    refine hn (Option.eq_none_iff_forall_ne_some.mpr fun v hv => ?_)
    have hle : (s.mm.vmas v).vmStart ≤ s.mm.brk := (hfo v hv).2.1
    rw [hv, Option.filter_some, if_pos (by simp only [Bool.not_eq_true', decide_eq_false_iff_not]; unfold addrSize pgSize; omega)] at hf
    cases hf
  have hfr := hfr htop hg
  obtain ⟨r, s', hrun⟩ := mmBrk_ok kmalloc hc.tidy (hc.sorted hs) (backed_edits h.backed hc)
    (roundDown_eq h.brk_aligned) hst (hc.unoccupied hfr)
  rw [hrun]
  obtain ⟨ranges, s1, -, hkept1, hca⟩ := mmBrk_adds hc.tidy (roundDown_eq h.brk_aligned) hst hrun
  have hkept2 := hk.trans (hkept1 (by
    obtain ⟨c, -, hmm⟩ := hk.mm
    rw [hmm]
    exact hg))
  rcases hca with ⟨rfl, had, -⟩ | ⟨hr, hkept3⟩
  swap
  · exact ⟨_, _, rfl, Or.inl ⟨decide_eq_false hr, hkept2.trans hkept3⟩⟩
  have had := had.of_edits (edits_kept ht hkept2)
  obtain ⟨-, hd, hs', hbrk'⟩ := had.fields
  have hinv := inv_of_tidy had.tidy (had.sorted hs hfr)
  have hle := h.le
  refine ⟨_, _, rfl, Or.inr ⟨rfl, ⟨inv_setBrk hinv _, hal, ?_, ?_, ?_⟩, hs', Or.inr ⟨rfl, ?_⟩⟩⟩
  · change s'.mm.brkStart ≤ newbrk
    omega
  · intro a ha1 ha2
    refine (had.covers a _).mpr ?_
    by_cases ha : a < s.mm.brk
    · exact Or.inl (h.heap a (hs' ▸ ha1) ha)
    · exact Or.inr ⟨⟨not_lt.mp ha, ha2⟩, rfl⟩
  · refine ⟨had.mem ▸ h.backed.inv, ?_⟩
    rw [hd, had.mem]
    exact h.backed.dir
  · intro a ha
    rw [Nat.min_eq_left hlt.le, Nat.max_eq_right hlt.le] at ha
    refine coverage_congr h.inv (inv_setBrk hinv _) fun f => (had.covers a f).trans ?_
    exact or_iff_left fun hin => ha hin.1

/-- A request, between the two copies from and to the user's memory. -/
theorem setBrk_spec (kmalloc : Nat → Bool) (h : Good M s) (hb : brk < addrSize) (hc : s.Clear brk) :
    ∃ s', setBrk kmalloc brk s = .ok s' ∧ Good M s' ∧ s'.mm.brkStart = s.mm.brkStart ∧ Moved brk s.mm s'.mm := by
  unfold setBrk
  by_cases hl : brk < s.mm.brkStart
  · rw [if_pos hl]
    exact ⟨s, rfl, good_self h⟩
  rw [if_neg hl]
  rw [ensure_of h.brk_aligned, bind_ok]
  by_cases heq : roundUp brk pgSize = s.mm.brk
  · rw [if_pos heq]
    exact ⟨s, rfl, good_self h⟩
  rw [if_neg heq]
  have hme : ∃ b s', moveBrk kmalloc (roundUp brk pgSize) s = .ok (b, s') ∧ Settled M brk s b s' := by
    rcases Nat.lt_or_gt_of_ne heq with hlt | hgt
    · exact moveBrk_down h (by omega) hb hlt
    · exact moveBrk_up h hc hgt
  obtain ⟨b, s', hm, hr⟩ := hme
  rw [hm]
  rcases hr with ⟨rfl, hk⟩ | ⟨rfl, hg, hs, hmo⟩
  · exact ⟨s', rfl, good_of_kept brk h hk⟩
  · exact ⟨_, rfl, hg, hs, hmo⟩

/-- `do_brk`. -/
theorem doBrk_spec (kmalloc : Nat → Bool) (h : Good M s) (hb : brk < addrSize) (hcl : s.Clear brk) (brkStore : Nat) :
    ∃ r s', doBrk kmalloc brkStore brk s = .ok (r, s') ∧ Good M s' ∧ s'.mm.brkStart = s.mm.brkStart ∧
      Moved brk s.mm s'.mm := by
  unfold doBrk
  by_cases hz : brkStore = 0
  · rw [if_pos hz]
    exact ⟨-eInval, s, rfl, good_self h⟩
  rw [if_neg hz]
  obtain ⟨b, c, -, hc, hch⟩ := userMemCheck_spec h.inv.searchable brkStore 4 true
  have hk : Kept s { s with mm := { s.mm with mmapCache := c } } := ⟨⟨c, hc, rfl⟩, rfl, le_rfl⟩
  rw [hch, bind_ok]
  cases b with
  | false => exact ⟨-eInval, _, rfl, good_of_kept brk h hk⟩
  | true =>
    obtain ⟨s', hset, hg, hs, hm⟩ := setBrk_spec kmalloc (good_of_kept brk h hk).1 hb hcl
    obtain ⟨b', c', -, hc', hch'⟩ := userMemCheck_spec hg.inv.searchable brkStore 4 true
    have hkept' : Kept s' { s' with mm := { s'.mm with mmapCache := c' } } := ⟨⟨c', hc', rfl⟩, rfl, le_rfl⟩
    rw [if_pos rfl, hset, bind_ok, hch']
    exact ⟨0, _, rfl, (good_of_kept brk hg hkept').1, hs, hm⟩

theorem good_of_reach (h : BrkReach kmalloc M s) : Good M s := by
  induction h with
  | loaded hl =>
    refine ⟨hl.inv, ?_, hl.brk.symm.le, ?_, inv_of_memReach hl.mem, hl.pgdir⟩
    · rw [hl.brk]
      exact hl.aligned
    · intro a ha1 ha2
      rw [hl.brk] at ha2
      omega
  | request _ _ _ hb hc hr ih =>
    obtain ⟨r, s', hs', hg, -⟩ := doBrk_spec _ ih hb hc _
    rw [hs'] at hr
    cases hr
    exact hg
  | touch _ hm hpg ih => exact ⟨ih.inv, ih.brk_aligned, ih.le, ih.heap, inv_of_memReach hm, hpg⟩

end VmmAux

open VmmAux

/-- Requests over whole runs in which none reaches over the beginning of a VMA. In every state reached the VMAs are in increasing
order and disjoint, and the heap is covered by memory that can be read and written. A further such request trips no assertion; it
leaves the break and all VMAs as they are, or it moves the break to the rounded request and changes the coverage between the two
breaks only. -/
theorem brk_runs_consistent (kmalloc : Nat → Bool) (M : Machine) (s : Vm) (h : BrkReach kmalloc M s) :
    (s.mm.mmapList.Pairwise (fun u v => s.mm.lo u < s.mm.lo v) ∧
      s.mm.mmapList.Pairwise (fun u v => s.mm.hi u ≤ s.mm.lo v)) ∧
    (∀ a, s.mm.brkStart ≤ a → a < s.mm.brk → s.mm.coverage a = some (vmRead ||| vmWrite)) ∧
    ∀ brkStore brk, brk < addrSize → s.Clear brk → ∃ r s', doBrk kmalloc brkStore brk s = .ok (r, s') ∧
      s'.mm.brkStart = s.mm.brkStart ∧ Moved brk s.mm s'.mm := by
  have hg := good_of_reach h
  refine ⟨⟨hg.inv.ordered.increasing, hg.inv.ordered.apart⟩, ?_, ?_⟩
  · exact fun a ha1 ha2 => (coverage_eq_some hg.inv).mpr (hg.heap a ha1 ha2)
  intro brkStore brk hb hclear
  obtain ⟨r, s', hs', -, hstart, hmoved⟩ := doBrk_spec kmalloc hg hb hclear brkStore
  exact ⟨r, s', hs', hstart, hmoved⟩

namespace VmmAux

/-- A small process: one page of program at 0x800000, the break right behind it, and the stack at the top of the user's
addresses. -/
def smallSpace : Vm where
  mm := {
    id := 100
    vmas := fun v => if v = 0 then ⟨100, 0x800000, 0x801000, 5⟩ else ⟨100, 0xAFF00000, 0xB0000000, 11⟩
    mmapList := [0, 1]
    mmapCache := none
    mapCount := 2
    pgdir := 2
    brkStart := 0x801000
    brk := 0x801000 }
  mem := PageAux.smallMemory
  kmallocs := 2

theorem smallSpace_loaded : Loaded PageAux.smallMachine smallSpace := by
  refine ⟨⟨⟨?_, ?_⟩, ?_, ?_, ?_, ?_, ?_⟩, rfl, rfl, ?_, PageAux.smallMemory_reach, List.mem_cons_self⟩
  · simp [smallSpace, Mm.lo, Mm.hi]
  · simp [smallSpace, Mm.lo, Mm.hi]
  · simp [smallSpace]
  · simp [smallSpace, Mm.lo, Mm.hi, pgSize]
  · simp [smallSpace, Mm.lo, Mm.hi, userBase, userTop]
  · simp [smallSpace]
  · simp [smallSpace]
  · simp [smallSpace, Mm.lo, Mm.hi]

end VmmAux

/-- A request that reaches over the beginning of the stack. The first one of the process stops the kernel: the new VMA overlaps the
stack. After a small request the heap has a VMA of its own, and it is made longer over the stack. -/
theorem brk_over_stack :
    Loaded PageAux.smallMachine smallSpace ∧
    doBrk (fun _ => true) 0xAFFFFF00 0xAFFFF000 smallSpace = .error .overlap ∧
    ∃ s₁ s₂, doBrk (fun _ => true) 0xAFFFFF00 0x802000 smallSpace = .ok (0, s₁) ∧
      doBrk (fun _ => true) 0xAFFFFF00 0xAFFFF000 s₁ = .ok (0, s₂) ∧
      s₂.mm.layout = [(0x800000, 0x801000, 5), (0x801000, 0xAFFFF000, 3), (0xAFF00000, 0xB0000000, 11)] :=
  ⟨smallSpace_loaded, rfl, _, _, rfl, rfl, rfl⟩

/-- The heap of the small process grown by two pages and cut by one. -/
theorem brk_runs_consistent_small :
    ∃ s, BrkReach (fun _ => true) PageAux.smallMachine s ∧ s.mm.brk = 0x802000 ∧ s.mm.coverage 0x801234 = some 3 := by
  have h0 : BrkReach (fun _ => true) PageAux.smallMachine smallSpace := .loaded smallSpace_loaded
  have h1 := BrkReach.request 0xAFFFFF00 0x803000 h0 (by decide) (by decide) rfl
  have h2 := BrkReach.request 0xAFFFFF00 0x802000 h1 (by decide) (by decide) rfl
  exact ⟨_, h2, rfl, (brk_runs_consistent _ _ _ h2).2.1 _ (by decide) (by decide)⟩

end Ucore
