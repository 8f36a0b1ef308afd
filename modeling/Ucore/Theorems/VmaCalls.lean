import Ucore.Theorems.Brk

/-!
# `mm_unmap` and `mm_map`, call by call

`mm_unmap` and `mm_map` look up the first address of their range with `find_vma`, and decide from what they find there. `mm_unmap`
always returns and changes nothing outside of its range (`mm_unmap_frame`), but where the range begins in a hole it returns 0 and
leaves the VMAs further on in the range as they are (`mm_unmap_clears_iff`). `mm_map` in the same place does not see that the range
runs into a VMA, and `insert_vma_struct` stops the kernel (`mm_map_reports_iff`).
-/

namespace Ucore

open Checked Spans PageAux VmmAux

/-- No VMA has an address of the range, and no page of it is present. -/
def Vm.Vacant (s : Vm) (start stop : Nat) : Prop :=
  s.mm.Unoccupied start stop ∧ ∀ n, start ≤ n * 4096 → n * 4096 < stop → s.mem.walk s.mm.pgdir n = none

/-- What `mm_map` is to do with the range from `start` to `stop`: refuse it if it is no range of the user's or meets a VMA, and
otherwise add one VMA for it, unless `kmalloc` has no block. -/
def MapReported (kmalloc : Nat → Bool) (start stop flags : Nat) (s : Vm) (out : Except VmPanic (Int × Option Nat × Vm)) : Prop :=
  ∃ r w s', out = .ok (r, w, s') ∧
    (UserAccess start stop ∧ s.mm.Unoccupied start stop → if kmalloc s.kmallocs then
        r = 0 ∧ ∃ l₁ l₂, s.mm.layout = l₁ ++ l₂ ∧ s'.mm.layout = l₁ ++ (start, stop, flags) :: l₂
      else r = -eNoMem ∧ s'.mm.layout = s.mm.layout) ∧
    (¬(UserAccess start stop ∧ s.mm.Unoccupied start stop) → r = -eInval ∧ s'.mm.layout = s.mm.layout)

namespace VmmAux

variable {s s' : Vm} {start stop a : Nat} {ranges : List (Nat × Nat)}

theorem layout_kept (h : Kept s s') : s'.mm.layout = s.mm.layout := by
  obtain ⟨c, -, hmm⟩ := h.mm
  rw [hmm]
  rfl

/-- The page of an address outside of a range of whole pages is outside of it. -/
theorem page_outside (hf : Fits start stop) (hw : ∀ r ∈ ranges, start ≤ r.1 ∧ r.2 ≤ stop)
    (ha : ¬(start ≤ a ∧ a < stop)) : ¬InRanges ranges (a / 4096) := by
  rintro ⟨r, hr, h1, h2⟩
  obtain ⟨hr1, hr2⟩ := hw r hr
  have hs : stop % 4096 = 0 := hf.1.2
  omega

theorem unoccupied_iff : s.mm.Unoccupied start stop ↔ ∀ v ∈ s.mm.mmapList, ∀ a, start ≤ a → a < stop → ¬s.mm.Has a v := by
  constructor
  · exact fun h v hv a ha1 ha2 hh => h a _ ⟨v, List.mem_append_left _ hv, hh, rfl⟩ ⟨ha1, ha2⟩
  · rintro h a f ⟨v, hv, hh, -⟩ ⟨ha1, ha2⟩
    rw [List.append_nil] at hv
    exact h v hv a ha1 ha2 hh

theorem smallSpace_backed : smallSpace.Backed smallMachine.pages (rangePages smallMachine.ranges) :=
  ⟨inv_of_memReach smallMemory_reach, smallSpace_loaded.pgdir⟩

end VmmAux

/-- `mm_unmap` of any range, on an address space whose VMA list is in order. It returns; every address outside of the range is
covered as before, with the same flags, and the entry of its page is the same; and where it does not return 0, the VMAs and the
memory are as before. -/
theorem mm_unmap_frame (kmalloc : Nat → Bool) {pg0 : Nat → Page} {I : Set Nat} {s : Vm} (addr len : Nat)
    (h : s.mm.Inv s.kmallocs) (hb : s.Backed pg0 I) :
    ∃ r s', mmUnmap kmalloc addr len s = .ok (r, s') ∧
      (∀ a, ¬(roundDown addr pgSize ≤ a ∧ a < roundUp ((addr + len) % addrSize) pgSize) →
        s'.mm.coverage a = s.mm.coverage a ∧
        (a / 4096 < userPages → s'.mem.pte s'.mm.pgdir (a / 4096) = s.mem.pte s.mm.pgdir (a / 4096))) ∧
      (r ≠ 0 → s'.mm.mmapList = s.mm.mmapList ∧ s'.mm.vmas = s.mm.vmas ∧ s'.mem = s.mem) := by
  obtain ⟨htidy, hs⟩ := tidy_of_inv h
  obtain ⟨r, s', hrun⟩ := mmUnmap_ok kmalloc addr len htidy hs hb
  refine ⟨r, s', hrun, ?_⟩
  rcases mmUnmap_edits htidy rfl rfl hrun with ⟨hkept, -⟩ | ⟨rfl, hfits, -, ranges, he, hrest⟩
  · obtain ⟨c, -, hmm⟩ := hkept.mm
    rw [hmm, hkept.mem]
    exact ⟨fun a _ => ⟨rfl, fun _ => rfl⟩, fun _ => ⟨rfl, rfl, rfl⟩⟩
  · obtain ⟨hwithin, -⟩ := hrest hs
    obtain ⟨A, hinv⟩ := hb.inv
    obtain ⟨A', hc⟩ := unmapRanges_cleared hinv hb.dir he.mem
    refine ⟨fun a ha => ⟨?_, fun hn => ?_⟩, fun hr => absurd rfl hr⟩
    · refine coverage_congr h (inv_of_tidy he.tidy (he.sorted hs)) fun f => ⟨he.covers a f, fun hcov => ?_⟩
      refine (he.lost a f hcov).resolve_right ?_
      rintro ⟨q, hq, ha1, ha2⟩
      exact ha ⟨Nat.le_trans (hwithin q hq).1 ha1, ha2.trans_le (hwithin q hq).2⟩
    · rw [he.fields.2.1]
      exact hc.entries _ hb.dir _ hn fun hin => page_outside hfits hwithin ha hin.2

/-- One page of the stack of the small process is unmapped. -/
theorem mm_unmap_frame_stack : ∃ s', mmUnmap (fun _ => true) 0xAFF01000 0x1000 smallSpace = .ok (0, s') ∧
    s'.mm.layout = [(0x800000, 0x801000, 5), (0xAFF00000, 0xAFF01000, 11), (0xAFF02000, 0xB0000000, 11)] ∧
    s'.mm.coverage 0xAFF02000 = smallSpace.mm.coverage 0xAFF02000 := by
  obtain ⟨r, s', hr, hframe, -⟩ := mm_unmap_frame (fun _ => true) 0xAFF01000 0x1000 smallSpace_loaded.inv smallSpace_backed
  obtain ⟨s0, h0, hlayout⟩ : ∃ s0, mmUnmap (fun _ => true) 0xAFF01000 0x1000 smallSpace = .ok (0, s0) ∧ s0.mm.layout =
      [(0x800000, 0x801000, 5), (0xAFF00000, 0xAFF01000, 11), (0xAFF02000, 0xB0000000, 11)] := ⟨_, rfl, rfl⟩
  rw [hr] at h0
  cases h0
  exact ⟨s', hr, hlayout, (hframe 0xAFF02000 (by decide)).1⟩

/-- `mm_unmap` that returned 0 has emptied its range exactly if a VMA held the first address of the range or none met the range,
and the pages of the range that were present lay in VMAs. -/
theorem mm_unmap_clears_iff {kmalloc : Nat → Bool} {pg0 : Nat → Page} {I : Set Nat} {s s' : Vm} {addr len start stop : Nat}
    (h : s.mm.Inv s.kmallocs) (hb : s.Backed pg0 I) (hstart : roundDown addr pgSize = start)
    (hstop : roundUp ((addr + len) % addrSize) pgSize = stop) (hrun : mmUnmap kmalloc addr len s = .ok (0, s')) :
    s'.Vacant start stop ↔ ((∃ v ∈ s.mm.mmapList, s.mm.Has start v) ∨ s.mm.Unoccupied start stop) ∧
      ∀ n, start ≤ n * 4096 → n * 4096 < stop → s.mem.walk s.mm.pgdir n ≠ none → ∃ f, s.mm.Covers [] (n * 4096) f := by
  obtain ⟨htidy, hs⟩ := tidy_of_inv h
  rcases mmUnmap_edits htidy hstart hstop hrun with ⟨hkept, hzero⟩ | ⟨-, hfits, hheld, ranges, he, hrest⟩
  · obtain ⟨c, -, hmm⟩ := hkept.mm
    have hsame : s'.Vacant start stop ↔ s.Vacant start stop := by
      unfold Vm.Vacant
      rw [hkept.mem, hmm]
      exact Iff.rfl
    rw [hsame]
    constructor
    · rintro ⟨hfree, hnone⟩
      exact ⟨Or.inr hfree, fun n hn1 hn2 hwalk => absurd (hnone n hn1 hn2) hwalk⟩
    · rintro ⟨⟨v, hv, hhas⟩ | hfree, hpages⟩
      · exact absurd hhas ((hzero rfl).2 v hv)
      · refine ⟨hfree, fun n hn1 hn2 => ?_⟩
        by_contra hwalk
        obtain ⟨f, hf⟩ := hpages n hn1 hn2 hwalk
        exact hfree _ f hf ⟨hn1, hn2⟩
  · obtain ⟨-, hfree⟩ := hrest hs
    obtain ⟨A, hinv⟩ := hb.inv
    obtain ⟨A', hc⟩ := unmapRanges_cleared hinv hb.dir he.mem
    have hpage : ∀ n, n * 4096 < stop → n < userPages := fun n hn => by
      have htop : stop ≤ 2952790016 := hfits.2.2.2
      unfold userPages userSlots
      omega
    unfold Vm.Vacant
    rw [he.fields.2.1]
    constructor
    · rintro ⟨-, hnone⟩
      refine ⟨Or.inl hheld, fun n hn1 hn2 hwalk => ?_⟩
      -- a page that is present no more lies in a range that was unmapped, and so in a VMA
      by_contra hno
      have hin : InRanges ranges n := by
        by_contra hout
        rw [← hc.others _ hb.dir n (hpage n hn2) fun hcc => hout hcc.2] at hwalk
        exact hwalk (hnone n hn1 hn2)
      obtain ⟨r, hr, hr1, hr2⟩ := hin
      exact hno (he.inside r hr _ hr1 hr2)
    · rintro ⟨-, hpages⟩
      refine ⟨hfree, fun n hn1 hn2 => ?_⟩
      by_cases hin : InRanges ranges n
      · exact hc.cleared n (hpage n hn2) hin
      · rw [hc.others _ hb.dir n (hpage n hn2) fun hcc => hin hcc.2]
        by_contra hwalk
        obtain ⟨f, hf⟩ := hpages n hn1 hn2 hwalk
        exact hfree _ f ((he.lost _ f hf).resolve_right hin) ⟨hn1, hn2⟩

/-- One page of the stack of the small process is unmapped, and its range is empty then. -/
theorem mm_unmap_clears_iff_stack : ∃ s', mmUnmap (fun _ => true) 0xAFF01000 0x1000 smallSpace = .ok (0, s') ∧
    s'.Vacant 0xAFF01000 0xAFF02000 := by
  obtain ⟨s', hr⟩ : ∃ s', mmUnmap (fun _ => true) 0xAFF01000 0x1000 smallSpace = .ok (0, s') := ⟨_, rfl⟩
  refine ⟨s', hr, (mm_unmap_clears_iff smallSpace_loaded.inv smallSpace_backed rfl rfl hr).mpr ⟨Or.inl ⟨1, ?_, ?_⟩, ?_⟩⟩
  · decide
  · exact (by decide : 0xAFF00000 ≤ 0xAFF01000 ∧ 0xAFF01000 < 0xB0000000)
  intro n hn1 hn2 hwalk
  change 0xAFF01000 ≤ n * 4096 at hn1
  change n * 4096 < 0xAFF02000 at hn2
  obtain rfl : n = 0xAFF01 := by omega
  exact absurd rfl hwalk

/-- The range begins one page before the program of the small process, where there is no VMA: 0 is returned, and the program is
still there. -/
theorem mm_unmap_misses_program : smallSpace.mm.Inv smallSpace.kmallocs ∧
    ∃ s', mmUnmap (fun _ => true) 0x7FF000 0x2000 smallSpace = .ok (0, s') ∧ s'.mm.coverage 0x800000 = some 5 :=
  ⟨smallSpace_loaded.inv, _, rfl, rfl⟩

/-- `mm_map` does with its range what it is to do exactly if the range is none of the user's, or a VMA holds its first address, or
no VMA meets it. -/
theorem mm_map_reports_iff (kmalloc : Nat → Bool) {s : Vm} {addr len start stop : Nat} (flags : Nat) (h : s.mm.Inv s.kmallocs)
    (hstart : roundDown addr pgSize = start) (hstop : roundUp ((addr + len) % addrSize) pgSize = stop) :
    MapReported kmalloc start stop flags s (mmMap kmalloc addr len flags s) ↔
      (UserAccess start stop → (∀ v ∈ s.mm.mmapList, ¬s.mm.Has start v) → s.mm.Unoccupied start stop) := by
  obtain ⟨htidy, hs⟩ := tidy_of_inv h
  rcases mmMap_cases kmalloc flags htidy hstart hstop with ⟨hno, heq⟩ | ⟨hfits, s1, hkept, hk, ⟨⟨v, hv, hhas⟩, heq⟩ | ⟨hnone, heq⟩⟩
  · rw [heq]
    exact iff_of_true ⟨_, _, _, rfl, fun hc => absurd hc.1 hno, fun _ => ⟨rfl, rfl⟩⟩ fun hacc => absurd hacc hno
  · have hmeet : ¬s.mm.Unoccupied start stop := fun hfree =>
      unoccupied_iff.mp hfree v hv start le_rfl hfits.2.2.1 hhas
    rw [heq]
    exact iff_of_true ⟨_, _, _, rfl, fun hc => absurd hc.2 hmeet, fun _ => ⟨rfl, layout_kept hkept⟩⟩
      fun _ hnone => absurd hhas (hnone v hv)
  · have hcached := edits_kept htidy hkept
    by_cases hfree : s.mm.Unoccupied start stop
    · refine iff_of_true ?_ fun _ _ => hfree
      rw [heq, MapReported, ← hk]
      by_cases hserved : kmalloc s1.kmallocs = true
      · obtain ⟨mm', hins⟩ := insert_created flags hcached.tidy (hcached.sorted hs) hfits (hcached.unoccupied hfree)
        obtain ⟨l1, l2, hold, hnew, -⟩ := layout_inserted hcached.tidy hins
        rw [if_pos hserved, hins]
        refine ⟨_, _, _, rfl, fun _ => ?_, fun hc => absurd ⟨hfits.2, hfree⟩ hc⟩
        rw [if_pos hserved]
        exact ⟨rfl, l1, l2, (layout_kept hkept).symm.trans hold, hnew⟩
      · rw [if_neg hserved]
        refine ⟨_, _, _, rfl, fun _ => ?_, fun hc => absurd ⟨hfits.2, hfree⟩ hc⟩
        rw [if_neg hserved]
        have hlayout : s1.mm.layout = s.mm.layout := layout_kept hkept
        exact ⟨rfl, hlayout⟩
    · refine iff_of_false ?_ fun hc => hfree (hc hfits.2 hnone)
      rintro ⟨r, w, s', hout, -, hno⟩
      obtain ⟨hr, -⟩ := hno fun hc => hfree hc.2
      rw [heq] at hout
      split at hout
      · -- `insert_vma_struct` accepts no VMA that meets another
        obtain ⟨mm', hins, -⟩ := bind_eq_ok.mp hout
        have hfree1 := (adds_of_insert hcached.tidy hfits hins).2 (hcached.sorted hs)
        exact hfree fun a f ha => hfree1 a f ((hcached.covers_iff a f).mpr ha)
      · cases hout
        exact absurd hr (by decide)

/-- The page between the program of the small process and its stack, which no VMA meets. -/
theorem mm_map_reports_iff_page :
    MapReported (fun _ => true) 0x801000 0x802000 3 smallSpace (mmMap (fun _ => true) 0x801000 0x1000 3 smallSpace) :=
  (mm_map_reports_iff (fun _ => true) 3 smallSpace_loaded.inv rfl rfl).mpr fun _ _ => unoccupied_iff.mpr (by
    intro v hv a ha1 ha2 hhas
    obtain ⟨hlo, hhi⟩ := hhas
    rcases List.mem_pair.mp hv with rfl | rfl
    · exact absurd (ha1.trans_lt hhi) (by decide)
    · exact absurd (hlo.trans_lt ha2) (by decide))

/-- The range begins one page before the program of the small process: the overlap is not reported, the kernel stops. -/
theorem mm_map_overlap_stops : smallSpace.mm.Inv smallSpace.kmallocs ∧ 0x7FF000 + 0x2000 < addrSize ∧
    mmMap (fun _ => true) 0x7FF000 0x2000 3 smallSpace = .error .overlap :=
  ⟨smallSpace_loaded.inv, by decide, rfl⟩

end Ucore
