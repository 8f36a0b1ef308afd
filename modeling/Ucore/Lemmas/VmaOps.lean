import Ucore.Lemmas.VmaList

/-!
# `mm_unmap`, `mm_map`, `mm_brk` and `dup_mmap` on a VMA list

What each of the four does to the address space it is given, in the terms of `Edits` and `Adds`: `mm_unmap` cuts, splits and frees
VMAs, `mm_map` adds one, `mm_brk` makes one longer or adds one, and `dup_mmap` adds one for each VMA of the address space it
copies. On a sorted list `mm_unmap` returns (`mmUnmap_ok`), unmaps nothing outside of its range and leaves no VMA in it.
-/

namespace Ucore

open Checked Spans PageAux

/-- The linear page lies in one of the ranges. -/
def InRanges (ranges : List (Nat × Nat)) (n : Nat) : Prop := ∃ r ∈ ranges, r.1 ≤ n * 4096 ∧ n * 4096 < r.2

/-- The memory of an address space is in order. -/
structure Vm.Backed (pg0 : Nat → Page) (I : Set Nat) (s : Vm) : Prop where
  inv : ∃ A, s.mem.Inv pg0 I A (fun _ => 0)
  dir : s.mm.pgdir ∈ s.mem.pgdirs

namespace VmmAux

variable {kmalloc : Nat → Bool} {pg0 : Nat → Page} {I A : Set Nat} {mm mm' fromMm : Mm} {mem mem' : Memory} {s s' : Vm}
  {d fresh v start stop addr len flags : Nat} {r : Int} {detached detached' l before after le : List Nat}
  {ranges : List (Nat × Nat)}

/-! ## Ranges unmapped -/

theorem unmapRange_fits (hr : unmapRange d start stop mem = .ok mem') : Fits start stop := by
  obtain ⟨hal, hr⟩ := ensure_bind_eq_ok.mp hr
  exact ⟨hal, (ensure_bind_eq_ok.mp hr).1⟩

/-- The ranges fit, so that they are unmapped one after the other. -/
theorem unmapRanges_ok : ∀ (ranges : List (Nat × Nat)) (mem : Memory) (A : Set Nat), mem.Inv pg0 I A (fun _ => 0) →
    d ∈ mem.pgdirs → (∀ r ∈ ranges, Fits r.1 r.2) →
    ∃ mem' A', unmapRanges d ranges mem = .ok mem' ∧ Cleared pg0 I (fun _ => 0) d (InRanges ranges) A mem A' mem' := by
  intro ranges
  induction ranges with
  | nil =>
    intro mem A h _ _
    refine ⟨mem, A, rfl, Cleared.refl h ?_⟩
    rintro n - ⟨r, hr, -⟩
    cases hr
  | cons r ranges ih =>
    intro mem A h hd hf
    obtain ⟨hal, ha⟩ := hf r List.mem_cons_self
    obtain ⟨mem1, A1, hrun, hc⟩ := unmapRange_spec h hd hal ha
    obtain ⟨mem2, A2, hr2, hc2⟩ := ih mem1 A1 hc.inv (hc.pgdirs ▸ hd) (fun q hq => hf q (List.mem_cons_of_mem _ hq))
    refine ⟨mem2, A2, ?_, (hc.trans hd hc2).congr ?_⟩
    · unfold unmapRanges
      rw [List.foldlM_cons, hrun, mapError_ok]
      exact hr2
    · intro n
      simp only [InRanges, List.mem_cons, exists_eq_or_imp]

/-- The ranges of a run that returned fit. -/
theorem fits_of_run : ∀ (ranges : List (Nat × Nat)) (mem : Memory), unmapRanges d ranges mem = .ok mem' →
    ∀ r ∈ ranges, Fits r.1 r.2 := by
  intro ranges
  induction ranges with
  | nil =>
    intro mem _ r hr
    cases hr
  | cons q ranges ih =>
    intro mem hrun r hr
    unfold unmapRanges at hrun
    obtain ⟨mem1, ho, hre⟩ := bind_eq_ok.mp hrun
    rcases List.mem_cons.mp hr with rfl | hr
    · exact unmapRange_fits (mapError_eq_ok.mp ho)
    · exact ih mem1 hre r hr

theorem unmapRanges_cleared (h : mem.Inv pg0 I A (fun _ => 0)) (hd : d ∈ mem.pgdirs)
    (hr : unmapRanges d ranges mem = .ok mem') : ∃ A', Cleared pg0 I (fun _ => 0) d (InRanges ranges) A mem A' mem' := by
  obtain ⟨mem1, A1, hr1, hc⟩ := unmapRanges_ok ranges mem A h hd (fits_of_run ranges mem hr)
  rw [hr] at hr1
  cases hr1
  exact ⟨A1, hc⟩

theorem backed_edits (h : s.Backed pg0 I) (he : Edits detached detached' ranges s s') : s'.Backed pg0 I := by
  obtain ⟨A, hinv⟩ := h.inv
  obtain ⟨A', hc⟩ := unmapRanges_cleared hinv h.dir he.mem
  refine ⟨⟨A', hc.inv⟩, ?_⟩
  rw [he.fields.2.1, hc.pgdirs]
  exact h.dir

theorem unmapRange_ok (h : s.Backed pg0 I) (hf : Fits start stop) : ∃ s', s.unmapRange start stop = .ok s' := by
  obtain ⟨A, hinv⟩ := h.inv
  obtain ⟨mem', A', hr, -⟩ := unmapRange_spec hinv h.dir hf.1 hf.2
  refine ⟨{ s with mem := mem' }, ?_⟩
  unfold Vm.unmapRange
  rw [hr, mapError_ok, bind_ok]

/-! ## `mm_unmap` -/

theorem insertVmaStruct_ok (h : mm.Tidy fresh (v :: detached)) (hs : mm.Sorted (v :: detached)) :
    ∃ mm', insertVmaStruct v mm = .ok mm' ∧ mm'.pgdir = mm.pgdir :=
  ⟨_, (insertVmaStruct_spec mm hs.ordered (h.nonempty v List.mem_append_cons_self) (apart_detached hs)).1, rfl⟩

/-- A detached VMA can be cut and put back, and a range unmapped. -/
theorem cut_ok {x y : Nat} (h : s.mm.Tidy s.kmallocs (v :: detached)) (hs : s.mm.Sorted (v :: detached))
    (hb : s.Backed pg0 I) (hal : start % pgSize = 0 ∧ stop % pgSize = 0) (hlo : s.mm.lo v ≤ start) (hlt : start < stop)
    (hhi : stop ≤ s.mm.hi v) (hf : Fits x y) : ∃ s', (do
      let mm ← vmaResize v start stop s.mm
      let mm ← insertVmaStruct v mm
      { s with mm := mm }.unmapRange x y) = .ok s' := by
  obtain ⟨ht, hso⟩ := tidy_resized h List.mem_append_cons_self hal hlo hlt hhi
  obtain ⟨mm', hins, hd⟩ := insertVmaStruct_ok ht (hso hs)
  rw [vmaResize_ok hal ⟨hlo, hlt, hhi⟩, bind_ok, hins]
  exact unmapRange_ok ⟨hb.inv, hd ▸ hb.dir⟩ hf

theorem trimVma_ok (h : s.mm.Tidy s.kmallocs (v :: detached)) (hs : s.mm.Sorted (v :: detached)) (hb : s.Backed pg0 I)
    (hf : Fits start stop) (hm : s.mm.lo v < stop ∧ start < s.mm.hi v) : ∃ s', trimVma start stop v s = .ok s' := by
  obtain ⟨⟨hal1, hal2⟩, hba, hlt, ht⟩ := hf
  obtain ⟨⟨hv1, hv2⟩, hvbase, hvlt, hvtop⟩ := h.fits v List.mem_append_cons_self
  unfold trimVma
  split
  · rename_i hlo
    exact cut_ok h hs hb ⟨hv1, hal1⟩ le_rfl hlo hm.2.le ⟨⟨hal1, hv2⟩, hba, hm.2, hvtop⟩
  · split
    · rename_i hhi
      exact cut_ok h hs hb ⟨hal2, hv2⟩ hm.1.le hhi le_rfl ⟨⟨hv1, hal2⟩, hvbase, hm.1, ht⟩
    · exact unmapRange_ok hb ⟨⟨hv1, hv2⟩, hvbase, hvlt, hvtop⟩

/-- The second loop of `mm_unmap` goes through where every detached VMA meets the range. -/
theorem trimVmas_ok (hf : Fits start stop) : ∀ (detached : List Nat) (s : Vm), s.mm.Tidy s.kmallocs detached →
    s.mm.Sorted detached → s.Backed pg0 I → (∀ v ∈ detached, s.mm.lo v < stop ∧ start < s.mm.hi v) →
    ∃ s', detached.foldlM (fun s v => trimVma start stop v s) s = .ok s' := by
  intro detached
  induction detached with
  | nil =>
    intro s _ _ _ _
    exact ⟨s, rfl⟩
  | cons v detached ih =>
    intro s h hs hb hm
    obtain ⟨s1, ho⟩ := trimVma_ok h hs hb hf (hm v List.mem_cons_self)
    obtain ⟨x, y, he, ht, -⟩ := trimVma_edits h ho
    rw [List.foldlM_cons, ho]
    refine ih s1 he.tidy (he.sorted hs) (backed_edits hb he) ?_
    intro u hu
    have huv : u ≠ v := by
      rintro rfl
      exact (List.nodup_cons.mp (List.nodup_middle.mp h.nodup)).1 (List.mem_append_right _ hu)
    rw [Mm.lo, Mm.hi, ht.vmas u huv]
    exact hm u (List.mem_cons_of_mem _ hu)

theorem resized_created (hv : v ≠ fresh) (x y : Nat) : resized (created mm fresh start stop flags) v x y =
    created (resized mm v x y) fresh start stop flags := by
  unfold resized created
  rw [vmas_set_of_ne hv, vmas_set_of_ne hv.symm]
  unfold Mm.set
  rw [Function.update_comm hv]

/-- The VMA that reaches over the range on both sides, split in two: the part before the range is a new VMA, not yet in the list. -/
def halved (mm : Mm) (fresh v start stop : Nat) : Mm :=
  created (resized mm v stop (mm.hi v)) fresh (mm.lo v) start (mm.vmas v).vmFlags

/-- A VMA that reaches over the range on both sides. -/
structure Straddles (mm : Mm) (v start stop : Nat) : Prop where
  mem : v ∈ mm.mmapList
  lo : mm.lo v < start
  hi : stop < mm.hi v
  fits : Fits start stop

theorem tidy_halved (h : mm.Tidy fresh []) (hst : Straddles mm v start stop) :
    (halved mm fresh v start stop).Tidy (fresh + 1) [fresh] ∧
      (mm.Sorted [] → (halved mm fresh v start stop).Sorted [fresh]) ∧
      ∀ a f, (halved mm fresh v start stop).Covers [fresh] a f ↔
        mm.CoversBut [] v a f ∨ (mm.Has a v ∧ ¬(start ≤ a ∧ a < stop)) ∧ (mm.vmas v).vmFlags = f := by
  obtain ⟨hv, hlo, hhi, ⟨hal1, hal2⟩, -, hlt, -⟩ := hst
  have hm : v ∈ mm.mmapList ++ [] := List.mem_append_left _ hv
  obtain ⟨⟨hv1, hv2⟩, hb, -, htop⟩ := h.fits v hm
  obtain ⟨ht, hso⟩ := tidy_resized h hm ⟨hal2, hv2⟩ (show mm.lo v ≤ stop by omega) hhi le_rfl
  refine ⟨tidy_created _ ht ⟨⟨hv1, hal1⟩, hb, hlo, by omega⟩, fun hs => sorted_created ht (hso hs) ?_, ?_⟩
  · intro u hu
    rw [List.append_nil] at hu
    change ((mm.set v _).vmas u).vmEnd ≤ _ ∨ _ ≤ ((mm.set v _).vmas u).vmStart
    rcases eq_or_ne u v with rfl | huv
    · rw [vmas_set_self]
      exact Or.inr hlt.le
    · rw [vmas_set_of_ne huv]
      exact (hs.ordered.apart_of_ne hu hv huv).imp_right fun hap => Nat.le_trans (by omega) hap
  · intro a f
    have hh : mm.Has a v ↔ mm.lo v ≤ a ∧ a < mm.hi v := Iff.rfl
    rw [halved, covers_created _ _ _ ht, resized, covers_set, hh, or_assoc]
    simp only [hm, true_and, ← or_and_right]
    refine or_congr_right (and_congr_left fun _ => ?_)
    omega

theorem split_edits {mm2 : Mm} (h : s.mm.Tidy s.kmallocs []) (hst : Straddles s.mm v start stop)
    (hit : insertVmaStruct s.kmallocs (halved s.mm s.kmallocs v start stop) = .ok mm2)
    (hun : Vm.unmapRange { s with mm := mm2, kmallocs := s.kmallocs + 1 } start stop = .ok s') :
    Edits [] [] [(start, stop)] s s' ∧ (s.mm.Sorted [] → s'.mm.Unoccupied start stop) := by
  obtain ⟨ht, hso, hc⟩ := tidy_halved h hst
  have hm : v ∈ s.mm.mmapList ++ [] := List.mem_append_left _ hst.mem
  obtain ⟨mem', hm', rfl⟩ := unmapRange_eq_ok hun
  obtain ⟨-, hmm2⟩ := insertVmaStruct_eq_ok hit
  rw [show mm2.pgdir = s.mm.pgdir by rw [hmm2]; rfl] at hm'
  let s1 : Vm := { mm := halved s.mm s.kmallocs v start stop, mem := mem', kmallocs := s.kmallocs + 1 }
  have hfi : Edits [] [s.kmallocs] [(start, stop)] s s1 := by
    refine ⟨ht, hso, rfl, ?_, ?_, ?_, ?_, .refl _, Nat.le_succ _⟩
    · rw [unmapRanges, List.foldlM_cons, hm']
      rfl
    · intro a f ha
      rw [covers_split s.mm [] v]
      exact ((hc a f).mp ha).imp_right fun hr => ⟨hm, hr.1.1, hr.2⟩
    · intro a f ha
      rcases (covers_split s.mm [] v a f).mp ha with hb | ⟨-, hh, hf⟩
      · exact Or.inl ((hc a f).mpr (Or.inl hb))
      · by_cases hin : start ≤ a ∧ a < stop
        · exact Or.inr ⟨_, List.mem_singleton_self _, hin⟩
        · exact Or.inl ((hc a f).mpr (Or.inr ⟨⟨hh, hin⟩, hf⟩))
    · intro r hr a ha1 ha2
      rw [List.mem_singleton.mp hr] at ha1 ha2
      exact ⟨_, v, hm, ⟨(Nat.le_of_lt hst.lo).trans ha1, ha2.trans hst.hi⟩, rfl⟩
  have hse := insertVmaStruct_edits hfi.tidy hit
  refine ⟨hfi.trans hse, fun hs a f ha hin => ?_⟩
  rcases (hc a f).mp (hse.covers a f ha) with ⟨u, hu, huv, hh, -⟩ | ⟨⟨-, ho⟩, -⟩
  · -- in the range there was the VMA that is split, and so no other
    rw [List.append_nil] at hu
    have hv : s.mm.lo v ≤ a ∧ a < s.mm.hi v := ⟨(Nat.le_of_lt hst.lo).trans hin.1, hin.2.trans hst.hi⟩
    exact huv (hs.ordered.eq_of_within hu hst.mem hh hv)
  · exact ho hin

/-- The list from a VMA on. -/
theorem dropWhile_ne (hv : v ∈ l) :
    ∃ before after, l = before ++ v :: after ∧ l.dropWhile (fun u => decide (u ≠ v)) = v :: after := by
  obtain ⟨before, after, hs, hno⟩ := List.eq_append_cons_of_mem hv
  refine ⟨before, after, hs, ?_⟩
  rw [hs, List.dropWhile_append_of_pos, List.dropWhile_cons_of_neg (by simp)]
  intro u hu
  rw [decide_eq_true_iff]
  rintro rfl
  exact hno hu

/-- What the first loop of `mm_unmap` leaves, on a sorted list from the VMA `v` on that holds `start`: the detached VMAs meet the
range, and but for `v` they begin behind `start`; the others do not meet it. -/
structure Detached (mm : Mm) (v start stop : Nat) (rest detached : List Nat) : Prop where
  meets : ∀ u ∈ detached, mm.lo u < stop ∧ start < mm.hi u ∧ (u = v ∨ start < mm.lo u)
  rest : ∀ u ∈ rest, mm.hi u ≤ start ∨ stop ≤ mm.lo u

theorem detached_of_sorted (ho : Ordered mm.lo mm.hi (before ++ v :: after)) (hh : mm.Has start v) :
    Detached mm v start stop (before ++ (v :: after).dropWhile (fun u => decide (mm.lo u < stop)))
      ((v :: after).takeWhile (fun u => decide (mm.lo u < stop))).reverse := by
  obtain ⟨hlo, hhi⟩ : mm.lo v ≤ start ∧ start < mm.hi v := hh
  obtain ⟨hb, ha, hc⟩ := List.pairwise_append.mp ho.apart
  have hne := ho.nonempty
  refine ⟨?_, ?_⟩
  · intro u hu
    rw [List.mem_reverse] at hu
    have hlt := List.mem_takeWhile_imp hu
    rw [decide_eq_true_iff] at hlt
    have hm := List.takeWhile_subset _ hu
    have hnu := hne u (List.mem_append_right _ hm)
    rcases List.mem_cons.mp hm with rfl | hu'
    · exact ⟨hlt, hhi, Or.inl rfl⟩
    · have := (List.pairwise_cons.mp ha).1 u hu'
      exact ⟨hlt, by omega, Or.inr (by omega)⟩
  · intro u hu
    rcases List.mem_append.mp hu with hu | hu
    · have := hc u hu v List.mem_cons_self
      exact Or.inl (by omega)
    · exact Or.inr ((ho.sublist (List.sublist_append_right _ _)).le_of_mem_dropWhile hu)

/-- The ways that `mm_unmap` takes: the range is refused; no VMA holds its first address; one VMA reaches over it on both sides; or
the VMAs from the one that holds its first address on are taken off the list and trimmed. -/
theorem mmUnmap_cases (kmalloc : Nat → Bool) (h : s.mm.Tidy s.kmallocs []) (hst : roundDown addr pgSize = start)
    (hsp : roundUp ((addr + len) % addrSize) pgSize = stop) :
    (¬UserAccess start stop ∧ mmUnmap kmalloc addr len s = .ok (-eInval, s)) ∨ Fits start stop ∧ ∃ s1, Kept s s1 ∧
      (((∀ v ∈ s.mm.mmapList, ¬s.mm.Has start v) ∧ mmUnmap kmalloc addr len s = .ok (0, s1)) ∨
      (∃ v, Straddles s1.mm v start stop ∧ mmUnmap kmalloc addr len s = if kmalloc s1.kmallocs then (do
          let mm ← insertVmaStruct s1.kmallocs (halved s1.mm s1.kmallocs v start stop)
          let s ← Vm.unmapRange { s1 with mm := mm, kmallocs := s1.kmallocs + 1 } start stop
          .ok (0, s)) else .ok (-eNoMem, { s1 with kmallocs := s1.kmallocs + 1 })) ∨
      (∃ v before after, s1.mm.mmapList = before ++ v :: after ∧ s1.mm.Has start v ∧ ¬(s1.mm.lo v < start ∧ stop < s1.mm.hi v) ∧
        mmUnmap kmalloc addr len s = (do
          let d ← detachLoop stop (v :: after) [] s1.mm
          let s ← d.1.foldlM (fun s v => trimVma start stop v s) { s1 with mm := d.2 }
          .ok (0, s)))) := by
  have hal : start % pgSize = 0 ∧ stop % pgSize = 0 := ⟨hst ▸ roundDown_aligned _, hsp ▸ roundUp_aligned _⟩
  unfold mmUnmap
  rw [hst, hsp]
  dsimp only
  by_cases ha : UserAccess start stop
  swap
  · exact Or.inl ⟨ha, if_pos ha⟩
  refine Or.inr ⟨⟨hal, ha⟩, { s with mm := (findVma start s.mm).2 }, ?_⟩
  obtain ⟨hke, hf, hn⟩ := findVma_tidy h start
  refine ⟨hke, ?_⟩
  rw [if_neg (not_not.mpr ha)]
  have ht : (findVma start s.mm).2.Tidy s.kmallocs [] := (edits_kept h hke).tidy
  obtain ⟨c, -, hmm⟩ := hke.mm
  dsimp only at hmm
  cases hv : (findVma start s.mm).1 with
  | none => exact Or.inl ⟨hn hv, rfl⟩
  | some v =>
    obtain ⟨hvl, hh⟩ := hf v hv
    replace hvl : v ∈ (findVma start s.mm).2.mmapList := by rwa [hmm]
    replace hh : (findVma start s.mm).2.Has start v := by rwa [hmm]
    refine Or.inr ?_
    dsimp only
    generalize (findVma start s.mm).2 = mm at ht hvl hh ⊢
    have hlo : (mm.vmas v).vmStart ≤ start := hh.1
    have hlt := ha.2.1
    rw [if_neg (by omega)]
    by_cases hs : (mm.vmas v).vmStart < start ∧ stop < (mm.vmas v).vmEnd
    · rw [if_pos hs]
      refine Or.inl ⟨v, ⟨hvl, hs.1, hs.2, hal, ha⟩, ?_⟩
      rw [vmaCreate_eq]
      by_cases hk : kmalloc s.kmallocs = true
      · have hm : v ∈ mm.mmapList ++ [] := List.mem_append_left _ hvl
        have hse : (created mm s.kmallocs (mm.vmas v).vmStart start (mm.vmas v).vmFlags).vmas v = mm.vmas v :=
          vmas_created ht hm
        have hr : (created mm s.kmallocs (mm.vmas v).vmStart start (mm.vmas v).vmFlags).lo v ≤ stop ∧ stop < mm.hi v ∧
            mm.hi v ≤ (created mm s.kmallocs (mm.vmas v).vmStart start (mm.vmas v).vmFlags).hi v := by
          simp only [Mm.lo, Mm.hi, hse]
          exact ⟨by omega, hs.2, le_rfl⟩
        rw [if_pos hk, if_pos hk]
        dsimp only
        rw [hse, show (mm.vmas v).vmEnd = mm.hi v from rfl, vmaResize_ok ⟨hal.2, (ht.fits v hm).1.2⟩ hr,
          resized_created (ne_fresh ht hm)]
        rfl
      · rw [if_neg hk, if_neg hk]
    · rw [if_neg hs]
      obtain ⟨before, after, hl, hd⟩ := dropWhile_ne hvl
      exact Or.inr ⟨v, before, after, hl, hh, hs, by rw [hd]⟩

/-- What `mm_unmap` has done where it returns: nothing, because it failed or no VMA holds the first address of the range; or VMAs
are cut, split and freed. On a sorted list this unmaps nothing outside of the range, and leaves no VMA in it. -/
theorem mmUnmap_edits (h : s.mm.Tidy s.kmallocs []) (hstart : roundDown addr pgSize = start)
    (hstop : roundUp ((addr + len) % addrSize) pgSize = stop) (hrun : mmUnmap kmalloc addr len s = .ok (r, s')) :
    (Kept s s' ∧ (r = 0 → Fits start stop ∧ ∀ v ∈ s.mm.mmapList, ¬s.mm.Has start v)) ∨
      (r = 0 ∧ Fits start stop ∧ (∃ v ∈ s.mm.mmapList, s.mm.Has start v) ∧ ∃ ranges, Edits [] [] ranges s s' ∧
        (s.mm.Sorted [] → (∀ r ∈ ranges, start ≤ r.1 ∧ r.2 ≤ stop) ∧ s'.mm.Unoccupied start stop)) := by
  rcases mmUnmap_cases kmalloc h hstart hstop with ⟨-, heq⟩ | ⟨hf, s1, hk, hca⟩
  · rw [heq] at hrun
    cases hrun
    exact Or.inl ⟨kept_refl h, nofun⟩
  have hc := edits_kept h hk
  have hhe : ∀ v ∈ s1.mm.mmapList, s1.mm.Has start v → ∃ v ∈ s.mm.mmapList, s.mm.Has start v := by
    obtain ⟨c, -, hmm⟩ := hk.mm
    rw [hmm]
    exact fun v hv hh => ⟨v, hv, hh⟩
  rcases hca with ⟨hn, heq⟩ | ⟨v, hst, heq⟩ | ⟨v, before, after, hl, hh, hsp, heq⟩
  · rw [heq] at hrun
    cases hrun
    exact Or.inl ⟨hk, fun _ => ⟨hf, hn⟩⟩
  · rw [heq] at hrun
    split at hrun
    · obtain ⟨mm2, hit, hrun⟩ := bind_eq_ok.mp hrun
      obtain ⟨s3, hun, hrun⟩ := bind_eq_ok.mp hrun
      cases hrun
      obtain ⟨he, hcl⟩ := split_edits hc.tidy hst hit hun
      refine Or.inr ⟨rfl, hf, hhe v hst.mem ⟨hst.lo.le, hf.2.2.1.trans hst.hi⟩, _, hc.trans he,
        fun hs => ⟨?_, hcl (hc.sorted hs)⟩⟩
      intro r hr
      rw [List.mem_singleton.mp hr]
      exact ⟨le_rfl, le_rfl⟩
    · cases hrun
      exact Or.inl ⟨hk.trans ⟨⟨_, hc.tidy.cache, rfl⟩, rfl, Nat.le_succ _⟩, nofun⟩
  · obtain ⟨d, hd, hdet, hvm, hd1, hd2⟩ := detachLoop_edits stop (v :: after) before [] s1 hc.tidy hl
    rw [heq, hd, bind_ok] at hrun
    obtain ⟨s3, htrim, hrun⟩ := bind_eq_ok.mp hrun
    cases hrun
    obtain ⟨ranges, ht, hw⟩ := trimVmas_edits start stop d.1 _ _ hdet.tidy htrim
    refine Or.inr ⟨rfl, hf, hhe v (hl ▸ List.mem_append_cons_self) hh, _,
      hc.trans (hdet.trans ht), fun hs => ?_⟩
    have hsep : Detached s1.mm v start stop _ _ := detached_of_sorted (hl ▸ (hc.sorted hs).ordered) hh
    have hsn : d.2.lo = s1.mm.lo ∧ d.2.hi = s1.mm.hi := by
      unfold Mm.lo Mm.hi
      rw [hvm]
      exact ⟨rfl, rfl⟩
    rw [hsn.1, hsn.2, hd1, hd2, List.append_nil] at hw
    obtain ⟨hin, hcl⟩ := hw (by
      intro u hu hult
      obtain ⟨-, -, rfl | hgt⟩ := hsep.meets u hu
      · by_contra hno
        exact hsp ⟨hult, not_le.mp hno⟩
      · omega)
    exact ⟨hin, unoccupied_of_apart (hcl hsep.rest)⟩

theorem edits_of_mmUnmap (h : s.mm.Tidy s.kmallocs []) (hr : mmUnmap kmalloc addr len s = .ok (r, s')) :
    ∃ ranges, Edits [] [] ranges s s' := by
  rcases mmUnmap_edits h rfl rfl hr with ⟨hk, -⟩ | ⟨-, -, -, ranges, he, -⟩
  · exact ⟨[], edits_kept h hk⟩
  · exact ⟨ranges, he⟩

/-- On a sorted list `mm_unmap` returns. -/
theorem mmUnmap_ok (kmalloc : Nat → Bool) (addr len : Nat) (h : s.mm.Tidy s.kmallocs []) (hs : s.mm.Sorted [])
    (hb : s.Backed pg0 I) : ∃ r s', mmUnmap kmalloc addr len s = .ok (r, s') := by
  rcases mmUnmap_cases kmalloc h (Eq.refl (roundDown addr pgSize)) (Eq.refl (roundUp ((addr + len) % addrSize) pgSize)) with
    ⟨-, heq⟩ | ⟨hf, s1, hk, hca⟩
  · exact ⟨_, _, heq⟩
  have hc := edits_kept h hk
  have hs1 := hc.sorted hs
  have hb1 := backed_edits hb hc
  generalize roundDown addr pgSize = start at hf hca
  generalize roundUp ((addr + len) % addrSize) pgSize = stop at hf hca
  rcases hca with ⟨-, heq⟩ | ⟨v, hst, heq⟩ | ⟨v, before, after, hl, hh, -, heq⟩
  · exact ⟨_, _, heq⟩
  · rw [heq]
    split
    · obtain ⟨ht, hso, -⟩ := tidy_halved hc.tidy hst
      obtain ⟨mm', hins, hd⟩ := insertVmaStruct_ok ht (hso hs1)
      obtain ⟨s', hun⟩ := unmapRange_ok (s := { s1 with mm := mm', kmallocs := s1.kmallocs + 1 }) ⟨hb1.inv, hd ▸ hb1.dir⟩ hf
      rw [hins, bind_ok, hun]
      exact ⟨_, _, rfl⟩
    · exact ⟨_, _, rfl⟩
  · obtain ⟨d, hde, hdet, hv, hd1, -⟩ := detachLoop_edits stop (v :: after) before [] s1 hc.tidy hl
    have hsep : Detached s1.mm v start stop _ _ := detached_of_sorted (hl ▸ hs1.ordered) hh
    obtain ⟨s', htr⟩ := trimVmas_ok hf d.1 { s1 with mm := d.2 } hdet.tidy (hdet.sorted hs1) (backed_edits hb1 hdet) (by
      intro u hu
      rw [hd1, List.append_nil] at hu
      rw [Mm.lo, Mm.hi, hv]
      exact ⟨(hsep.meets u hu).1, (hsep.meets u hu).2.1⟩)
    rw [heq, hde, bind_ok, htr]
    exact ⟨_, _, rfl⟩

/-! ## `mm_map` and `mm_brk` -/

/-- The ways that `mm_map` takes: the range is refused; a VMA holds its first address; there is no block for a VMA; or the new VMA
goes to `insert_vma_struct`. -/
theorem mmMap_cases (kmalloc : Nat → Bool) (flags : Nat) (h : s.mm.Tidy s.kmallocs []) (hs : roundDown addr pgSize = start)
    (hst : roundUp ((addr + len) % addrSize) pgSize = stop) :
    (¬UserAccess start stop ∧ mmMap kmalloc addr len flags s = .ok (-eInval, none, s)) ∨ Fits start stop ∧ ∃ s1, Kept s s1 ∧
      s1.kmallocs = s.kmallocs ∧ (((∃ v ∈ s.mm.mmapList, s.mm.Has start v) ∧ mmMap kmalloc addr len flags s = .ok (-eInval, none, s1)) ∨
      (∀ v ∈ s.mm.mmapList, ¬s.mm.Has start v) ∧ mmMap kmalloc addr len flags s = if kmalloc s1.kmallocs then (do
          let mm ← insertVmaStruct s1.kmallocs (created s1.mm s1.kmallocs start stop flags)
          .ok (0, some s1.kmallocs, { s1 with mm := mm, kmallocs := s1.kmallocs + 1 }))
        else .ok (-eNoMem, none, { s1 with kmallocs := s1.kmallocs + 1 })) := by
  have hal : start % pgSize = 0 ∧ stop % pgSize = 0 := ⟨hs ▸ roundDown_aligned _, hst ▸ roundUp_aligned _⟩
  unfold mmMap
  rw [hs, hst]
  dsimp only
  by_cases ha : UserAccess start stop
  swap
  · exact Or.inl ⟨ha, if_pos ha⟩
  refine Or.inr ⟨⟨hal, ha⟩, { s with mm := (findVma start s.mm).2 }, ?_⟩
  obtain ⟨hke, hf, hn⟩ := findVma_tidy h start
  refine ⟨hke, rfl, ?_⟩
  rw [if_neg (not_not.mpr ha)]
  obtain ⟨c, -, hmm⟩ := hke.mm
  dsimp only at hmm
  cases hv : (findVma start s.mm).1 with
  | none =>
    refine Or.inr ⟨hn hv, ?_⟩
    rw [Option.filter_none, vmaCreate_eq]
    by_cases hk : kmalloc s.kmallocs = true
    · rw [if_pos hk, if_pos hk]
    · rw [if_neg hk, if_neg hk]
  | some v =>
    obtain ⟨hvl, hh⟩ := hf v hv
    have hlt : ((findVma start s.mm).2.vmas v).vmStart < stop := by
      rw [hmm]
      exact hh.1.trans_lt ha.2.1
    refine Or.inl ⟨⟨v, hvl, hh⟩, ?_⟩
    rw [Option.filter_some, if_pos (decide_eq_true hlt)]

/-- `mm_map` adds the VMA that it is asked for, or changes nothing. -/
theorem mmMap_adds {w : Option Nat} (h : s.mm.Tidy s.kmallocs []) (hst : roundDown addr pgSize = start)
    (hsp : roundUp ((addr + len) % addrSize) pgSize = stop) (hr : mmMap kmalloc addr len flags s = .ok (r, w, s')) :
    (r = 0 ∧ Adds start stop flags s s' ∧ Fits start stop ∧ (s.mm.Sorted [] → s.mm.Unoccupied start stop)) ∨
      (r ≠ 0 ∧ Kept s s') := by
  rcases mmMap_cases kmalloc flags h hst hsp with ⟨-, heq⟩ | ⟨hf, s1, hk, -, ⟨-, heq⟩ | ⟨-, heq⟩⟩
  · rw [heq] at hr
    cases hr
    exact Or.inr ⟨by decide, kept_refl h⟩
  · rw [heq] at hr
    cases hr
    exact Or.inr ⟨by decide, hk⟩
  · have hc := edits_kept h hk
    rw [heq] at hr
    split at hr
    · obtain ⟨mm', hin, hr⟩ := bind_eq_ok.mp hr
      cases hr
      obtain ⟨had, hfr⟩ := adds_of_insert hc.tidy hf hin
      refine Or.inl ⟨rfl, had.of_edits hc, hf, ?_⟩
      exact fun hs a f ha => hfr (hc.sorted hs) a f ((hc.covers_iff a f).mpr ha)
    · cases hr
      exact Or.inr ⟨by decide, hk.trans ⟨⟨_, hc.tidy.cache, rfl⟩, rfl, Nat.le_succ _⟩⟩

/-- A range that fits, as it is passed to `mm_unmap`, `mm_map` and `mm_brk`. -/
theorem rounded_of_fits (h : Fits start stop) :
    roundDown start pgSize = start ∧ roundUp ((start + (stop - start)) % addrSize) pgSize = stop := by
  obtain ⟨⟨hal1, hal2⟩, -, hlt, ht⟩ := h
  have hs : (start + (stop - start)) % addrSize = stop := by
    unfold addrSize
    unfold userTop at ht
    omega
  rw [hs]
  exact ⟨roundDown_eq hal1, roundUp_eq hal2 ht⟩

/-- The ways that `mm_brk` takes: the range is refused; or `mm_unmap` is called for it, and if that succeeds the VMA that ends where
the range starts is made longer, or there is no block for a VMA, or the new VMA goes to `insert_vma_struct`. -/
theorem mmBrk_cases (kmalloc : Nat → Bool) (hs : roundDown addr pgSize = start)
    (hst : roundUp ((addr + len) % addrSize) pgSize = stop) : mmBrk kmalloc addr len s = .ok (-eInval, s) ∨ Fits start stop ∧
      (∀ p, mmUnmap kmalloc start (stop - start) s = .error p → mmBrk kmalloc addr len s = .error p) ∧
      ∀ r s1, mmUnmap kmalloc start (stop - start) s = .ok (r, s1) → (r ≠ 0 ∧ mmBrk kmalloc addr len s = .ok (r, s1)) ∨
        r = 0 ∧ (s1.mm.Tidy s1.kmallocs [] → ∃ s2, Kept s1 s2 ∧
          ((∃ v ∈ s2.mm.mmapList, s2.mm.hi v = start ∧ (s2.mm.vmas v).vmFlags = vmRead ||| vmWrite ∧
            mmBrk kmalloc addr len s = .ok (0, { s2 with mm := s2.mm.set v { s2.mm.vmas v with vmEnd := stop } })) ∨
          mmBrk kmalloc addr len s = if kmalloc s2.kmallocs then (do
              let mm ← insertVmaStruct s2.kmallocs (created s2.mm s2.kmallocs start stop (vmRead ||| vmWrite))
              .ok (0, { s2 with mm := mm, kmallocs := s2.kmallocs + 1 }))
            else .ok (-eNoMem, { s2 with kmallocs := s2.kmallocs + 1 }))) := by
  have hal : start % pgSize = 0 ∧ stop % pgSize = 0 := ⟨hs ▸ roundDown_aligned _, hst ▸ roundUp_aligned _⟩
  unfold mmBrk
  rw [hs, hst]
  by_cases ha : UserAccess start stop
  swap
  · exact Or.inl (if_pos ha)
  rw [if_neg (not_not.mpr ha)]
  refine Or.inr ⟨⟨hal, ha⟩, ?_, ?_⟩
  · intro p hp
    rw [hp, bind_error]
  intro r s1 hu
  rw [hu, bind_ok]
  by_cases hr : r = 0
  swap
  · exact Or.inl ⟨hr, if_pos hr⟩
  refine Or.inr ⟨hr, fun ht => ?_⟩
  obtain ⟨hke, hf, -⟩ := findVma_tidy ht (start - 1)
  refine ⟨_, hke, ?_⟩
  rw [if_neg (not_not.mpr hr)]
  dsimp only
  obtain ⟨c, -, hmm⟩ := hke.mm
  dsimp only at hmm
  cases hv : (findVma (start - 1) s1.mm).1.filter (fun v => decide
      (((findVma (start - 1) s1.mm).2.vmas v).vmEnd = start ∧ ((findVma (start - 1) s1.mm).2.vmas v).vmFlags = vmRead ||| vmWrite)) with
  | none =>
    refine Or.inr ?_
    rw [vmaCreate_eq]
    by_cases hk : kmalloc s1.kmallocs = true
    · rw [if_pos hk, if_pos hk]
    · rw [if_neg hk, if_neg hk]
  | some v =>
    obtain ⟨hv, he⟩ := Option.filter_eq_some_iff.mp hv
    rw [decide_eq_true_iff] at he
    refine Or.inl ⟨v, ?_, he.1, he.2, rfl⟩
    rw [hmm]
    exact (hf v hv).1

/-- `mm_brk`: what `mm_unmap` does, and then the range is added, or nothing. -/
theorem mmBrk_adds (h : s.mm.Tidy s.kmallocs []) (hs : roundDown addr pgSize = start)
    (hst : roundUp ((addr + len) % addrSize) pgSize = stop) (hrun : mmBrk kmalloc addr len s = .ok (r, s')) :
    ∃ ranges s1, Edits [] [] ranges s s1 ∧ ((∀ v ∈ s.mm.mmapList, ¬s.mm.Has start v) → Kept s s1) ∧
      ((r = 0 ∧ Adds start stop (vmRead ||| vmWrite) s1 s' ∧ Fits start stop) ∨ r ≠ 0 ∧ Kept s1 s') := by
  rcases mmBrk_cases kmalloc hs hst with heq | ⟨hf, herr, hok⟩
  · rw [heq] at hrun
    cases hrun
    exact ⟨[], s, Edits.refl h, fun _ => kept_refl h, Or.inr ⟨by decide, kept_refl h⟩⟩
  cases hu : mmUnmap kmalloc start (stop - start) s with
  | error p =>
    rw [herr p hu] at hrun
    cases hrun
  | ok q =>
    obtain ⟨r1, s1⟩ := q
    obtain ⟨ranges, he, hn⟩ : ∃ ranges, Edits [] [] ranges s s1 ∧
        ((∀ v ∈ s.mm.mmapList, ¬s.mm.Has start v) → Kept s s1) := by
      obtain ⟨hlo, hhi⟩ := rounded_of_fits hf
      rcases mmUnmap_edits h hlo hhi hu with ⟨hk, -⟩ | ⟨-, -, ⟨v, hv, hh⟩, ranges, he, -⟩
      · exact ⟨[], edits_kept h hk, fun _ => hk⟩
      · exact ⟨ranges, he, fun hno => absurd hh (hno v hv)⟩
    refine ⟨ranges, s1, he, hn, ?_⟩
    rcases hok r1 s1 hu with ⟨hr, heq⟩ | ⟨-, hre⟩
    · rw [heq] at hrun
      cases hrun
      exact Or.inr ⟨hr, kept_refl he.tidy⟩
    obtain ⟨s2, hk, hca⟩ := hre he.tidy
    have hc := edits_kept he.tidy hk
    rcases hca with ⟨v, hv, hend, hfl, heq⟩ | heq
    · rw [heq] at hrun
      cases hrun
      have ha := adds_extended hc.tidy hv hend hf.1.2 hf.2.2.1 hf.2.2.2
      rw [hfl] at ha
      exact Or.inl ⟨rfl, ha.of_edits hc, hf⟩
    · rw [heq] at hrun
      split at hrun
      · obtain ⟨mm', hin, hrun⟩ := bind_eq_ok.mp hrun
        cases hrun
        exact Or.inl ⟨rfl, (adds_of_insert hc.tidy hf hin).1.of_edits hc, hf⟩
      · cases hrun
        exact Or.inr ⟨by decide, hk.trans ⟨⟨_, hc.tidy.cache, rfl⟩, rfl, Nat.le_succ _⟩⟩

/-- `mm_brk` returns where no VMA has an address of the range. -/
theorem mmBrk_ok (kmalloc : Nat → Bool) (h : s.mm.Tidy s.kmallocs []) (hs : s.mm.Sorted []) (hb : s.Backed pg0 I)
    (hst : roundDown addr pgSize = start) (hsp : roundUp ((addr + len) % addrSize) pgSize = stop)
    (hf : s.mm.Unoccupied start stop) : ∃ r s', mmBrk kmalloc addr len s = .ok (r, s') := by
  rcases mmBrk_cases kmalloc hst hsp with heq | ⟨hfi, -, hok⟩
  · exact ⟨_, _, heq⟩
  obtain ⟨r1, s1, hu⟩ := mmUnmap_ok kmalloc start (stop - start) h hs hb
  obtain ⟨ranges, he⟩ := edits_of_mmUnmap h hu
  rcases hok r1 s1 hu with ⟨-, heq⟩ | ⟨-, hr⟩
  · exact ⟨_, _, heq⟩
  obtain ⟨s2, hk, ⟨_, -, -, -, heq⟩ | heq⟩ := hr he.tidy
  · exact ⟨_, _, heq⟩
  · have ha := he.trans (edits_kept he.tidy hk)
    rw [heq]
    split
    · obtain ⟨mm', hins⟩ := insert_created (vmRead ||| vmWrite) ha.tidy (ha.sorted hs) hfi (ha.unoccupied hf)
      rw [hins]
      exact ⟨_, _, rfl⟩
    · exact ⟨_, _, rfl⟩

/-! ## `dup_mmap` -/

/-- One round of the loop of `dup_mmap`: a request to `kmalloc` that failed, or a new VMA like that of `fromMm` and what
`copy_range` made of the memory. -/
theorem dupLoop_round (h : s.mm.Tidy s.kmallocs []) (hv : Fits (fromMm.lo v) (fromMm.hi v))
    (hrun : dupLoop kmalloc fromMm (v :: le) s = .ok (r, s')) : (r ≠ 0 ∧ Kept s s') ∨
      ∃ s1 : Vm, ∃ r1 mem1, Adds (fromMm.lo v) (fromMm.hi v) (fromMm.vmas v).vmFlags s s1 ∧
        (s.mm.Sorted [] → s.mm.Unoccupied (fromMm.lo v) (fromMm.hi v)) ∧
        copyRange s.mm.pgdir fromMm.pgdir (fromMm.lo v) (fromMm.hi v) s.mem = .ok (r1, mem1) ∧
        ((r1 ≠ 0 ∧ r ≠ 0 ∧ s' = { s1 with mem := mem1 }) ∨
          (r1 = 0 ∧ dupLoop kmalloc fromMm le { s1 with mem := mem1 } = .ok (r, s'))) := by
  rw [dupLoop, vmaCreate_eq] at hrun
  by_cases hk : kmalloc s.kmallocs = true
  swap
  · rw [if_neg hk] at hrun
    cases hrun
    exact Or.inl ⟨by decide, ⟨_, h.cache, rfl⟩, rfl, Nat.le_succ _⟩
  · rw [if_pos hk] at hrun
    obtain ⟨mm', hin, hrun⟩ := bind_eq_ok.mp hrun
    obtain ⟨⟨r1, mem1⟩, hc, hrun⟩ := bind_eq_ok.mp hrun
    obtain ⟨ha, hf⟩ := adds_of_insert h hv hin
    have hcopy' : copyRange s.mm.pgdir fromMm.pgdir (fromMm.lo v) (fromMm.hi v) s.mem = .ok (r1, mem1) := by
      rw [← ha.fields.2.1]
      exact mapError_eq_ok.mp hc
    refine Or.inr ⟨_, r1, mem1, ha, hf, hcopy', ?_⟩
    by_cases hr : r1 = 0
    · subst hr
      exact Or.inr ⟨rfl, hrun⟩
    · rw [if_pos hr] at hrun
      cases hrun
      exact Or.inl ⟨hr, by decide, rfl⟩

/-- `dup_mmap` keeps the bookkeeping of the address space that it fills. -/
theorem dupLoop_tidy (kmalloc : Nat → Bool) (fromMm : Mm) : ∀ (le : List Nat) (s s' : Vm) (r : Int),
    s.mm.Tidy s.kmallocs [] → s.mm.Sorted [] → (∀ v ∈ le, Fits (fromMm.lo v) (fromMm.hi v)) →
    dupLoop kmalloc fromMm le s = .ok (r, s') → s'.mm.Tidy s'.kmallocs [] ∧ s'.mm.Sorted [] ∧ s.kmallocs ≤ s'.kmallocs ∧
      (s.mm.mapCount = s.mm.mmapList.length → s'.mm.mapCount = s'.mm.mmapList.length) := by
  intro le
  induction le with
  | nil =>
    intro s s' r h hs _ hr
    cases hr
    exact ⟨h, hs, le_rfl, id⟩
  | cons v le ih =>
    intro s s' r h hs hle hr
    rcases dupLoop_round h (hle v List.mem_cons_self) hr with ⟨-, hk⟩ | ⟨s1, r1, mem1, ha, hf, -, hn⟩
    · have he := edits_kept h hk
      have hco := he.count
      exact ⟨he.tidy, he.sorted hs, he.le, by omega⟩
    · have hs1 := ha.sorted hs (hf hs)
      rcases hn with ⟨-, -, rfl⟩ | ⟨-, hre⟩
      · exact ⟨ha.tidy, hs1, ha.le, ha.count⟩
      · obtain ⟨h1, h2, h3, h4⟩ := ih { s1 with mem := mem1 } s' r ha.tidy hs1
          (fun u hu => hle u (List.mem_cons_of_mem _ hu)) hre
        exact ⟨h1, h2, ha.le.trans h3, fun hc => h4 (ha.count hc)⟩

end VmmAux

end Ucore
