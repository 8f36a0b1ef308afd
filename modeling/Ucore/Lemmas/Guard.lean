import Ucore.Exec
import Ucore.Lemmas.AddressSpace
import Ucore.Lemmas.Fork

/-!
# The permissions of pages and those of their VMAs

A page is mapped with the permissions that its VMA gave at the time, in several places: the loader, the page fault, and the copy at
a fork. `Vm.Guarded` says that what is mapped still agrees with the VMAs. What the calls do to the page tables of an address space
is that pages are unmapped (`Cleared`), or that pages of one VMA are mapped with its permissions (`Grows`); with what they do to the
VMAs (`Edits`, `Adds`) this gives for each call that it keeps the address space guarded and leaves the others alone (`Upholds`).
-/

namespace Ucore

open Checked Spans PageAux

/-- The flags of an entry are those that a VMA with these flags gives: the user may use the page, and may write it exactly if the
VMA can be written. -/
def Permits (flags low : Nat) : Prop := low &&& pteU ≠ 0 ∧ (low &&& pteW ≠ 0 ↔ flags &&& vmWrite ≠ 0)

/-- Every page that is mapped lies in a VMA and has its permissions. -/
structure Vm.Guarded (pg0 : Nat → Page) (I : Set Nat) (s : Vm) : Prop where
  inv : ∃ A, s.mem.Inv pg0 I A (fun _ => 0)
  tidy : s.mm.Tidy s.kmallocs []
  sorted : s.mm.Sorted []
  dir : s.mm.pgdir ∈ s.mem.pgdirs
  guarded : ∀ n < userPages, ∀ e, s.mem.walk s.mm.pgdir n = some e → ∃ f, s.mm.Covers [] (n * 4096) f ∧ Permits f e.2

/-- What a call for the address space of `s` does: it stays guarded, and the others map what they mapped. -/
structure Upholds (pg0 : Nat → Page) (I : Set Nat) (s s' : Vm) : Prop where
  guarded : s'.Guarded pg0 I
  pgdirs : s'.mem.pgdirs = s.mem.pgdirs
  pgdir : s'.mm.pgdir = s.mm.pgdir
  others : ∀ f ∈ s.mem.pgdirs, f ≠ s.mm.pgdir → ∀ n < userPages, s'.mem.walk f n = s.mem.walk f n
  le : s.kmallocs ≤ s'.kmallocs

/-- Pages `R` of the directory `d` have been mapped with the permissions `perm`, and nothing else has changed in what is mapped. -/
structure Grows (pg0 : Nat → Page) (I : Set Nat) (d : Nat) (R : Nat → Prop) (perm : Nat) (mem mem' : Memory) : Prop where
  inv : ∃ A, mem'.Inv pg0 I A (fun _ => 0)
  pgdirs : mem'.pgdirs = mem.pgdirs
  walks : ∀ f ∈ mem.pgdirs, ∀ n < userPages, mem'.walk f n = mem.walk f n ∨
    (f = d ∧ R n ∧ ∃ p, mem'.walk d n = some (p, pteP ||| perm))

variable {kmalloc : Nat → Bool} {pg0 : Nat → Page} {I A : Set Nat} {s s' s'' : Vm} {mem mem' mem'' : Memory} {mm : Mm}
  {d n perm addr len start stop flags : Nat} {r : Int} {R R' : Nat → Prop} {ranges : List (Nat × Nat)}

theorem Upholds.refl (h : s.Guarded pg0 I) : Upholds pg0 I s s :=
  ⟨h, rfl, rfl, fun _ _ _ _ _ => rfl, le_rfl⟩

theorem Upholds.trans (h : Upholds pg0 I s s') (h' : Upholds pg0 I s' s'') : Upholds pg0 I s s'' := by
  refine ⟨h'.guarded, h'.pgdirs.trans h.pgdirs, h'.pgdir.trans h.pgdir, ?_, h.le.trans h'.le⟩
  intro f hf hne n hn
  rw [h'.others f (h.pgdirs ▸ hf) (h.pgdir ▸ hne) n hn, h.others f hf hne n hn]

theorem Grows.refl (h : mem.Inv pg0 I A (fun _ => 0)) : Grows pg0 I d R perm mem mem :=
  ⟨⟨A, h⟩, rfl, fun _ _ _ _ => Or.inl rfl⟩

theorem Grows.trans (h : Grows pg0 I d R perm mem mem') (h' : Grows pg0 I d R perm mem' mem'') :
    Grows pg0 I d R perm mem mem'' := by
  refine ⟨h'.inv, h'.pgdirs.trans h.pgdirs, ?_⟩
  intro f hf n hn
  rcases h'.walks f (h.pgdirs ▸ hf) n hn with hw | hw
  · rcases h.walks f hf n hn with hw0 | ⟨hfd, hR, hw0⟩
    · exact Or.inl (hw.trans hw0)
    · subst hfd
      exact Or.inr ⟨rfl, hR, hw ▸ hw0⟩
  · exact Or.inr hw

theorem Grows.mono (h : Grows pg0 I d R perm mem mem') (hR : ∀ n, R n → R' n) : Grows pg0 I d R' perm mem mem' := by
  refine ⟨h.inv, h.pgdirs, ?_⟩
  intro f hf n hn
  exact (h.walks f hf n hn).imp id (fun ⟨hfd, hr, hw⟩ => ⟨hfd, hR n hr, hw⟩)

namespace VmmAux

/-! ## Pages mapped -/

/-- The permissions that the loader and `do_pgfault` compute from the flags of a VMA. -/
theorem permits_of_flags (flags : Nat) : Permits flags (pteP ||| if flags &&& vmWrite ≠ 0 then pteU ||| pteW else pteU) := by
  unfold Permits
  split
  · rename_i hw
    simp only [hw, ne_eq, not_false_eq_true, iff_true]
    decide
  · rename_i hw
    simp only [hw, ne_eq, iff_false]
    decide

/-- `page_insert` of a page where nothing else changes. -/
theorem grows_inserted {e : Nat × Nat} {A' : Set Nat} (h : Inserted pg0 I d n e A mem A' mem')
    (he : e.2 = pteP ||| perm) : Grows pg0 I d (· = n) perm mem mem' := by
  refine ⟨⟨A', h.inv⟩, h.pgdirs, ?_⟩
  intro f hf m hm
  by_cases hfm : f = d ∧ m = n
  · refine Or.inr ⟨hfm.1, hfm.2, e.1, ?_⟩
    rw [hfm.2, h.inserted, ← he]
  · exact Or.inl (h.others f hf m hm hfm)

theorem grows_faulted (h : mem.Inv pg0 I A (fun _ => 0)) (hf : Faulted pg0 I d n perm A mem mem') :
    Grows pg0 I d (· = n) perm mem mem' := by
  obtain ⟨A1, mem1, hme, hma⟩ := hf
  obtain ⟨hinv, hfi⟩ : mem1.Inv pg0 I A1 (fun _ => 0) ∧ Grows pg0 I d (· = n) perm mem mem1 := by
    rcases hme with ⟨rfl, rfl⟩ | ⟨t, ht⟩
    · exact ⟨h, Grows.refl h⟩
    · exact ⟨ht.inv, ⟨A1, ht.inv⟩, ht.pgdirs, fun f hf m hm => Or.inl (ht.walks f hf m hm)⟩
  refine hfi.trans ?_
  rcases hma with rfl | ⟨area, rfl, hi'⟩ | ⟨p, A2, -, -, hi⟩
  · exact Grows.refl hinv
  · exact ⟨⟨A1, hi'⟩, rfl, fun _ _ _ _ => Or.inl rfl⟩
  · exact grows_inserted hi rfl

/-! ## Address spaces that stay guarded -/

section

variable (h : s.Guarded pg0 I)
include h

/-- Pages of VMAs mapped with the permissions of these. -/
theorem upholds_grows (hg : Grows pg0 I s.mm.pgdir R perm s.mem mem')
    (hR : ∀ n, R n → ∃ f, s.mm.Covers [] (n * 4096) f ∧ Permits f (pteP ||| perm)) :
    Upholds pg0 I s { s with mem := mem' } := by
  refine ⟨⟨hg.inv, h.tidy, h.sorted, hg.pgdirs ▸ h.dir, ?_⟩, hg.pgdirs, rfl, ?_, le_rfl⟩
  · intro n hn e he
    rcases hg.walks s.mm.pgdir h.dir n hn with hw | ⟨-, hr, p, hw⟩
    · exact h.guarded n hn e (hw ▸ he)
    · obtain rfl : e = (p, pteP ||| perm) := Option.some.inj (he.symm.trans hw)
      exact hR n hr
  · intro f hf hne n hn
    exact (hg.walks f hf n hn).resolve_right (fun hc => hne hc.1)

/-- VMAs cut or removed, and what they no longer cover unmapped. -/
theorem upholds_edits (he : Edits [] [] ranges s s') : Upholds pg0 I s s' := by
  obtain ⟨A, hinv⟩ := h.inv
  obtain ⟨A', hc⟩ := unmapRanges_cleared hinv h.dir he.mem
  have hpg := he.fields.2.1
  refine ⟨⟨⟨A', hc.inv⟩, he.tidy, he.sorted h.sorted, ?_, ?_⟩, hc.pgdirs, hpg, ?_, he.le⟩
  · rw [hpg, hc.pgdirs]
    exact h.dir
  · intro n hn e hw
    rw [hpg] at hw
    by_cases hin : InRanges ranges n
    · rw [hc.cleared n hn hin] at hw
      cases hw
    · rw [hc.others s.mm.pgdir h.dir n hn (fun hcc => hin hcc.2)] at hw
      obtain ⟨f, hcov, hp⟩ := h.guarded n hn e hw
      exact ⟨f, (he.lost _ f hcov).resolve_right hin, hp⟩
  · intro f hf hne n hn
    exact hc.others f hf n hn (fun hcc => hne hcc.1)

/-- A VMA added where there was none. -/
theorem upholds_adds (ha : Adds start stop flags s s') (hf : s.mm.Unoccupied start stop) : Upholds pg0 I s s' := by
  have hpg := ha.fields.2.1
  refine ⟨⟨ha.mem ▸ h.inv, ha.tidy, ha.sorted h.sorted hf, ?_, ?_⟩, by rw [ha.mem], hpg, ?_, ha.le⟩
  · rw [hpg, ha.mem]
    exact h.dir
  · intro n hn e hw
    rw [hpg, ha.mem] at hw
    obtain ⟨f, hc, hp⟩ := h.guarded n hn e hw
    exact ⟨f, (ha.covers _ f).mpr (Or.inl hc), hp⟩
  · intro f _ _ n _
    rw [ha.mem]

/-- Only the bounds of the heap change. -/
theorem upholds_setBrk (brkStart brk : Nat) :
    Upholds pg0 I s { s with mm := { s.mm with brkStart := brkStart, brk := brk } } := by
  exact ⟨⟨h.inv, { h.tidy with }, ⟨h.sorted.ordered, h.sorted.apart⟩, h.dir, h.guarded⟩, rfl, rfl, fun _ _ _ _ _ => rfl,
    le_rfl⟩

omit h in
/-- An address space stays guarded while calls are made for another. -/
theorem guarded_other (h : Vm.Guarded pg0 I { s with mm := mm }) (hu : Upholds pg0 I s s') (hne : mm.pgdir ≠ s.mm.pgdir) :
    Vm.Guarded pg0 I { s' with mm := mm } := by
  refine ⟨hu.guarded.inv, tidy_mono h.tidy hu.le, h.sorted, ?_, ?_⟩
  · change mm.pgdir ∈ s'.mem.pgdirs
    rw [hu.pgdirs]
    exact h.dir
  · intro n hn e hw
    exact h.guarded n hn e ((hu.others mm.pgdir h.dir hne n hn).symm.trans hw)

/-! ## The calls -/

theorem mmUnmap_upholds (hr : mmUnmap kmalloc addr len s = .ok (r, s')) : Upholds pg0 I s s' := by
  obtain ⟨ranges, he⟩ := edits_of_mmUnmap h.tidy hr
  exact upholds_edits h he

/-- `mm_map`; where it returns 0, the range has the flags it was called with. -/
theorem mmMap_upholds {w : Option Nat} (hrun : mmMap kmalloc addr len flags s = .ok (r, w, s')) :
    Upholds pg0 I s s' ∧ (r = 0 → ∀ a, roundDown addr pgSize ≤ a → a < roundUp ((addr + len) % addrSize) pgSize →
      s'.mm.Covers [] a flags) := by
  rcases mmMap_adds h.tidy rfl rfl hrun with ⟨-, ha, -, hf⟩ | ⟨hr, hk⟩
  · exact ⟨upholds_adds h ha (hf h.sorted), fun _ a ha1 ha2 => (ha.covers a flags).mpr (Or.inr ⟨⟨ha1, ha2⟩, rfl⟩)⟩
  · exact ⟨upholds_edits h (edits_kept h.tidy hk), fun hz => absurd hz hr⟩

theorem mmBrk_upholds (hf : s.mm.Unoccupied (roundDown addr pgSize) (roundUp ((addr + len) % addrSize) pgSize))
    (hr : mmBrk kmalloc addr len s = .ok (r, s')) : Upholds pg0 I s s' := by
  obtain ⟨ranges, s1, he, -, hadd⟩ := mmBrk_adds h.tidy rfl rfl hr
  have h1 := upholds_edits h he
  rcases hadd with ⟨-, ha, -⟩ | ⟨-, hk⟩
  · exact h1.trans (upholds_adds h1.guarded ha (he.unoccupied hf))
  · exact h1.trans (upholds_edits h1.guarded (edits_kept he.tidy hk))

theorem doPgfault_upholds {code : Nat} (hr : doPgfault code addr s = .ok (r, s')) : Upholds pg0 I s s' := by
  obtain ⟨A, hinv⟩ := h.inv
  obtain ⟨c, hc, hmm, hk, hm⟩ := doPgfault_spec h.tidy hinv h.dir hr
  have hke : Kept s { s with mm := { s.mm with mmapCache := c } } := ⟨⟨c, hc, rfl⟩, rfl, le_rfl⟩
  have hca := upholds_edits h (edits_kept h.tidy hke)
  obtain ⟨mm', mem', k'⟩ := s'
  dsimp only at hmm hk hm
  subst hmm hk
  refine hca.trans ?_
  rcases hm with rfl | ⟨v, hv, hh, hf⟩
  · exact Upholds.refl hca.guarded
  · refine upholds_grows hca.guarded (grows_faulted hinv hf) ?_
    rintro n rfl
    obtain ⟨-, -, -, hp⟩ := page_of_has h.tidy hv hh
    exact ⟨_, ⟨v, List.mem_append_left _ hv, hp, rfl⟩, permits_of_flags _⟩

end

/-! ## Copies -/

/-- The copy of an entry's flags gives what the entry gave. -/
theorem permits_copied {low : Nat} (h : Permits flags low) : Permits flags (pteP ||| (low &&& pteUser)) := by
  have hu : (pteP ||| (low &&& pteUser)) &&& pteU = low &&& pteU := by
    rw [Nat.and_or_distrib_right, Nat.and_assoc]
    exact Nat.zero_or _
  have hw : (pteP ||| (low &&& pteUser)) &&& pteW = low &&& pteW := by
    rw [Nat.and_or_distrib_right, Nat.and_assoc]
    exact Nat.zero_or _
  rw [Permits, hu, hw]
  exact h

theorem mem_layout {v : Nat} (h : v ∈ mm.mmapList) : (mm.lo v, mm.hi v, (mm.vmas v).vmFlags) ∈ mm.layout :=
  List.mem_map_of_mem h

/-- VMAs with the same ranges and flags cover the same. -/
theorem covers_of_layout {mm' : Mm} (h : mm'.layout = mm.layout) {a f : Nat} (hc : mm.Covers [] a f) : mm'.Covers [] a f := by
  obtain ⟨v, hv, ⟨hlo, hhi⟩, hf⟩ := hc
  rw [List.append_nil] at hv
  have hin := mem_layout hv
  rw [← h] at hin
  obtain ⟨w, hw, heq⟩ := List.mem_map.mp hin
  obtain ⟨h1, h2, h3⟩ : mm'.lo w = mm.lo v ∧ mm'.hi w = mm.hi v ∧ (mm'.vmas w).vmFlags = (mm.vmas v).vmFlags := by
    simpa using heq
  refine ⟨w, List.mem_append_left _ hw, ⟨?_, ?_⟩, h3.trans hf⟩
  · change mm'.lo w ≤ a
    rw [h1]
    exact hlo
  · change a < mm'.hi w
    rw [h2]
    exact hhi

end VmmAux

/-- A new address space is made, over a memory with the given one before: it is guarded, it has a directory of its own, and the
others map what they mapped. -/
structure Founds (pg0 : Nat → Page) (I : Set Nat) (mem : Memory) (kmallocs : Nat) (s : Vm) : Prop where
  guarded : s.Guarded pg0 I
  pgdirs : s.mem.pgdirs = s.mm.pgdir :: mem.pgdirs
  fresh : s.mm.pgdir ∉ mem.pgdirs
  others : ∀ f ∈ mem.pgdirs, ∀ n < userPages, s.mem.walk f n = mem.walk f n
  le : kmallocs ≤ s.kmallocs

theorem Founds.upholds {kmallocs : Nat} (h : Founds pg0 I mem kmallocs s) (hu : Upholds pg0 I s s') :
    Founds pg0 I mem kmallocs s' := by
  refine ⟨hu.guarded, ?_, ?_, ?_, h.le.trans hu.le⟩
  · rw [hu.pgdirs, h.pgdirs, hu.pgdir]
  · rw [hu.pgdir]
    exact h.fresh
  · intro f hf n hn
    have hne : f ≠ s.mm.pgdir := fun he => h.fresh (he ▸ hf)
    have hin : f ∈ s.mem.pgdirs := by
      rw [h.pgdirs]
      exact List.mem_cons_of_mem _ hf
    rw [hu.others f hin hne n hn, h.others f hf n hn]

namespace VmmAux

/-- `mm_create` and `setup_pgdir`. -/
theorem founds_setup {p : Nat} (id : Nat) (vmas : Nat → Vma) (kmallocs : Nat) (h : mem.Inv pg0 I A (fun _ => 0))
    (hr : setupPgdir mem = .ok (some p, mem')) :
    Founds pg0 I mem kmallocs ⟨{ mmCreate id vmas with pgdir := p }, mem', kmallocs + 1⟩ ∧
      (∀ i < userSlots, mem'.table p i = none) := by
  rcases setupPgdir_spec h with ⟨-, hs, -⟩ | ⟨-, hs, -⟩ | ⟨q, area, hs, hqI, hqA, hinv⟩
  · rw [hs] at hr
    cases hr
  · rw [hs] at hr
    cases hr
  · rw [hs] at hr
    cases hr
    refine ⟨⟨⟨⟨_, hinv⟩, tidy_mmCreate id vmas p _, sorted_mmCreate id vmas p, List.mem_cons_self, ?_⟩, rfl,
      fun hc => hqA (h.dirs p hc), fun f hf n hn => walk_withPgdir h hqA hf hn, Nat.le_succ _⟩,
      fun i hi => table_withPgdir h hi⟩
    intro n hn e he
    rw [walk_withPgdir_self h hn] at he
    cases he

/-- `copy_mm`. -/
theorem copyMm_founds {vmas : Nat → Vma} {oldmm : Mm} {kmallocs : Nat} {new : NewMm}
    (h : Vm.Guarded pg0 I ⟨oldmm, mem, kmallocs⟩) (hrun : copyMm kmalloc vmas oldmm mem kmallocs = .ok new)
    {mm' : Mm} (hmm : new.mm = some mm') : Founds pg0 I mem kmallocs ⟨mm', new.mem, new.kmallocs⟩ := by
  obtain ⟨A, hinv⟩ := h.inv
  unfold copyMm at hrun
  split at hrun
  · cases hrun
    cases hmm
  obtain ⟨⟨o, mem1⟩, hs, hrun⟩ := bind_eq_ok.mp hrun
  split at hrun
  · cases hrun
    cases hmm
  rename_i pgdir ho
  dsimp only at ho
  subst ho
  obtain ⟨hfo, hem⟩ := founds_setup kmallocs vmas kmallocs hinv (mapError_eq_ok.mp hs)
  obtain ⟨⟨r, s2⟩, hdup, hrun⟩ := bind_eq_ok.mp hrun
  dsimp only at hrun
  split at hrun
  · obtain ⟨m, -, hrun⟩ := bind_eq_ok.mp hrun
    cases hrun
    cases hmm
  rename_i hr
  obtain rfl : r = 0 := not_not.mp hr
  cases hrun
  cases hmm
  -- the parent is guarded in the memory with the new directory, too
  obtain ⟨A1, hinv1⟩ := hfo.guarded.inv
  have hdi : mem1.pgdirs = pgdir :: mem.pgdirs := hfo.pgdirs
  have hdf : oldmm.pgdir ∈ mem1.pgdirs := by
    rw [hdi]
    exact List.mem_cons_of_mem _ h.dir
  have hne : oldmm.pgdir ≠ pgdir := fun he => hfo.fresh (he ▸ h.dir)
  rcases dupMmap_spec kmalloc kmallocs (kmallocs + 1) vmas hinv1 hdf hfo.guarded.dir hne hem h.sorted.ordered
    (fun v hv => h.tidy.fits v (List.mem_append_left _ hv)) with ⟨-, hfa⟩ | ⟨s', hr', hle, hd⟩
  · exact absurd hdup (hfa s2)
  obtain rfl : s2 = s' := (Prod.mk.inj (Except.ok.inj (hdup.symm.trans hr'))).2
  obtain ⟨A2, hc⟩ := hd.copied
  have hguarded : s2.Guarded pg0 I := by
    refine ⟨⟨A2, hc.priv.inv⟩, hd.tidy, hd.sorted, hd.pgdir ▸ hc.priv.dir, ?_⟩
    intro n hn e he
    rw [hd.pgdir] at he
    have hin : ∃ v ∈ oldmm.mmapList, oldmm.Has (n * 4096) v := by
      by_contra hno
      rw [hc.absent n hn (Or.inl hno)] at he
      cases he
    cases hw : mem1.walk oldmm.pgdir n with
    | none =>
      rw [hc.absent n hn (Or.inr hw)] at he
      cases he
    | some e0 =>
      obtain ⟨q, hq, -⟩ := hc.copied n hn hin e0 hw
      obtain rfl : e = _ := Option.some.inj (he.symm.trans hq)
      obtain ⟨f, hcov, hp⟩ := h.guarded n hn e0 ((hfo.others oldmm.pgdir h.dir n hn).symm.trans hw)
      exact ⟨f, covers_of_layout hd.layout hcov, permits_copied hp⟩
  have hupholds := upholds_setBrk hguarded oldmm.brkStart oldmm.brk
  refine Founds.upholds ⟨hguarded, ?_, ?_, ?_, Nat.le_of_succ_le hle⟩ hupholds
  · rw [hc.pgdirs, hdi, hd.pgdir]
  · rw [hd.pgdir]
    exact hfo.fresh
  · intro f hf n hn
    have hf1 : f ∈ mem1.pgdirs := by
      rw [hdi]
      exact List.mem_cons_of_mem _ hf
    rw [hc.walk_eq hinv1 hf1 (fun he => hfo.fresh (he ▸ hf)) hn, hfo.others f hf n hn]

end VmmAux

end Ucore
