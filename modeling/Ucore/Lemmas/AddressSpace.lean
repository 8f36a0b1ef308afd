import Ucore.Lemmas.VmaOps
import Ucore.Lemmas.Exit

/-!
# What the calls do to an address space

The calls that change an address space once it is set up: `mm_map`, `mm_unmap`, `do_pgfault` and `do_brk`. For each of them, what
becomes of the VMAs and of the page tables together: the VMAs cover what they covered but for what was unmapped (`Reshapes`), and a
page fault maps a page of a VMA with the permissions that the VMA gives (`Faulted`). No lemma here asks that the VMAs are sorted:
`do_brk` may let the heap grow over another VMA.
-/

namespace Ucore

open Checked Spans PageAux

variable {ranges ranges' : List (Nat × Nat)} {s s' s'' : Vm}

/-- What a part of a run does to the VMAs, where `ranges` are the ranges that it unmapped. -/
structure Reshapes (ranges : List (Nat × Nat)) (s s' : Vm) : Prop where
  tidy : s'.mm.Tidy s'.kmallocs []
  pgdir : s'.mm.pgdir = s.mm.pgdir
  mem : unmapRanges s.mm.pgdir ranges s.mem = .ok s'.mem
  lost : ∀ a f, s.mm.Covers [] a f → s'.mm.Covers [] a f ∨ ∃ r ∈ ranges, r.1 ≤ a ∧ a < r.2

theorem Reshapes.trans (h : Reshapes ranges s s') (h' : Reshapes ranges' s' s'') : Reshapes (ranges ++ ranges') s s'' := by
  refine ⟨h'.tidy, h'.pgdir.trans h.pgdir, ?_, ?_⟩
  · have hm := h.mem
    have hm' := h'.mem
    unfold unmapRanges at hm hm' ⊢
    rw [List.foldlM_append, hm, bind_ok, ← h.pgdir, hm']
  · intro a f ha
    rcases h.lost a f ha with ha | ⟨r, hr, har⟩
    · rcases h'.lost a f ha with ha | ⟨r, hr, har⟩
      · exact Or.inl ha
      · exact Or.inr ⟨r, List.mem_append_right _ hr, har⟩
    · exact Or.inr ⟨r, List.mem_append_left _ hr, har⟩

theorem Edits.reshapes (h : Edits [] [] ranges s s') : Reshapes ranges s s' :=
  ⟨h.tidy, h.fields.2.1, h.mem, h.lost⟩

theorem Adds.reshapes {start stop flags : Nat} (h : Adds start stop flags s s') : Reshapes [] s s' :=
  ⟨h.tidy, h.fields.2.1, congrArg Except.ok h.mem.symm, fun a f ha => Or.inl ((h.covers a f).mpr (Or.inl ha))⟩

namespace VmmAux

variable {kmalloc : Nat → Bool} {pg0 : Nat → Page} {I A : Set Nat} {mm mm' : Mm} {mem mem' : Memory} {s s' : Vm}
  {d v start stop addr len perm code newbrk brk brkStore la a : Nat} {r : Int} {ranges : List (Nat × Nat)} {vma : Vma}
  {write b : Bool}

/-! ## `do_brk` -/

/-- The loop of `user_mem_check` changes nothing but the cache. -/
theorem userMemLoop_edits (stop : Nat) (write : Bool) :
    ∀ (rounds start : Nat) (s : Vm) (b : Bool) (mm' : Mm), s.mm.Tidy s.kmallocs [] →
      userMemLoop stop write rounds start s.mm = .ok (b, mm') → Edits [] [] [] s { s with mm := mm' } := by
  intro rounds
  induction rounds with
  | zero =>
    intro start s b mm' _ hr
    cases hr
  | succ rounds ih =>
    intro start s b mm' h hr
    rw [userMemLoop] at hr
    split at hr
    · have hc := edits_kept h (findVma_tidy h start).1
      dsimp only at hr
      split at hr
      · cases hr
        exact hc
      · split at hr
        · cases hr
          exact hc
        · split at hr
          · exact hc.trans (ih _ { s with mm := (findVma start s.mm).2 } b mm' hc.tidy hr)
          · cases hr
            exact hc
    · cases hr
      exact Edits.refl h

theorem userMemCheck_edits (h : s.mm.Tidy s.kmallocs []) (hr : userMemCheck addr len write s.mm = .ok (b, mm')) :
    Edits [] [] [] s { s with mm := mm' } := by
  unfold userMemCheck at hr
  dsimp only at hr
  split at hr
  · cases hr
    exact Edits.refl h
  · exact userMemLoop_edits _ write _ _ s b mm' h hr

theorem moveBrk_reshapes (h : s.mm.Tidy s.kmallocs []) (hr : moveBrk kmalloc newbrk s = .ok (b, s')) :
    ∃ ranges, Reshapes ranges s s' := by
  unfold moveBrk at hr
  dsimp only at hr
  split at hr
  · obtain ⟨⟨r1, s1⟩, hu, hr⟩ := bind_eq_ok.mp hr
    cases hr
    obtain ⟨ranges, he⟩ := edits_of_mmUnmap h hu
    exact ⟨ranges, he.reshapes⟩
  · have hc := edits_kept h (findVma_tidy h s.mm.brk).1
    split at hr
    · cases hr
      exact ⟨[], hc.reshapes⟩
    · obtain ⟨⟨r1, s1⟩, hb, hr⟩ := bind_eq_ok.mp hr
      cases hr
      obtain ⟨ranges, s2, he, -, ha⟩ := mmBrk_adds hc.tidy rfl rfl hb
      rcases ha with ⟨-, ha, -⟩ | ⟨-, hk⟩
      · exact ⟨_, hc.reshapes.trans (he.reshapes.trans ha.reshapes)⟩
      · exact ⟨_, hc.reshapes.trans (he.trans (edits_kept he.tidy hk)).reshapes⟩

theorem tidy_setBrk {fresh b : Nat} (h : mm.Tidy fresh []) : Mm.Tidy fresh [] { mm with brk := b } := { h with }

theorem covers_setBrk (mm : Mm) (b a f : Nat) : Mm.Covers { mm with brk := b } [] a f ↔ mm.Covers [] a f := Iff.rfl

theorem setBrk_reshapes (h : s.mm.Tidy s.kmallocs []) (hrun : setBrk kmalloc brk s = .ok s') :
    ∃ ranges, Reshapes ranges s s' := by
  unfold setBrk at hrun
  split at hrun
  · cases hrun
    exact ⟨[], (Edits.refl h).reshapes⟩
  obtain ⟨-, hrun⟩ := ensure_bind_eq_ok.mp hrun
  split at hrun
  · cases hrun
    exact ⟨[], (Edits.refl h).reshapes⟩
  obtain ⟨⟨b, s1⟩, hm, hrun⟩ := bind_eq_ok.mp hrun
  obtain ⟨ranges, hr⟩ := moveBrk_reshapes h hm
  split at hrun
  · cases hrun
    refine ⟨ranges, tidy_setBrk hr.tidy, hr.pgdir, hr.mem, ?_⟩
    intro a f ha
    rw [covers_setBrk]
    exact hr.lost a f ha
  · cases hrun
    exact ⟨ranges, hr⟩

/-- `do_brk`. -/
theorem doBrk_reshapes (h : s.mm.Tidy s.kmallocs []) (hrun : doBrk kmalloc brkStore brk s = .ok (r, s')) :
    ∃ ranges, Reshapes ranges s s' := by
  unfold doBrk at hrun
  split at hrun
  · cases hrun
    exact ⟨[], (Edits.refl h).reshapes⟩
  obtain ⟨⟨b, mm1⟩, hc, hrun⟩ := bind_eq_ok.mp hrun
  have hre := userMemCheck_edits h hc
  split at hrun
  · obtain ⟨s2, hs, hrun⟩ := bind_eq_ok.mp hrun
    obtain ⟨⟨b', mm3⟩, hc', hrun⟩ := bind_eq_ok.mp hrun
    cases hrun
    obtain ⟨ranges, hr⟩ := setBrk_reshapes hre.tidy hs
    have hw := userMemCheck_edits hr.tidy hc'
    exact ⟨_, hre.reshapes.trans (hr.trans hw.reshapes)⟩
  · cases hrun
    exact ⟨[], hre.reshapes⟩

/-! ## Page faults -/

/-- What `do_pgfault` does to the memory when it maps the linear page `n`: a table may be made for it, and a page may be mapped
there, in an entry that was free. -/
def Faulted (pg0 : Nat → Page) (I : Set Nat) (d n perm : Nat) (A : Set Nat) (mem mem' : Memory) : Prop :=
  ∃ A₁ mem₁, (mem₁ = mem ∧ A₁ = A ∨ ∃ t, Tabled pg0 I d (n / 1024) t A mem A₁ mem₁) ∧
    (mem' = mem₁ ∨ (∃ area, mem' = { mem₁ with area := area } ∧ Memory.Inv pg0 I A₁ (fun _ => 0) mem') ∨
      ∃ p A₂, p ∉ A₁ ∧ mem₁.walk d n = none ∧ Inserted pg0 I d n (p, pteP ||| perm) A₁ mem₁ A₂ mem')

theorem mapFault_spec (hinv : s.mem.Inv pg0 I A (fun _ => 0)) (hd : s.mm.pgdir ∈ s.mem.pgdirs) (hla : la < kernBase)
    (hpe : perm < 4096) (hr : mapFault la perm s = .ok (r, s')) :
    s'.mm = s.mm ∧ s'.kmallocs = s.kmallocs ∧ Faulted pg0 I s.mm.pgdir (la / 4096) perm A s.mem s'.mem := by
  unfold mapFault at hr
  rcases getPte_true hinv hd hla with ⟨-, hg, -⟩ | ⟨-, hg, -⟩ | ⟨t, mem1, A1, hg, ht⟩
  · rw [hg] at hr
    cases hr
  · rw [hg, mapError_ok] at hr
    cases hr
    exact ⟨rfl, rfl, A, s.mem, Or.inl ⟨rfl, rfl⟩, Or.inl rfl⟩
  · rw [hg, mapError_ok, bind_ok] at hr
    dsimp only at hr
    have hm : ∃ t, Tabled pg0 I s.mm.pgdir (la / 4096 / 1024) t A s.mem A1 mem1 := ⟨t, ht⟩
    split at hr
    · rename_i hz
      have hf : mem1.walk s.mm.pgdir (la / 4096) = none := by
        have hl : mem1.frames t (la / 4096 % 1024) = 0 := hz
        rw [Memory.walk, ht.table, Option.bind_some, hl, decode_zero]
      obtain ⟨⟨o, mem2⟩, ha, hr⟩ := bind_eq_ok.mp hr
      cases hr
      refine ⟨rfl, rfl, A1, mem1, Or.inr hm, Or.inr ?_⟩
      rcases pgdirAllocPage_fresh ht.inv (ht.pgdirs ▸ hd) hla hpe with
        ⟨-, hp, -⟩ | ⟨area, -, hp, hi, -⟩ | ⟨p, m, A2, hp, ⟨⟨-, hpA⟩, -⟩, hi, -⟩
      · rw [hp] at ha
        cases ha
      · rw [hp] at ha
        cases ha
        exact Or.inl ⟨area, rfl, hi⟩
      · rw [hp] at ha
        cases ha
        exact Or.inr ⟨p, A2, hpA, hf, hi⟩
    · split at hr
      · cases hr
      · cases hr
        exact ⟨rfl, rfl, A1, mem1, Or.inr hm, Or.inl rfl⟩

theorem faultPerm_eq (h : faultPerm vma code = some perm) :
    perm = if vma.vmFlags &&& vmWrite ≠ 0 then pteU ||| pteW else pteU := by
  unfold faultPerm at h
  dsimp only at h
  split at h
  all_goals
    split at h
    · exact (Option.some.inj h).symm
    · cases h

/-- The page of an address that a VMA holds. -/
theorem page_of_has (h : mm.Tidy d []) (hv : v ∈ mm.mmapList) (ha : mm.Has a v) :
    roundDown a pgSize < kernBase ∧ roundDown a pgSize / 4096 = a / 4096 ∧ a / 4096 < userPages ∧
      mm.Has (a / 4096 * 4096) v := by
  have hm : v ∈ mm.mmapList ++ [] := List.mem_append_left _ hv
  obtain ⟨⟨hal, -⟩, -, -, hu⟩ := h.fits v hm
  obtain ⟨hlo, hhi⟩ : mm.lo v ≤ a ∧ a < mm.hi v := ha
  unfold userTop at hu
  unfold pgSize at hal
  have hr : roundDown a pgSize = a / 4096 * 4096 := by
    unfold roundDown pgSize
    omega
  have hle : mm.lo v ≤ a / 4096 * 4096 := by omega
  refine ⟨?_, ?_, ?_, hle, ?_⟩
  · unfold kernBase
    omega
  · omega
  · unfold userPages userSlots
    omega
  · change a / 4096 * 4096 < mm.hi v
    omega

theorem faultPerm_lt (h : faultPerm vma code = some perm) : perm < 4096 := by
  rw [faultPerm_eq h]
  split
  · decide
  · decide

section

variable (h : s.mm.Tidy s.kmallocs [])
include h

/-- `do_pgfault` before it looks at the page tables: refused, or a VMA holds the address and allows the access. -/
theorem doPgfault_cases (code addr : Nat) : ∃ c : Option Nat, (∀ v, c = some v → v ∈ s.mm.mmapList) ∧
      (doPgfault code addr s = .ok (-eInval, { s with mm := { s.mm with mmapCache := c } }) ∨
        ∃ v ∈ s.mm.mmapList, s.mm.Has addr v ∧ ∃ perm, faultPerm (s.mm.vmas v) code = some perm ∧
          doPgfault code addr s = mapFault (roundDown addr pgSize) perm { s with mm := { s.mm with mmapCache := c } }) := by
  unfold doPgfault
  dsimp only
  obtain ⟨hk, hf, -⟩ := findVma_tidy h addr
  obtain ⟨c, hc, hmm⟩ := hk.mm
  dsimp only at hmm
  rw [hmm]
  refine ⟨c, hc, ?_⟩
  split
  · exact Or.inl rfl
  rename_i v hv
  obtain ⟨hvl, hh⟩ := hf v (Option.filter_eq_some_iff.mp hv).1
  split
  · exact Or.inl rfl
  rename_i perm hp
  exact Or.inr ⟨v, hvl, hh, perm, hp, rfl⟩

/-- `do_pgfault`: refused, or the page of the address is mapped as the VMA that holds it allows. -/
theorem doPgfault_spec (hinv : s.mem.Inv pg0 I A (fun _ => 0))
    (hd : s.mm.pgdir ∈ s.mem.pgdirs) (hr : doPgfault code addr s = .ok (r, s')) :
    ∃ c : Option Nat, (∀ v, c = some v → v ∈ s.mm.mmapList) ∧ s'.mm = { s.mm with mmapCache := c } ∧ s'.kmallocs = s.kmallocs ∧
      (s'.mem = s.mem ∨ ∃ v ∈ s.mm.mmapList, s.mm.Has addr v ∧ Faulted pg0 I s.mm.pgdir (addr / 4096)
        (if (s.mm.vmas v).vmFlags &&& vmWrite ≠ 0 then pteU ||| pteW else pteU) A s.mem s'.mem) := by
  obtain ⟨c, hc, hno | ⟨v, hv, hh, perm, hp, hm⟩⟩ := doPgfault_cases h code addr
  · rw [hno] at hr
    cases hr
    exact ⟨c, hc, rfl, rfl, Or.inl rfl⟩
  · rw [hm] at hr
    obtain ⟨hla, hpa, -, -⟩ := page_of_has h hv hh
    obtain ⟨h1, h2, hf⟩ := mapFault_spec (s := { s with mm := { s.mm with mmapCache := c } }) hinv hd hla (faultPerm_lt hp) hr
    rw [hpa] at hf
    exact ⟨c, hc, h1, h2, Or.inr ⟨v, hv, hh, faultPerm_eq hp ▸ hf⟩⟩

end

end VmmAux

end Ucore
