import Ucore.Lemmas.Fork
import Ucore.Theorems.AddressSpace

/-!
# Fork

Where there are enough free pages, `dup_mmap` gives the new address space the same VMAs and the same pages with the same
permissions, each page with a frame of its own that has the same words (`fork_copies`).
-/

namespace Ucore

open Checked Spans PageAux VmmAux

/-- `dup_mmap` on a new address space whose directory is empty, where `kmalloc` serves the VMAs and there is a free page for each
page that is present and for each page table: it returns 0, and the new VMAs have the ranges and flags of the old. A page of the
VMAs is present in the copy exactly if it was present, with the same permissions, and then its frame has the words of the old
frame and is mapped there and nowhere else; no other page is mapped. The other address spaces, the old one among them, map what
they mapped, and every page that was handed out has the words it had. -/
theorem fork_copies (kmalloc : Nat → Bool) (fromMm : Mm) (id pgdir kmallocs : Nat) (vmas : Nat → Vma)
    {pages₀ : Nat → Page} {I A₀ : Set Nat} {mem : Memory} (hmem : mem.Inv pages₀ I A₀ (fun _ => 0))
    (hordered : Ordered fromMm.lo fromMm.hi fromMm.mmapList)
    (hranged : ∀ v ∈ fromMm.mmapList, (fromMm.lo v % pgSize = 0 ∧ fromMm.hi v % pgSize = 0) ∧
      UserAccess (fromMm.lo v) (fromMm.hi v))
    (hfrom : fromMm.pgdir ∈ mem.pgdirs) (hpgdir : pgdir ∈ mem.pgdirs) (hne : fromMm.pgdir ≠ pgdir)
    (hempty : ∀ i < userSlots, mem.table pgdir i = none)
    (hserved : ∀ k, kmallocs ≤ k → k < kmallocs + fromMm.mmapList.length → kmalloc k = true)
    (hroom : copyNeeds fromMm mem ≤ mem.area.nrFree) :
    ∃ s', dupMmap kmalloc fromMm ⟨{ mmCreate id vmas with pgdir := pgdir }, mem, kmallocs⟩ = .ok (0, s') ∧
      s'.mm.layout = fromMm.layout ∧ s'.mm.pgdir = pgdir ∧
      (∀ n < userPages, (∃ v ∈ fromMm.mmapList, fromMm.Has (n * pgSize) v) →
        (s'.mem.walk pgdir n = none ↔ mem.walk fromMm.pgdir n = none) ∧
        ∀ frame flags, mem.walk fromMm.pgdir n = some (frame, flags) →
          ∃ frame' flags', s'.mem.walk pgdir n = some (frame', flags') ∧
            flags' &&& pteU = flags &&& pteU ∧ flags' &&& pteW = flags &&& pteW ∧
            s'.mem.frames frame' = mem.frames frame ∧ frame' ∉ A₀ ∧
            ∀ d ∈ s'.mem.pgdirs, ∀ m < userPages, ∀ e, s'.mem.walk d m = some e → e.1 = frame' → d = pgdir ∧ m = n) ∧
      (∀ n < userPages, (¬∃ v ∈ fromMm.mmapList, fromMm.Has (n * pgSize) v) → s'.mem.walk pgdir n = none) ∧
      (∀ d ∈ mem.pgdirs, d ≠ pgdir → ∀ n < userPages, s'.mem.walk d n = mem.walk d n) ∧
      ∀ p ∈ A₀, p ≠ pgdir → s'.mem.frames p = mem.frames p := by
  rcases dupMmap_spec kmalloc id kmallocs vmas hmem hfrom hpgdir hne hempty hordered hranged with
    ⟨⟨k, hk₁, hk₂, hno⟩ | hshort, -⟩ | ⟨s', hr, -, hdup⟩
  · rw [hserved k hk₁ hk₂] at hno
    cases hno
  · rw [Short, ← nrFree_eq hmem.area] at hshort
    exact absurd hroom (not_le.mpr hshort)
  obtain ⟨A', hc⟩ := hdup.copied
  have hdt := hc.priv.dir
  refine ⟨s', hr, hdup.layout, hdup.pgdir, ?_, ?_, fun d hd hd' n hn => hc.walk_eq hmem hd hd' hn, hc.frame⟩
  · intro n hn hin
    refine ⟨⟨?_, fun hnone => hc.absent n hn (Or.inr hnone)⟩, ?_⟩
    · intro hnone
      cases hw : mem.walk fromMm.pgdir n with
      | none => rfl
      | some e =>
        obtain ⟨q, hq, -⟩ := hc.copied n hn hin e hw
        rw [hnone] at hq
        cases hq
    · intro frame flags hw
      obtain ⟨q, hq, hframe⟩ := hc.copied n hn hin (frame, flags) hw
      obtain ⟨hqnew, hqtab⟩ := hc.priv.page_new n hn _ hq
      obtain ⟨hqA, hqd⟩ := hc.priv.inv.mapped pgdir hdt n hn _ hq
      refine ⟨q, _, hq, ?_, ?_, hframe, fun hqA₀ => hqnew ⟨hqA₀, fun he => hqd (he ▸ hdt)⟩, ?_⟩
      · rw [Nat.and_or_distrib_right, Nat.and_assoc]
        exact Nat.zero_or _
      · rw [Nat.and_or_distrib_right, Nat.and_assoc]
        exact Nat.zero_or _
      · intro d hd m hm e he heq
        by_cases hdd : d = pgdir
        · subst hdd
          exact ⟨rfl, hc.priv.page_once n hn _ hq m hm e he heq⟩
        · exact absurd (heq ▸ (hc.priv.others d hd hdd).2 m hm e he) hqnew
  · exact fun n hn hno => hc.absent n hn (Or.inl hno)

namespace VmmAux

/-- A machine with the eight pages 2 to 9. -/
def forkMachine : Machine := PageAux.machineOf 8 (by decide) (by decide)

/-- The address space of the parent: one page that can be read and written, in the directory at page 2. -/
def parentMm : Mm :=
  { mmCreate 9 (fun _ => ⟨9, 0x200000, 0x201000, 3⟩) with mmapList := [0], mapCount := 1, pgdir := 2 }

/-- The page of the parent is mapped, to page 3, and the directory of the child is set up, at page 5. -/
theorem forkMachine_run : ∃ mem, MemReach forkMachine mem ∧ mem.pgdirs = [5, 2] ∧ mem.area.nrFree = 4 ∧
    (∀ i < userSlots, mem.table 5 i = none) ∧ mem.walk 2 512 = some (3, pteP ||| pteU ||| pteW) := by
  have h0 : MemReach forkMachine _ := .boot rfl
  have h1 := MemReach.step .setupPgdir h0 trivial rfl
  have h2 := MemReach.step (.pgdirAllocPage 2 userBase (pteU ||| pteW)) h1 ⟨List.mem_cons_self, by decide, by decide⟩ rfl
  have h3 := MemReach.step .setupPgdir h2 trivial rfl
  exact ⟨_, h3, rfl, rfl, by decide +kernel, rfl⟩

/-- Only the page of its VMA can be a page that the parent has to copy. -/
theorem copyNeeds_parentMm (mem : Memory) : copyNeeds parentMm mem ≤ 2 := by
  have hs : presentPages parentMm mem ⊆ {512} := by
    intro n hn
    obtain ⟨-, ⟨v, -, hlo, hhi⟩, -⟩ := Finset.mem_filter.mp hn
    change 0x200000 ≤ n * 4096 at hlo
    change n * 4096 < 0x201000 at hhi
    rw [Finset.mem_singleton]
    omega
  have hc := Finset.card_le_card hs
  have him := Finset.card_image_le (s := presentPages parentMm mem) (f := (· / 1024))
  rw [Finset.card_singleton] at hc
  unfold copyNeeds
  omega

end VmmAux

/-- A parent with one page that is present: the child gets a frame of its own for it, which it may write. -/
theorem fork_copies_page : ∃ mem s', dupMmap (fun _ => true) VmmAux.parentMm
      ⟨{ mmCreate 10 (fun _ => ⟨0, 0, 0, 0⟩) with pgdir := 5 }, mem, 1⟩ = .ok (0, s') ∧
    s'.mm.layout = [(0x200000, 0x201000, 3)] ∧ mem.walk 2 512 = some (3, pteP ||| pteU ||| pteW) ∧
    ∃ frame' flags', s'.mem.walk 5 512 = some (frame', flags') ∧ flags' &&& pteW = pteW ∧
      s'.mem.frames frame' = mem.frames 3 := by
  obtain ⟨mem, hreach, hdirs, hfree, hempty, hwalk⟩ := VmmAux.forkMachine_run
  obtain ⟨A, hinv⟩ := inv_of_memReach hreach
  obtain ⟨s', hr, hlayout, -, hpages, -⟩ := fork_copies (fun _ => true) VmmAux.parentMm 10 5 1 (fun _ => ⟨0, 0, 0, 0⟩)
    hinv ⟨by decide, by simp [VmmAux.parentMm]⟩ (by decide)
    (by rw [hdirs]; decide) (by rw [hdirs]; decide) (by decide) hempty (fun _ _ _ => rfl)
    ((VmmAux.copyNeeds_parentMm mem).trans (by omega))
  obtain ⟨frame', flags', hw, -, hW, hwords, -⟩ := (hpages 512 (by decide) (by decide)).2 3 _ hwalk
  exact ⟨mem, s', hr, hlayout, hwalk, frame', flags', hw, hW, hwords⟩

end Ucore
