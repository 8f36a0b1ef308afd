import Ucore.Lemmas.VmaOps

/-!
# Runs on a VMA list

The VMA list of an address space from `mm_create` on, through any run of `mm_map`, `mm_unmap`, `find_vma` and `dup_mmap` in which
no assertion fires: it stays sorted, its ranges stay non-empty, page aligned and disjoint, `map_count` is its length, and
`find_vma` finds the one VMA that holds an address whatever the cache holds (`vma_runs_consistent`).
-/

namespace Ucore

open Checked Spans

/-- The address spaces that a run leads to; a call that an assertion stops leads nowhere. Between two calls other parts of the
kernel may use the memory and `kmalloc`. -/
inductive VmaReach (kmalloc : Nat → Bool) : Vm → Prop where
  | create (id : Nat) (vmas : Nat → Vma) (pgdir : Nat) (mem : Memory) (kmallocs : Nat) :
      VmaReach kmalloc { mm := { mmCreate id vmas with pgdir := pgdir }, mem := mem, kmallocs := kmallocs }
  | map {s s' : Vm} {r : Int} {w : Option Nat} (addr len flags : Nat) : VmaReach kmalloc s →
      mmMap kmalloc addr len flags s = .ok (r, w, s') → VmaReach kmalloc s'
  | unmap {s s' : Vm} {r : Int} (addr len : Nat) : VmaReach kmalloc s → mmUnmap kmalloc addr len s = .ok (r, s') →
      VmaReach kmalloc s'
  | find {s : Vm} (addr : Nat) : VmaReach kmalloc s → VmaReach kmalloc { s with mm := (findVma addr s.mm).2 }
  | dup {s s' : Vm} {r : Int} (id : Nat) (vmas : Nat → Vma) (pgdir : Nat) : VmaReach kmalloc s →
      dupMmap kmalloc s.mm { s with mm := { mmCreate id vmas with pgdir := pgdir } } = .ok (r, s') → VmaReach kmalloc s'
  | other {s : Vm} (mem : Memory) (kmallocs : Nat) : VmaReach kmalloc s → s.kmallocs ≤ kmallocs →
      VmaReach kmalloc { s with mem := mem, kmallocs := kmallocs }

namespace VmmAux

variable {kmalloc : Nat → Bool} {s : Vm} {mm : Mm} {fresh : Nat}

theorem tidy_mmCreate (id : Nat) (vmas : Nat → Vma) (pgdir fresh : Nat) :
    Mm.Tidy fresh [] { mmCreate id vmas with pgdir := pgdir } := by
  constructor
  all_goals simp [mmCreate]

theorem sorted_mmCreate (id : Nat) (vmas : Nat → Vma) (pgdir : Nat) : Mm.Sorted [] { mmCreate id vmas with pgdir := pgdir } :=
  ⟨⟨by simp [mmCreate], List.Pairwise.nil⟩, List.Pairwise.nil⟩

/-- The two invariants of the list, and its length. -/
structure Listed (s : Vm) : Prop where
  tidy : s.mm.Tidy s.kmallocs []
  sorted : s.mm.Sorted []
  count : s.mm.mapCount = s.mm.mmapList.length

theorem listed_of_edits {s' : Vm} {ranges : List (Nat × Nat)} (h : Listed s) (he : Edits [] [] ranges s s') : Listed s' := by
  have hc := he.count
  have hl := h.count
  exact ⟨he.tidy, he.sorted h.sorted, by omega⟩

/-- Every call keeps the invariants. -/
theorem listed_of_vmaReach (h : VmaReach kmalloc s) : Listed s := by
  induction h with
  | create id vmas pgdir mem kmallocs => exact ⟨tidy_mmCreate id vmas pgdir kmallocs, sorted_mmCreate id vmas pgdir, rfl⟩
  | map addr len flags _ hr ih =>
    rcases mmMap_adds ih.tidy rfl rfl hr with ⟨-, ha, -, hf⟩ | ⟨-, hk⟩
    · exact ⟨ha.tidy, ha.sorted ih.sorted (hf ih.sorted), ha.count ih.count⟩
    · exact listed_of_edits ih (edits_kept ih.tidy hk)
  | unmap addr len _ hr ih =>
    obtain ⟨ranges, he⟩ := edits_of_mmUnmap ih.tidy hr
    exact listed_of_edits ih he
  | find addr _ ih => exact listed_of_edits ih (edits_kept ih.tidy (findVma_tidy ih.tidy addr).1)
  | dup id vmas pgdir _ hr ih =>
    obtain ⟨h1, h2, -, h3⟩ := dupLoop_tidy kmalloc _ _ _ _ _ (tidy_mmCreate id vmas pgdir _) (sorted_mmCreate id vmas pgdir)
      (fun v hv => ih.tidy.fits v (List.mem_append_left _ (List.mem_reverse.mp hv))) hr
    exact ⟨h1, h2, h3 rfl⟩
  | other mem kmallocs _ hle ih => exact ⟨tidy_mono ih.tidy hle, ih.sorted, ih.count⟩

/-- `find_vma` returns the VMA that holds the address. -/
theorem findVma_eq_some (h : mm.Inv fresh) (a v : Nat) : (findVma a mm).1 = some v ↔ v ∈ mm.mmapList ∧ mm.Has a v := by
  obtain ⟨c, -, hf⟩ := findVma_spec h.searchable a
  rw [hf]
  exact ⟨mem_of_find?, fun hv => find?_eq_some h hv.1 hv.2⟩

end VmmAux

open VmmAux in
/-- In every run of `mm_map`, `mm_unmap`, `find_vma` and `dup_mmap` from `mm_create` on in which no assertion fires, the VMA list
is sorted by `vm_start`, its ranges are not empty, page aligned and pairwise disjoint, `map_count` is its length, the VMAs belong
to the address space, and the cache is `NULL` or in the list. With any such cache `find_vma` returns the VMA that holds the
address, of which there is one at most, or `NULL` where there is none. -/
theorem vma_runs_consistent {kmalloc : Nat → Bool} {s : Vm} (h : VmaReach kmalloc s) :
    s.mm.mmapList.Pairwise (fun u v => (s.mm.vmas u).vmStart < (s.mm.vmas v).vmStart) ∧
    (∀ v ∈ s.mm.mmapList, (s.mm.vmas v).vmStart < (s.mm.vmas v).vmEnd ∧
      (s.mm.vmas v).vmStart % pgSize = 0 ∧ (s.mm.vmas v).vmEnd % pgSize = 0) ∧
    s.mm.mmapList.Pairwise (fun u v => ∀ a, ¬(s.mm.Has a u ∧ s.mm.Has a v)) ∧
    s.mm.mapCount = s.mm.mmapList.length ∧
    (∀ v ∈ s.mm.mmapList, (s.mm.vmas v).vmMm = s.mm.id) ∧
    (∀ v, s.mm.mmapCache = some v → v ∈ s.mm.mmapList) ∧
    ∀ c : Option Nat, (∀ v, c = some v → v ∈ s.mm.mmapList) → ∀ a,
      (∀ v, (findVma a { s.mm with mmapCache := c }).1 = some v ↔ v ∈ s.mm.mmapList ∧ s.mm.Has a v) ∧
      ∀ u ∈ s.mm.mmapList, ∀ v ∈ s.mm.mmapList, s.mm.Has a u → s.mm.Has a v → u = v := by
  obtain ⟨ht, hs, hcount⟩ := listed_of_vmaReach h
  have hinv := inv_of_tidy ht hs
  refine ⟨hs.ordered.increasing, ?_, ?_, hcount, ht.owner, ht.cache, ?_⟩
  · exact fun v hv => ⟨hs.ordered.nonempty v hv, hinv.aligned v hv⟩
  · refine hs.ordered.apart.imp ?_
    rintro u v huv a ⟨⟨-, hu⟩, hv, -⟩
    exact absurd (Nat.lt_of_lt_of_le hu (Nat.le_trans huv hv)) (Nat.lt_irrefl a)
  · intro c hc a
    refine ⟨fun v => findVma_eq_some (inv_setCache hinv hc) a v, ?_⟩
    intro u hu v hv hau hav
    exact hs.ordered.eq_of_within hu hv hau hav

namespace VmmAux

/-- A new address space, over a memory whose page directory is empty. -/
def newSpace : Vm where
  mm := { mmCreate 9 (fun _ => ⟨0, 0, 0, 0⟩) with pgdir := 5 }
  mem := ⟨defaultInit (fun _ => ⟨0, ⟨false, false⟩, 0⟩), fun _ _ => 0, [5], 0, 8, false⟩
  kmallocs := 0

/-- Three pages of it are mapped. -/
def mappedSpace : Vm := ((mmMap (fun _ => true) 0x200000 0x3000 3 newSpace).toOption.getD (0, none, newSpace)).2.2

/-- The page in the middle is unmapped again. -/
def splitSpace : Vm := ((mmUnmap (fun _ => true) 0x201000 0x1000 mappedSpace).toOption.getD (0, mappedSpace)).2

theorem splitSpace_reach : VmaReach (fun _ => true) splitSpace := by
  have hn : VmaReach (fun _ => true) newSpace := .create 9 (fun _ => ⟨0, 0, 0, 0⟩) 5 newSpace.mem 0
  have hm : VmaReach (fun _ => true) mappedSpace := .map 0x200000 0x3000 3 hn rfl
  exact .unmap 0x201000 0x1000 hm rfl

end VmmAux

/-- A page in the middle of a VMA is unmapped: `kmalloc` gave the VMA the name 0, and the part before the page the name 1. -/
theorem vma_runs_consistent_split : VmmAux.splitSpace.mm.mmapList = [1, 0] ∧
    (findVma 0x202000 VmmAux.splitSpace.mm).1 = some 0 ∧ (findVma 0x201000 VmmAux.splitSpace.mm).1 = none ∧
    VmmAux.splitSpace.mm.mapCount = VmmAux.splitSpace.mm.mmapList.length :=
  ⟨rfl, rfl, rfl, (vma_runs_consistent VmmAux.splitSpace_reach).2.2.2.1⟩

end Ucore
