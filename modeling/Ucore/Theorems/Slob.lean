import Mathlib.Algebra.BigOperators.Ring.List
import Mathlib.Algebra.Ring.Nat
import Ucore.Lemmas.SlobHeap

/-!
# Runs of the kernel heap

From the arena alone, `kmalloc` and `kfree` may be called in any order, the page allocator may answer with any new pages, and the
callers may write to what they hold. The invariant of the heap holds after every such run (`inv_of_slobReach`), so the free list is
one cycle in address order in which no two blocks touch, apart from everything that is held, and no unit is lost
(`slob_runs_consistent`).
-/

namespace Ucore

open Checked Rings Function

/-- What anyone but the heap may write: the inside of a block that a caller holds, and what is neither in a page of the heap nor
the arena. -/
def Held.Writable (h : Held) (arena a : Nat) : Prop :=
  (∃ x ∈ h.live, x.addr + slobUnit ≤ a ∧ a < x.addr + slobUnit * x.units) ∨
    ((∀ p ∈ h.pages, a < p ∨ p + pgSize ≤ a) ∧ (a < arena ∨ arena + slobUnit ≤ a))

/-- The heap after a run of calls, and what its callers hold. -/
inductive SlobReach (arena : Nat) : Slob → Held → Prop where
  | start {mem : Nat → Nat} : arena ≠ 0 → arena + slobUnit ≤ addrSize → mem arena = 1 → mem (arena + 4) = arena →
      SlobReach arena ⟨mem, arena, 0⟩ ⟨[], [], []⟩
  | malloc {s s' : Slob} {h : Held} (size : Nat) (grows : List Nat) (big : Option Nat) (ptr : Nat) (got : List Nat) :
      SlobReach arena s h → 1 ≤ size → h.Answers arena size grows big → kmalloc size grows big s = .ok (ptr, got, s') →
      SlobReach arena s' (h.malloc size ptr got s')
  | free {s s' : Slob} {h : Held} {back : Option (Nat × Nat)} (x : SlobBlock) : SlobReach arena s h → x ∈ h.live →
      kfree (x.addr + slobUnit) s = .ok (back, s') → SlobReach arena s' { h with live := h.live.erase x }
  | freeBig {s s' : Slob} {h : Held} {back : Option (Nat × Nat)} (d : BigBlock) : SlobReach arena s h → d ∈ h.bigs →
      kfree d.pages s = .ok (back, s') → SlobReach arena s' { h with bigs := h.bigs.erase d }
  | write {s : Slob} {h : Held} (a v : Nat) : SlobReach arena s h → h.Writable arena a → SlobReach arena (s.store a v) h

namespace SlobAux

open Slob

variable {s s' : Slob} {arena a v : Nat} {B : Finset Nat} {h : Held} {grows : List Nat} {big : Option Nat}

/-- The arena alone. -/
theorem inv_start {mem : Nat → Nat} (hne : arena ≠ 0) (hlt : arena + slobUnit ≤ addrSize) (ho : mem arena = 1)
    (hs : mem (arena + 4) = arena) : Inv ⟨mem, arena, 0⟩ arena ⟨[], [], []⟩ {arena} := by
  have hb : (Slob.mk mem arena 0).bytes arena = slobUnit := by
    show slobUnit * mem arena = slobUnit
    rw [ho]
    rfl
  have hn : (Slob.mk mem arena 0).next arena = arena := hs
  have hr : Rings.region (Slob.mk mem arena 0).bytes {arena} = Set.Ico arena (arena + slobUnit) := by
    ext a
    simp [Rings.region, hb]
  have hri : Ring {arena} (Slob.mk mem arena 0).next := by
    intro x hx
    rw [Finset.mem_singleton.mp hx, hn]
    exact ⟨Finset.mem_singleton_self _, Or.inr ⟨by simp, by simp⟩⟩
  have hl : FreeRing (Slob.mk mem arena 0).next (Slob.mk mem arena 0).bytes {arena} := by
    refine ⟨hri, ?_, ?_⟩
    · intro x hx
      rw [Finset.mem_singleton.mp hx, hb]
      decide
    · intro x hx y hy hxy
      rw [Finset.mem_singleton.mp hx, Finset.mem_singleton.mp hy] at hxy
      exact absurd hxy (lt_irrefl _)
  refine ⟨⟨⟨hl, ?_, Finset.mem_singleton_self _, Finset.mem_singleton_self _, ho, ?_, ?_⟩, ?_, ?_, List.Pairwise.nil, ?_, ?_,
    ?_, ?_⟩, ?_, rfl, ?_, ?_, List.Pairwise.nil⟩
  · intro x hx
    rw [Finset.mem_singleton.mp hx, hb]
    unfold slobUnit
    omega
  · intro x hx
    rw [hr] at hx
    exact hx.2.trans_le hlt
  · rw [hr]
    rintro ⟨h0, -⟩
    omega
  · simp [Held.blocks]
  · simp [Held.blocks]
  · simp [Held.blocks]
  · rw [hr]
    exact Set.subset_union_right
  · rw [Finset.sum_singleton, hb]
    rfl
  · simp
  · simp
  · simp
  · simp

/-- A word that the heap does not read changes nothing. -/
theorem inv_store (hi : Inv s arena h B) (ho : a ∉ Rings.region s.bytes B) (hl : ∀ x ∈ h.live, x.addr ≠ a)
    (hb : ∀ d ∈ h.bigs, a ∉ d.block.span) : Inv (s.store a v) arena h B := by
  refine ⟨hi.core.store ho, ?_, ?_, hi.aligned, hi.outside, hi.bigsApart⟩
  · intro x hx
    rw [← hi.headers x hx]
    exact update_of_ne (hl x hx) _ _
  · refine hi.chain.congr ?_
    intro d hd w hw
    refine update_of_ne ?_ _ _
    rintro rfl
    exact hb d hd hw

/-- What others write does not touch the heap. -/
theorem inv_write (hi : Inv s arena h B) (hw : h.Writable arena a) : Inv (s.store a v) arena h B := by
  have hf : ∀ y ∈ h.blocks, y.addr ∈ y.span := by
    intro y hy
    have := hi.core.two y hy
    exact ⟨le_rfl, by unfold slobUnit; omega⟩
  rcases hw with ⟨x, hx, h1, h2⟩ | ⟨hpa, ha⟩
  · have hxb : x ∈ h.blocks := List.mem_append_left _ hx
    have hax : a ∈ x.span := ⟨by omega, h2⟩
    have ho : ∀ y ∈ h.blocks, y ≠ x → a ∉ y.span := by
      intro y hy hne
      exact Set.disjoint_right.mp (hi.core.apart.forall hy hxb hne) hax
    refine inv_store hi (Set.disjoint_left.mp (hi.core.clear x hxb) hax) ?_ ?_
    · intro y hy he
      by_cases hyx : y = x
      · subst hyx
        unfold slobUnit at h1
        omega
      · exact ho y (List.mem_append_left _ hy) hyx (he ▸ hf y (List.mem_append_left _ hy))
    · intro d hd hm
      have hdb : d.block ∈ h.blocks := List.mem_append_right _ (List.mem_map_of_mem hd)
      refine ho d.block hdb ?_ hm
      -- the block of a caller and that of a record are two entries of the list
      intro he
      have hnd := hi.core.addr_nodup
      rw [Held.blocks, List.map_append, List.nodup_append] at hnd
      exact hnd.2.2 x.addr (List.mem_map_of_mem hx) d.block.addr (List.mem_map_of_mem (List.mem_map_of_mem hd)) (he ▸ rfl)
  · have hn : a ∉ pageRegion h.pages := by
      rintro ⟨p, hp, h1, h2⟩
      have := hpa p hp
      omega
    refine inv_store hi ?_ ?_ ?_
    · intro hm
      rcases hi.core.inside hm with hp | ⟨h1, h2⟩
      · exact hn hp
      · omega
    · intro y hy he
      have hyb : y ∈ h.blocks := List.mem_append_left _ hy
      exact hn (he ▸ hi.core.used y hyb (hf y hyb))
    · intro d hd hm
      exact hn (hi.core.used d.block (List.mem_append_right _ (List.mem_map_of_mem hd)) hm)

/-- The sizes that `kmalloc` passes on but `slob_alloc` does not take. -/
theorem kmalloc_panic {size : Nat} (hlt : size < pgSize - slobUnit)
    (hge : pgSize ≤ size + 2 * slobUnit) : kmalloc size grows big s = .error .size := by
  unfold kmalloc slobAlloc
  rw [if_pos hlt, ensure_of_not (by omega)]
  rfl

/-- `kmalloc` returns with the invariant, or stops at the assertion on the size. -/
theorem kmalloc_spec {size : Nat} (hi : Inv s arena h B) (hp : 1 ≤ size)
    (ha : h.Answers arena size grows big) : kmalloc size grows big s = .error .size ∨
      ∃ ptr got s' B', kmalloc size grows big s = .ok (ptr, got, s') ∧ Inv s' arena (h.malloc size ptr got s') B' := by
  rcases Nat.lt_or_ge size (pgSize - slobUnit) with hlt | hge
  · rcases Nat.lt_or_ge (size + 2 * slobUnit) pgSize with hs | hl
    · exact Or.inr (kmalloc_small hi ha hp hs)
    · exact Or.inl (kmalloc_panic hlt hl)
  · exact Or.inr (kmalloc_big hi ha hge)

/-- The invariant holds after every run. -/
theorem inv_of_slobReach (hr : SlobReach arena s h) : ∃ B, Inv s arena h B := by
  induction hr with
  | start hne hlt ho hs => exact ⟨_, inv_start hne hlt ho hs⟩
  | malloc size grows big ptr got _ hp ha hrun ih =>
    obtain ⟨B, hi⟩ := ih
    rcases kmalloc_spec hi hp ha with he | ⟨ptr', got', s', B', hok, hi'⟩
    · rw [he] at hrun
      nomatch hrun
    · rw [hok] at hrun
      cases hrun
      exact ⟨B', hi'⟩
  | free x _ hx hrun ih =>
    obtain ⟨B, hi⟩ := ih
    obtain ⟨s', B', hok, hi', -⟩ := kfree_small hi hx
    rw [hok] at hrun
    cases hrun
    exact ⟨B', hi'⟩
  | freeBig d _ hd hrun ih =>
    obtain ⟨B, hi⟩ := ih
    obtain ⟨s', B', hok, hi', -⟩ := kfree_big hi hd
    rw [hok] at hrun
    cases hrun
    exact ⟨B', hi'⟩
  | write a v _ hw ih =>
    obtain ⟨B, hi⟩ := ih
    exact ⟨B, inv_write hi hw⟩

/-- The sum over a set of blocks is the sum over a list of them. -/
theorem sum_units {l : List Nat} (hnd : l.Nodup) : ∑ x ∈ l.toFinset, s.bytes x = slobUnit * (l.map s.units).sum := by
  rw [List.sum_toFinset _ hnd]
  exact List.sum_map_mul_left l s.units slobUnit

end SlobAux

open SlobAux

/-- After every run of `kmalloc` and `kfree`, the free blocks that `slobfree` reaches, in address order, are one cycle with the
arena in it: they do not overlap, none ends where the next one begins, and none has an address in common with a block that is
held. The units of the free blocks and of those that are held are the units of all the pages and of the arena. The next call
returns, or stops at the assertion on the size. -/
theorem slob_runs_consistent {arena : Nat} {s : Slob} {h : Held} (hr : SlobReach arena s h) :
    (∃ free : List Nat, (∀ x, x ∈ free ↔ ∃ n, s.next^[n] s.slobfree = x) ∧ arena ∈ free ∧ Cycle s.next free ∧
        free.Pairwise (· < ·) ∧ free.Pairwise (fun x y => x + slobUnit * s.units x ≤ y) ∧
        (∀ x ∈ free, x + slobUnit * s.units x ≠ s.next x) ∧
        (∀ x ∈ free, ∀ y ∈ h.blocks, Disjoint (SlobBlock.span ⟨x, s.units x⟩) y.span) ∧
        (free.map s.units).sum + (h.blocks.map SlobBlock.units).sum = 512 * h.pages.length + 1) ∧
      (∀ size grows big, 1 ≤ size → h.Answers arena size grows big →
        kmalloc size grows big s = .error .size ∨ ∃ r, kmalloc size grows big s = .ok r) ∧
      (∀ x ∈ h.live, ∃ r, kfree (x.addr + slobUnit) s = .ok r) ∧ ∀ d ∈ h.bigs, ∃ r, kfree d.pages s = .ok r := by
  obtain ⟨B, hi⟩ := inv_of_slobReach hr
  refine ⟨?_, ?_, ?_, ?_⟩
  · have hfree := hi.core.free
    obtain ⟨l, hsort, hcycle, hnd, hset⟩ := hfree.list.ring.sorted_cycle hfree.head
    have hmem : ∀ x, x ∈ l ↔ x ∈ B := fun x => by rw [← hset, List.mem_toFinset]
    refine ⟨l, ?_, (hmem arena).mpr hfree.arenaMem, hcycle, hsort, ?_, ?_, ?_, ?_⟩
    · intro x
      rw [hfree.list.ring.reaches_iff hfree.head]
      exact hmem x
    · refine hsort.imp_of_mem ?_
      intro x y hx hy hlt
      exact hfree.list.apart x ((hmem x).mp hx) y ((hmem y).mp hy) hlt
    · intro x hx
      exact hfree.tight x ((hmem x).mp hx)
    · intro x hx y hy
      refine Disjoint.mono_left ?_ (hi.core.clear y hy).symm
      intro a ha
      exact ⟨x, (hmem x).mp hx, ha⟩
    · have hsum := hi.core.sum
      rw [← hset, sum_units hnd] at hsum
      unfold slobUnit pgSize at hsum
      omega
  · intro size grows big hpos ha
    rcases kmalloc_spec hi hpos ha with herr | ⟨ptr, got, s', B', hok, -⟩
    · exact Or.inl herr
    · exact Or.inr ⟨_, hok⟩
  · intro x hx
    obtain ⟨s', B', hok, -⟩ := kfree_small hi hx
    exact ⟨_, hok⟩
  · intro d hd
    obtain ⟨s', B', hok, -⟩ := kfree_big hi hd
    exact ⟨_, hok⟩

namespace SlobAux

/-- The memory before the first call, with the arena at `0x400`. -/
def smallStart : Slob := ⟨fun a => if a = 0x400 then 1 else if a = 0x404 then 0x400 else 0, 0x400, 0⟩

/-- The heap that a call left, where it returned. -/
def leftBy (r : Except SlobPanic (Nat × List Nat × Slob)) : Slob := (r.toOption.map fun x => x.2.2).getD smallStart

theorem eq_leftBy {r : Except SlobPanic (Nat × List Nat × Slob)} {ptr : Nat} {got : List Nat}
    (hr : (r.toOption.map fun x => (x.1, x.2.1)) = some (ptr, got)) : r = .ok (ptr, got, leftBy r) := by
  cases r with
  | error e => nomatch hr
  | ok x =>
    cases hr
    rfl

/-- A block of 14 units at the front of a new page. -/
def smallFirst : Slob := leftBy (kmalloc 100 [0x2000] none smallStart)

/-- And then two pages, with a record behind the block. -/
def smallSecond : Slob := leftBy (kmalloc 5000 [] (some 0x4000) smallFirst)

theorem smallStart_reach : SlobReach 0x400 smallStart ⟨[], [], []⟩ := .start (by decide) (by decide) rfl rfl

theorem smallFirst_reach : SlobReach 0x400 smallFirst ⟨[⟨0x2000, 14⟩], [], [0x2000]⟩ := by
  refine .malloc 100 [0x2000] none 0x2008 [0x2000] smallStart_reach (by decide) ⟨?_, by decide, by simp⟩
    (eq_leftBy (by decide +kernel))
  intro p hp
  obtain rfl := List.mem_singleton.mp hp
  exact ⟨by decide, by decide, by decide, by simp, by simp, by decide⟩

end SlobAux

/-- A run that takes a small block and a large one. -/
theorem slob_runs_consistent_small : ∃ free : List Nat,
    (∀ x, x ∈ free ↔ ∃ n, smallSecond.next^[n] smallSecond.slobfree = x) ∧ Cycle smallSecond.next free ∧
      (free.map smallSecond.units).sum + 16 = 512 * 1 + 1 := by
  have h2 : SlobReach 0x400 smallSecond ⟨[⟨0x2000, 14⟩], [⟨0x2070, 0x4000, 1⟩], [0x2000]⟩ := by
    have hbb : smallSecond.bigblocks = 0x2070 := by decide +kernel
    rw [← hbb]
    refine .malloc 5000 [] (some 0x4000) 0x4000 [] smallFirst_reach (by decide) ⟨by simp, by simp, ?_⟩ (eq_leftBy (by decide +kernel))
    intro q hq
    cases hq
    exact ⟨⟨by decide, by decide, by decide, by decide, by simp, by decide⟩, by simp⟩
  obtain ⟨⟨free, hreach, -, hcycle, -, -, -, -, hsum⟩, -⟩ := slob_runs_consistent h2
  exact ⟨free, hreach, hcycle, hsum⟩

end Ucore
