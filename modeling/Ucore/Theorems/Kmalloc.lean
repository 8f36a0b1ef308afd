import Ucore.Theorems.Slob

/-!
# What `kmalloc` and `kfree` do with single requests

Where the runs of the heap say what holds between the calls, this is about the calls: how many pages a large request gets
(`reserves_least_iff`), which sizes `kmalloc` takes (`kmalloc_returns_iff`), that the search of `slob_alloc` ends
(`slob_alloc_ends`), and what `kfree` gives back (`kfree_ends`, `kfree_exact`).
-/

namespace Ucore

open Checked Rings SlobAux

/-! ## The order of a large request -/

namespace SlobAux

/-- The loop of `find_order` ends at the first order to which the size shifts to at most a page. -/
theorem findOrderLoop_spec (n size : Nat) (h : size < 4097 * 2 ^ n) :
    size / 2 ^ findOrderLoop n size ≤ 4096 ∧ ∀ k, size / 2 ^ k ≤ 4096 → findOrderLoop n size ≤ k := by
  induction n generalizing size with
  | zero => simp [findOrderLoop]; omega
  | succ n ih =>
    by_cases hlt : 4096 < size
    · obtain ⟨hle, hl⟩ := ih (size / 2) (by omega)
      simp only [findOrderLoop, hlt, if_true]
      refine ⟨by rwa [Nat.pow_succ', ← Nat.div_div_eq_div_mul], ?_⟩
      intro k hk
      cases k with
      | zero => simp at hk; omega
      | succ k =>
        rw [Nat.pow_succ', ← Nat.div_div_eq_div_mul] at hk
        have := hl k hk
        omega
    · simp [findOrderLoop, hlt]
      omega

/-- A size shifts to at most a page exactly where it is less than a page and one unit of the order. -/
theorem div_two_pow_le {size k : Nat} : size / 2 ^ k ≤ 4096 ↔ size < 4097 * 2 ^ k := by
  rw [← Nat.lt_succ_iff, Nat.div_lt_iff_lt_mul (Nat.two_pow_pos k)]

end SlobAux

/-- The pages of a large request hold it, and their order is the least with this property, exactly where the size is less than
`2 ^ 31` and its shifts lose no bit at the end. -/
theorem reserves_least_iff (size : Nat) :
    (size ≤ pgSize <<< findOrder size ∧ ∀ k, size ≤ pgSize <<< k → findOrder size ≤ k) ↔
      size < 2 ^ 31 ∧ ∀ k, ¬(pgSize * 2 ^ k < size ∧ size < (pgSize + 1) * 2 ^ k) := by
  simp only [Nat.shiftLeft_eq, pgSize]
  rcases Nat.lt_or_ge size (2 ^ 31) with hlt | hge
  · have hord : findOrder size = findOrderLoop 32 size := if_pos hlt
    obtain ⟨hle, hleast⟩ := findOrderLoop_spec 32 size (by omega)
    rw [hord]
    rw [div_two_pow_le] at hle
    constructor
    · rintro ⟨hfits, -⟩
      refine ⟨hlt, ?_⟩
      rintro k ⟨h1, h2⟩
      have hmono := Nat.pow_le_pow_right (n := 2) (by omega) (hleast k (div_two_pow_le.mpr h2))
      omega
    · rintro ⟨-, hno⟩
      have hfits : size ≤ 4096 * 2 ^ findOrderLoop 32 size := not_lt.mp fun h => hno _ ⟨h, hle⟩
      refine ⟨hfits, fun k hk => hleast k (div_two_pow_le.mpr ?_)⟩
      have := Nat.two_pow_pos k
      omega
  · have hord : findOrder size = 0 := if_neg (by omega)
    rw [hord]
    omega

/-- 8193 bytes are one more than two pages, and get two pages. -/
theorem short_reservation : pgSize - slobUnit ≤ 8193 ∧ pgSize <<< findOrder 8193 = 8192 ∧ ¬8193 ≤ pgSize <<< findOrder 8193 := by
  decide +kernel

/-! ## The two paths of `kmalloc` -/

namespace SlobAux

variable {s : Slob} {arena : Nat} {h : Held} {B : Finset Nat} {grows : List Nat} {big : Option Nat}

theorem Inv.newPage {size : Nat} (hi : Inv s arena h B)
    (ha : h.Answers arena size grows big) : ∀ p ∈ grows.head?, NewPage s B p := by
  intro p hp
  have hl := (hi.core.growing (arrivals ha)).loose p (List.mem_of_mem_head? hp)
  exact ⟨hl.ne, hl.below, hl.clear⟩

/-- A small request returns, whatever its size. -/
theorem kmalloc_small_returns {size : Nat} (hi : Inv s arena h B)
    (ha : h.Answers arena size grows big) (hs : size + 2 * slobUnit < pgSize) : ∃ r, kmalloc size grows big s = .ok r := by
  have hlt : size < pgSize - slobUnit := by
    unfold slobUnit at *
    omega
  unfold kmalloc
  rw [if_pos hlt]
  rcases slobAlloc_returns hi.core.free (show 0 < size + slobUnit by unfold slobUnit; omega) (by omega) (hi.newPage ha) with
    ⟨hr, -⟩ | ⟨m, got, -, s', hr, -⟩
  · exact ⟨_, by rw [hr]; rfl⟩
  · exact ⟨_, by rw [hr]; rfl⟩

end SlobAux

/-- In every state a run reaches, `kmalloc` returns `NULL` or a block exactly where the size is on the page path or keeps the
assertion of `slob_alloc`. -/
theorem kmalloc_returns_iff {arena : Nat} {s : Slob} {h : Held} (hr : SlobReach arena s h) (size : Nat) (grows : List Nat)
    (big : Option Nat) (ha : h.Answers arena size grows big) :
    (∃ r, kmalloc size grows big s = .ok r) ↔ size + 2 * slobUnit < pgSize ∨ pgSize - slobUnit ≤ size := by
  obtain ⟨B, hi⟩ := inv_of_slobReach hr
  constructor
  · rintro ⟨r, hrun⟩
    by_contra hno
    rw [kmalloc_panic (by omega) (by omega)] at hrun
    cases hrun
  · rintro (hsmall | hlarge)
    · exact kmalloc_small_returns hi ha hsmall
    · obtain ⟨ptr, got, s', B', hrun, -⟩ := kmalloc_big hi ha hlarge
      exact ⟨_, hrun⟩

/-- A request of no bytes on a new heap. -/
theorem kmalloc_returns_zero : ∃ r, kmalloc 0 [] none smallStart = .ok r :=
  (kmalloc_returns_iff (.start (by decide) (by decide) rfl rfl) 0 [] none ⟨by simp, by simp, by simp⟩).mpr (Or.inl (by decide))

/-- 4080 bytes are below the page path, and trip the assertion of `slob_alloc` with their header. -/
theorem kmalloc_stops : 4080 < pgSize - slobUnit ∧ kmalloc 4080 [] none smallStart = .error .size := by
  refine ⟨by decide, kmalloc_panic (by decide) (by decide)⟩

/-! ## The search for a block -/

/-- `slob_alloc` returns for every free list with the arena in it, wherever the roving pointer is. It asks for a page only where
no block is large enough, and not a second time, wherever the page lies; `NULL` means that there was no page, and that nothing has
changed; a block has the units asked for, and was cut from a block of the list. -/
theorem slob_alloc_ends {s : Slob} {arena : Nat} {B : Finset Nat} (h : s.Free arena B) (size : Nat) (hmin : slobUnit < size)
    (hmax : size + slobUnit < pgSize) (grows : List Nat) (hg : ∀ p ∈ grows.head?, NewPage s B p) :
    ∃ m got s', slobAlloc size grows s = .ok (m, got, s') ∧ got.length ≤ 1 ∧ got <+: grows ∧
      (m = 0 → grows = [] ∧ s' = s) ∧
      (m ≠ 0 → ∃ s₁, (got = [] ∧ s₁ = s ∨ ∃ page, got = [page] ∧ slobFree page pgSize s = .ok s₁) ∧
        SlobCut s₁ s' m (slobUnits size)) := by
  rcases slobAlloc_returns h (by omega) hmax hg with ⟨hr, hnil⟩ | ⟨m, got, s₁, s', hr, hm, hcut, hgot⟩
  · exact ⟨0, [], s, hr, by simp, List.nil_prefix, fun _ => ⟨hnil, rfl⟩, fun h0 => absurd rfl h0⟩
  · refine ⟨m, got, s', hr, ?_, ?_, fun h0 => absurd h0 hm, fun _ => ⟨s₁, ?_, hcut⟩⟩
    · rcases hgot with ⟨rfl, -⟩ | ⟨page, rfl, -⟩ <;> simp
    · rcases hgot with ⟨rfl, -⟩ | ⟨page, rfl, hhead, -⟩
      · exact List.nil_prefix
      · obtain ⟨rest, rfl⟩ : ∃ rest, grows = page :: rest := ⟨grows.tail, (List.cons_head?_tail hhead).symm⟩
        simp
    · rcases hgot with hgot | ⟨page, hpage, -, hfree⟩
      · exact Or.inl hgot
      · exact Or.inr ⟨page, hpage, hfree⟩

/-- A page that begins right behind the arena. -/
theorem slob_alloc_ends_adjacent : ∃ m got s', slobAlloc 108 [0x408] smallStart = .ok (m, got, s') ∧ got.length ≤ 1 := by
  have hi : Inv smallStart 0x400 ⟨[], [], []⟩ {0x400} := inv_start (by decide) (by decide) rfl rfl
  obtain ⟨m, got, s', hr, hlen, -⟩ := slob_alloc_ends hi.core.free 108 (by decide) (by decide) [0x408] (by
    intro p hp
    cases hp
    refine ⟨by decide, by decide, Set.disjoint_left.mpr ?_⟩
    rintro a ⟨h1, -⟩ ⟨x, hx, h3, h4⟩
    obtain rfl := Finset.mem_singleton.mp hx
    have : smallStart.bytes 0x400 = 8 := rfl
    omega)
  exact ⟨m, got, s', hr, hlen⟩

/-! ## What `kfree` does -/

/-- The addresses of the blocks that `slobfree` reaches. -/
def Slob.freeBytes (s : Slob) : Set Nat := { a | ∃ n, a ∈ SlobBlock.span ⟨s.next^[n] s.slobfree, s.units (s.next^[n] s.slobfree)⟩ }

theorem SlobAux.freeBytes_eq {s : Slob} {arena : Nat} {B : Finset Nat} (h : s.Free arena B) :
    s.freeBytes = Rings.region s.bytes B := by
  ext a
  constructor
  · rintro ⟨n, ha⟩
    exact ⟨_, (h.list.ring.reaches_iff h.head).mp ⟨n, rfl⟩, ha⟩
  · rintro ⟨x, hx, ha⟩
    obtain ⟨n, rfl⟩ := (h.list.ring.reaches_iff h.head).mpr hx
    exact ⟨n, ha⟩

/-- In every run whose requests are for at least one byte, `kfree` of what is held returns, and nothing that is held is on the free
list. -/
theorem kfree_ends {arena : Nat} {s : Slob} {h : Held} (hr : SlobReach arena s h) :
    (∀ x ∈ h.live, ∃ r, kfree (x.addr + slobUnit) s = .ok r) ∧ (∀ d ∈ h.bigs, ∃ r, kfree d.pages s = .ok r) ∧
      ∀ x ∈ h.blocks, ∀ n, s.next^[n] s.slobfree ≠ x.addr := by
  obtain ⟨B, hi⟩ := inv_of_slobReach hr
  refine ⟨?_, ?_, ?_⟩
  · intro x hx
    obtain ⟨s', -, hrun, -⟩ := kfree_small hi hx
    exact ⟨_, hrun⟩
  · intro d hd
    obtain ⟨s', -, hrun, -⟩ := kfree_big hi hd
    exact ⟨_, hrun⟩
  · intro x hx n he
    have htwo := hi.core.two x hx
    have hspan : x.addr ∈ x.span := ⟨le_rfl, by unfold slobUnit; omega⟩
    have hmem := (hi.core.free.list.ring.reaches_iff hi.core.free.head).mp ⟨n, he⟩
    exact Set.disjoint_left.mp (hi.core.clear x hx) hspan (header_mem hi.core.free.list hmem le_rfl (by omega))

/-- One small block on a new heap. -/
theorem kfree_ends_small : ∃ r, kfree 0x2008 smallFirst = .ok r :=
  (kfree_ends smallFirst_reach).1 ⟨0x2000, 14⟩ List.mem_cons_self

/-- A request of no bytes on a new heap gets the arena, which is the whole free list and stays there; the search for its place
never ends. -/
theorem kfree_hangs : ∃ s, kmalloc 0 [] none smallStart = .ok (0x408, [], s) ∧ s.slobfree = 0x400 ∧
    (∀ n, findPoint 0x400 n s.slobfree s = .error .unfinished) ∧ kfree 0x408 s = .error .unfinished := by
  have hnext : (leftBy (kmalloc 0 [] none smallStart)).next 0x400 = 0x400 := by decide +kernel
  have hhead : (leftBy (kmalloc 0 [] none smallStart)).slobfree = 0x400 := by decide +kernel
  have hsearch : ∀ n, findPoint 0x400 n 0x400 (leftBy (kmalloc 0 [] none smallStart)) = .error .unfinished := by
    intro n
    induction n with
    | zero => rfl
    | succ n ih => simp [findPoint, hnext, ih]
  refine ⟨_, eq_leftBy (by decide +kernel), hhead, ?_, ?_⟩
  · rw [hhead]
    exact hsearch
  · have hlook : lookupBig 0x408 (leftBy (kmalloc 0 [] none smallStart)) = .ok none := rfl
    unfold kfree
    rw [if_neg (by decide), hlook, bind_ok]
    change (slobFree 0x400 0 _ >>= _) = _
    unfold slobFree
    simp only [if_neg (show (0x400 : Nat) ≠ 0 by decide), ne_eq, not_true_eq_false, if_false, hhead, hsearch, bind_error]

/-- In every run, the list of large allocations has one record for each of them, with its address and order. `kfree` of one gives
back its `2 ^ order` pages, and its record to the free list; `kfree` of a small block touches no record, and gives its own units
to the free list. -/
theorem kfree_exact {arena : Nat} {s : Slob} {h : Held} (hr : SlobReach arena s h) :
    BigChain s s.bigblocks h.bigs ∧ (h.bigs.map BigBlock.pages).Nodup ∧
      (∀ d ∈ h.bigs, ∃ s', kfree d.pages s = .ok (some (d.pages, d.order), s') ∧ BigChain s' s'.bigblocks (h.bigs.erase d) ∧
        Disjoint d.block.span s.freeBytes ∧ s'.freeBytes = d.block.span ∪ s.freeBytes) ∧
      ∀ x ∈ h.live, ∃ s', kfree (x.addr + slobUnit) s = .ok (none, s') ∧ BigChain s' s'.bigblocks h.bigs ∧
        Disjoint x.span s.freeBytes ∧ s'.freeBytes = x.span ∪ s.freeBytes := by
  obtain ⟨B, hi⟩ := inv_of_slobReach hr
  have hfree := freeBytes_eq hi.core.free
  refine ⟨hi.chain, ?_, ?_, ?_⟩
  · refine List.pairwise_map.mpr (hi.bigsApart.imp ?_)
    intro d e hde he
    have h1 := Nat.two_pow_pos d.order
    have h2 := Nat.two_pow_pos e.order
    unfold PagesApart pgSize at hde
    omega
  · intro d hd
    obtain ⟨s', B', hrun, hi', hregion⟩ := kfree_big hi hd
    rw [← hfree, ← freeBytes_eq hi'.core.free] at hregion
    exact ⟨s', hrun, hi'.chain, hfree ▸ hi.core.clear _ (List.mem_append_right _ (List.mem_map_of_mem hd)), hregion⟩
  · intro x hx
    obtain ⟨s', B', hrun, hi', hregion⟩ := kfree_small hi hx
    rw [← hfree, ← freeBytes_eq hi'.core.free] at hregion
    exact ⟨s', hrun, hi'.chain, hfree ▸ hi.core.clear x (List.mem_append_left _ hx), hregion⟩

/-- A request of 5000 bytes on a new heap: two pages, with their record at the front of another. -/
def SlobAux.smallLarge : Slob := leftBy (kmalloc 5000 [0x2000] (some 0x4000) smallStart)

/-- The two pages and their record are given back. -/
theorem kfree_exact_large : ∃ s', kfree 0x4000 smallLarge = .ok (some (0x4000, 1), s') ∧ BigChain s' s'.bigblocks [] := by
  have h1 : SlobReach 0x400 smallLarge ⟨[], [⟨smallLarge.bigblocks, 0x4000, 1⟩], [0x2000]⟩ := by
    refine .malloc 5000 [0x2000] (some 0x4000) 0x4000 [0x2000] smallStart_reach (by decide) ⟨?_, by decide, ?_⟩
      (eq_leftBy (by decide +kernel))
    · intro p hp
      obtain rfl := List.mem_singleton.mp hp
      exact ⟨by decide, by decide, by decide, by simp, by simp, by decide⟩
    · intro q hq
      cases hq
      exact ⟨⟨by decide, by decide, by decide, by simp, by simp, by decide⟩, by decide⟩
  obtain ⟨s', hr, hchain, -⟩ := (kfree_exact h1).2.2.1 ⟨smallLarge.bigblocks, 0x4000, 1⟩ List.mem_cons_self
  rw [List.erase_cons_head] at hchain
  exact ⟨s', hr, hchain⟩

end Ucore
