import Ucore.Lib.FreeRing
import Ucore.Slob

/-!
# The free list of the kernel heap

What the functions of the heap do to the free list. The free blocks are a ring in address order, no two of them touch, and the
arena is one of them (`Slob.Free`). `slob_free` puts a block into such a list (`slobFree_spec`), and `slob_alloc` takes one out,
after as many pages as it needed were put in (`slobLoop_spec`).
-/

namespace Ucore

open Checked Rings Function

variable {s : Slob} {arena a b cur u v x y : Nat} {B : Finset Nat}

namespace Slob

/-! ## Words of blocks -/

theorem units_setUnits : (s.setUnits b v).units x = if x = b then v else s.units x := update_apply _ _ _ _

theorem next_setUnits : (s.setUnits b v).next x = if x + 4 = b then v else s.next x := update_apply _ _ _ _

theorem units_setNext : (s.setNext b v).units x = if x = b + 4 then v else s.units x := update_apply _ _ _ _

theorem next_setNext : (s.setNext b v).next x = if x = b then v else s.next x := by
  have hw : (s.setNext b v).next x = if x + 4 = b + 4 then v else s.next x := update_apply _ _ _ _
  rw [hw]
  exact if_congr Nat.add_right_cancel_iff rfl rfl

theorem mem_setUnits (ha : a ≠ b) : (s.setUnits b v).mem a = s.mem a := update_of_ne ha _ _

theorem mem_setNext (ha : a ≠ b + 4) : (s.setNext b v).mem a = s.mem a := update_of_ne ha _ _

/-- The bytes of a block. -/
def bytes (s : Slob) (b : Nat) : Nat := slobUnit * s.units b

/-- The header of a block written. -/
def setHeader (s : Slob) (b u v : Nat) : Slob := (s.setUnits b u).setNext b v

theorem setHeader_units (s : Slob) (b v : Nat) : s.setHeader b (s.units b) v = s.setNext b v := by
  unfold setHeader setUnits store units
  rw [update_eq_self]

theorem bytes_setHeader (h : x = b ∨ x + 8 ≤ b ∨ b + 8 ≤ x) :
    (s.setHeader b u v).bytes x = update s.bytes b (slobUnit * u) x := by
  unfold bytes setHeader
  rw [units_setNext, if_neg (by omega), units_setUnits, update_apply]
  split <;> rfl

theorem next_setHeader (h : x = b ∨ x + 8 ≤ b ∨ b + 8 ≤ x) : (s.setHeader b u v).next x = update s.next b v x := by
  rw [setHeader, next_setNext, next_setUnits, update_apply]
  split
  · rfl
  · rw [if_neg (by omega)]

theorem mem_setHeader (h : a < b ∨ b + 8 ≤ a) : (s.setHeader b u v).mem a = s.mem a := by
  rw [setHeader, mem_setNext (by omega), mem_setUnits (by omega)]

theorem units_of_bytes {s' : Slob} (h : s'.bytes x = s.bytes x) : s'.units x = s.units x :=
  Nat.eq_of_mul_eq_mul_left (by decide : 0 < slobUnit) h

/-- The free list: the blocks of `B`, with the arena as a block of one unit. -/
structure Free (s : Slob) (arena : Nat) (B : Finset Nat) : Prop where
  list : FreeRing s.next s.bytes B
  tight : Tight s.next s.bytes B
  head : s.slobfree ∈ B
  arenaMem : arena ∈ B
  one : s.units arena = 1
  below : ∀ x ∈ region s.bytes B, x < addrSize
  zero : 0 ∉ region s.bytes B

end Slob

namespace SlobAux

open Slob

variable {nxt : Nat → Nat} {l : List Nat} {s1 : Slob} {B1 B2 : Finset Nat}

/-- The headers of two blocks have no word in common. -/
theorem far (h : FreeRing nxt s.bytes B) (hx : x ∈ B) (hy : y ∈ B) : x = y ∨ x + 8 ≤ y ∨ y + 8 ≤ x := by
  have h1 := h.pos x hx
  have h2 := h.pos y hy
  unfold bytes slobUnit at h1 h2
  rcases Nat.lt_trichotomy x y with hlt | heq | hlt
  · have := h.apart x hx y hy hlt
    unfold bytes slobUnit at this
    omega
  · exact Or.inl heq
  · have := h.apart y hy x hx hlt
    unfold bytes slobUnit at this
    omega

/-- The header of a block lies in the block. -/
theorem header_mem (h : FreeRing nxt s.bytes B) (hx : x ∈ B) (h1 : x ≤ a) (h2 : a < x + 8) : a ∈ region s.bytes B := by
  have h3 := h.pos x hx
  refine ⟨x, hx, h1, ?_⟩
  unfold bytes slobUnit at h3 ⊢
  omega

/-- The list of the elements of a ring is no longer than there are addresses. -/
theorem length_le_addrSize (hnd : l.Nodup) (hlt : ∀ x ∈ l, x < addrSize) : l.length ≤ addrSize := by
  have hs : l ⊆ List.range addrSize := fun x hx => List.mem_range.mpr (hlt x hx)
  have := (hnd.subperm hs).length_le
  rwa [List.length_range] at this

/-! ## The search for the place of a block -/

/-- The search finds the place of `b` on its way through the list. -/
theorem findPoint_linked {n z : Nat} (hl : Linked s.next cur l z) (hp : ∃ x ∈ cur :: l, Place s.next b x) (hn : l.length < n) :
    ∃ x ∈ cur :: l, findPoint b n cur s = .ok x ∧ Place s.next b x := by
  induction l generalizing cur n with
  | nil =>
    obtain ⟨x, hx, hp⟩ := hp
    obtain rfl := List.mem_singleton.mp hx
    obtain ⟨n, rfl⟩ := Nat.exists_eq_add_one_of_ne_zero (Nat.ne_zero_of_lt hn)
    refine ⟨x, List.mem_singleton.mpr rfl, ?_, hp⟩
    unfold findPoint
    rcases hp with h | h
    · rw [if_pos h]
    · rw [if_pos h, ite_self]
  | cons w l ih =>
    obtain ⟨n, rfl⟩ := Nat.exists_eq_add_one_of_ne_zero (Nat.ne_zero_of_lt hn)
    by_cases hc : Place s.next b cur
    · refine ⟨cur, List.mem_cons_self, ?_, hc⟩
      unfold findPoint
      rcases hc with h | h
      · rw [if_pos h]
      · rw [if_pos h, ite_self]
    · obtain ⟨hw, hl⟩ := hl
      have hp' : ∃ x ∈ w :: l, Place s.next b x := by
        obtain ⟨x, hx, hpx⟩ := hp
        rcases List.mem_cons.mp hx with rfl | hx
        · exact absurd hpx hc
        · exact ⟨x, hx, hpx⟩
      have hn' : l.length < n := by
        simp only [List.length_cons] at hn
        omega
      obtain ⟨x, hx, hf, hpx⟩ := ih hl hp' hn'
      refine ⟨x, List.mem_cons_of_mem _ hx, ?_, hpx⟩
      unfold findPoint
      rw [if_neg (fun h => hc (Or.inl h)), if_neg (fun h => hc (Or.inr h)), hw]
      exact hf

/-- The free list as it is walked from the roving pointer. -/
theorem ring_walk (h : FreeRing s.next s.bytes B) (hh : s.slobfree ∈ B) (hb : ∀ x ∈ region s.bytes B, x < addrSize) :
    ∃ l : List Nat, Linked s.next s.slobfree l s.slobfree ∧ (s.slobfree :: l).Nodup ∧
      (∀ z, z ∈ s.slobfree :: l ↔ z ∈ B) ∧ l.length < addrSize := by
  obtain ⟨l, hl, hnd, hm⟩ := h.ring.linked hh
  refine ⟨l, hl, hnd, hm, ?_⟩
  have hle := length_le_addrSize hnd (fun x hx => hb x (header_mem h ((hm x).mp hx) le_rfl (by omega)))
  rwa [List.length_cons] at hle

theorem walk (h : s.Free arena B) : ∃ l : List Nat, Linked s.next s.slobfree l s.slobfree ∧ (s.slobfree :: l).Nodup ∧
    (∀ z, z ∈ s.slobfree :: l ↔ z ∈ B) ∧ l.length < addrSize :=
  ring_walk h.list h.head h.below

theorem findPoint_spec (h : s.Free arena B) (hb : b ∉ B) :
    ∃ cur ∈ B, findPoint b addrSize s.slobfree s = .ok cur ∧ Place s.next b cur := by
  obtain ⟨l, hl, -, hm, hlen⟩ := walk h
  obtain ⟨x, hx, hp⟩ := h.list.ring.exists_place ⟨_, h.head⟩ hb
  obtain ⟨cur, hc, hf, hpc⟩ := findPoint_linked hl ⟨x, (hm x).mpr hx, hp⟩ hlen
  exact ⟨cur, (hm cur).mp hc, hf, hpc⟩

/-! ## A block put into the list -/

/-- The list with the block `b` behind `cur`, which is not linked to it yet. -/
structure Joined (s s' : Slob) (B B' : Finset Nat) (b cur : Nat) : Prop where
  list : FreeRing (update s'.next cur b) s'.bytes B'
  tight : ∀ x ∈ B', x ≠ cur → x + s'.bytes x ≠ s'.next x
  block : b ∈ B'
  curMem : cur ∈ B'
  region : region s'.bytes B' = Set.Ico b (b + s.bytes b) ∪ region s.bytes B
  sum : ∑ x ∈ B', s'.bytes x = s.bytes b + ∑ x ∈ B, s.bytes x
  keep : ∀ x ∈ B, x ≠ b + s.bytes b → x ∈ B' ∧ s'.bytes x = s.bytes x
  frame : ∀ a, a < b ∨ b + 8 ≤ a → s'.mem a = s.mem a

/-- A block with its place in the list, apart from the blocks there. -/
structure Incoming (s : Slob) (B : Finset Nat) (b cur : Nat) : Prop where
  curMem : cur ∈ B
  place : Place s.next b cur
  pos : 0 < s.units b
  clear : ∀ y ∈ B, y + s.bytes y ≤ b ∨ b + s.bytes b ≤ y

theorem Incoming.notMem (hi : Incoming s B b cur) : b ∉ B := by
  intro hb
  have h1 := hi.clear b hb
  have h2 := hi.pos
  unfold bytes slobUnit at h1
  omega

theorem Incoming.insert (hi : Incoming s B b cur) (h : FreeRing s.next s.bytes B) :
    FreeRing (update (update s.next b (s.next cur)) cur b) s.bytes (insert b B) := by
  refine h.insert hi.curMem hi.place ?_ hi.clear
  have := hi.pos
  unfold bytes slobUnit
  omega

theorem sum_incoming (hi : Incoming s B b cur) : ∑ x ∈ insert b B, s.bytes x = s.bytes b + ∑ x ∈ B, s.bytes x :=
  Finset.sum_insert hi.notMem

section

variable (h : FreeRing s.next s.bytes B)
include h

/-- The first half of `slob_free` writes the header of the block; the ring has the block in it. -/
theorem joined_of {B' : Finset Nat} (hi : Incoming s B b cur) (hs : B' ⊆ insert b B)
    (heq : joinNext b cur s = s.setHeader b u v)
    (hl : FreeRing (update (update s.next b v) cur b) (update s.bytes b (slobUnit * u)) B')
    (ht : ∀ x ∈ B', x ≠ cur → x + update s.bytes b (slobUnit * u) x ≠ update s.next b v x) (hb : b ∈ B') (hc : cur ∈ B')
    (hr : region (update s.bytes b (slobUnit * u)) B' = region s.bytes (insert b B))
    (hsum : ∑ x ∈ B', update s.bytes b (slobUnit * u) x = ∑ x ∈ insert b B, s.bytes x)
    (hk : ∀ x ∈ B, x ≠ b + s.bytes b → x ∈ B') : Joined s (joinNext b cur s) B B' b cur := by
  have hf : ∀ x ∈ B', x = b ∨ x + 8 ≤ b ∨ b + 8 ≤ x :=
    fun x hx => far (hi.insert h) (hs hx) (Finset.mem_insert_self _ _)
  have hby : ∀ x ∈ B', (joinNext b cur s).bytes x = update s.bytes b (slobUnit * u) x := by
    intro x hx
    rw [heq, bytes_setHeader (hf x hx)]
  have hn : ∀ x ∈ B', (joinNext b cur s).next x = update s.next b v x := by
    intro x hx
    rw [heq, next_setHeader (hf x hx)]
  refine ⟨hl.congr ?_ hby, ?_, hb, hc, ?_, ?_, ?_, ?_⟩
  · intro x hx
    by_cases hxc : x = cur
    · rw [hxc, update_self, update_self]
    · rw [update_of_ne hxc, update_of_ne hxc, hn x hx]
  · intro x hx
    rw [hby x hx, hn x hx]
    exact ht x hx
  · rw [region_congr hby, hr, region_insert]
  · rw [Finset.sum_congr rfl hby, hsum, sum_incoming hi]
  · intro x hx hxn
    have hxb : x ≠ b := fun he => hi.notMem (he ▸ hx)
    refine ⟨hk x hx hxn, ?_⟩
    rw [hby x (hk x hx hxn), update_of_ne hxb]
  · intro a ha
    rw [heq, mem_setHeader ha]

/-- The first half of `slob_free` where the block does not touch the next one. -/
theorem joinNext_apart (ht : Tight s.next s.bytes B) (hi : Incoming s B b cur)
    (ha : b + s.bytes b ≠ s.next cur) : Joined s (joinNext b cur s) B (insert b B) b cur := by
  have hs : update s.bytes b (slobUnit * s.units b) = s.bytes := update_eq_self _ _
  refine joined_of h hi subset_rfl ((if_neg ha).trans (setHeader_units _ _ _).symm) ?_ ?_ (Finset.mem_insert_self _ _)
    (Finset.mem_insert_of_mem hi.curMem) ?_ ?_ fun x hx _ => Finset.mem_insert_of_mem hx
  all_goals rw [hs]
  · exact hi.insert h
  · intro x hx _
    by_cases hxb : x = b
    · rw [hxb, update_self]
      exact ha
    · rw [update_of_ne hxb]
      exact ht x (Finset.mem_of_mem_insert_of_ne hx hxb)

/-- The first half of `slob_free` where the block ends at the next one. -/
theorem joinNext_touch (ht : Tight s.next s.bytes B) (hi : Incoming s B b cur)
    (ha : b + s.bytes b = s.next cur) (hne : s.next cur ≠ cur) :
    Joined s (joinNext b cur s) B ((insert b B).erase (s.next cur)) b cur := by
  have hl := hi.insert h
  have hnm := h.next_mem hi.curMem
  have hbc : b ≠ cur := fun he => hi.notMem (he ▸ hi.curMem)
  have hbn : b ≠ s.next cur := fun he => hi.notMem (he ▸ hnm)
  have hbm : b ∈ insert b B := Finset.mem_insert_self _ _
  have hcm : cur ∈ insert b B := Finset.mem_insert_of_mem hi.curMem
  have hfc := far hl hbm hcm
  have heq : joinNext b cur s = s.setHeader b (s.units b + s.units (s.next cur)) (s.next (s.next cur)) := by
    have hnc : (s.setUnits b (s.units b + s.units (s.next cur))).next cur = s.next cur := by
      rw [next_setUnits, if_neg (by omega)]
    unfold joinNext
    rw [if_pos (show b + slobUnit * s.units b = s.next cur from ha)]
    dsimp only
    rw [hnc, next_setUnits, if_neg (by omega), setHeader]
  -- the ring with `b` in it, joined there with the block behind `b`
  have hb : update (update s.next b (s.next cur)) cur b b = s.next cur := by
    rw [update_of_ne hbc, update_self]
  have hn : update (update s.next b (s.next cur)) cur b (s.next cur) = s.next (s.next cur) := by
    rw [update_of_ne hne, update_of_ne hbn.symm]
  have hm := hl.merge hbm (ha.trans hb.symm)
  have hr := hl.region_merge hbm (ha.trans hb.symm)
  have hs := hl.sum_merge hbm (ha.trans hb.symm)
  rw [hb] at hm hr hs
  rw [hn, update_comm hbc, update_idem, update_comm hbc.symm] at hm
  have hsi : slobUnit * (s.units b + s.units (s.next cur)) = s.bytes b + s.bytes (s.next cur) := Nat.mul_add ..
  refine joined_of h hi (Finset.erase_subset _ _) heq ?_ ?_ (Finset.mem_erase.mpr ⟨hbn, hbm⟩)
    (Finset.mem_erase.mpr ⟨hne.symm, hcm⟩) ?_ ?_ fun x hx hxn =>
      Finset.mem_erase.mpr ⟨fun he => hxn (he.trans ha.symm), Finset.mem_insert_of_mem hx⟩
  all_goals rw [hsi]
  · exact hm
  · intro x hx _
    by_cases hxb : x = b
    · rw [hxb, update_self, update_self, ← Nat.add_assoc, ha]
      exact ht _ hnm
    · rw [update_of_ne hxb, update_of_ne hxb]
      exact ht x (Finset.mem_of_mem_insert_of_ne (Finset.mem_of_mem_erase hx) hxb)
  · exact hr
  · exact hs

end

/-- The list after the block `b` of `u` units was put into it. -/
structure Freed (s s' : Slob) (arena : Nat) (B : Finset Nat) (b u : Nat) (B' : Finset Nat) : Prop where
  free : s'.Free arena B'
  region : region s'.bytes B' = Set.Ico b (b + slobUnit * u) ∪ region s.bytes B
  sum : ∑ x ∈ B', s'.bytes x = slobUnit * u + ∑ x ∈ B, s.bytes x
  bigblocks : s'.bigblocks = s.bigblocks
  frame : ∀ a, a ∉ Rings.region s.bytes B → a < b ∨ b + 8 ≤ a → s'.mem a = s.mem a

/-- The list after the second half of `slob_free`. -/
structure Closed (s s' : Slob) (B B' : Finset Nat) (b cur : Nat) : Prop where
  list : FreeRing s'.next s'.bytes B'
  tight : Tight s'.next s'.bytes B'
  curMem : cur ∈ B'
  region : region s'.bytes B' = Set.Ico b (b + s.bytes b) ∪ region s.bytes B
  sum : ∑ x ∈ B', s'.bytes x = s.bytes b + ∑ x ∈ B, s.bytes x
  keep : ∀ x ∈ B, x + s.bytes x ≠ b → x ≠ b + s.bytes b → x ∈ B' ∧ s'.bytes x = s.bytes x
  frame : ∀ a, a ∉ Rings.region s.bytes B → a < b ∨ b + 8 ≤ a → s'.mem a = s.mem a

/-- The second half of `slob_free` writes the header of the block before. -/
theorem closed_of (hj : Joined s s1 B B1 b cur) (hi : Incoming s B b cur) (h : FreeRing s.next s.bytes B) (hs : B2 ⊆ B1)
    (hl : FreeRing (update s1.next cur v) (update s1.bytes cur (slobUnit * u)) B2)
    (ht : Tight (update s1.next cur v) (update s1.bytes cur (slobUnit * u)) B2) (hc : cur ∈ B2)
    (hr : region (update s1.bytes cur (slobUnit * u)) B2 = region s1.bytes B1)
    (hsum : ∑ x ∈ B2, update s1.bytes cur (slobUnit * u) x = ∑ x ∈ B1, s1.bytes x) (hk : ∀ x ∈ B1, x ≠ b → x ∈ B2)
    (hcur : cur + s1.bytes cur = b ∨ slobUnit * u = s1.bytes cur) : Closed s (s1.setHeader cur u v) B B2 b cur := by
  have hf : ∀ x ∈ B2, x = cur ∨ x + 8 ≤ cur ∨ cur + 8 ≤ x := fun x hx => far hj.list (hs hx) hj.curMem
  have hb : ∀ x ∈ B2, (s1.setHeader cur u v).bytes x = update s1.bytes cur (slobUnit * u) x :=
    fun x hx => bytes_setHeader (hf x hx)
  have hn : ∀ x ∈ B2, (s1.setHeader cur u v).next x = update s1.next cur v x := fun x hx => next_setHeader (hf x hx)
  refine ⟨hl.congr hn hb, ?_, hc, ?_, ?_, ?_, ?_⟩
  · intro x hx
    rw [hb x hx, hn x hx]
    exact ht x hx
  · rw [region_congr hb, hr, hj.region]
  · rw [Finset.sum_congr rfl hb, hsum, hj.sum]
  · intro x hx hxb hxn
    obtain ⟨hx1, hxu⟩ := hj.keep x hx hxn
    have hx2 := hk x hx1 fun he => hi.notMem (he ▸ hx)
    refine ⟨hx2, ?_⟩
    rw [hb x hx2, ← hxu]
    by_cases hxc : x = cur
    · rw [hxc] at hxb hxu ⊢
      rw [update_self]
      exact hcur.resolve_left (hxu ▸ hxb)
    · exact update_of_ne hxc ..
  · intro a ha hab
    have ho : a < cur ∨ cur + 8 ≤ a := by
      by_contra hno
      exact ha (header_mem h hi.curMem (by omega) (by omega))
    rw [mem_setHeader ho, hj.frame a hab]

/-- The second half of `slob_free`. -/
theorem joinPrev_spec (hj : Joined s s1 B B1 b cur) (hi : Incoming s B b cur) (h : FreeRing s.next s.bytes B) :
    ∃ B2, Closed s (joinPrev b cur s1) B B2 b cur := by
  have hbc : b ≠ cur := fun he => hi.notMem (he ▸ hi.curMem)
  unfold joinPrev
  by_cases ha : cur + s1.bytes cur = b
  · rw [if_pos (show cur + slobUnit * s1.units cur = b from ha)]
    dsimp only
    rw [next_setUnits, if_neg (by omega)]
    have hu : update s1.next cur b cur = b := update_self _ _ _
    have hm := hj.list.merge hj.curMem (ha.trans hu.symm)
    have hr := hj.list.region_merge hj.curMem (ha.trans hu.symm)
    have hs := hj.list.sum_merge hj.curMem (ha.trans hu.symm)
    rw [hu] at hm hr hs
    rw [update_of_ne hbc, update_idem] at hm
    have hsi : slobUnit * (s1.units cur + s1.units b) = s1.bytes cur + s1.bytes b := Nat.mul_add ..
    refine ⟨B1.erase b, closed_of hj hi h (Finset.erase_subset _ _) ?_ ?_ (Finset.mem_erase.mpr ⟨hbc.symm, hj.curMem⟩) ?_ ?_
      (fun x hx hxb => Finset.mem_erase.mpr ⟨hxb, hx⟩) (Or.inl ha)⟩
    all_goals rw [hsi]
    · exact hm
    · intro x hx
      by_cases hxc : x = cur
      · rw [hxc, update_self, update_self, ← Nat.add_assoc, ha]
        exact hj.tight b hj.block hbc
      · rw [update_of_ne hxc, update_of_ne hxc]
        exact hj.tight x (Finset.mem_of_mem_erase hx) hxc
    · exact hr
    · exact hs
  · have hsa : update s1.bytes cur (slobUnit * s1.units cur) = s1.bytes := update_eq_self _ _
    rw [if_neg (show ¬cur + slobUnit * s1.units cur = b from ha), ← setHeader_units]
    refine ⟨B1, closed_of hj hi h subset_rfl ?_ ?_ hj.curMem ?_ ?_ (fun x hx _ => hx) (Or.inr rfl)⟩
    all_goals rw [hsa]
    · exact hj.list
    · intro x hx
      by_cases hxc : x = cur
      · rw [hxc, update_self]
        exact ha
      · rw [update_of_ne hxc]
        exact hj.tight x hx hxc

theorem joinNext_bigblocks : (joinNext b cur s).bigblocks = s.bigblocks := by
  unfold joinNext
  split <;> rfl

theorem joinPrev_bigblocks : (joinPrev b cur s).bigblocks = s.bigblocks := by
  unfold joinPrev
  split <;> rfl

/-- `slob_free` of a block whose `units` are set: the list takes it over. -/
theorem slobFree_zero (h : s.Free arena B) (hb : b ≠ 0) (hp : 0 < s.units b)
    (hc : ∀ y ∈ B, y + s.bytes y ≤ b ∨ b + s.bytes b ≤ y) (hbe : b + s.bytes b ≤ addrSize)
    (hl : arena + slobUnit ≠ b) (hh : b + s.bytes b ≠ arena) :
    ∃ s' B', slobFree b 0 s = .ok s' ∧ Freed s s' arena B b (s.units b) B' := by
  have hbB : b ∉ B := by
    intro hm
    have := hc b hm
    unfold bytes slobUnit at this
    omega
  obtain ⟨cur, hcur, hf, hpl⟩ := findPoint_spec h hbB
  have hi : Incoming s B b cur := ⟨hcur, hpl, hp, hc⟩
  have hjo : ∃ B1, Joined s (joinNext b cur s) B B1 b cur := by
    by_cases ha : b + s.bytes b = s.next cur
    · refine ⟨_, joinNext_touch h.list h.tight hi ha ?_⟩
      -- the arena does not touch the block, so it is not the only one in the list
      intro hs
      have := h.list.eq_of_next_self hcur hs h.arenaMem
      omega
    · exact ⟨_, joinNext_apart h.list h.tight hi ha⟩
  obtain ⟨B1, hj⟩ := hjo
  obtain ⟨B2, hcl⟩ := joinPrev_spec hj hi h.list
  have har := hcl.keep arena h.arenaMem (by unfold bytes; rw [h.one]; exact hl) hh.symm
  refine ⟨{ joinPrev b cur (joinNext b cur s) with slobfree := cur }, B2, ?_, ?_, hcl.region, hcl.sum, ?_, hcl.frame⟩
  · unfold slobFree
    rw [if_neg hb]
    simp only [ne_eq, not_true_eq_false, if_false, hf, bind_ok, pure_eq_ok]
  · have hca : ∀ x ∈ Rings.region (joinPrev b cur (joinNext b cur s)).bytes B2,
        b ≤ x ∧ x < b + s.bytes b ∨ x ∈ Rings.region s.bytes B := by
      intro x hx
      rwa [hcl.region] at hx
    refine ⟨hcl.list, hcl.tight, hcl.curMem, har.1, (units_of_bytes har.2).trans h.one, ?_, ?_⟩
    · intro x hx
      rcases hca x hx with hx | hx
      · omega
      · exact h.below x hx
    · intro hx
      rcases hca 0 hx with hx | hx
      · omega
      · exact h.zero hx
  · exact joinPrev_bigblocks.trans joinNext_bigblocks

/-- A word outside of the free blocks does not matter to the list. -/
theorem Free.store (h : s.Free arena B) (ha : a ∉ Rings.region s.bytes B) :
    (s.store a v).Free arena B ∧ ∀ y ∈ B, (s.store a v).bytes y = s.bytes y := by
  have hw : ∀ y ∈ B, ∀ w, y ≤ w → w < y + 8 → (s.store a v).mem w = s.mem w := by
    intro y hy w h1 h2
    refine update_of_ne ?_ _ _
    rintro rfl
    exact ha (header_mem h.list hy h1 h2)
  have hu : ∀ y ∈ B, (s.store a v).units y = s.units y := fun y hy => hw y hy y le_rfl (by omega)
  have hn : ∀ y ∈ B, (s.store a v).next y = s.next y := fun y hy => hw y hy (y + 4) (by omega) (by omega)
  have hb : ∀ y ∈ B, (s.store a v).bytes y = s.bytes y := by
    intro y hy
    unfold bytes
    rw [hu y hy]
  refine ⟨⟨h.list.congr hn hb, ?_, h.head, h.arenaMem, (hu _ h.arenaMem).trans h.one, ?_, ?_⟩, hb⟩
  · intro y hy
    rw [hn y hy, hb y hy]
    exact h.tight y hy
  · rw [region_congr hb]
    exact h.below
  · rw [region_congr hb]
    exact h.zero

/-- What a block must be to be put into the free list. -/
structure Loose (s : Slob) (arena : Nat) (B : Finset Nat) (b u : Nat) : Prop where
  ne : b ≠ 0
  pos : 0 < u
  clear : Disjoint (Set.Ico b (b + slobUnit * u)) (region s.bytes B)
  below : b + slobUnit * u ≤ addrSize
  low : arena + slobUnit ≠ b
  high : b + slobUnit * u ≠ arena

/-- `slob_free`: the list takes the block over. -/
theorem slobFree_spec (size : Nat) (h : s.Free arena B) (hl : Loose s arena B b u)
    (hu : u = if size ≠ 0 then slobUnits size else s.units b) :
    ∃ s' B', slobFree b size s = .ok s' ∧ Freed s s' arena B b u B' := by
  have hp := hl.pos
  have hc := (h.list.clear_iff (by unfold slobUnit; omega)).mp hl.clear
  by_cases hs : size = 0
  · subst hu hs
    exact slobFree_zero h hl.ne hl.pos hc hl.below hl.low hl.high
  · rw [if_pos hs] at hu
    have ho : b ∉ Rings.region s.bytes B := Set.disjoint_left.mp hl.clear ⟨le_rfl, by unfold slobUnit; omega⟩
    obtain ⟨hf, hb⟩ : (s.setUnits b u).Free arena B ∧ ∀ y ∈ B, (s.setUnits b u).bytes y = s.bytes y :=
      Free.store h ho
    have hse : (s.setUnits b u).units b = u := by
      rw [units_setUnits, if_pos rfl]
    have hbb : (s.setUnits b u).bytes b = slobUnit * u := by
      unfold bytes
      rw [hse]
    obtain ⟨s', B', hr, hfr⟩ := slobFree_zero hf hl.ne (by rw [hse]; exact hp)
      (fun y hy => by rw [hb y hy, hbb]; exact hc y hy) (hbb ▸ hl.below) hl.low (hbb ▸ hl.high)
    rw [hse] at hfr
    refine ⟨s', B', ?_, hfr.free, ?_, ?_, hfr.bigblocks, ?_⟩
    · rw [← hr]
      unfold slobFree
      rw [if_neg hl.ne, if_neg hl.ne, if_pos hs, hu]
      rfl
    · rw [hfr.region, region_congr hb]
    · rw [hfr.sum, Finset.sum_congr rfl hb]
    · intro a ha hab
      rw [hfr.frame a (by rwa [region_congr hb]) hab, mem_setUnits (by omega)]

end SlobAux

end Ucore
