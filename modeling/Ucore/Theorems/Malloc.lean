import Mathlib.Algebra.Group.Nat.Defs
import Ucore.Malloc

/-!
# The blocks that `malloc` returns

The header of a block that `malloc` returns says that it has as many units as `malloc` computed for the size, however the ring of
free blocks looks like. That computation wraps around for the last 63 sizes, which get a block of one unit: its header and no byte
behind it (`malloc_block_iff`).
-/

namespace Ucore

namespace UserHeap

/-- The bytes of the block behind its header, for the pointer that `malloc` returned. -/
def room (h : UserHeap) (ap : UInt32) : Nat := ((h.headers (ap - 64)).size.toNat - 1) * 64

variable {sysBrk : SysBrk} {nunits type prevp p ap : UInt32} {h h' : UserHeap}

theorem size_take (h : UserHeap) (nunits type prevp p : UInt32) : ((h.take nunits type prevp p).headers p).size = nunits := by
  by_cases hs : (h.headers p).size = nunits
  · rw [take, if_pos hs]
    by_cases hp : p = prevp
    · subst hp
      simpa [set] using hs
    · simpa [set, hp] using hs
  · rw [take, if_neg hs]
    simp [set]

/-- However many rounds the search takes, the block it returns has the units that were asked for. -/
theorem search_size : ∀ (rounds : Nat) (prevp p : UInt32) (h : UserHeap),
    h.search sysBrk nunits type rounds prevp p = some (some ap, h') → (h'.headers (ap - 64)).size = nunits := by
  intro rounds
  induction rounds with
  | zero =>
    intro prevp p h hr
    cases hr
  | succ rounds ih =>
    intro prevp p h hr
    rw [search] at hr
    split at hr
    · cases hr
      simp [skip, size_take]
    · split at hr
      · obtain ⟨m, hm, hr⟩ := Option.bind_eq_some_iff.mp hr
        split at hr
        · exact ih _ _ _ hr
        · cases hr
      · exact ih _ _ _ hr

/-- The units for a size, as the code computes them. -/
theorem units_toNat (size : UInt32) : (units size).toNat = (size.toNat + 63) % 2 ^ 32 / 64 + 1 := by
  simp [units, UInt32.toNat_add, UInt32.toNat_div, UInt32.toNat_sub]
  omega

end UserHeap

open UserHeap

/-- The block that `malloc` returned has room for the bytes that were asked for exactly if their number with a header less one fits
32 bits. -/
theorem malloc_block_iff {sysBrk : SysBrk} {rounds : Nat} {size ap : UInt32} {h h' : UserHeap}
    (hr : h.malloc sysBrk rounds size = some (some ap, h')) : size.toNat ≤ h'.room ap ↔ size.toNat + 63 < 2 ^ 32 := by
  rw [room, search_size _ _ _ _ hr, units_toNat]
  omega

namespace UserHeap

/-- A heap before the first call, with a break that `sys_brk` sets as it is asked to. -/
def newHeap : UserHeap := ⟨fun _ => ⟨0, 0, 0⟩, 0x800100, none, 0, 0⟩

def grantBrk : SysBrk := fun _ brk => (0, if brk = 0 then 0x801000 else brk)

end UserHeap

/-- 100 bytes from a new heap. -/
theorem malloc_block_iff_small : ∃ ap h', newHeap.malloc grantBrk 4 100 = some (some ap, h') ∧ 100 ≤ h'.room ap := by
  obtain ⟨ap, h', hr⟩ : ∃ ap h', newHeap.malloc grantBrk 4 100 = some (some ap, h') := ⟨_, _, rfl⟩
  exact ⟨ap, h', hr, (malloc_block_iff hr).mpr (by decide)⟩

/-- All bytes but one of the address space are asked for, and a block of one unit is returned. -/
theorem malloc_short_block : ∃ h', newHeap.malloc grantBrk 4 0xFFFFFFFF = some (some 0x801040, h') ∧ h'.room 0x801040 = 0 :=
  ⟨_, rfl, rfl⟩

end Ucore
