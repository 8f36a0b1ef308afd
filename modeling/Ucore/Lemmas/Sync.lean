import Ucore.Lib.RingWindow
import Ucore.Sync

/-!
# The law of a semaphore, and that of the keyboard buffer

`SemOk` ties a semaphore's value and queue to what happened to it. `Stdin.Sound` is what holds of the positions of the keyboard buffer as
long as they do not wrap around; `Stdin.Fifo` is the law of a queue, which holds as long as in addition no character comes while the
buffer is full.
-/

namespace Ucore

open RingWindow Function

/-- The law of a semaphore that started with the value `v`. -/
structure SemOk (v : Int) (s : Semaphore) (l : SemLog) : Prop where
  nonneg : 0 ≤ s.value
  small : s.value < 2 ^ 31
  idle : 0 < s.value → s.waitQueue = []
  count : (l.downs : Int) + s.value = v + l.ups
  fifo : l.blocked = l.granted ++ s.waitQueue

section

variable {v : Int} {s : Semaphore} {l : SemLog} {p : Nat}

theorem int32_of_small {x : Int} (h0 : 0 ≤ x) (h : x < 2 ^ 31) : int32 x = x := by
  unfold int32
  rw [Int.bmod_eq_of_le (by omega) (by omega)]

section

variable (h : SemOk v s l)
include h

/-- A `down` or a `try_down` takes a unit. -/
theorem SemOk.taken (hv : 0 < s.value) : SemOk v { s with value := s.value - 1 } l.taken where
  nonneg := by
    change 0 ≤ s.value - 1
    omega
  small := by
    have := h.small
    change s.value - 1 < 2 ^ 31
    omega
  idle _ := h.idle hv
  count := by
    have := h.count
    change ((l.downs + 1 : Nat) : Int) + (s.value - 1) = v + l.ups
    omega
  fifo := h.fifo

/-- A `down` that finds no unit puts its process at the end of the queue. -/
theorem SemOk.block (hv : ¬0 < s.value) (p : Nat) : SemOk v { s with waitQueue := s.waitQueue ++ [p] } (l.block p) where
  nonneg := h.nonneg
  small := h.small
  idle hp := absurd hp hv
  count := h.count
  fifo := by
    change l.blocked ++ [p] = l.granted ++ (s.waitQueue ++ [p])
    rw [h.fifo, List.append_assoc]

theorem SemOk.tryDown : SemOk v s.tryDown.2 (if s.tryDown.1 then l.taken else l) := by
  unfold Semaphore.tryDown
  by_cases hv : 0 < s.value
  · rw [if_pos hv]
    exact h.taken hv
  · rw [if_neg hv]
    exact h

/-- An `up` that finds nobody waiting. -/
theorem SemOk.raise (hq : s.waitQueue = []) (hv : s.value < 2 ^ 31 - 1) :
    SemOk v { s with value := int32 (s.value + 1) } l.raised := by
  have h0 := h.nonneg
  have hc := h.count
  have hval : int32 (s.value + 1) = s.value + 1 := int32_of_small (by omega) (by omega)
  refine ⟨?_, ?_, fun _ => hq, ?_, h.fifo⟩
  · change 0 ≤ int32 (s.value + 1)
    omega
  · change int32 (s.value + 1) < 2 ^ 31
    omega
  · change (l.downs : Int) + int32 (s.value + 1) = v + ((l.ups + 1 : Nat) : Int)
    omega

/-- An `up` hands its unit to the process that has waited longest. -/
theorem SemOk.grant {rest : List Nat} (hq : s.waitQueue = p :: rest) : SemOk v { s with waitQueue := rest } (l.grant p) where
  nonneg := h.nonneg
  small := h.small
  idle hp := by
    have hn := h.idle hp
    rw [hq] at hn
    cases hn
  count := by
    have hc := h.count
    change ((l.downs + 1 : Nat) : Int) + s.value = v + ((l.ups + 1 : Nat) : Int)
    omega
  fifo := by
    change l.blocked = (l.granted ++ [p]) ++ rest
    rw [h.fifo, hq, List.append_assoc, List.singleton_append]

end

end


/-! ## The keyboard buffer -/

namespace Stdin

variable {d : Stdin}

/-- The positions, as long as they have not wrapped around. -/
structure Sound (d : Stdin) : Prop where
  nonneg : 0 ≤ d.pRpos
  le : d.pRpos ≤ d.pWpos
  small : d.pWpos < 2 ^ 31
  room : d.pWpos - d.pRpos ≤ stdinBufsize

/-- The buffer holds what has been accepted and not yet delivered, and what has been delivered is the beginning of what has been
accepted. -/
structure Fifo (d : Stdin) : Prop extends d.Sound where
  reads : d.pRpos = d.delivered.length
  writes : d.pWpos = d.accepted.length
  front : d.delivered <+: d.accepted
  cells : Holds 4096 (fun j => d.stdinBuffer j) d.accepted d.delivered.length

theorem Sound.int32_sub (h : d.Sound) : int32 (d.pWpos - d.pRpos) = d.pWpos - d.pRpos := by
  have h1 := h.nonneg
  have h2 := h.le
  have h3 := h.small
  exact int32_of_small (by omega) (by omega)

/-- A character that comes while the buffer is not full. -/
theorem write_of_room (h : d.Sound) (hw : d.pWpos < 2 ^ 31 - 1) (hr : d.pWpos - d.pRpos < stdinBufsize) (c : UInt8) :
    d.write c = { d with
      stdinBuffer := update d.stdinBuffer (d.pWpos.tmod stdinBufsize) c
      pWpos := d.pWpos + 1
      accepted := d.accepted ++ [c] } := by
  have h1 := h.nonneg
  have h2 := h.le
  have hp : int32 (d.pWpos + 1) = d.pWpos + 1 := int32_of_small (by omega) (by omega)
  unfold write
  dsimp only
  rw [h.int32_sub, if_pos hr, hp]

/-- A character that comes while the buffer is full is stored in the place of the oldest one. -/
theorem write_of_full (h : d.Sound) (hf : d.pWpos - d.pRpos = stdinBufsize) (c : UInt8) :
    d.write c = { d with stdinBuffer := update d.stdinBuffer (d.pWpos.tmod stdinBufsize) c } := by
  unfold write
  dsimp only
  rw [h.int32_sub, if_neg (by omega)]

/-- The write position passes the largest `off_t`. -/
theorem write_wraps (hr : d.pRpos = 2 ^ 31 - 1) (hw : d.pWpos = 2 ^ 31 - 1) (c : UInt8) :
    (d.write c).pRpos = 2 ^ 31 - 1 ∧ (d.write c).pWpos = -2 ^ 31 := by
  have hro : int32 (d.pWpos - d.pRpos) < stdinBufsize := by
    rw [hr, hw]
    decide
  have hp : int32 (d.pWpos + 1) = -2 ^ 31 := by
    rw [hw]
    decide
  unfold write
  rw [if_pos hro]
  exact ⟨hr, hp⟩

theorem Sound.write (h : d.Sound) (hw : d.pWpos < 2 ^ 31 - 1) (c : UInt8) : (d.write c).Sound := by
  have h1 := h.nonneg
  have h2 := h.le
  have h3 := h.room
  by_cases hr : d.pWpos - d.pRpos < stdinBufsize
  · rw [write_of_room h hw hr]
    refine ⟨h1, ?_, ?_, ?_⟩
    all_goals dsimp only; omega
  · rw [write_of_full h (by omega)]
    exact ⟨h1, h2, h.small, h3⟩

theorem tmod_natCast (n : Nat) : (n : Int).tmod stdinBufsize = ((n % 4096 : Nat) : Int) := rfl

/-- The cells after a write. -/
theorem update_natCast (f : Int → UInt8) (n : Nat) (c : UInt8) :
    (fun j : Nat => update f (n : Int) c (j : Int)) = update (fun j : Nat => f j) n c := by
  funext j
  by_cases hj : j = n
  · rw [hj, update_self, update_self]
  · rw [update_of_ne hj, update_of_ne (by omega)]

theorem Fifo.write (h : d.Fifo) (hw : d.pWpos < 2 ^ 31 - 1) (hr : d.pWpos - d.pRpos < stdinBufsize) (c : UInt8) :
    (d.write c).Fifo := by
  have hs := h.toSound.write hw c
  rw [write_of_room h.toSound hw hr] at hs ⊢
  refine ⟨hs, h.reads, ?_, ?_, ?_⟩
  · have := h.writes
    simp only [List.length_append, List.length_singleton]
    omega
  · exact h.front.trans (List.prefix_append ..)
  · have hl : d.accepted.length < d.delivered.length + 4096 := by
      have h1 := h.writes
      have h2 := h.reads
      unfold stdinBufsize at hr
      omega
    have hcells := h.cells.snoc hl c
    rw [h.writes, tmod_natCast, update_natCast]
    exact hcells

/-- The position of the reader, after a round of the loop. -/
theorem take_pRpos (h : d.Sound) (hlt : d.pRpos < d.pWpos) : d.take.pRpos = d.pRpos + 1 := by
  have h1 := h.nonneg
  have h2 := h.small
  exact int32_of_small (by omega) (by omega)

theorem Sound.take (h : d.Sound) (hlt : d.pRpos < d.pWpos) : d.take.Sound := by
  have hp := take_pRpos h hlt
  have hw : d.take.pWpos = d.pWpos := rfl
  have h1 := h.nonneg
  have h2 := h.room
  refine ⟨?_, ?_, h.small, ?_⟩
  all_goals omega

theorem Fifo.take (h : d.Fifo) (hlt : d.pRpos < d.pWpos) : d.take.Fifo := by
  have hp := take_pRpos h.toSound hlt
  have hreads := h.reads
  have hwrites := h.writes
  have hin : d.delivered.length < d.accepted.length := by omega
  have hc : d.stdinBuffer (d.pRpos.tmod stdinBufsize) = d.accepted[d.delivered.length] := by
    rw [hreads]
    exact h.cells d.delivered.length _ (Nat.le_refl _) (List.getElem?_eq_getElem hin)
  have hd : d.take.delivered = d.delivered ++ [d.accepted[d.delivered.length]] := by
    rw [← hc]
    rfl
  refine ⟨h.toSound.take hlt, ?_, hwrites, ?_, ?_⟩
  · rw [hd, List.length_append, List.length_singleton]
    omega
  · rw [hd]
    have ht := List.prefix_iff_eq_take.mp h.front
    have hn : d.delivered ++ [d.accepted[d.delivered.length]] = d.accepted.take (d.delivered.length + 1) := by
      rw [List.take_add_one, ← ht, List.getElem?_eq_getElem hin]
      rfl
    rw [hn]
    exact List.take_prefix ..
  · rw [hd, List.length_append]
    exact h.cells.advance

/-- What every round of the loop of `dev_stdin_read` keeps, the loop keeps; and it stops before its end only where nothing is left
to read. -/
theorem readLoop_invariant {I : Stdin → Prop} (ht : ∀ d, I d → d.pRpos < d.pWpos → I d.take) (n : Nat) :
    ∀ d, I d → I (d.readLoop n).2 ∧ ((d.readLoop n).1 ≠ 0 → ¬(d.readLoop n).2.pRpos < (d.readLoop n).2.pWpos) := by
  induction n with
  | zero => exact fun d h => ⟨h, fun hne => absurd rfl hne⟩
  | succ n ih =>
    intro d h
    unfold readLoop
    by_cases hlt : d.pRpos < d.pWpos
    · rw [if_pos hlt]
      exact ih d.take (ht d h hlt)
    · rw [if_neg hlt]
      exact ⟨h, fun _ => hlt⟩

end Stdin

end Ucore
