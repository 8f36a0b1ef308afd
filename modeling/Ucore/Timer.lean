import Mathlib.Algebra.Group.Nat.Defs
import Ucore.Lib.Checked

/-!
# The timer list

`add_timer`, `del_timer` and `run_timer_list` of `kern/schedule/sched.c`, with the part of `wakeup_proc` they depend on. Timers
and processes are named by their addresses. The timer list is the list of timers from `list_next(&timer_list)` on; a timer that
is not on the list has an empty link, since `timer_init` and `list_del_init` make it so, and that is what `list_empty` tests.

The field `expires` is an `unsigned int`, and its arithmetic wraps around. `wrapped` is no part of the kernel's state: it
records that some operation on an `expires` field wrapped around.
-/

namespace Ucore

open Checked Function

/-- The modulus of `unsigned int`. -/
def uintSize : Nat := 2 ^ 32

/-- `enum proc_state`. -/
inductive ProcState where
  | uninit | sleeping | runnable | zombie
  deriving DecidableEq, Repr

/-- The fields of `struct proc_struct` that the timer list reads and writes. -/
structure Proc where
  state : ProcState
  waitState : Nat
  deriving DecidableEq, Repr

/-- `WT_INTERRUPTED`: the wait can be interrupted. -/
def wtInterrupted : Nat := 0x80000000

/-- `timer_t`. -/
structure Timer where
  expires : Nat
  proc : Nat
  deriving DecidableEq, Repr

structure TimerState where
  timers : Nat → Timer
  timerList : List Nat
  procs : Nat → Proc
  wrapped : Bool

/-- The assertions of `add_timer`, `run_timer_list` and `wakeup_proc`. -/
inductive TimerAssertion where
  | addExpires | addLinked | headExpires | notInterruptible | wakeZombie
  deriving DecidableEq, Repr

/-- `timer->expires -= d`. -/
def TimerState.subExpires (s : TimerState) (t d : Nat) : TimerState :=
  { s with
    timers := update s.timers t
      { s.timers t with expires := ((s.timers t).expires + uintSize - d) % uintSize }
    wrapped := s.wrapped || decide ((s.timers t).expires < d) }

/-- `timer->expires += d`. -/
def TimerState.addExpires (s : TimerState) (t d : Nat) : TimerState :=
  { s with
    timers := update s.timers t { s.timers t with expires := ((s.timers t).expires + d) % uintSize }
    wrapped := s.wrapped || decide (uintSize ≤ (s.timers t).expires + d) }

/-- The loop of `add_timer` over the rest of the list, with the insertion behind it: the rest of the list with the timer in
it. -/
def addLoop (timer : Nat) : List Nat → TimerState → List Nat × TimerState
  | [], s => ([timer], s)
  | next :: le, s =>
    if (s.timers timer).expires < (s.timers next).expires then
      (timer :: next :: le, s.subExpires next (s.timers timer).expires)
    else
      let r := addLoop timer le (s.subExpires timer (s.timers next).expires)
      (next :: r.1, r.2)

/-- `add_timer`. The address 0 is `NULL`. -/
def addTimer (timer : Nat) (s : TimerState) : Except TimerAssertion TimerState := do
  ensure (0 < (s.timers timer).expires ∧ (s.timers timer).proc ≠ 0) .addExpires
  ensure (timer ∉ s.timerList) .addLinked
  let r := addLoop timer s.timerList s
  .ok { r.2 with timerList := r.1 }

/-- `timer_init` of a timer that is on no list. -/
def timerInit (timer proc expires : Nat) (s : TimerState) : TimerState :=
  { s with timers := update s.timers timer ⟨expires, proc⟩ }

/-- `list_next`: the entry behind `x`, none where that is the head of the list. -/
def listNext (x : Nat) : List Nat → Option Nat
  | [] => none
  | a :: l => if a = x then l.head? else listNext x l

/-- `del_timer`. -/
def delTimer (timer : Nat) (s : TimerState) : TimerState :=
  if timer ∈ s.timerList then
    let s :=
      if (s.timers timer).expires ≠ 0 then
        match listNext timer s.timerList with
        | none => s
        | some next => s.addExpires next (s.timers timer).expires
      else s
    { s with timerList := s.timerList.erase timer }
  else s

/-- `wakeup_proc`, less the run queue. -/
def wakeupProc (proc : Nat) (s : TimerState) : Except TimerAssertion TimerState := do
  ensure ((s.procs proc).state ≠ .zombie) .wakeZombie
  if (s.procs proc).state ≠ .runnable then
    .ok { s with procs := update s.procs proc ⟨.runnable, 0⟩ }
  else .ok s

/-- The loop of `run_timer_list` from a timer on: the timers that fired, each with the process that was passed to
`wakeup_proc`. -/
def fireLoop : List Nat → TimerState → Except TimerAssertion (List (Nat × Nat) × TimerState)
  | [], s => .ok ([], s)
  | timer :: le, s =>
    if (s.timers timer).expires = 0 then do
      let proc := (s.timers timer).proc
      ensure ((s.procs proc).waitState = 0 ∨ (s.procs proc).waitState &&& wtInterrupted ≠ 0) .notInterruptible
      let s ← wakeupProc proc s
      let r ← fireLoop le (delTimer timer s)
      .ok ((timer, proc) :: r.1, r.2)
    else .ok ([], s)

/-- `run_timer_list`, less `sched_class_proc_tick`, which touches no timer. -/
def runTimerList (s : TimerState) : Except TimerAssertion (List (Nat × Nat) × TimerState) :=
  match s.timerList with
  | [] => .ok ([], s)
  | timer :: le => do
    ensure ((s.timers timer).expires ≠ 0) .headExpires
    fireLoop (timer :: le) (s.subExpires timer 1)

/-- What happens to the timer list: a timer is initialised and added, a timer is deleted, the clock ticks, or other code of the
kernel changes the state of a process. -/
inductive TimerOp where
  | add (timer proc expires : Nat)
  | del (timer : Nat)
  | tick
  | setProc (proc : Nat) (p : Proc)
  deriving DecidableEq, Repr

/-- One operation: the timers that fired in it and the state it leaves. -/
def stepTimer (s : TimerState) : TimerOp → Except TimerAssertion (List (Nat × Nat) × TimerState)
  | .add timer proc expires => do
    let s ← addTimer timer (timerInit timer proc expires s)
    .ok ([], s)
  | .del timer => .ok ([], delTimer timer s)
  | .tick => runTimerList s
  | .setProc proc p => .ok ([], { s with procs := update s.procs proc p })

end Ucore
