import Ucore.Timer

/-!
# The scheduler

`wakeup_proc`, `schedule` and the round robin class of `kern/schedule/sched.c` and `kern/schedule/default_sched.c`, on the fields
of `struct proc_struct` that they use. Processes are named by their addresses. The run queue is the list of processes from
`list_next(&run_list)` on; a process that is not on it has an empty `run_link`, since `alloc_proc` and `list_del_init` make it so,
and that is what `list_empty` tests.

The lists `entered` and `left` are no part of the kernel's state: they record which processes were put on the run queue and which
were taken from it, in the order of time.
-/

namespace Ucore

open Checked

/-- `WT_CHILD`: the process waits for a child. -/
def wtChild : Nat := 0x00000001 ||| wtInterrupted

/-- `WT_TIMER`: the process waits for a timer. -/
def wtTimer : Nat := 0x00000002 ||| wtInterrupted

/-- `WT_KBD`: the process waits for the keyboard. -/
def wtKbd : Nat := 0x00000004 ||| wtInterrupted

/-- `WT_KSEM`: the process waits for a semaphore of the kernel. -/
def wtKsem : Nat := 0x00000100

/-- `MAX_TIME_SLICE` -/
def maxTimeSlice : Nat := 5

/-- The fields of `struct proc_struct` that the scheduler reads and writes. `rq` says that `proc->rq` is the run queue. -/
structure SchedProc where
  state : ProcState
  waitState : Nat
  needResched : Bool
  timeSlice : Nat
  rq : Bool
  deriving DecidableEq, Repr

/-- What `alloc_proc` writes into these fields. -/
def SchedProc.alloc : SchedProc := ⟨.uninit, 0, false, 0, false⟩

structure Sched where
  procs : Nat → SchedProc
  current : Nat
  idleproc : Nat
  runList : List Nat
  procNum : Nat
  entered : List Nat
  left : List Nat

/-- The assertions of `RR_enqueue`, `RR_dequeue` and `wakeup_proc`. -/
inductive SchedAssertion where
  | enqueueLinked | dequeueUnlinked | wakeZombie
  deriving DecidableEq, Repr

namespace Sched

/-- A write to the fields of a process. -/
def setProc (p : Nat) (f : SchedProc) (s : Sched) : Sched := { s with procs := Function.update s.procs p f }

/-- `RR_enqueue` -/
def rrEnqueue (p : Nat) (s : Sched) : Except SchedAssertion Sched := do
  ensure (p ∉ s.runList) .enqueueLinked
  let slice := (s.procs p).timeSlice
  let slice := if slice = 0 ∨ maxTimeSlice < slice then maxTimeSlice else slice
  return { s.setProc p { s.procs p with timeSlice := slice, rq := true } with
    runList := s.runList ++ [p], procNum := s.procNum + 1, entered := s.entered ++ [p] }

/-- `RR_dequeue` -/
def rrDequeue (p : Nat) (s : Sched) : Except SchedAssertion Sched := do
  ensure (p ∈ s.runList ∧ (s.procs p).rq = true) .dequeueUnlinked
  return { s with runList := s.runList.erase p, procNum := s.procNum - 1, left := s.left ++ [p] }

/-- `RR_pick_next` -/
def rrPickNext (s : Sched) : Option Nat := s.runList.head?

/-- `RR_proc_tick` -/
def rrProcTick (p : Nat) (s : Sched) : Sched :=
  let slice := (s.procs p).timeSlice - 1
  s.setProc p { s.procs p with timeSlice := slice, needResched := (s.procs p).needResched || decide (slice = 0) }

/-- `sched_class_enqueue` -/
def schedClassEnqueue (p : Nat) (s : Sched) : Except SchedAssertion Sched := if p ≠ s.idleproc then rrEnqueue p s else .ok s

/-- `sched_class_proc_tick` on the current process. -/
def schedClassProcTick (s : Sched) : Sched :=
  if s.current ≠ s.idleproc then rrProcTick s.current s
  else s.setProc s.current { s.procs s.current with needResched := true }

/-- `wakeup_proc`. A process that is runnable already gets a warning and nothing else. -/
def wakeupProc (p : Nat) (s : Sched) : Except SchedAssertion Sched := do
  ensure ((s.procs p).state ≠ .zombie) .wakeZombie
  if (s.procs p).state ≠ .runnable then
    let s := s.setProc p { s.procs p with state := .runnable, waitState := 0 }
    if p ≠ s.current then schedClassEnqueue p s else return s
  else return s

/-- The first half of `schedule`: the current process goes back into the run queue, if it is runnable. -/
def putCurrent (s : Sched) : Except SchedAssertion Sched :=
  if (s.procs s.current).state = .runnable then schedClassEnqueue s.current s else .ok s

/-- The second half of `schedule`, with `proc_run` in it. -/
def runNext (s : Sched) : Except SchedAssertion Sched :=
  match rrPickNext s with
  | none => .ok { s with current := s.idleproc }
  | some next => do
    let s ← rrDequeue next s
    return { s with current := next }

/-- `schedule` -/
def schedule (s : Sched) : Except SchedAssertion Sched := do
  let s ← putCurrent (s.setProc s.current { s.procs s.current with needResched := false })
  runNext s

end Sched

end Ucore
