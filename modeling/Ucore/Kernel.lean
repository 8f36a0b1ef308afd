import Ucore.Sched
import Ucore.Proc
import Ucore.Sync

/-!
# Processes that block and wake

The kernel's processes on one processor, with what they do to each other: `do_fork`, `do_exit`, `do_wait` and `do_kill` of
`kern/process/proc.c`, `down`, `up` and `try_down` of `kern/sync/sem.c`, `dev_stdin_read` and `dev_stdin_write`, `do_sleep` and
the timers, and `schedule`.

The kernel is not preemptive: a process that runs in the kernel gives up the processor only where it calls `schedule`, and a
process in user mode only through a trap. Interrupts come at any point outside the interrupt-disabled sections. So the state is
the kernel's data together with the point where each process is, and a step is an interrupt or what the current process does up to
the next such point. `inSchedule` says that a process is inside of `schedule`, from where the processor went to another one.

A process has one wait entry or timer at a time, on its stack: `wakeupFlags` is the field of its entry, and a queue or the list of
timers holds it as long as its entry is linked there. When a timer expires is left open; the timer list itself has its own model.

`semLog` is no part of the kernel's state: it records what happened to the semaphores.
-/

namespace Ucore

open Checked Function

/-- Where a process is in the kernel. -/
inductive Point where
  /-- In user mode, or at a point of the kernel outside the calls below. -/
  | run
  /-- In `do_fork`, before it calls `wakeup_proc` for the child. -/
  | linked (child : Nat)
  /-- In `do_kill`, before it calls `wakeup_proc`. -/
  | killing (proc : Nat)
  /-- In `do_wait`, after `current->state = PROC_SLEEPING`. -/
  | marked (pid : Int)
  /-- In `do_wait`, at the call of `schedule`. -/
  | waiting (pid : Int)
  /-- In `do_wait`, at the label `found`. -/
  | reaping (proc : Nat)
  /-- In `__down`, at the call of `schedule`. -/
  | downing (sem : Nat)
  /-- In `dev_stdin_read`, at the call of `schedule`, with so many characters still to read. -/
  | reading (n : Nat)
  /-- In `do_sleep`, at the call of `schedule`. -/
  | sleeping
  /-- In `do_exit`, after `current->state = PROC_ZOMBIE`. -/
  | exiting
  /-- In `do_exit`, at the call of `schedule`. -/
  | exited
  /-- At another call of `schedule`. -/
  | yielding
  deriving DecidableEq, Repr

structure Kernel where
  sched : Sched
  family : Family
  pids : Pids
  initproc : Nat
  /-- `flags & PF_EXITING` -/
  exiting : Nat → Bool
  wakeupFlags : Nat → Nat
  sems : Nat → Semaphore
  stdin : Stdin
  timers : List Nat
  point : Nat → Point
  inSchedule : Nat → Bool
  /-- The process is in `do_fork`, between the check of `nr_process` and the links. -/
  forking : Nat → Bool
  semLog : Nat → SemLog

/-- The assertions and panics of the modelled functions. `endless` stands for a loop over the children that does not end. -/
inductive KernelPanic where
  | sched (a : SchedAssertion)
  | forkWaitState | upWaitState | downFlags | timerWaitState
  | exitIdle | exitInit | waitInit | exitReturned | endless
  deriving DecidableEq, Repr

namespace Kernel

/-- `current` -/
def current (k : Kernel) : Nat := k.sched.current

/-- The current process goes on to a point. -/
def go (pt : Point) (k : Kernel) : Kernel := { k with point := update k.point k.current pt }

/-- `wakeup_proc` -/
def wakeup (p : Nat) (k : Kernel) : Except KernelPanic Kernel := do
  let s ← (k.sched.wakeupProc p).mapError .sched
  return { k with sched := s }

/-- The assignments to the state and the wait state of the current process before it sleeps. -/
def setSleeping (waitState : Nat) (k : Kernel) : Kernel :=
  { k with sched := k.sched.setProc k.current { k.sched.procs k.current with state := .sleeping, waitState := waitState } }

/-- `wait_current_set`, less the queue, to which the caller has added the process. -/
def waitCurrentSet (waitState : Nat) (k : Kernel) : Kernel :=
  { k.setSleeping waitState with wakeupFlags := update k.wakeupFlags k.current wtInterrupted }

/-- `wakeup_wait`, less the queue, from which the caller has taken the process. -/
def wakeupWait (p flags : Nat) (k : Kernel) : Except KernelPanic Kernel :=
  wakeup p { k with wakeupFlags := update k.wakeupFlags p flags }

/-! ## Semaphores -/

/-- The semaphore `i` with its record. -/
def setSem (i : Nat) (s : Semaphore) (l : SemLog) (k : Kernel) : Kernel :=
  { k with sems := update k.sems i s, semLog := update k.semLog i l }

/-- `down`, up to the call of `schedule`. -/
def down (i : Nat) (k : Kernel) : Kernel :=
  let r := (k.sems i).down k.current
  if r.1 then k.setSem i r.2 (k.semLog i).taken
  else ((k.setSem i r.2 ((k.semLog i).block k.current)).waitCurrentSet wtKsem).go (.downing i)

/-- `try_down` -/
def tryDown (i : Nat) (k : Kernel) : Kernel :=
  let r := (k.sems i).tryDown
  k.setSem i r.2 (if r.1 then (k.semLog i).taken else k.semLog i)

/-- `up` -/
def up (i : Nat) (k : Kernel) : Except KernelPanic Kernel :=
  match (k.sems i).up with
  | (none, s) => .ok (k.setSem i s (k.semLog i).raised)
  | (some p, s) => do
    ensure ((k.sched.procs p).waitState = wtKsem) .upWaitState
    wakeupWait p wtKsem (k.setSem i s ((k.semLog i).grant p))

/-- `__down` after `schedule`, with the assertion of `down`. -/
def downResume (i : Nat) (k : Kernel) : Except KernelPanic Kernel := do
  let k := k.setSem i ((k.sems i).waitDel k.current) (k.semLog i)
  ensure (k.wakeupFlags k.current = wtKsem) .downFlags
  return k.go .run

/-! ## The keyboard -/

/-- The loop of `wakeup_queue` over the readers. -/
def wakeupReaders : List Nat → Kernel → Except KernelPanic Kernel
  | [], k => .ok k
  | p :: rest, k => do
    let k ← wakeupWait p wtKbd { k with stdin := { k.stdin with waitQueue := rest } }
    wakeupReaders rest k

/-- `dev_stdin_write` for a character that is not 0. -/
def devStdinWrite (c : UInt8) (k : Kernel) : Except KernelPanic Kernel :=
  wakeupReaders k.stdin.waitQueue { k with stdin := k.stdin.write c }

/-- `dev_stdin_read` for a reader that wants `n` more characters, up to its return or its call of `schedule`. -/
def devStdinRead (n : Nat) (k : Kernel) : Kernel :=
  let r := k.stdin.readLoop n
  if r.1 = 0 then { k with stdin := r.2 }.go .run
  else ({ k with stdin := { r.2 with waitQueue := r.2.waitQueue ++ [k.current] } }.waitCurrentSet wtKbd).go (.reading r.1)

/-- `dev_stdin_read` after `schedule`. -/
def readResume (n : Nat) (k : Kernel) : Kernel :=
  let k := { k with stdin := { k.stdin with waitQueue := k.stdin.waitQueue.erase k.current } }
  if k.wakeupFlags k.current = wtKbd then k.devStdinRead n else k.go .run

/-! ## Timers -/

/-- `do_sleep`, up to the call of `schedule`. -/
def doSleep (k : Kernel) : Kernel := ({ k with timers := k.timers ++ [k.current] }.setSleeping wtTimer).go .sleeping

/-- What `run_timer_list` does for the timer of the process `p` that has expired. -/
def expire (p : Nat) (k : Kernel) : Except KernelPanic Kernel := do
  ensure ((k.sched.procs p).waitState = 0 ∨ (k.sched.procs p).waitState &&& wtInterrupted ≠ 0) .timerWaitState
  let k ← k.wakeup p
  return { k with timers := k.timers.erase p }

/-! ## Processes -/

/-- `do_fork` up to the allocation of the child. -/
def forkCheck (k : Kernel) : Except KernelPanic Kernel :=
  if maxProcess ≤ k.family.nrProcess then .ok k
  else do
    ensure ((k.sched.procs k.current).waitState = 0) .forkWaitState
    return { k with forking := update k.forking k.current true }

/-- The child `proc` of the current process as `alloc_proc` and `do_fork` make it, before its links. -/
def allocProc (proc : Nat) (k : Kernel) : Kernel :=
  { k with
    sched := k.sched.setProc proc .alloc
    family := { k.family with
      parent := update k.family.parent proc k.current
      cptr := update k.family.cptr proc none
      yptr := update k.family.yptr proc none
      optr := update k.family.optr proc none }
    exiting := update k.exiting proc false
    point := update k.point proc .yielding
    inSchedule := update k.inSchedule proc true
    forking := update k.forking proc false }

/-- The section of `do_fork`: `get_pid`, `hash_proc` and `set_links`. -/
def forkLink (proc fuel : Nat) (k : Kernel) : Except KernelPanic Kernel :=
  match k.pids.getPid fuel k.family.procList with
  | none => .error .endless
  | some pids =>
    let k := k.allocProc proc
    .ok ({ k with
      pids := { pids with pid := update pids.pid proc pids.lastPid }.hashProc proc
      family := k.family.setLinks proc
      forking := update k.forking k.current false }.go (.linked proc))

/-- `do_exit` up to its section. -/
def doExit (k : Kernel) : Except KernelPanic Kernel := do
  ensure (k.current ≠ k.sched.idleproc) .exitIdle
  ensure (k.current ≠ k.initproc) .exitInit
  return { k with sched := k.sched.setProc k.current { k.sched.procs k.current with state := .zombie } }.go .exiting

/-- `wakeup_proc` for a process whose wait state is `WT_CHILD`. -/
def wakeupParent (p : Nat) (k : Kernel) : Except KernelPanic Kernel :=
  if (k.sched.procs p).waitState = wtChild then k.wakeup p else .ok k

/-- A round of the loop of `do_exit`, for the child `proc`. -/
def adopt (proc : Nat) (k : Kernel) : Except KernelPanic Kernel :=
  let k := { k with family := k.family.adopt k.current k.initproc proc }
  if (k.sched.procs proc).state = .zombie then k.wakeupParent k.initproc else .ok k

/-- The loop of `do_exit` over the children of the current process. -/
def adoptAll : Nat → Kernel → Except KernelPanic Kernel
  | fuel, k =>
    match k.family.cptr k.current with
    | none => .ok k
    | some proc =>
      match fuel with
      | 0 => .error .endless
      | fuel + 1 => do
        let k ← k.adopt proc
        adoptAll fuel k

/-- The section of `do_exit`. -/
def exitLinks (k : Kernel) : Except KernelPanic Kernel := do
  let k ← k.wakeupParent (k.family.parent k.current)
  let k ← k.adoptAll k.family.nrProcess
  return k.go .exited

/-- The loop of `do_wait` over the children, from a child on: the first one that is a zombie. -/
def firstZombie (k : Kernel) : Nat → Option Nat → Except KernelPanic (Option Nat)
  | _, none => .ok none
  | 0, some _ => .error .endless
  | fuel + 1, some proc =>
    if (k.sched.procs proc).state = .zombie then .ok (some proc) else k.firstZombie fuel (k.family.optr proc)

/-- `do_wait` from the label `repeat` on. -/
def doWait (pid : Int) (k : Kernel) : Except KernelPanic Kernel :=
  let sleep (k : Kernel) : Kernel :=
    { k with sched := k.sched.setProc k.current { k.sched.procs k.current with state := .sleeping } }.go (.marked pid)
  if pid ≠ 0 then
    match k.pids.findProc pid with
    | none => .ok (k.go .run)
    | some proc =>
      if k.family.parent proc ≠ k.current then .ok (k.go .run)
      else if (k.sched.procs proc).state = .zombie then .ok (k.go (.reaping proc))
      else .ok (sleep k)
  else do
    let zombie ← k.firstZombie k.family.nrProcess (k.family.cptr k.current)
    match zombie with
    | some proc => return k.go (.reaping proc)
    | none => return if k.family.cptr k.current = none then k.go .run else sleep k

/-- The wait state that `do_wait` sets before it calls `schedule`. -/
def waitMark (pid : Int) (k : Kernel) : Kernel :=
  { k with sched := k.sched.setProc k.current { k.sched.procs k.current with waitState := wtChild } }.go (.waiting pid)

/-- `do_wait` after `schedule`. -/
def waitResume (pid : Int) (k : Kernel) : Except KernelPanic Kernel :=
  if k.exiting k.current then k.doExit else k.doWait pid

/-- `do_wait` from the label `found` on. -/
def reap (proc : Nat) (k : Kernel) : Except KernelPanic Kernel := do
  ensure (proc ≠ k.sched.idleproc ∧ proc ≠ k.initproc) .waitInit
  return { k with pids := k.pids.unhashProc proc, family := k.family.removeLinks proc }.go .run

/-- `do_kill`, up to its call of `wakeup_proc`. -/
def doKill (pid : Int) (k : Kernel) : Kernel :=
  match k.pids.findProc pid with
  | none => k
  | some proc =>
    if k.exiting proc then k
    else
      let k := { k with exiting := update k.exiting proc true }
      if (k.sched.procs proc).waitState &&& wtInterrupted ≠ 0 then k.go (.killing proc) else k

/-! ## Steps -/

/-- The call of `schedule` by the current process. -/
def callSchedule (k : Kernel) : Except KernelPanic Kernel := do
  let s ← (k.sched.schedule).mapError .sched
  return { k with sched := s, inSchedule := update k.inSchedule k.current true }

/-- What the current process does next, from a point other than `run`. -/
def proceed (k : Kernel) : Except KernelPanic Kernel :=
  match k.point k.current with
  | .run => .ok k
  | .linked child => do
    let k ← k.wakeup child
    return k.go .run
  | .killing proc => do
    let k ← k.wakeup proc
    return k.go .run
  | .marked pid => .ok (k.waitMark pid)
  | .reaping proc => k.reap proc
  | .exiting => k.exitLinks
  | .waiting _ | .downing _ | .reading _ | .sleeping | .exited | .yielding => k.callSchedule

/-- The current process comes back from `schedule`. -/
def left (k : Kernel) : Kernel := { k with inSchedule := update k.inSchedule k.current false }

/-- What the current process does after its call of `schedule`. -/
def afterSchedule (k : Kernel) : Except KernelPanic Kernel :=
  match k.point k.current with
  | .waiting pid => k.waitResume pid
  | .downing i => k.downResume i
  | .reading n => .ok (k.readResume n)
  | .sleeping => .ok ({ k with timers := k.timers.erase k.current }.go .run)
  | .exited => .error .exitReturned
  | _ => .ok (k.go .run)

def resume (k : Kernel) : Except KernelPanic Kernel := k.left.afterSchedule

end Kernel

/-- What can happen next: an interrupt, a step of the current process that its point fixes, or a call that it makes. -/
inductive Event where
  | clock
  | expire (proc : Nat)
  | key (c : UInt8)
  | proceed
  | resume
  | yield
  | fork
  | forkFail
  | forkLink (proc fuel : Nat)
  | exit
  | wait (pid : Int)
  | kill (pid : Int)
  | down (sem : Nat)
  | up (sem : Nat)
  | tryDown (sem : Nat)
  | read (len : Nat)
  | sleep
  deriving DecidableEq, Repr

namespace Kernel

/-- The current process is at the point `run`; `idleproc` only ever calls `schedule` there. -/
structure Runs (k : Kernel) : Prop where
  run : k.point k.current = .run
  out : k.inSchedule k.current = false
  busy : k.current ≠ k.sched.idleproc

/-- The current process is at the point `run`, and in no call of `do_fork`. -/
structure Calls (k : Kernel) : Prop extends k.Runs where
  idle : k.forking k.current = false

instance (k : Kernel) : Decidable k.Runs :=
  decidable_of_iff (k.point k.current = .run ∧ k.inSchedule k.current = false ∧ k.current ≠ k.sched.idleproc)
    ⟨fun h => ⟨h.1, h.2.1, h.2.2⟩, fun h => ⟨h.run, h.out, h.busy⟩⟩

instance (k : Kernel) : Decidable k.Calls :=
  decidable_of_iff (k.Runs ∧ k.forking k.current = false) ⟨fun h => ⟨h.1, h.2⟩, fun h => ⟨h.toRuns, h.idle⟩⟩

/-- The events that are possible. A new process gets an address that no process has. -/
def Enabled (k : Kernel) : Event → Prop
  | .clock => True
  | .expire proc => proc ∈ k.timers
  | .key c => c ≠ 0
  | .proceed => k.point k.current ≠ .run ∧ k.inSchedule k.current = false
  | .resume => k.inSchedule k.current = true
  | .yield => k.point k.current = .run ∧ k.inSchedule k.current = false
  | .fork | .exit | .wait _ | .kill _ | .read _ | .sleep => k.Calls
  | .forkFail => k.Runs ∧ k.forking k.current = true
  | .forkLink proc fuel => k.Runs ∧ k.forking k.current = true ∧ proc ≠ 0 ∧ proc ≠ k.sched.idleproc ∧
      proc ∉ k.family.procList ∧ (k.pids.getPid fuel k.family.procList).isSome
  | .down _ | .up _ | .tryDown _ => k.Runs

instance (k : Kernel) : DecidablePred k.Enabled
  | .clock => inferInstanceAs (Decidable True)
  | .expire proc => inferInstanceAs (Decidable (proc ∈ k.timers))
  | .key c => inferInstanceAs (Decidable (c ≠ 0))
  | .proceed => inferInstanceAs (Decidable (k.point k.current ≠ .run ∧ k.inSchedule k.current = false))
  | .resume => inferInstanceAs (Decidable (k.inSchedule k.current = true))
  | .yield => inferInstanceAs (Decidable (k.point k.current = .run ∧ k.inSchedule k.current = false))
  | .fork | .exit | .wait _ | .kill _ | .read _ | .sleep => inferInstanceAs (Decidable k.Calls)
  | .forkFail => inferInstanceAs (Decidable (k.Runs ∧ k.forking k.current = true))
  | .forkLink proc fuel => inferInstanceAs (Decidable (k.Runs ∧ k.forking k.current = true ∧ proc ≠ 0 ∧
      proc ≠ k.sched.idleproc ∧ proc ∉ k.family.procList ∧ (k.pids.getPid fuel k.family.procList).isSome))
  | .down _ | .up _ | .tryDown _ => inferInstanceAs (Decidable k.Runs)

/-- One event. -/
def step (k : Kernel) : Event → Except KernelPanic Kernel
  | .clock => .ok { k with sched := k.sched.schedClassProcTick }
  | .expire proc => k.expire proc
  | .key c => k.devStdinWrite c
  | .proceed => k.proceed
  | .resume => k.resume
  | .yield => .ok (k.go .yielding)
  | .fork => k.forkCheck
  | .forkFail => .ok { k with forking := update k.forking k.current false }
  | .forkLink proc fuel => k.forkLink proc fuel
  | .exit => k.doExit
  | .wait pid => k.doWait pid
  | .kill pid => .ok (k.doKill pid)
  | .down i => .ok (k.down i)
  | .up i => k.up i
  | .tryDown i => .ok (k.tryDown i)
  | .read len => .ok (k.devStdinRead len)
  | .sleep => .ok k.doSleep

/-- The kernel after `proc_init`: `idleproc` runs and has made `initproc`; the semaphores have the values `v`. -/
def boot (idle init : Nat) (v : Nat → Int) (buffer : Int → UInt8) : Kernel where
  sched :=
    { procs := fun p =>
        if p = idle then { SchedProc.alloc with state := .runnable, needResched := true }
        else if p = init then { SchedProc.alloc with state := .runnable, timeSlice := maxTimeSlice, rq := true }
        else .alloc
      current := idle, idleproc := idle, runList := [init], procNum := 1, entered := [init], left := [] }
  family :=
    { parent := fun p => if p = init then idle else 0
      cptr := fun p => if p = idle then some init else none
      yptr := fun _ => none, optr := fun _ => none
      procList := [init], nrProcess := 2, since := fun _ => 0, clock := 1 }
  pids :=
    { pid := fun p => if p = idle then 0 else if p = init then 1 else -1
      hashList := fun b => if b = pidHashfn 1 then [init] else []
      lastPid := 1, nextSafe := maxPid }
  initproc := init
  exiting := fun _ => false
  wakeupFlags := fun _ => 0
  sems := fun i => ⟨v i, []⟩
  stdin := ⟨buffer, 0, 0, [], [], []⟩
  timers := []
  point := fun p => if p = idle then .run else .yielding
  inSchedule := fun p => decide (p ≠ idle)
  forking := fun _ => false
  semLog := fun _ => ⟨0, 0, [], []⟩

/-- The states of the kernel after `proc_init`, through events that all meet a condition. -/
inductive Reach (P : Kernel → Event → Prop) (k₀ : Kernel) : Kernel → Prop
  | boot : Reach P k₀ k₀
  | step {k k' : Kernel} (e : Event) : Reach P k₀ k → P k e → k.Enabled e → k.step e = .ok k' → Reach P k₀ k'

/-- The state after the events of a list, where each of them is possible and meets the condition, and none ends in a panic. -/
def run (P : Kernel → Event → Prop) [∀ k e, Decidable (P k e)] : List Event → Kernel → Option Kernel
  | [], k => some k
  | e :: es, k => if P k e ∧ k.Enabled e then (k.step e).toOption.bind (run P es) else none

end Kernel

end Ucore
