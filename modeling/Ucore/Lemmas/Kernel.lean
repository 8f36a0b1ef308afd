import Ucore.Kernel
import Ucore.Lemmas.Sched

/-!
# Where the processes stand

`Kernel.Control` is the invariant on the points, the states and the queues of the processes. Each process has the state and the wait
state that its point allows (`Stands`), a queue holds only processes that are at the call which put them there, and a process
other than the current one is inside of `schedule`. Every step keeps it, and it is what keeps `wakeup_proc` away from zombies.

A step touches the current process and the processes it wakes. `ProcOk` is what the invariant says of one process; `Alike` says that
a step left the process alone.
-/

namespace Ucore

open Checked Function

namespace Point

/-- The wait state of a process that sleeps at this point. -/
def waitState : Point → Option Nat
  | .waiting _ => some wtChild
  | .downing _ => some wtKsem
  | .reading _ => some wtKbd
  | .sleeping => some wtTimer
  | _ => none

/-- The process calls `schedule` at this point. -/
def Schedules : Point → Prop
  | .waiting _ | .downing _ | .reading _ | .sleeping | .exited | .yielding => True
  | _ => False

/-- The process sleeps at this point in a wait that can be interrupted. -/
def Interruptible (pt : Point) : Prop := ∃ w, pt.waitState = some w ∧ w ≠ wtKsem

/-- The state and the wait state of a process at this point. -/
def Stands (pt : Point) (state : ProcState) (waitState : Nat) : Prop :=
  match pt with
  | .run | .linked _ | .killing _ | .reaping _ => state = .runnable ∧ waitState = 0
  | .marked _ => state = .sleeping ∧ waitState = 0
  | .exiting | .exited => state = .zombie ∧ waitState = 0
  | .yielding => (state = .runnable ∨ state = .uninit) ∧ waitState = 0
  | .waiting _ | .downing _ | .reading _ | .sleeping =>
    (state = .sleeping ∧ pt.waitState = some waitState) ∨ (state = .runnable ∧ waitState = 0)

section

variable {pt : Point} {state : ProcState} {waitState w : Nat}

section

variable (hw : pt.waitState = some w)
include hw

/-- A process at a point where it sleeps has been woken or has not. -/
theorem stands_of_waitState :
    Stands pt state waitState ↔ (state = .sleeping ∧ waitState = w) ∨ (state = .runnable ∧ waitState = 0) := by
  cases pt <;> simp_all [Stands, Point.waitState, eq_comm]

theorem stands_woken : Stands pt .runnable 0 :=
  (stands_of_waitState hw).mpr (Or.inr ⟨rfl, rfl⟩)

theorem stands_asleep : Stands pt .sleeping w :=
  (stands_of_waitState hw).mpr (Or.inl ⟨rfl, rfl⟩)

theorem not_zombie_of_waitState (h : Stands pt state waitState) : state ≠ .zombie := by
  rcases (stands_of_waitState hw).mp h with ⟨rfl, -⟩ | ⟨rfl, -⟩ <;> nofun

omit hw in
/-- A wait state other than 0 tells where the process is. -/
theorem waitState_of_stands (h : Stands pt state waitState) (hne : waitState ≠ 0) :
    pt.waitState = some waitState ∧ state = .sleeping := by
  cases pt <;> simp_all [Stands]

theorem schedules_of_waitState : pt.Schedules := by
  cases pt <;> simp_all [Schedules, Point.waitState]

end

end

end Point

namespace Kernel

/-- The process exists. -/
def Live (k : Kernel) (p : Nat) : Prop := p = k.sched.idleproc ∨ p ∈ k.family.procList

/-- What the invariant says of one process. -/
structure ProcOk (k : Kernel) (p : Nat) : Prop where
  stands : (k.point p).Stands (k.sched.procs p).state (k.sched.procs p).waitState
  schedules : k.inSchedule p = true → (k.point p).Schedules
  downs : ∀ i, p ∈ (k.sems i).waitQueue → k.point p = .downing i ∧ (k.sched.procs p).state = .sleeping
  granted : ∀ i, k.point p = .downing i → p ∈ (k.sems i).waitQueue ∨ k.wakeupFlags p = wtKsem
  reads : p ∈ k.stdin.waitQueue → ∃ n, k.point p = .reading n
  sleeps : p ∈ k.timers → k.point p = .sleeping
  live : (k.sched.procs p).state = .sleeping ∨ (k.sched.procs p).state = .runnable → k.Live p
  idle : p = k.sched.idleproc → (k.point p = .run ∨ k.point p = .yielding) ∧ (k.sched.procs p).state = .runnable

/-- No process is twice on a queue. -/
structure Single (k : Kernel) : Prop where
  sems : ∀ i, (k.sems i).waitQueue.Nodup
  stdin : k.stdin.waitQueue.Nodup
  timers : k.timers.Nodup

/-- What the invariant says of the current process. -/
structure CurrentOk (k : Kernel) : Prop where
  picked : k.inSchedule k.current = true → (k.sched.procs k.current).state = .runnable
  linked : ∀ p, k.point k.current = .linked p → k.point p = .yielding ∧ k.Live p
  killing : ∀ p, k.point k.current = .killing p → (k.point p).Interruptible
  reaping : ∀ p, k.point k.current = .reaping p → (k.sched.procs p).state = .zombie

structure Control (k : Kernel) : Prop where
  sched : k.sched.Ok
  procs : ∀ p, k.ProcOk p
  inside : ∀ p, p ≠ k.current → k.inSchedule p = true
  single : k.Single
  cur : k.CurrentOk

/-- Nothing that the invariant says of the process `p` has changed. -/
structure Alike (k k' : Kernel) (p : Nat) : Prop where
  point : k'.point p = k.point p
  state : (k'.sched.procs p).state = (k.sched.procs p).state
  waitState : (k'.sched.procs p).waitState = (k.sched.procs p).waitState
  inSchedule : k'.inSchedule p = k.inSchedule p
  downs : ∀ i, p ∈ (k'.sems i).waitQueue ↔ p ∈ (k.sems i).waitQueue
  flags : k'.wakeupFlags p = k.wakeupFlags p
  reads : p ∈ k'.stdin.waitQueue ↔ p ∈ k.stdin.waitQueue
  sleeps : p ∈ k'.timers ↔ p ∈ k.timers
  live : k'.Live p ↔ k.Live p
  idle : k'.sched.idleproc = k.sched.idleproc

section

variable {k k' : Kernel} {p q : Nat} {pt : Point}

theorem ProcOk.alike (h : k.ProcOk p) (ha : Alike k k' p) : k'.ProcOk p where
  stands := by
    rw [ha.point, ha.state, ha.waitState]
    exact h.stands
  schedules := by
    rw [ha.point, ha.inSchedule]
    exact h.schedules
  downs i := by
    rw [ha.point, ha.state, ha.downs i]
    exact h.downs i
  granted i := by
    rw [ha.point, ha.downs i, ha.flags]
    exact h.granted i
  reads := by
    rw [ha.point, ha.reads]
    exact h.reads
  sleeps := by
    rw [ha.point, ha.sleeps]
    exact h.sleeps
  live := by
    rw [ha.state, ha.live]
    exact h.live
  idle := by
    rw [ha.point, ha.state, ha.idle]
    exact h.idle

/-- A step of the current process that leaves every other process alone. -/
theorem Control.own (h : k.Control) (hcur : k'.current = k.current) (hsc : k'.sched.Ok)
    (ho : ∀ q, q ≠ k.current → Alike k k' q) (hs : k'.ProcOk k.current) (hsi : k'.Single) (hc : k'.CurrentOk) :
    k'.Control where
  sched := hsc
  procs q := by
    by_cases hq : q = k.current
    · rw [hq]
      exact hs
    · exact (h.procs q).alike (ho q hq)
  inside q hq := by
    rw [hcur] at hq
    rw [(ho q hq).inSchedule]
    exact h.inside q hq
  single := hsi
  cur := hc

/-! ## The point of the current process -/

@[simp] theorem go_point_self (pt : Point) (k : Kernel) : (k.go pt).point k.current = pt := update_self ..

theorem go_point_of_ne (h : q ≠ k.current) : (k.go pt).point q = k.point q := update_of_ne h ..

@[simp] theorem go_current (pt : Point) (k : Kernel) : (k.go pt).current = k.current := rfl

@[simp] theorem go_sems (pt : Point) (k : Kernel) : (k.go pt).sems = k.sems := rfl

theorem alike_go (h : q ≠ k.current) : Alike k (k.go pt) q :=
  ⟨go_point_of_ne h, rfl, rfl, rfl, fun _ => Iff.rfl, rfl, Iff.rfl, Iff.rfl, Iff.rfl, rfl⟩

theorem Single.go (h : k.Single) : (k.go pt).Single := ⟨h.sems, h.stdin, h.timers⟩

/-- The current process is not about to wake or free another one. -/
theorem CurrentOk.plain (hpick : k.inSchedule k.current = true → (k.sched.procs k.current).state = .runnable)
    (hl : ∀ p, k.point k.current ≠ .linked p) (hk : ∀ p, k.point k.current ≠ .killing p)
    (hr : ∀ p, k.point k.current ≠ .reaping p) : k.CurrentOk :=
  ⟨hpick, fun p hp => absurd hp (hl p), fun p hp => absurd hp (hk p), fun p hp => absurd hp (hr p)⟩

/-! ## Waking -/

/-- The process `p` can be woken: it sleeps, or may sleep, and no semaphore has it on its queue; or it is a new process. -/
structure Wakes (k : Kernel) (p : Nat) : Prop where
  point : (∃ w, (k.point p).waitState = some w) ∨ (k.point p = .yielding ∧ k.Live p)
  free : ∀ i, p ∉ (k.sems i).waitQueue

theorem Wakes.not_zombie (hw : k.Wakes p) (h : k.ProcOk p) : (k.sched.procs p).state ≠ .zombie := by
  rcases hw.point with ⟨w, hw⟩ | ⟨hy, -⟩
  · exact Point.not_zombie_of_waitState hw h.stands
  · have hs := h.stands
    rw [hy] at hs
    rcases hs.1 with hs | hs
    · rw [hs]
      nofun
    · rw [hs]
      nofun

/-- The scheduler makes no process. -/
theorem live_sched {s : Sched} {inS : Nat → Bool} (hid : s.idleproc = k.sched.idleproc) :
    ({ k with sched := s, inSchedule := inS } : Kernel).Live q ↔ k.Live q := by
  change q = s.idleproc ∨ _ ↔ k.Live q
  rw [hid]
  exact Iff.rfl

/-- `wakeup_proc` in the kernel: only the scheduler's part of the state changes. -/
theorem Control.wakeup (h : k.Control) (hw : k.Wakes p) :
    ∃ s', k.wakeup p = .ok { k with sched := s' } ∧ ({ k with sched := s' } : Kernel).Control ∧ Sched.Woken p k.sched s' := by
  have hp := h.procs p
  have hz := hw.not_zombie hp
  obtain ⟨s', hs', hok, hwo⟩ := Sched.wakeupProc_spec h.sched hz
  have hws : (s'.procs p).waitState = 0 := by
    rw [hwo.waitState]
    split
    · rename_i hr
      have hst := hp.stands
      rw [hr] at hst
      by_contra hne
      exact absurd (Point.waitState_of_stands hst hne).2 nofun
    · rfl
  refine ⟨s', ?_, ⟨hok, ?_, ?_, ⟨h.single.sems, h.single.stdin, h.single.timers⟩, ?_⟩, hwo⟩
  · unfold Kernel.wakeup
    rw [hs', mapError_ok]
    rfl
  · intro q
    by_cases hq : q = p
    · subst hq
      refine ⟨?_, hp.schedules, fun i hi => absurd hi (hw.free i), hp.granted, hp.reads, hp.sleeps, fun _ => ?_, fun hi => ?_⟩
      · rw [hwo.state, hws]
        rcases hw.point with ⟨w, hw⟩ | ⟨hy, -⟩
        · exact Point.stands_woken hw
        · rw [hy]
          exact ⟨Or.inl rfl, rfl⟩
      · rw [live_sched hwo.idleproc]
        rcases hw.point with ⟨w, hw⟩ | ⟨-, hl⟩
        · apply hp.live
          rcases (Point.stands_of_waitState hw).mp hp.stands with ⟨hs, -⟩ | ⟨hs, -⟩
          · exact Or.inl hs
          · exact Or.inr hs
        · exact hl
      · exact ⟨(hp.idle (hi.trans hwo.idleproc)).1, hwo.state⟩
    · have hsa := hwo.others q hq
      exact (h.procs q).alike ⟨rfl, congrArg _ hsa, congrArg _ hsa, rfl, fun _ => Iff.rfl, rfl, Iff.rfl, Iff.rfl,
        live_sched hwo.idleproc, hwo.idleproc⟩
  · intro q hq
    exact h.inside q (fun hc => hq (hc.trans hwo.current.symm))
  · have hcur : ({ k with sched := s' } : Kernel).current = k.current := hwo.current
    refine ⟨?_, ?_, ?_, ?_⟩
    · intro hin
      rw [hcur] at hin ⊢
      by_cases hq : k.current = p
      · rw [hq]
        exact hwo.state
      · rw [hwo.others _ hq]
        exact h.cur.picked hin
    · intro q hq
      rw [hcur] at hq
      obtain ⟨hy, hl⟩ := h.cur.linked q hq
      exact ⟨hy, (live_sched hwo.idleproc).mpr hl⟩
    · intro q hq
      rw [hcur] at hq
      exact h.cur.killing q hq
    · intro q hq
      rw [hcur] at hq
      have hzq := h.cur.reaping q hq
      have hne : q ≠ p := by
        rintro rfl
        exact hz hzq
      rw [hwo.others q hne]
      exact hzq

end

end Kernel

end Ucore
