import Ucore.Lemmas.Kernel

/-!
# Every step keeps the invariant

`Kernel.Ready` says of the current process that it runs and is on no queue: that is so where it makes a call, and where it comes back
from one. The lemmas below take each function of the kernel from there. `step_control` puts them together: an event either leads
to a state that meets the invariant again, or ends in one of the panics of `Stops`, of which none is an assertion of the scheduler
or of a semaphore.
-/

namespace Ucore

open Checked Function

namespace Point

/-- A process at this point runs and does not sleep. -/
def Awake : Point → Prop
  | .run | .linked _ | .killing _ | .reaping _ | .yielding => True
  | _ => False

/-- A process at this point is on no queue and aims at no other process. -/
def Quiet : Point → Prop
  | .marked _ | .waiting _ | .exiting | .exited => True
  | _ => False

theorem aims_of_quiet {pt : Point} (h : pt.Quiet) :
    (∀ i, pt ≠ .downing i) ∧ (∀ p, pt ≠ .linked p) ∧ (∀ p, pt ≠ .killing p) ∧ ∀ p, pt ≠ .reaping p := by
  cases pt <;> simp_all [Quiet]

theorem stands_awake {pt : Point} (h : pt.Awake) : pt.Stands .runnable 0 := by
  cases pt <;> simp_all [Awake, Stands]

theorem waitState_of_awake {pt : Point} (h : pt.Awake) : pt.waitState = none := by
  cases pt <;> simp_all [Awake, waitState]

end Point

namespace Kernel

variable {k k' : Kernel} {p q i n w : Nat} {pt : Point} {pid : Int} {s : Semaphore} {l : SemLog}

/-- The process is on no queue. -/
structure Off (k : Kernel) (p : Nat) : Prop where
  sems : ∀ i, p ∉ (k.sems i).waitQueue
  stdin : p ∉ k.stdin.waitQueue
  timers : p ∉ k.timers

/-- The current process runs and is on no queue. -/
structure Ready (k : Kernel) : Prop where
  state : (k.sched.procs k.current).state = .runnable
  waitState : (k.sched.procs k.current).waitState = 0
  out : k.inSchedule k.current = false
  off : k.Off k.current

/-- A queue holds only processes that are at the call which put them there. -/
theorem ProcOk.off (h : k.ProcOk p) (hpt : (k.point p).waitState = none) : k.Off p := by
  refine ⟨?_, ?_, ?_⟩
  · intro i hi
    rw [(h.downs i hi).1] at hpt
    cases hpt
  · intro hi
    obtain ⟨n, hn⟩ := h.reads hi
    rw [hn] at hpt
    cases hpt
  · intro hi
    rw [h.sleeps hi] at hpt
    cases hpt

theorem Control.ready (h : k.Control) (hr : k.Runs) : k.Ready := by
  have hp := h.procs k.current
  have hs := hp.stands
  rw [hr.run] at hs
  exact ⟨hs.1, hs.2, hr.out, hp.off (by rw [hr.run]; rfl)⟩

/-- `idleproc` is always runnable. -/
theorem ProcOk.busy (h : k.ProcOk p) (hs : (k.sched.procs p).state ≠ .runnable) : p ≠ k.sched.idleproc :=
  fun hi => hs (h.idle hi).2

theorem Ready.live (hr : k.Ready) (h : k.Control) : k.Live k.current := (h.procs _).live (Or.inr hr.state)

/-- The current process where it is awake, on no queue, and outside of `schedule`. -/
theorem procOk_awake (hpt : pt.Awake) (hp : k.point p = pt) (hs : (k.sched.procs p).state = .runnable)
    (hw : (k.sched.procs p).waitState = 0) (hout : k.inSchedule p = false) (ho : k.Off p) (hl : k.Live p)
    (hid : p = k.sched.idleproc → pt = .run ∨ pt = .yielding) : k.ProcOk p where
  stands := by
    rw [hp, hs, hw]
    exact Point.stands_awake hpt
  schedules := by
    rw [hout]
    nofun
  downs i hi := absurd hi (ho.sems i)
  granted i hi := by
    rw [hp] at hi
    rw [hi] at hpt
    cases hpt
  reads hi := absurd hi ho.stdin
  sleeps hi := absurd hi ho.timers
  live _ := hl
  idle hi := by
    rw [hp]
    exact ⟨hid hi, hs⟩

/-- The current process goes on to a point where it is awake. -/
theorem Control.go (h : k.Control) (hr : k.Ready) (hpt : pt.Awake) (hid : k.current = k.sched.idleproc → pt = .run ∨ pt = .yielding)
    (hl : ∀ p, pt = .linked p → k.point p = .yielding ∧ k.Live p ∧ p ≠ k.current)
    (hk : ∀ p, pt = .killing p → (k.point p).Interruptible ∧ p ≠ k.current)
    (hz : ∀ p, pt = .reaping p → (k.sched.procs p).state = .zombie) : (k.go pt).Control := by
  refine h.own rfl h.sched (fun q hq => alike_go hq) ?_ h.single.go ⟨?_, ?_, ?_, ?_⟩
  · exact procOk_awake hpt (go_point_self pt k) hr.state hr.waitState hr.out ⟨hr.off.sems, hr.off.stdin, hr.off.timers⟩
      (hr.live h) hid
  · intro hin
    exact hr.state
  · intro p hp
    rw [go_current, go_point_self] at hp
    obtain ⟨hy, hli, hne⟩ := hl p hp
    exact ⟨(go_point_of_ne hne).trans hy, hli⟩
  · intro p hp
    rw [go_current, go_point_self] at hp
    obtain ⟨hint, hne⟩ := hk p hp
    rw [go_point_of_ne hne]
    exact hint
  · intro p hp
    rw [go_current, go_point_self] at hp
    exact hz p hp

theorem Control.go_run (h : k.Control) (hr : k.Ready) : (k.go .run).Control :=
  h.go hr trivial (fun _ => Or.inl rfl) nofun nofun nofun

/-- The scheduler changes nothing that the invariant says of a process. -/
theorem ProcOk.sched_same {s : Sched} {inS : Nat → Bool} (hq : k.ProcOk q) (hsa : Sched.Same k.sched s)
    (hin : inS q = true → (k.point q).Schedules) : ({ k with sched := s, inSchedule := inS } : Kernel).ProcOk q := by
  refine ⟨?_, hin, ?_, hq.granted, hq.reads, hq.sleeps, ?_, ?_⟩
  · rw [hsa.state, hsa.waitState]
    exact hq.stands
  · intro i hi
    exact ⟨(hq.downs i hi).1, (hsa.state q).trans (hq.downs i hi).2⟩
  · intro hst
    rw [hsa.state] at hst
    exact (live_sched hsa.idleproc).mpr (hq.live hst)
  · intro hi
    obtain ⟨hpt, hst⟩ := hq.idle (hi.trans hsa.idleproc)
    exact ⟨hpt, (hsa.state q).trans hst⟩

theorem Control.sched_same {s : Sched} (h : k.Control) (hok : s.Ok) (hsa : Sched.Same k.sched s) (hc : s.current = k.current) :
    ({ k with sched := s } : Kernel).Control := by
  have hc : ({ k with sched := s } : Kernel).current = k.current := hc
  refine ⟨hok, fun q => (h.procs q).sched_same hsa (h.procs q).schedules, ?_,
    ⟨h.single.sems, h.single.stdin, h.single.timers⟩, ⟨?_, ?_, ?_, ?_⟩⟩
  all_goals rw [hc]
  · exact h.inside
  · exact fun hin => (hsa.state _).trans (h.cur.picked hin)
  · exact fun p hp => (h.cur.linked p hp).imp_right (live_sched hsa.idleproc).mpr
  · exact h.cur.killing
  · exact fun p hp => (hsa.state p).trans (h.cur.reaping p hp)

/-! ## `schedule` -/

theorem not_aims_of_schedules (pt : Point) (h : pt.Schedules) : (∀ p, pt ≠ .linked p) ∧ (∀ p, pt ≠ .killing p) ∧ ∀ p, pt ≠ .reaping p := by
  cases pt <;> simp_all [Point.Schedules]

/-- The processor goes to another process. -/
theorem Control.callSchedule (h : k.Control) (hs : (k.point k.current).Schedules) :
    ∃ s, k.callSchedule = .ok { k with sched := s, inSchedule := update k.inSchedule k.current true } ∧
      ({ k with sched := s, inSchedule := update k.inSchedule k.current true } : Kernel).Control ∧
      Sched.Same k.sched s := by
  obtain ⟨s, hrun, hok, hsa, hn⟩ := Sched.schedule_spec h.sched
  set inS := update k.inSchedule k.current true with hinS
  have ha : ∀ q, inS q = true := by
    intro q
    by_cases hq : q = k.current
    · rw [hq, hinS, update_self]
    · rw [hinS, update_of_ne hq]
      exact h.inside q hq
  have hschedules : ∀ q, (k.point q).Schedules := by
    intro q
    by_cases hq : q = k.current
    · rw [hq]
      exact hs
    · exact (h.procs q).schedules (h.inside q hq)
  refine ⟨s, ?_, ⟨hok, fun q => (h.procs q).sched_same hsa fun _ => hschedules q, fun q _ => ha q,
    ⟨h.single.sems, h.single.stdin, h.single.timers⟩, ?_⟩, hsa⟩
  · unfold Kernel.callSchedule
    rw [hrun, mapError_ok]
    rfl
  · obtain ⟨hl, hk, hr⟩ := not_aims_of_schedules _ (hschedules s.current)
    refine CurrentOk.plain (fun _ => ?_) hl hk hr
    change (s.procs s.current).state = .runnable
    rw [hsa.state]
    rcases hn with hn | hn
    · rw [hn]
      exact ((h.procs _).idle rfl).2
    · exact hn

/-- A process that was given the processor comes back from `schedule`. -/
theorem Control.leave (h : k.Control) (hin : k.inSchedule k.current = true) : k.left.Control := by
  have hp := h.procs k.current
  refine h.own rfl h.sched ?_ ?_ ⟨h.single.sems, h.single.stdin, h.single.timers⟩ ?_
  · intro q hq
    exact ⟨rfl, rfl, rfl, update_of_ne hq .., fun _ => Iff.rfl, rfl, Iff.rfl, Iff.rfl, Iff.rfl, rfl⟩
  · refine ⟨hp.stands, ?_, hp.downs, hp.granted, hp.reads, hp.sleeps, hp.live, hp.idle⟩
    intro hout
    have hse : k.left.inSchedule k.current = false := update_self ..
    rw [hse] at hout
    cases hout
  · exact ⟨fun _ => h.cur.picked hin, h.cur.linked, h.cur.killing, h.cur.reaping⟩

/-! ## Calls that sleep -/

/-- What the current process has done before it sleeps: its state is set, and it stands at the point of its call. -/
structure Slept (w : Nat) (pt : Point) (k k' : Kernel) : Prop where
  sched : k'.sched = k.sched.setProc k.current { k.sched.procs k.current with state := .sleeping, waitState := w }
  point : k'.point = update k.point k.current pt
  inSchedule : k'.inSchedule = k.inSchedule
  procList : k'.family.procList = k.family.procList

section

variable (hs : Slept w pt k k')
include hs

theorem Slept.current : k'.current = k.current := by
  unfold Kernel.current
  rw [hs.sched]
  rfl

theorem Slept.point_self : k'.point k.current = pt := by
  rw [hs.point, update_self]

theorem Slept.state : (k'.sched.procs k.current).state = .sleeping := by
  rw [hs.sched, Sched.setProc_self]

theorem Slept.live (p : Nat) : k'.Live p ↔ k.Live p := by
  unfold Live
  rw [hs.procList, hs.sched]
  exact Iff.rfl

end

/-- Another process is left alone where its queues are. -/
theorem Slept.alike (w : Nat) (pt : Point) (hs : Slept w pt k k') (hq : q ≠ k.current)
    (hsem : ∀ i, q ∈ (k'.sems i).waitQueue ↔ q ∈ (k.sems i).waitQueue) (hf : k'.wakeupFlags q = k.wakeupFlags q)
    (hr : q ∈ k'.stdin.waitQueue ↔ q ∈ k.stdin.waitQueue) (ht : q ∈ k'.timers ↔ q ∈ k.timers) : Alike k k' q where
  point := by rw [hs.point, update_of_ne hq]
  state := by rw [hs.sched, Sched.setProc_of_ne hq]
  waitState := by rw [hs.sched, Sched.setProc_of_ne hq]
  inSchedule := by rw [hs.inSchedule]
  downs := hsem
  flags := hf
  reads := hr
  sleeps := ht
  live := hs.live q
  idle := by
    rw [hs.sched]
    rfl

/-- The current process puts itself on the queue of its call and is about to sleep. -/
theorem Control.sleep (h : k.Control) (w : Nat) (pt : Point) (hr : k.Ready) (hb : k.current ≠ k.sched.idleproc) (hw : pt.waitState = some w)
    (hs : Slept w pt k k') (ho : ∀ q, q ≠ k.current → Alike k k' q) (hsi : k'.Single)
    (hsem : ∀ i, k.current ∈ (k'.sems i).waitQueue ↔ pt = .downing i) (hre : k.current ∈ k'.stdin.waitQueue → ∃ n, pt = .reading n)
    (ht : k.current ∈ k'.timers → pt = .sleeping) : k'.Control := by
  have hp := hs.point_self
  have hc := hs.current
  refine h.own hc ?_ ho ⟨?_, ?_, ?_, ?_, ?_, ?_, ?_, ?_⟩ hsi ?_
  · rw [hs.sched]
    exact h.sched.setProc (Or.inl rfl)
  · rw [hp, hs.sched, Sched.setProc_self]
    exact Point.stands_asleep hw
  · rw [hs.inSchedule, hr.out]
    nofun
  · intro i hi
    exact ⟨hp.trans ((hsem i).mp hi), hs.state⟩
  · intro i hi
    exact Or.inl ((hsem i).mpr (hp.symm.trans hi))
  · intro hi
    obtain ⟨n, hn⟩ := hre hi
    exact ⟨n, hp.trans hn⟩
  · intro hi
    exact hp.trans (ht hi)
  · intro _
    exact (hs.live _).mpr (hr.live h)
  · intro hi
    rw [hs.sched] at hi
    exact absurd hi hb
  · have hsc := Point.schedules_of_waitState hw
    obtain ⟨hl, hk, hz⟩ := not_aims_of_schedules _ hsc
    rw [← hp, ← hc] at hl hk hz
    refine CurrentOk.plain (fun hin => ?_) hl hk hz
    rw [hc, hs.inSchedule, hr.out] at hin
    cases hin

theorem nodup_snoc {l : List Nat} (h : l.Nodup) (hp : p ∉ l) : (l ++ [p]).Nodup := by
  rw [List.nodup_append_comm]
  exact List.nodup_cons.mpr ⟨hp, h⟩

theorem mem_snoc_iff {l : List Nat} (hq : q ≠ p) : q ∈ l ++ [p] ↔ q ∈ l := by
  simp [hq]

@[simp] theorem waitCurrentSet_sems (w : Nat) (k : Kernel) : (k.waitCurrentSet w).sems = k.sems := rfl

/-- The semaphores after one of them has changed. -/
theorem setSem_sems (i j : Nat) (s : Semaphore) (l : SemLog) (k : Kernel) :
    (k.setSem i s l).sems j = if j = i then s else k.sems j := update_apply ..

section

variable {timers rest : List Nat} {d : Stdin} (h : k.Control)
include h

/-- Processes leave queues, and whoever waits for a semaphore is still on its queue or has been granted its unit. -/
theorem Control.dequeue {sems : Nat → Semaphore} {flags : Nat → Nat} {log : Nat → SemLog} {f g : Nat → Bool}
    (hsems : ∀ i, (sems i).waitQueue.Sublist (k.sems i).waitQueue) (hst : d.waitQueue.Sublist k.stdin.waitQueue)
    (ht : timers.Sublist k.timers) (hgranted : ∀ q i, k.point q = .downing i → q ∈ (sems i).waitQueue ∨ flags q = wtKsem) :
    ({ k with sems := sems, stdin := d, timers := timers, wakeupFlags := flags, semLog := log, forking := f,
              exiting := g } : Kernel).Control := by
  refine ⟨h.sched, ?_, h.inside, ⟨fun i => (h.single.sems i).sublist (hsems i), h.single.stdin.sublist hst,
    h.single.timers.sublist ht⟩, ⟨h.cur.picked, h.cur.linked, h.cur.killing, h.cur.reaping⟩⟩
  intro q
  have hq := h.procs q
  exact ⟨hq.stands, hq.schedules, fun i hi => hq.downs i ((hsems i).subset hi), hgranted q,
    fun hi => hq.reads (hst.subset hi), fun hi => hq.sleeps (ht.subset hi), hq.live, hq.idle⟩

/-- A semaphore whose queue stays as it is. -/
theorem Control.setSem (hs : s.waitQueue = (k.sems i).waitQueue) : (k.setSem i s l).Control := by
  have hq : ∀ j, (update k.sems i s j).waitQueue = (k.sems j).waitQueue := by
    intro j
    rw [update_apply]
    split
    · rename_i hj
      rw [hs, hj]
    · rfl
  refine h.dequeue (fun j => hq j ▸ .refl _) (.refl _) (.refl _) fun q j hj => ?_
  rw [hq j]
  exact (h.procs q).granted j hj

theorem Control.down (hr : k.Ready) (hb : k.current ≠ k.sched.idleproc) : (k.down i).Control := by
  unfold Kernel.down Semaphore.down
  by_cases hv : 0 < (k.sems i).value
  · rw [if_pos hv]
    exact h.setSem rfl
  · rw [if_neg hv]
    rw [if_neg nofun]
    have ho := hr.off.sems i
    refine h.sleep wtKsem (.downing i) hr hb rfl ⟨rfl, rfl, rfl, rfl⟩ ?_ ⟨?_, h.single.stdin, h.single.timers⟩ ?_
      (fun hi => absurd hi hr.off.stdin) (fun hi => absurd hi hr.off.timers)
    · intro q hq
      refine Slept.alike wtKsem (.downing i) ⟨rfl, rfl, rfl, rfl⟩ hq ?_ (update_of_ne hq ..) Iff.rfl Iff.rfl
      intro j
      rw [go_sems, waitCurrentSet_sems, setSem_sems]
      split
      · rename_i hj
        rw [hj]
        exact mem_snoc_iff hq
      · rfl
    · intro j
      rw [go_sems, waitCurrentSet_sems, setSem_sems]
      split
      · exact nodup_snoc (h.single.sems i) ho
      · exact h.single.sems j
    · intro j
      rw [go_sems, waitCurrentSet_sems, setSem_sems]
      split
      · rename_i hj
        simp [hj]
      · rename_i hj
        simp [hr.off.sems j, Ne.symm hj]

theorem Control.tryDown : (k.tryDown i).Control := by
  unfold Kernel.tryDown Semaphore.tryDown
  apply h.setSem
  split
  · rfl
  · rfl

theorem Control.doSleep (hr : k.Ready) (hb : k.current ≠ k.sched.idleproc) : k.doSleep.Control := by
  refine h.sleep wtTimer .sleeping hr hb rfl ⟨rfl, rfl, rfl, rfl⟩ ?_
    ⟨h.single.sems, h.single.stdin, nodup_snoc h.single.timers hr.off.timers⟩ ?_ (fun hi => absurd hi hr.off.stdin) (fun _ => rfl)
  · intro q hq
    exact Slept.alike wtTimer .sleeping ⟨rfl, rfl, rfl, rfl⟩ hq (fun _ => Iff.rfl) rfl Iff.rfl (mem_snoc_iff hq)
  · intro i
    exact iff_of_false (hr.off.sems i) nofun

/-! ## The keyboard -/

omit h in
theorem readLoop_waitQueue (n : Nat) (d : Stdin) : (d.readLoop n).2.waitQueue = d.waitQueue := by
  induction n generalizing d with
  | zero => rfl
  | succ n ih =>
    unfold Stdin.readLoop
    split
    · exact ih d.take
    · rfl

/-- The device changes, its queue does not. -/
theorem Control.setStdin (hd : d.waitQueue = k.stdin.waitQueue) : ({ k with stdin := d } : Kernel).Control :=
  h.dequeue (fun _ => .refl _) (hd ▸ .refl _) (.refl _) fun q => (h.procs q).granted

omit h in
theorem Ready.setStdin (hr : k.Ready) (hd : d.waitQueue = k.stdin.waitQueue) : ({ k with stdin := d } : Kernel).Ready :=
  ⟨hr.state, hr.waitState, hr.out, ⟨hr.off.sems, by
    change k.current ∉ d.waitQueue
    rw [hd]
    exact hr.off.stdin, hr.off.timers⟩⟩

theorem Control.devStdinRead (hr : k.Ready) (hb : k.current ≠ k.sched.idleproc) : (k.devStdinRead n).Control := by
  have hq := readLoop_waitQueue n k.stdin
  unfold Kernel.devStdinRead
  dsimp only
  split
  · exact (h.setStdin hq).go_run (hr.setStdin hq)
  · refine h.sleep wtKbd (.reading (k.stdin.readLoop n).1) hr hb rfl ⟨rfl, rfl, rfl, rfl⟩ ?_
      ⟨h.single.sems, ?_, h.single.timers⟩ ?_ (fun _ => ⟨_, rfl⟩) (fun hi => absurd hi hr.off.timers)
    · intro q hqc
      refine Slept.alike wtKbd (.reading (k.stdin.readLoop n).1) ⟨rfl, rfl, rfl, rfl⟩ hqc (fun _ => Iff.rfl)
        (update_of_ne hqc ..) ?_ Iff.rfl
      change q ∈ (k.stdin.readLoop n).2.waitQueue ++ [k.current] ↔ _
      rw [hq]
      exact mem_snoc_iff hqc
    · change ((k.stdin.readLoop n).2.waitQueue ++ [k.current]).Nodup
      rw [hq]
      exact nodup_snoc h.single.stdin hr.off.stdin
    · intro i
      exact iff_of_false (hr.off.sems i) nofun

/-- A reader is taken from the queue of the device. -/
theorem Control.dropReader (p : Nat) (flags : Nat → Nat) (hf : ∀ q, q ≠ p → flags q = k.wakeupFlags q)
    (hp : ∀ i, k.point p ≠ .downing i) :
    ({ k with stdin := { k.stdin with waitQueue := k.stdin.waitQueue.erase p }, wakeupFlags := flags } : Kernel).Control := by
  refine h.dequeue (fun _ => .refl _) List.erase_sublist (.refl _) ?_
  intro q i hi
  have hqp : q ≠ p := by
    rintro rfl
    exact hp i hi
  rw [hf q hqp]
  exact (h.procs q).granted i hi

/-- A process at a point other than `__down` is on the queue of no semaphore. -/
theorem Control.free (hp : ∀ i, k.point p ≠ .downing i) (i : Nat) : p ∉ (k.sems i).waitQueue :=
  fun hi => hp i ((h.procs p).downs i hi).1

omit h in
/-- The readers are woken one after the other, and none is left on the queue. -/
theorem wakeupReaders_control : ∀ (l : List Nat) (k : Kernel), k.Control → k.stdin.waitQueue = l →
    ∃ s flags, wakeupReaders l k = .ok { k with sched := s, wakeupFlags := flags, stdin := { k.stdin with waitQueue := [] } } ∧
      ({ k with sched := s, wakeupFlags := flags, stdin := { k.stdin with waitQueue := [] } } : Kernel).Control ∧
      Sched.Roused k.sched s := by
  intro l
  induction l with
  | nil =>
    intro k h hl
    refine ⟨k.sched, k.wakeupFlags, ?_, ?_, .refl _⟩
    · rw [wakeupReaders, ← hl]
    · rw [← hl]
      exact h
  | cons p rest ih =>
    intro k h hl
    obtain ⟨n, hn⟩ := (h.procs p).reads (hl ▸ List.mem_cons_self)
    have hdown : ∀ i, k.point p ≠ .downing i := by
      intro i
      rw [hn]
      nofun
    have he : k.stdin.waitQueue.erase p = rest := by
      rw [hl, List.erase_cons_head]
    have h1 := h.dropReader p (update k.wakeupFlags p wtKbd) (fun q hq => update_of_ne hq ..) hdown
    rw [he] at h1
    have hw : Wakes { k with stdin := { k.stdin with waitQueue := rest }, wakeupFlags := update k.wakeupFlags p wtKbd } p :=
      ⟨Or.inl ⟨wtKbd, by
        change (k.point p).waitState = _
        rw [hn]
        rfl⟩, h.free hdown⟩
    obtain ⟨s, hs, h2, hwo⟩ := h1.wakeup hw
    obtain ⟨s', flags, hr, h3, hro⟩ := ih _ h2 rfl
    refine ⟨s', flags, ?_, h3, (hwo.roused (hw.not_zombie (h1.procs p))).trans hro⟩
    rw [wakeupReaders, wakeupWait, hs, bind_ok]
    exact hr

omit h in
theorem write_waitQueue (c : UInt8) (d : Stdin) : (d.write c).waitQueue = d.waitQueue := by
  unfold Stdin.write
  dsimp only
  split
  · rfl
  · rfl

/-- `dev_stdin_write` wakes every reader. -/
theorem Control.devStdinWrite (c : UInt8) : ∃ s flags, k.devStdinWrite c = .ok { k with
        sched := s, wakeupFlags := flags, stdin := { k.stdin.write c with waitQueue := [] } } ∧
      ({ k with sched := s, wakeupFlags := flags, stdin := { k.stdin.write c with waitQueue := [] } } : Kernel).Control ∧
      Sched.Roused k.sched s :=
  wakeupReaders_control k.stdin.waitQueue _ (h.setStdin (write_waitQueue c k.stdin)) (write_waitQueue c k.stdin)

/-! ## Coming back from `schedule` -/

theorem ready_of_runnable (hs : (k.sched.procs k.current).state = .runnable) (hout : k.inSchedule k.current = false)
    (hst : k.current ∉ k.stdin.waitQueue) (ht : k.current ∉ k.timers) : k.Ready := by
  have hp := h.procs k.current
  refine ⟨hs, ?_, hout, ⟨?_, hst, ht⟩⟩
  · by_contra hne
    rw [(Point.waitState_of_stands hp.stands hne).2] at hs
    cases hs
  · intro i hi
    rw [(hp.downs i hi).2] at hs
    cases hs

omit h in
theorem Ready.setSem (hr : k.Ready) (hs : s.waitQueue = (k.sems i).waitQueue) : (k.setSem i s l).Ready := by
  refine ⟨hr.state, hr.waitState, hr.out, ⟨?_, hr.off.stdin, hr.off.timers⟩⟩
  intro j
  change k.current ∉ ((k.setSem i s l).sems j).waitQueue
  rw [setSem_sems]
  split
  · rw [hs]
    exact hr.off.sems i
  · exact hr.off.sems j

section

variable (hs : (k.sched.procs k.current).state = .runnable) (hout : k.inSchedule k.current = false)
include hs hout

/-- The process was granted its unit: its entry is off the queue, and carries the flags of `up`. -/
theorem Control.downResume (hpt : k.point k.current = .downing i) :
    k.downResume i = .ok ((k.setSem i (k.sems i) (k.semLog i)).go .run) ∧ ((k.setSem i (k.sems i) (k.semLog i)).go .run).Control := by
  have hp := h.procs k.current
  have hr : k.Ready := by
    refine ready_of_runnable h hs hout ?_ ?_
    · intro hi
      obtain ⟨n, hn⟩ := hp.reads hi
      rw [hpt] at hn
      cases hn
    · intro hi
      have hn := hp.sleeps hi
      rw [hpt] at hn
      cases hn
  have hf : k.wakeupFlags k.current = wtKsem := (hp.granted i hpt).resolve_left (hr.off.sems i)
  have hsa : (k.sems i).waitDel k.current = k.sems i := by
    rw [Semaphore.waitDel, List.erase_of_not_mem (hr.off.sems i)]
  refine ⟨?_, (h.setSem rfl).go_run (hr.setSem rfl)⟩
  unfold Kernel.downResume
  rw [hsa]
  dsimp only
  have hensure : (k.setSem i (k.sems i) (k.semLog i)).wakeupFlags (k.setSem i (k.sems i) (k.semLog i)).current = wtKsem := hf
  rw [ensure_of hensure, bind_ok]
  rfl

/-- A reader takes its entry from the queue, if it is still there, and reads on or returns. -/
theorem Control.readResume (hb : k.current ≠ k.sched.idleproc) (hpt : k.point k.current = .reading n) : (k.readResume n).Control := by
  have h1 := h.dropReader k.current k.wakeupFlags (fun _ _ => rfl) (by
    intro i
    rw [hpt]
    nofun)
  have hr : Ready { k with stdin := { k.stdin with waitQueue := k.stdin.waitQueue.erase k.current } } := by
    refine ready_of_runnable h1 hs hout (h.single.stdin.not_mem_erase) ?_
    intro hi
    have hn := (h.procs k.current).sleeps hi
    rw [hpt] at hn
    cases hn
  unfold Kernel.readResume
  dsimp only
  split
  · exact h1.devStdinRead hr hb
  · exact h1.go_run hr

omit hs hout in
/-- A timer is taken from the list. -/
theorem Control.dropTimer (p : Nat) : ({ k with timers := k.timers.erase p } : Kernel).Control :=
  h.dequeue (fun _ => .refl _) (.refl _) List.erase_sublist fun q => (h.procs q).granted

theorem Control.sleepResume (hpt : k.point k.current = .sleeping) :
    (({ k with timers := k.timers.erase k.current } : Kernel).go .run).Control := by
  have h1 := h.dropTimer k.current
  refine h1.go_run (ready_of_runnable h1 hs hout ?_ h.single.timers.not_mem_erase)
  intro hi
  obtain ⟨n, hn⟩ := (h.procs k.current).reads hi
  rw [hpt] at hn
  cases hn

end

/-! ## Semaphores and timers wake -/

/-- The first waiter of a semaphore is taken from its queue, with the flags that say so. -/
theorem Control.grant (hq : (k.sems i).waitQueue = p :: rest) : ({ k.setSem i { k.sems i with waitQueue := rest } l with
        wakeupFlags := update k.wakeupFlags p wtKsem } : Kernel).Control := by
  refine h.dequeue ?_ (.refl _) (.refl _) ?_
  · intro j
    rw [setSem_sems]
    split
    · rename_i hj
      rw [hj, hq]
      exact List.sublist_cons_self p rest
    · exact .refl _
  · intro q j hj
    by_cases hqp : q = p
    · rw [hqp, update_self]
      exact Or.inr rfl
    · rw [update_of_ne hqp, setSem_sems]
      refine ((h.procs q).granted j hj).imp_left fun hm => ?_
      split
      · rename_i hji
        rw [hji, hq] at hm
        exact (List.mem_cons.mp hm).resolve_left hqp
      · exact hm

/-- A process that waits for a semaphore has the wait state that `up` asks for. -/
theorem Control.waiter (hp : p ∈ (k.sems i).waitQueue) : (k.sched.procs p).waitState = wtKsem := by
  obtain ⟨hpt, hst⟩ := (h.procs p).downs i hp
  have hs := (h.procs p).stands
  rw [hpt, hst] at hs
  rcases (Point.stands_of_waitState rfl).mp hs with ⟨-, hs⟩ | ⟨hs, -⟩
  · exact hs
  · cases hs

/-- `up`: a unit more, or the first waiter is woken. -/
theorem Control.up (i : Nat) : (∃ s, (k.sems i).waitQueue = [] ∧ s = { k.sems i with value := int32 ((k.sems i).value + 1) } ∧
      k.up i = .ok (k.setSem i s (k.semLog i).raised) ∧ (k.setSem i s (k.semLog i).raised).Control) ∨
    ∃ p rest k1 s, (k.sems i).waitQueue = p :: rest ∧
      k1 = { k.setSem i { k.sems i with waitQueue := rest } ((k.semLog i).grant p) with
        wakeupFlags := update k.wakeupFlags p wtKsem } ∧
      k.up i = .ok { k1 with sched := s } ∧ ({ k1 with sched := s } : Kernel).Control ∧ Sched.Roused k.sched s := by
  cases hq : (k.sems i).waitQueue with
  | nil =>
    refine Or.inl ⟨_, rfl, rfl, ?_, h.setSem rfl⟩
    have hup : (k.sems i).up = (none, { k.sems i with value := int32 ((k.sems i).value + 1) }) := by
      rw [Semaphore.up]
      split
      · rfl
      · rename_i hc
        rw [hq] at hc
        cases hc
    unfold Kernel.up
    rw [hup]
  | cons p rest =>
    have hup : (k.sems i).up = (some p, { k.sems i with waitQueue := rest }) := by
      rw [Semaphore.up, hq]
    have hp : p ∈ (k.sems i).waitQueue := hq ▸ List.mem_cons_self
    obtain ⟨hpt, hst⟩ := (h.procs p).downs i hp
    have hn : p ∉ rest := by
      have hno := h.single.sems i
      rw [hq] at hno
      exact (List.nodup_cons.mp hno).1
    have h1 := h.grant (l := (k.semLog i).grant p) hq
    set k1 : Kernel := { k.setSem i { k.sems i with waitQueue := rest } ((k.semLog i).grant p) with
        wakeupFlags := update k.wakeupFlags p wtKsem } with hk1
    have hw : k1.Wakes p := by
      refine ⟨Or.inl ⟨wtKsem, ?_⟩, ?_⟩
      · change (k.point p).waitState = _
        rw [hpt]
        rfl
      · intro j hj
        change p ∈ ((k.setSem i { k.sems i with waitQueue := rest } ((k.semLog i).grant p)).sems j).waitQueue at hj
        rw [setSem_sems] at hj
        split at hj
        · exact hn hj
        · rename_i hji
          have hpj := ((h.procs p).downs j hj).1
          rw [hpt] at hpj
          cases hpj
          exact hji rfl
    obtain ⟨s, hs, h2, hwo⟩ := h1.wakeup hw
    refine Or.inr ⟨p, rest, k1, s, rfl, rfl, ?_, h2, hwo.roused (hw.not_zombie (h1.procs p))⟩
    unfold Kernel.up
    rw [hup]
    dsimp only
    rw [ensure_of (h.waiter hp), bind_ok, wakeupWait]
    exact hs

/-- The timer of a process expires. -/
theorem Control.expire (hp : p ∈ k.timers) : ∃ s, k.expire p = .ok { k with sched := s, timers := k.timers.erase p } ∧
      ({ k with sched := s, timers := k.timers.erase p } : Kernel).Control ∧ Sched.Roused k.sched s := by
  have hpt := (h.procs p).sleeps hp
  have hs := (h.procs p).stands
  rw [hpt] at hs
  have hint : (k.sched.procs p).waitState = 0 ∨ (k.sched.procs p).waitState &&& wtInterrupted ≠ 0 := by
    rcases (Point.stands_of_waitState rfl).mp hs with ⟨-, hs⟩ | ⟨-, hs⟩
    · rw [hs]
      exact Or.inr (by decide)
    · exact Or.inl hs
  have hw : k.Wakes p := by
    refine ⟨Or.inl ⟨wtTimer, ?_⟩, h.free ?_⟩
    · rw [hpt]
      rfl
    · intro i
      rw [hpt]
      nofun
  obtain ⟨s, hs', h1, hwo⟩ := h.wakeup hw
  refine ⟨s, ?_, h1.dropTimer p, hwo.roused (hw.not_zombie (h.procs p))⟩
  unfold Kernel.expire
  rw [ensure_of hint, bind_ok, hs', bind_ok]
  rfl

/-! ## Processes -/

/-- Flags that the invariant does not speak of. -/
theorem Control.setFlags (f g : Nat → Bool) : ({ k with forking := f, exiting := g } : Kernel).Control :=
  h.dequeue (fun _ => .refl _) (.refl _) (.refl _) fun q => (h.procs q).granted

/-- The tables of processes, where they lose no process but a zombie. -/
theorem Control.setTables (f : Family) (d : Pids)
    (hli : ∀ q, (k.sched.procs q).state ≠ .zombie → q ∈ k.family.procList → q ∈ f.procList) :
    ({ k with family := f, pids := d } : Kernel).Control := by
  have hl : ∀ q, (k.sched.procs q).state ≠ .zombie → k.Live q → ({ k with family := f, pids := d } : Kernel).Live q :=
    fun q hz hq => hq.imp id (hli q hz)
  refine ⟨h.sched, ?_, h.inside, ⟨h.single.sems, h.single.stdin, h.single.timers⟩,
    ⟨h.cur.picked, ?_, h.cur.killing, h.cur.reaping⟩⟩
  · intro q
    have hq := h.procs q
    refine ⟨hq.stands, hq.schedules, hq.downs, hq.granted, hq.reads, hq.sleeps, ?_, hq.idle⟩
    intro hs
    refine hl q ?_ (hq.live hs)
    intro hz
    change (k.sched.procs q).state = _ ∨ (k.sched.procs q).state = _ at hs
    rw [hz] at hs
    rcases hs with hs | hs
    · cases hs
    · cases hs
  · intro p hp
    obtain ⟨hy, hli⟩ := h.cur.linked p hp
    refine ⟨hy, hl p ?_ hli⟩
    have hs := (h.procs p).stands
    rw [hy] at hs
    rcases hs.1 with hs | hs
    · rw [hs]
      nofun
    · rw [hs]
      nofun

/-- An address that no process has is on no queue, and its old fields are not those of a process that runs or sleeps. -/
theorem Control.fresh (hp : ¬k.Live p) : k.Off p ∧ (k.sched.procs p).state ≠ .runnable ∧ (k.sched.procs p).state ≠ .sleeping := by
  have hq := h.procs p
  have hs : (k.sched.procs p).state ≠ .sleeping := fun hs => hp (hq.live (Or.inl hs))
  have hr : (k.sched.procs p).state ≠ .runnable := fun hs => hp (hq.live (Or.inr hs))
  have hpo : ∀ w, (k.point p).waitState ≠ some w := by
    intro w hw
    rcases (Point.stands_of_waitState hw).mp hq.stands with ⟨h1, -⟩ | ⟨h1, -⟩
    · exact hs h1
    · exact hr h1
  refine ⟨hq.off ?_, hr, hs⟩
  cases hw : (k.point p).waitState with
  | none => rfl
  | some w => exact absurd hw (hpo w)

/-- The new process is linked, and its parent is about to wake it. -/
theorem Control.forkLink {fuel : Nat} {pids : Pids} (hr : k.Ready) (hb : k.current ≠ k.sched.idleproc)
    (hp : ¬k.Live p) (hpid : k.pids.getPid fuel k.family.procList = some pids) :
    ∃ k', k.forkLink p fuel = .ok k' ∧ k'.Control := by
  obtain ⟨ho, hrun, hsleep⟩ := h.fresh hp
  have hpc : p ≠ k.current := fun hpc => hp (hpc ▸ hr.live h)
  have hid : p ≠ k.sched.idleproc := fun hi => hp (Or.inl hi)
  refine ⟨_, by rw [Kernel.forkLink, hpid], ?_⟩
  set k' := Kernel.go (.linked p) _ with hk'
  have hc : k'.current = k.current := rfl
  have hse : k'.point k.current = .linked p := update_self ..
  have hpo : k'.point p = .yielding := by
    change update (update k.point p .yielding) k.current (.linked p) p = _
    rw [update_of_ne hpc, update_self]
  have hpr : k'.sched.procs p = .alloc := update_self ..
  have hp' : ∀ q, q ≠ p → k'.sched.procs q = k.sched.procs q := fun q hq => update_of_ne hq ..
  have hin : ∀ q, q ≠ p → k'.inSchedule q = k.inSchedule q := fun q hq => update_of_ne hq ..
  have hl : k'.family.procList = p :: k.family.procList := rfl
  have hli : ∀ q, q ≠ p → (k'.Live q ↔ k.Live q) := by
    intro q hq
    change q = k.sched.idleproc ∨ q ∈ p :: k.family.procList ↔ q = k.sched.idleproc ∨ q ∈ k.family.procList
    rw [List.mem_cons, or_iff_right hq]
  refine ⟨h.sched.setProc (Or.inr ⟨hrun, nofun⟩), ?_, ?_, ⟨h.single.sems, h.single.stdin, h.single.timers⟩, ?_⟩
  · intro q
    by_cases hqp : q = p
    · subst hqp
      refine ⟨?_, ?_, fun i hi => absurd hi (ho.sems i), ?_, fun hi => absurd hi ho.stdin, fun hi => absurd hi ho.timers, ?_,
        fun hi => absurd hi hid⟩
      · rw [hpo, hpr]
        exact ⟨Or.inr rfl, rfl⟩
      · rw [hpo]
        exact fun _ => trivial
      · intro i hi
        rw [hpo] at hi
        cases hi
      · exact fun _ => Or.inr (hl ▸ List.mem_cons_self)
    · by_cases hqc : q = k.current
      · subst hqc
        have hawake : Point.Awake (.linked p) := trivial
        refine procOk_awake hawake hse ?_ ?_ ?_ ⟨hr.off.sems, hr.off.stdin, hr.off.timers⟩
          ((hli _ hqp).mpr (hr.live h)) (fun hi => absurd hi hb)
        · rw [hp' _ hqp]
          exact hr.state
        · rw [hp' _ hqp]
          exact hr.waitState
        · rw [hin _ hqp]
          exact hr.out
      · have hpt : k'.point q = k.point q := by
          change update (update k.point p .yielding) k.current (.linked p) q = _
          rw [update_of_ne hqc, update_of_ne hqp]
        exact (h.procs q).alike ⟨hpt, by rw [hp' q hqp], by rw [hp' q hqp], hin q hqp, fun _ => Iff.rfl, rfl, Iff.rfl, Iff.rfl,
          hli q hqp, rfl⟩
  · intro q hq
    by_cases hqp : q = p
    · subst hqp
      exact update_self ..
    · rw [hin q hqp]
      exact h.inside q hq
  · refine ⟨?_, ?_, ?_, ?_⟩
    · intro _
      rw [hc, hp' _ (Ne.symm hpc)]
      exact hr.state
    · intro q hq
      rw [hc, hse] at hq
      cases hq
      exact ⟨hpo, Or.inr (hl ▸ List.mem_cons_self)⟩
    · intro q hq
      rw [hc, hse] at hq
      cases hq
    · intro q hq
      rw [hc, hse] at hq
      cases hq

end

/-- The panics that a run can meet: those of `do_exit` for `idleproc` and `initproc`, and that of `do_wait` for them. `endless` stands
for a chain of children that has no end; that there is none is a fact about the links. -/
def Stops : KernelPanic → Prop
  | .exitIdle | .exitInit | .waitInit | .endless => True
  | _ => False

/-- A panic of `Stops`, and the chain without an end only where `P` holds. -/
def StopsIf (P : Prop) (e : KernelPanic) : Prop := Stops e ∧ (e = .endless → P)

variable {P : Prop}

theorem within_stopsIf {x : Except KernelPanic Kernel} (h : Within Stops x Control) (hen : x = .error .endless → P) :
    Within (StopsIf P) x Control := by
  cases x with
  | error e => exact ⟨h, fun he => hen (congrArg Except.error he)⟩
  | ok k => exact h

section

variable (h : k.Control)
include h

/-- The current process gets other fields and goes on to a point where it is on no queue and aims at no other process. -/
theorem Control.settle {f : SchedProc} (ho : k.Off k.current) (hout : k.inSchedule k.current = false)
    (hb : k.current ≠ k.sched.idleproc) (hst : pt.Stands f.state f.waitState) (hquiet : pt.Quiet)
    (hli : f.state = .sleeping ∨ f.state = .runnable → k.Live k.current) :
    (({ k with sched := k.sched.setProc k.current f } : Kernel).go pt).Control := by
  set k' := Kernel.go pt _
  have hse : k'.point k.current = pt := update_self ..
  have hc : k'.point k'.current = pt := hse
  have hp : k'.sched.procs k.current = f := update_self ..
  obtain ⟨hd, hl, hk, hr⟩ := Point.aims_of_quiet hquiet
  refine h.own rfl (h.sched.setProc (Or.inl rfl)) ?_ ⟨?_, ?_, ?_, ?_, ?_, ?_, ?_, ?_⟩
    ⟨h.single.sems, h.single.stdin, h.single.timers⟩ ?_
  · intro q hq
    refine ⟨update_of_ne hq .., ?_, ?_, rfl, fun _ => Iff.rfl, rfl, Iff.rfl, Iff.rfl, Iff.rfl, rfl⟩
    · exact congrArg SchedProc.state (Sched.setProc_of_ne hq ..)
    · exact congrArg SchedProc.waitState (Sched.setProc_of_ne hq ..)
  · rw [hse, hp]
    exact hst
  · intro hin
    exact absurd (hout.symm.trans hin) nofun
  · exact fun i hi => absurd hi (ho.sems i)
  · intro i hi
    exact absurd (hse.symm.trans hi) (hd i)
  · exact fun hi => absurd hi ho.stdin
  · exact fun hi => absurd hi ho.timers
  · rw [hp]
    exact hli
  · exact fun hi => absurd hi hb
  · rw [← hc] at hl hk hr
    exact CurrentOk.plain (fun hin => absurd (hout.symm.trans hin) nofun) hl hk hr

/-- The current process becomes a zombie. -/
theorem Control.zombie (hr : k.Ready) (hb : k.current ≠ k.sched.idleproc) :
    (({ k with sched := k.sched.setProc k.current { k.sched.procs k.current with state := .zombie } } : Kernel).go .exiting).Control := by
  refine h.settle hr.off hr.out hb ⟨rfl, hr.waitState⟩ trivial ?_
  rintro (hs | hs)
  · cases hs
  · cases hs

theorem Control.doExit (hr : k.Ready) : Within (StopsIf P) k.doExit Control := by
  unfold Kernel.doExit
  refine Within.ensure_bind (fun _ => ⟨trivial, nofun⟩) fun hid => ?_
  refine Within.ensure_bind (fun _ => ⟨trivial, nofun⟩) fun _ => ?_
  exact h.zombie hr hid

/-- A process whose wait state is `WT_CHILD` is in `do_wait`, and can be woken. -/
theorem Control.wakes_parent (hw : (k.sched.procs p).waitState = wtChild) : k.Wakes p := by
  obtain ⟨hpt, -⟩ := Point.waitState_of_stands (h.procs p).stands (by rw [hw]; decide)
  rw [hw] at hpt
  refine ⟨Or.inl ⟨wtChild, hpt⟩, h.free ?_⟩
  intro i hi
  rw [hi] at hpt
  exact absurd (Option.some.inj hpt) (by decide)

theorem Control.wakeupParent (p : Nat) :
    ∃ s, k.wakeupParent p = .ok { k with sched := s } ∧ ({ k with sched := s } : Kernel).Control ∧ Sched.Roused k.sched s ∧
      (s.procs p).waitState ≠ wtChild := by
  unfold Kernel.wakeupParent
  by_cases hw : (k.sched.procs p).waitState = wtChild
  · rw [if_pos hw]
    obtain ⟨s, hs, h1, hwo⟩ := h.wakeup (h.wakes_parent hw)
    refine ⟨s, hs, h1, hwo.roused ((h.wakes_parent hw).not_zombie (h.procs p)), ?_⟩
    have hst := (Point.waitState_of_stands (h.procs p).stands (by rw [hw]; decide)).2
    rw [hwo.waitState, hst, if_neg nofun]
    decide
  · rw [if_neg hw]
    exact ⟨k.sched, rfl, h, .refl _, hw⟩

end

/-- What the loop of `do_exit` changes: the links, and the scheduler's part of the state by waking. -/
structure Adopts (k k' : Kernel) : Prop where
  eq : k' = { k with sched := k'.sched, family := k'.family }
  roused : Sched.Roused k.sched k'.sched
  procList : k'.family.procList = k.family.procList

theorem Adopts.refl (k : Kernel) : Adopts k k := ⟨rfl, .refl _, rfl⟩

theorem Adopts.trans {k'' : Kernel} (h : Adopts k k') (h' : Adopts k' k'') : Adopts k k'' := by
  refine ⟨?_, h.roused.trans h'.roused, h'.procList.trans h.procList⟩
  rw [h'.eq, h.eq]

section

variable (h : k.Control)
include h

theorem Control.adopt (proc : Nat) : ∃ k', k.adopt proc = .ok k' ∧ k'.Control ∧ Adopts k k' := by
  have h1 := h.setTables (k.family.adopt k.current k.initproc proc) k.pids (fun q _ hq => hq)
  unfold Kernel.adopt
  dsimp only
  split
  · obtain ⟨s, hs, h2, hr, -⟩ := h1.wakeupParent k.initproc
    exact ⟨_, hs, h2, ⟨rfl, hr, rfl⟩⟩
  · exact ⟨_, rfl, h1, ⟨rfl, .refl _, rfl⟩⟩

omit h in
theorem Control.adoptAll : ∀ (fuel : Nat) (k : Kernel), k.Control → Within Stops (adoptAll fuel k) fun k' => k'.Control ∧ Adopts k k' := by
  intro fuel
  induction fuel with
  | zero =>
    intro k h
    unfold Kernel.adoptAll
    split
    · exact ⟨h, .refl k⟩
    · exact trivial
  | succ fuel ih =>
    intro k h
    unfold Kernel.adoptAll
    split
    · exact ⟨h, .refl k⟩
    · rename_i proc _
      obtain ⟨k1, hk1, h1, ha⟩ := h.adopt proc
      dsimp only
      rw [hk1, bind_ok]
      exact (ih k1 h1).mono fun k' hk' => ⟨hk'.1, ha.trans hk'.2⟩

/-- A zombie goes on to its call of `schedule`. -/
theorem Control.go_exited (hpt : k.point k.current = .exiting) (hout : k.inSchedule k.current = false) :
    (k.go .exited).Control := by
  have hp := h.procs k.current
  have hs := hp.stands
  rw [hpt] at hs
  have hb := hp.busy (by rw [hs.1]; nofun)
  have hst : Point.exited.Stands _ _ := hs
  have hset := h.settle (hp.off (by rw [hpt]; rfl)) hout hb hst trivial hp.live
  rwa [Sched.setProc, update_eq_self] at hset

theorem Control.exitLinks (hpt : k.point k.current = .exiting) (hout : k.inSchedule k.current = false) :
    Within Stops k.exitLinks Control := by
  obtain ⟨s, hs, h1, hr, -⟩ := h.wakeupParent (k.family.parent k.current)
  unfold Kernel.exitLinks
  rw [hs, bind_ok]
  refine (Control.adoptAll _ _ h1).bind fun k' ⟨hk', ha⟩ => ?_
  have hc : k'.current = k.current := ha.roused.current.trans hr.current
  refine hk'.go_exited ?_ ?_
  · rw [hc, ha.eq]
    exact hpt
  · rw [hc, ha.eq]
    exact hout

/-- `current->state = PROC_SLEEPING` in `do_wait`. -/
theorem Control.mark (hr : k.Ready) (hb : k.current ≠ k.sched.idleproc) (pid : Int) :
    (({ k with sched := k.sched.setProc k.current { k.sched.procs k.current with state := .sleeping } } : Kernel).go
      (.marked pid)).Control := by
  exact h.settle hr.off hr.out hb ⟨rfl, hr.waitState⟩ trivial fun _ => hr.live h

omit h in
theorem firstZombie_within (k : Kernel) : ∀ (fuel : Nat) (o : Option Nat),
    Within Stops (k.firstZombie fuel o) fun z => ∀ p, z = some p → (k.sched.procs p).state = .zombie := by
  intro fuel
  induction fuel with
  | zero =>
    intro o
    cases o with
    | none => exact nofun
    | some p => exact trivial
  | succ fuel ih =>
    intro o
    cases o with
    | none => exact nofun
    | some p =>
      unfold firstZombie
      split
      · rename_i hz
        intro q hq
        cases hq
        exact hz
      · exact ih _

theorem Control.doWait (hr : k.Ready) (hb : k.current ≠ k.sched.idleproc) (pid : Int) :
    Within Stops (k.doWait pid) Control := by
  have hre : ∀ p, (k.sched.procs p).state = .zombie → (k.go (.reaping p)).Control := by
    intro p hz
    refine h.go hr trivial (fun hi => absurd hi hb) nofun nofun ?_
    intro q hq
    cases hq
    exact hz
  unfold Kernel.doWait
  dsimp only
  split
  · split
    · exact h.go_run hr
    · split
      · exact h.go_run hr
      · split
        · rename_i hz
          exact hre _ hz
        · exact h.mark hr hb pid
  · refine (firstZombie_within k _ _).bind fun z hz => ?_
    cases z with
    | some p => exact hre p (hz p rfl)
    | none =>
      change Control (if _ then _ else _)
      split
      · exact h.go_run hr
      · exact h.mark hr hb pid

/-- `current->wait_state = WT_CHILD` in `do_wait`. -/
theorem Control.waitMark (hpt : k.point k.current = .marked pid) (hout : k.inSchedule k.current = false) :
    (k.waitMark pid).Control := by
  have hp := h.procs k.current
  have hs := hp.stands
  rw [hpt] at hs
  have hb := hp.busy (by rw [hs.1]; nofun)
  exact h.settle (hp.off (by rw [hpt]; rfl)) hout hb (Or.inl ⟨hs.1, rfl⟩) trivial fun _ => hp.live (Or.inl hs.1)

omit h in
theorem removeLinks_procList (proc : Nat) (f : Family) : (f.removeLinks proc).procList = f.procList.erase proc := by
  unfold Family.removeLinks
  dsimp only
  split <;> split <;> rfl

theorem Control.reap (hpt : k.point k.current = .reaping p) (hout : k.inSchedule k.current = false) :
    Within (StopsIf P) (k.reap p) Control := by
  have hc := h.procs k.current
  have hs := hc.stands
  rw [hpt] at hs
  have hr : k.Ready := ⟨hs.1, hs.2, hout, hc.off (by rw [hpt]; rfl)⟩
  have hz := h.cur.reaping p hpt
  unfold Kernel.reap
  refine Within.ensure_bind (fun _ => ⟨trivial, nofun⟩) fun _ => ?_
  have h1 := h.setTables (k.family.removeLinks p) (k.pids.unhashProc p) (by
    intro q hq hm
    rw [removeLinks_procList]
    refine (List.mem_erase_of_ne ?_).mpr hm
    rintro rfl
    exact hq hz)
  exact h1.go_run ⟨hr.state, hr.waitState, hr.out, ⟨hr.off.sems, hr.off.stdin, hr.off.timers⟩⟩

theorem Control.doKill (hr : k.Ready) (hb : k.current ≠ k.sched.idleproc) (pid : Int) : (k.doKill pid).Control := by
  unfold Kernel.doKill
  split
  · exact h
  · rename_i proc _
    split
    · exact h
    · have h1 := h.setFlags k.forking (update k.exiting proc true)
      dsimp only
      split
      · rename_i hint
        have hne : (k.sched.procs proc).waitState ≠ 0 := by
          intro h0
          rw [h0] at hint
          exact hint (Nat.zero_and _)
        obtain ⟨hpt, -⟩ := Point.waitState_of_stands (h.procs proc).stands hne
        refine h1.go ⟨hr.state, hr.waitState, hr.out, ⟨hr.off.sems, hr.off.stdin, hr.off.timers⟩⟩ trivial
          (fun hi => absurd hi hb) nofun ?_ nofun
        intro p hp
        cases hp
        refine ⟨⟨_, hpt, ?_⟩, ?_⟩
        · intro hks
          rw [hks] at hint
          exact hint (by decide)
        · intro hpc
          have hpc : proc = k.current := hpc
          exact hne (hpc ▸ hr.waitState)
      · exact h1

/-! ## All events -/

/-- The current process wakes another one and returns. -/
theorem Control.wakeup_go (hw : k.Wakes p) (hpc : p ≠ k.current) (hr : k.Ready) :
    Within (StopsIf P) (k.wakeup p >>= fun k => .ok (k.go .run)) Control := by
  obtain ⟨s, hs, h1, hwo⟩ := h.wakeup hw
  rw [hs, bind_ok]
  have hc : ({ k with sched := s } : Kernel).current = k.current := hwo.current
  have hp := hwo.others k.current (Ne.symm hpc)
  have hr1 : Ready { k with sched := s } := by
    refine ⟨?_, ?_, ?_, ?_⟩
    · rw [hc]
      exact (congrArg SchedProc.state hp).trans hr.state
    · rw [hc]
      exact (congrArg SchedProc.waitState hp).trans hr.waitState
    · rw [hc]
      exact hr.out
    · rw [hc]
      exact ⟨hr.off.sems, hr.off.stdin, hr.off.timers⟩
  exact h1.go_run hr1

/-- A process that is awake and outside of `schedule` is ready. -/
theorem Control.ready_of_awake (hpt : (k.point k.current).Awake) (hy : k.point k.current ≠ .yielding)
    (hout : k.inSchedule k.current = false) : k.Ready := by
  have hp := h.procs k.current
  have hs := hp.stands
  have ho := hp.off (Point.waitState_of_awake hpt)
  revert hpt hs hy
  cases k.point k.current <;> simp_all [Point.Awake, Point.Stands, Ready.mk]

/-- The child that `do_fork` is about to wake. -/
theorem Control.wakes_linked (hpt : k.point k.current = .linked p) : k.Wakes p := by
  obtain ⟨hy, hl⟩ := h.cur.linked p hpt
  refine ⟨Or.inr ⟨hy, hl⟩, h.free ?_⟩
  intro i
  rw [hy]
  nofun

/-- The process that `do_kill` is about to wake. -/
theorem Control.wakes_killing (hpt : k.point k.current = .killing p) : k.Wakes p := by
  obtain ⟨w, hw, hks⟩ := h.cur.killing p hpt
  refine ⟨Or.inl ⟨w, hw⟩, h.free ?_⟩
  intro i hi
  rw [hi] at hw
  exact hks (Option.some.inj hw).symm

theorem Control.proceed (hl : k.point k.current = .exiting → k.exitLinks = .error .endless → P)
    (hout : k.inSchedule k.current = false) : Within (StopsIf P) k.proceed Control := by
  unfold Kernel.proceed
  cases hpt : k.point k.current with
  | run => exact h
  | linked child =>
    obtain ⟨hy, -⟩ := h.cur.linked child hpt
    have hcc : child ≠ k.current := by
      rintro rfl
      rw [hpt] at hy
      cases hy
    exact h.wakeup_go (h.wakes_linked hpt) hcc (h.ready_of_awake (by rw [hpt]; trivial) (by rw [hpt]; nofun) hout)
  | killing proc =>
    obtain ⟨w, hw, -⟩ := h.cur.killing proc hpt
    have hcc : proc ≠ k.current := by
      rintro rfl
      rw [hpt] at hw
      cases hw
    exact h.wakeup_go (h.wakes_killing hpt) hcc (h.ready_of_awake (by rw [hpt]; trivial) (by rw [hpt]; nofun) hout)
  | marked pid => exact h.waitMark hpt hout
  | reaping proc => exact h.reap hpt hout
  | exiting => exact within_stopsIf (h.exitLinks hpt hout) (hl hpt)
  | waiting | downing | reading | sleeping | exited | yielding =>
    obtain ⟨s, hs, h1, -⟩ := h.callSchedule (by rw [hpt]; trivial)
    exact Within.of_eq_ok hs h1

theorem Control.resume (hw : ∀ pid, k.left.doWait pid = .error .endless → P) (hin : k.inSchedule k.current = true) :
    Within (StopsIf P) k.resume Control := by
  have h₁ := h.leave hin
  have hrun := h.cur.picked hin
  have hp := h.procs k.current
  have hout : k.left.inSchedule k.current = false := update_self ..
  have hb : ∀ pt, k.point k.current = pt → pt ≠ .run → pt ≠ .yielding → k.current ≠ k.sched.idleproc := by
    intro pt hpt hr hy hi
    rcases (hp.idle hi).1 with h1 | h1
    · exact hr (hpt.symm.trans h1)
    · exact hy (hpt.symm.trans h1)
  have hready : (∀ n, k.point k.current ≠ .reading n) → k.point k.current ≠ .sleeping → k.left.Ready := by
    intro hnr hns
    refine ready_of_runnable h₁ hrun hout ?_ ?_
    · intro hi
      obtain ⟨n, hn⟩ := hp.reads hi
      exact hnr n hn
    · intro hi
      exact hns (hp.sleeps hi)
  have hsc := hp.schedules hin
  have hl : k.left.point k.left.current = k.point k.current := rfl
  unfold Kernel.resume afterSchedule
  rw [hl]
  cases hpt : k.point k.current with
  | waiting pid =>
    have hr := hready (by rw [hpt]; nofun) (by rw [hpt]; nofun)
    change Within _ (k.left.waitResume pid) Control
    unfold Kernel.waitResume
    split
    · exact h₁.doExit hr
    · exact within_stopsIf (h₁.doWait hr (hb _ hpt nofun nofun) pid) (hw pid)
  | downing i =>
    obtain ⟨hs, h2⟩ := h₁.downResume hrun hout hpt
    exact Within.of_eq_ok hs h2
  | reading n => exact h₁.readResume hrun hout (hb _ hpt nofun nofun) hpt
  | sleeping => exact h₁.sleepResume hrun hout hpt
  | exited =>
    have hs := hp.stands
    rw [hpt, hrun] at hs
    exact absurd hs.1 nofun
  | yielding => exact h₁.go_run (hready (by rw [hpt]; nofun) (by rw [hpt]; nofun))
  | run | linked | killing | marked | reaping | exiting =>
    rw [hpt] at hsc
    exact hsc.elim

/-- An event leads to a state that meets the invariant, or to a panic; `endless` is that of a loop over the children. -/
theorem step_within (hls : k.point k.current = .exiting → k.exitLinks = .error .endless → P)
    (hw : ∀ pid, k.doWait pid = .error .endless → P) (hwait' : ∀ pid, k.left.doWait pid = .error .endless → P) (e : Event)
    (he : k.Enabled e) : Within (StopsIf P) (k.step e) Control := by
  cases e with
  | clock =>
    obtain ⟨hok, hsa, hc⟩ := Sched.schedClassProcTick_spec h.sched
    exact h.sched_same hok hsa hc
  | expire p =>
    obtain ⟨s, hs, h1, -⟩ := h.expire he
    exact Within.of_eq_ok hs h1
  | key c =>
    obtain ⟨s, flags, hs, h1, -⟩ := h.devStdinWrite c
    exact Within.of_eq_ok hs h1
  | proceed => exact h.proceed hls he.2
  | resume => exact h.resume hwait' he
  | yield =>
    have hr := h.ready_of_awake (by rw [he.1]; trivial) (by rw [he.1]; nofun) he.2
    exact h.go hr trivial (fun _ => Or.inr rfl) nofun nofun nofun
  | fork =>
    change Within _ k.forkCheck Control
    unfold forkCheck
    split
    · exact h
    · have hr := h.ready he.toRuns
      rw [ensure_of hr.waitState]
      exact h.setFlags _ k.exiting
  | forkFail => exact h.setFlags _ k.exiting
  | forkLink p fuel =>
    obtain ⟨hruns, -, -, hid, hli, hp⟩ := he
    obtain ⟨pids, hp⟩ := Option.isSome_iff_exists.mp hp
    have hle : ¬k.Live p := fun hl => hl.elim hid hli
    obtain ⟨k', hk', h1⟩ := h.forkLink (h.ready hruns) hruns.busy hle hp
    exact Within.of_eq_ok hk' h1
  | exit => exact h.doExit (h.ready he.toRuns)
  | wait pid => exact within_stopsIf (h.doWait (h.ready he.toRuns) he.busy pid) (hw pid)
  | kill pid => exact h.doKill (h.ready he.toRuns) he.busy pid
  | down i => exact h.down (h.ready he) he.busy
  | up i =>
    rcases h.up i with ⟨s, -, -, hup, h1⟩ | ⟨p, rest, k1, s, -, -, hup, h1, -⟩
    · exact Within.of_eq_ok hup h1
    · exact Within.of_eq_ok hup h1
  | tryDown i => exact h.tryDown
  | read len => exact h.devStdinRead (h.ready he.toRuns) he.busy
  | sleep => exact h.doSleep (h.ready he.toRuns) he.busy

theorem step_control (e : Event) (he : k.Enabled e) : Within Stops (k.step e) Control :=
  (step_within h (fun _ _ => trivial) (fun _ _ => trivial) (fun _ _ => trivial) e he).weaken fun _ hs => hs.1

end

end Kernel

end Ucore
