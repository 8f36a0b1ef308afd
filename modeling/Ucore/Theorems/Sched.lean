import Ucore.Lemmas.KernelStep

/-!
# The run queue in every run of the kernel

The kernel after `proc_init` meets the invariant on the points and the states of the processes, and every event keeps it. So the run
queue holds what it should at every point outside the interrupt-disabled sections, and no assertion of the scheduler fires.
-/

namespace Ucore

open Checked

namespace Kernel

section

variable {idle init : Nat} {v : Nat → Int} {buffer : Int → UInt8} {P : Kernel → Event → Prop} {k k' k0 : Kernel}

theorem boot_sched (hne : idle ≠ init) : (boot idle init v buffer).sched.Ok := by
  refine ⟨⟨List.nodup_singleton init, rfl, ?_, rfl⟩, ?_⟩
  · intro p hp
    rw [List.mem_singleton.mp hp]
    simp [boot, Ne.symm hne]
  · intro p
    by_cases hi : p = idle
    · simp [boot, hi, hne]
    · by_cases hp : p = init
      · simp [boot, hp, Ne.symm hne]
      · simp [boot, hi, hp, SchedProc.alloc]

theorem boot_control (hne : idle ≠ init) : (boot idle init v buffer).Control := by
  refine ⟨boot_sched hne, ?_, ?_, ⟨fun _ => List.nodup_nil, List.nodup_nil, List.nodup_nil⟩, ?_⟩
  · intro p
    have hn : ∀ i, p ∉ ((boot idle init v buffer).sems i).waitQueue := fun i => List.not_mem_nil
    by_cases hi : p = idle
    · subst hi
      refine ⟨?_, ?_, fun i hp => absurd hp (hn i), ?_, nofun, nofun, fun _ => Or.inl rfl, ?_⟩
      all_goals simp [boot, Point.Stands, SchedProc.alloc]
    · refine ⟨?_, ?_, fun i hp => absurd hp (hn i), ?_, by simp [boot], by simp [boot], ?_, fun hp => absurd hp hi⟩
      · by_cases hp : p = init
        · simp [boot, hp, Ne.symm hne, Point.Stands, SchedProc.alloc]
        · simp [boot, hi, hp, Point.Stands, SchedProc.alloc]
      · simp [boot, hi, Point.Schedules]
      · simp [boot, hi]
      · by_cases hp : p = init
        · exact fun _ => Or.inr (List.mem_singleton.mpr hp)
        · simp [boot, hi, hp, SchedProc.alloc]
  · intro p hp
    exact decide_eq_true hp
  · refine CurrentOk.plain ?_ ?_ ?_ ?_
    all_goals simp [boot, current]

/-- A property of all states of a run: it holds at the start, and the events of the run keep it. -/
theorem Reach.invariant {I : Kernel → Prop} (hr : Reach P k0 k) (h0 : I k0)
    (hst : ∀ k k' e, I k → P k e → k.Enabled e → k.step e = .ok k' → I k') : I k := by
  induction hr with
  | boot => exact h0
  | step e _ hP he hs ih => exact hst _ _ e ih hP he hs

theorem Reach.trans (h : Reach P k0 k) (h' : Reach P k k') : Reach P k0 k' := by
  induction h' with
  | boot => exact h
  | step e _ hP he hs ih => exact ih.step e hP he hs

/-- The states of `run` are reached. -/
theorem reach_of_run [∀ k e, Decidable (P k e)] {es : List Event} : ∀ {k k' : Kernel}, run P es k = some k' → Reach P k k' := by
  induction es with
  | nil =>
    intro k k' h
    cases h
    exact .boot
  | cons e es ih =>
    intro k k' h
    unfold run at h
    split at h
    · rename_i he
      obtain ⟨hP, he⟩ := he
      cases hs : k.step e with
      | error a =>
        rw [hs] at h
        cases h
      | ok k1 =>
        rw [hs] at h
        exact (Reach.boot.step e hP he hs).trans (ih h)
    · cases h

/-- The invariant holds in every state that the kernel reaches. -/
theorem control_of_reach (hne : idle ≠ init) (hr : Reach P (boot idle init v buffer) k) : k.Control := by
  refine hr.invariant (boot_control hne) ?_
  intro k k' e h _ he hs
  have hw := step_control h e he
  rwa [hs] at hw

end

/-- At every point outside the interrupt-disabled sections, in every run of the kernel, the run queue holds exactly the runnable
processes other than the current one and `idleproc`, each once; `proc_num` is its length; the processes that have left it are, in
this order, the first of those that entered it; and no event makes an assertion of `RR_enqueue`, `RR_dequeue` or `wakeup_proc`
fail. -/
theorem run_queue_exact (idle init : Nat) (v : Nat → Int) (buffer : Int → UInt8) (hne : idle ≠ init) (k : Kernel)
    (hr : Reach (fun _ _ => True) (boot idle init v buffer) k) :
    (∀ p, p ∈ k.sched.runList ↔
      k.Live p ∧ (k.sched.procs p).state = .runnable ∧ p ≠ k.current ∧ p ≠ k.sched.idleproc) ∧
    k.sched.runList.Nodup ∧ k.sched.procNum = k.sched.runList.length ∧ k.sched.entered = k.sched.left ++ k.sched.runList ∧
    ∀ e, k.Enabled e → ∀ a, k.step e ≠ .error (.sched a) := by
  have h := control_of_reach hne hr
  refine ⟨?_, h.sched.nodup, h.sched.num, h.sched.fifo, ?_⟩
  · intro p
    rw [h.sched.mem p]
    exact ⟨fun hp => ⟨(h.procs p).live (Or.inr hp.1), hp⟩, fun hp => hp.2⟩
  · intro e he a herr
    have hw := step_control h e he
    rwa [herr] at hw

/-- `initproc` forks two processes and waits; a key arrives between its marking itself asleep and its call of `schedule`. -/
def forkTwo : List Event :=
  [.yield, .proceed, .resume, .fork, .forkLink 3 1, .proceed, .fork, .forkLink 4 1, .proceed, .wait 0, .proceed, .key 97, .proceed]

theorem run_queue_exact_fork : ∃ k, run (fun _ _ => True) forkTwo (boot 1 2 (fun _ => 1) fun _ => 0) = some k ∧ k.current = 3 ∧
    k.sched.runList = [4] ∧ ∀ p, p ∈ k.sched.runList ↔ k.Live p ∧ (k.sched.procs p).state = .runnable ∧ p ≠ k.current ∧
      p ≠ k.sched.idleproc := by
  refine ⟨(run _ forkTwo _).get (by decide +kernel), (Option.some_get _).symm, by decide +kernel, by decide +kernel, ?_⟩
  exact (run_queue_exact 1 2 _ _ (by decide) _ (reach_of_run (Option.some_get _).symm)).1

end Kernel

end Ucore
