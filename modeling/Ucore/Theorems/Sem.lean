import Ucore.Lemmas.KernelEffect
import Ucore.Lemmas.Sync
import Ucore.Theorems.Sched

/-!
# Semaphores in every run of the kernel

A semaphore's value, its queue and what happened to it stay in step (`SemOk`). The value is an `int`, and `up` does not look at it
before it adds one: the law holds in the runs in which no `up` meets the largest `int`, and fails from there.
-/

namespace Ucore

open Checked

namespace Kernel

section

variable {k k' : Kernel} {e : Event} {i : Nat} {v : Int}

theorem setSem_semLog (i j : Nat) (s : Semaphore) (l : SemLog) (k : Kernel) :
    (k.setSem i s l).semLog j = if j = i then l else k.semLog j := Function.update_apply ..

/-- A change of one semaphore that keeps its law keeps that of every other one. -/
theorem semOk_setSem {j : Nat} {s : Semaphore} {l : SemLog} (h : SemOk v (k.sems i) (k.semLog i)) (hj : j = i → SemOk v s l) :
    SemOk v ((k.setSem j s l).sems i) ((k.setSem j s l).semLog i) := by
  rw [setSem_sems, setSem_semLog]
  by_cases hij : i = j
  · rw [if_pos hij, if_pos hij]
    exact hj hij.symm
  · rw [if_neg hij, if_neg hij]
    exact h

theorem devStdinRead_sems (n : Nat) (k : Kernel) : (k.devStdinRead n).sems = k.sems ∧ (k.devStdinRead n).semLog = k.semLog := by
  unfold devStdinRead
  dsimp only
  split
  · exact ⟨rfl, rfl⟩
  · exact ⟨rfl, rfl⟩

theorem readResume_sems (n : Nat) (k : Kernel) : (k.readResume n).sems = k.sems ∧ (k.readResume n).semLog = k.semLog := by
  unfold readResume
  dsimp only
  split
  · exact devStdinRead_sems n _
  · exact ⟨rfl, rfl⟩

theorem WaitEffect.sems {pid : Int} (h : WaitEffect k pid k') : k'.sems = k.sems ∧ k'.semLog = k.semLog := by
  cases h with
  | none | named | first | sleepNamed | sleepAny => exact ⟨rfl, rfl⟩

/-- An event keeps the law of a semaphore, if no `up` of it meets the largest `int`. -/
theorem step_sem (h : SemOk v (k.sems i) (k.semLog i)) (hP : e = .up i → (k.sems i).value < 2 ^ 31 - 1) (he : Effect k e k') :
    SemOk v (k'.sems i) (k'.semLog i) := by
  cases he with
  | clock | expire | key | wake | mark | reap | schedule | waitExit | slept | yielded | yield | forkNone | fork | forkFail | exit
  | killNone | killFlag | killWake | sleep => exact h
  | links s k' hpt hw hr hne hc hrun ha =>
    rw [ha.eq]
    exact h
  | waitAgain pid k' _ hw | wait pid k' hw =>
    obtain ⟨hs, hl⟩ := hw.sems
    rw [hs, hl]
    exact h
  | downed j hpt => exact semOk_setSem h fun hj => hj ▸ h
  | reads n =>
    obtain ⟨hs, hl⟩ := readResume_sems n k.left
    rw [hs, hl]
    exact h
  | read n =>
    obtain ⟨hs, hl⟩ := devStdinRead_sems n k
    rw [hs, hl]
    exact h
  | forkLink p fuel pids k' h0 hli hp hs =>
    rw [Kernel.forkLink, hp] at hs
    cases hs
    exact h
  | down j =>
    unfold Kernel.down Semaphore.down
    by_cases hv : 0 < (k.sems j).value
    · rw [if_pos hv]
      refine semOk_setSem h fun hj => ?_
      subst hj
      exact h.taken hv
    · rw [if_neg hv]
      refine semOk_setSem h fun hj => ?_
      subst hj
      exact h.block hv k.current
  | raise j s hq hs =>
    refine semOk_setSem h fun hj => ?_
    subst hj hs
    exact h.raise hq (hP rfl)
  | grant j p rest k1 s hq hk1 =>
    subst hk1
    refine semOk_setSem h fun hj => ?_
    subst hj
    exact h.grant hq
  | tryDown j =>
    refine semOk_setSem h fun hj => ?_
    subst hj
    exact h.tryDown

end

/-- In every run in which no `up` of the semaphore meets the largest `int`, whatever else the processes do: its value is never
negative; it is positive only where nobody waits; the units that went to a `down`, together with the value, are the initial value
and the calls of `up`; the processes that were granted a unit are the first of those that blocked, in this order; and neither the
assertion of `down` nor that of `__up` fails. -/
theorem semaphores_conserve (idle init : Nat) (v : Nat → Int) (buffer : Int → UInt8) (hne : idle ≠ init) (i : Nat)
    (hv : 0 ≤ v i) (hint : v i < 2 ^ 31) (k : Kernel)
    (hr : Reach (fun k e => e = .up i → (k.sems i).value < 2 ^ 31 - 1) (boot idle init v buffer) k) :
    0 ≤ (k.sems i).value ∧ (0 < (k.sems i).value → (k.sems i).waitQueue = []) ∧
    ((k.semLog i).downs : Int) + (k.sems i).value = v i + (k.semLog i).ups ∧
    (k.semLog i).blocked = (k.semLog i).granted ++ (k.sems i).waitQueue ∧
    ∀ e, k.Enabled e → k.step e ≠ .error .downFlags ∧ k.step e ≠ .error .upWaitState := by
  have h : k.Control ∧ SemOk (v i) (k.sems i) (k.semLog i) := by
    refine hr.invariant (I := fun k => k.Control ∧ SemOk (v i) (k.sems i) (k.semLog i)) ?_ ?_
    · exact ⟨boot_control hne, hv, hint, fun _ => rfl, by simp [boot], rfl⟩
    · rintro k k' e ⟨hc, hs⟩ hP he hstep
      have hw := step_control hc e he
      rw [hstep] at hw
      exact ⟨hw, step_sem hs hP (effect_of_step hc he hstep)⟩
  refine ⟨h.2.nonneg, h.2.idle, h.2.count, h.2.fifo, ?_⟩
  intro e he
  have hw := step_control h.1 e he
  constructor
  · intro herr
    rwa [herr] at hw
  · intro herr
    rwa [herr] at hw

/-- `initproc` forks a process and blocks on a semaphore, is the target of a `do_kill` there, and is granted a unit by the other. -/
def blockAndGrant : List Event :=
  [.yield, .proceed, .resume, .fork, .forkLink 3 1, .proceed, .down 0, .proceed, .resume, .kill 1, .up 0, .yield, .proceed, .resume]

theorem semaphores_conserve_granted :
    ∃ k, run (fun k e => e = .up 0 → (k.sems 0).value < 2 ^ 31 - 1) blockAndGrant (boot 1 2 (fun _ => 0) fun _ => 0) = some k ∧
      k.current = 2 ∧ k.point 2 = .run ∧ (k.semLog 0).granted = [2] ∧
      ((k.semLog 0).downs : Int) + (k.sems 0).value = 0 + (k.semLog 0).ups := by
  refine ⟨(run _ blockAndGrant _).get (by decide +kernel), (Option.some_get _).symm, by decide +kernel, by decide +kernel,
    by decide +kernel, ?_⟩
  exact (semaphores_conserve 1 2 (fun _ => 0) _ (by decide) 0 (by decide) (by decide) _
    (reach_of_run (Option.some_get _).symm)).2.2.1

/-- `initproc` calls `up` for a semaphore that started with the largest `int`: its value is negative. -/
theorem semaphore_wraps : ∃ k, Reach (fun _ _ => True) (boot 1 2 (fun _ => 2 ^ 31 - 1) fun _ => 0) k ∧ (k.sems 0).value < 0 := by
  exact ⟨(run _ [.yield, .proceed, .resume, .up 0] _).get (by decide +kernel), reach_of_run (Option.some_get _).symm,
    by decide +kernel⟩

end Kernel

end Ucore
