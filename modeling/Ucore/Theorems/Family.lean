import Ucore.Lemmas.Waiting
import Ucore.Theorems.Sched

/-!
# Process numbers, families and waiting parents in every run of the kernel

The tables of processes are right after `proc_init` and every event keeps them. `idleproc` has the number 0 and is on no list: the
processes that `find_proc` can find are those of `proc_list`.

The children of a process are linked from the one that came to it last: a process is put in front of its siblings when it is forked, and
also when it is handed to `initproc` by the exit of its parent. As `do_exit` takes the children from the front, those that are handed
over end up in the order of their age.
-/

namespace Ucore

open Checked Siblings

namespace Kernel

section

variable {idle init : Nat} {v : Nat → Int} {buffer : Int → UInt8} {P : Kernel → Event → Prop} {k : Kernel}

theorem boot_pids (hne : idle ≠ init) : (boot idle init v buffer).pids.Ok [init] := by
  have hpid : (boot idle init v buffer).pids.pid init = 1 := by simp [boot, Ne.symm hne]
  constructor
  case nodup => exact List.nodup_singleton init
  case range =>
    intro p hp
    rw [List.mem_singleton.mp hp, hpid]
    decide
  case inj =>
    intro p hp q hq _
    rw [List.mem_singleton.mp hp, List.mem_singleton.mp hq]
  case last => exact Int.le_refl 1
  case safe => exact Int.le_refl maxPid
  case clear =>
    intro p hp
    rw [List.mem_singleton.mp hp, hpid]
    exact fun hlt => absurd hlt.1 (Int.lt_irrefl 1)
  case hash =>
    constructor
    · intro b p
      change p ∈ (if b = pidHashfn 1 then [init] else []) ↔ p ∈ [init] ∧ pidHashfn ((boot idle init v buffer).pids.pid p) = b
      by_cases hb : b = pidHashfn 1
      · rw [if_pos hb, and_iff_left_of_imp]
        intro hp
        rw [List.mem_singleton.mp hp, hpid, hb]
      · rw [if_neg hb]
        refine ⟨fun hp => absurd hp List.not_mem_nil, ?_⟩
        rintro ⟨hp, heq⟩
        rw [List.mem_singleton.mp hp, hpid] at heq
        exact absurd heq.symm hb
    · intro b
      change (if b = pidHashfn 1 then [init] else []).Nodup
      split
      · exact List.nodup_singleton init
      · exact List.nodup_nil

theorem boot_tree (hne : idle ≠ init) : (boot idle init v buffer).family.Full idle fun _ => False := by
  have hpar : (boot idle init v buffer).family.parent init = idle := if_pos rfl
  constructor
  case nodup => exact List.nodup_singleton init
  case root => exact fun hm => hne (List.mem_singleton.mp hm)
  case sub => exact fun p hp => hp
  case parent =>
    intro p hp
    rw [List.mem_singleton.mp hp]
    exact Or.inl hpar
  case children =>
    intro p hp
    by_cases hpi : p = idle
    · subst hpi
      refine ⟨[init], ⟨⟨if_pos rfl, rfl⟩, ?_, List.pairwise_singleton ..⟩, fun _ => ⟨rfl, trivial⟩⟩
      intro q
      change q ∈ [init] ↔ q ∈ [init] ∧ _
      rw [and_iff_left_of_imp]
      intro hq
      rw [List.mem_singleton.mp hq]
      exact hpar
    · refine ⟨[], ⟨if_neg hpi, ?_, List.Pairwise.nil⟩, fun _ => trivial⟩
      intro q
      refine ⟨fun hq => absurd hq List.not_mem_nil, fun ⟨hq, heq⟩ => ?_⟩
      rw [List.mem_singleton.mp hq, hpar] at heq
      exact absurd heq.symm hpi
  case since => exact fun _ _ => Nat.one_pos

theorem boot_kinship (hne : idle ≠ init) : (boot idle init v buffer).Kinship := by
  have hpo : ∀ p, (boot idle init v buffer).point p = .run ∨ (boot idle init v buffer).point p = .yielding := by
    intro p
    change (if p = idle then Point.run else .yielding) = _ ∨ (if p = idle then Point.run else .yielding) = _
    split
    · exact Or.inl rfl
    · exact Or.inr rfl
  have hn : ∀ p pt, pt ≠ .run → pt ≠ .yielding → (boot idle init v buffer).point p ≠ pt := by
    intro p pt h1 h2 hpt
    rcases hpo p with h | h
    · exact h1 (hpt.symm.trans h)
    · exact h2 (hpt.symm.trans h)
  refine ⟨boot_pids hne, if_pos rfl, boot_tree hne, rfl, List.mem_singleton_self init, ?_, ?_, Or.inl rfl, ?_⟩
  · exact ⟨hn _ _ nofun nofun, hn _ _ nofun nofun⟩
  · exact fun p hp => absurd hp (hn p _ nofun nofun)
  · exact fun p hp => absurd hp (hn _ _ nofun nofun)

theorem boot_attended : (boot idle init v buffer).Attended := by
  intro p pid c hw _
  have ha : (if p = idle then ({ SchedProc.alloc with state := .runnable, needResched := true } : SchedProc)
      else if p = init then { SchedProc.alloc with state := .runnable, timeSlice := maxTimeSlice, rq := true }
      else .alloc).state = .sleeping := hw.asleep
  split at ha
  · cases ha
  · split at ha <;> cases ha

/-- The invariants hold in every state that the kernel reaches. -/
theorem kinship_of_reach (hne : idle ≠ init) (hr : Reach P (boot idle init v buffer) k) : k.Control ∧ k.Kinship ∧ k.Attended := by
  refine hr.invariant (I := fun k => k.Control ∧ k.Kinship ∧ k.Attended) ⟨boot_control hne, boot_kinship hne, boot_attended⟩ ?_
  intro k k' e ⟨hc, hk, ha⟩ _ he hs
  have hw := step_control hc e he
  rw [hs] at hw
  have hef := effect_of_step hc he hs
  exact ⟨hw, step_kinship hk hc hw hef, step_attended ha hk hc he hef⟩

end

/-! ## Process numbers -/

/-- In every state that the kernel reaches: with at most `MAX_PROCESS` processes `get_pid` returns; what it returns is a number from 1 to
`MAX_PID - 1` that no process of `proc_list` has; no two processes, `idleproc` included, have the same number; and `find_proc` returns
a process of `proc_list` exactly if it has the number. -/
theorem pids_unique (idle init : Nat) (v : Nat → Int) (buffer : Int → UInt8) (hne : idle ≠ init) (k : Kernel)
    (hr : Reach (fun _ _ => True) (boot idle init v buffer) k) :
    (k.family.procList.length ≤ maxProcess → ∃ fuel, (k.pids.getPid fuel k.family.procList).isSome) ∧
    (∀ fuel pids, k.pids.getPid fuel k.family.procList = some pids →
      1 ≤ pids.lastPid ∧ pids.lastPid < maxPid ∧ ∀ p ∈ k.family.procList, k.pids.pid p ≠ pids.lastPid) ∧
    (∀ p q, k.Live p → k.Live q → k.pids.pid p = k.pids.pid q → p = q) ∧
    ∀ pid p, k.pids.findProc pid = some p ↔ p ∈ k.family.procList ∧ k.pids.pid p = pid := by
  obtain ⟨-, hk, -⟩ := kinship_of_reach hne hr
  refine ⟨Pids.getPid_total hk.pids, ?_, ?_, fun pid p => hk.pids.findProc pid⟩
  · intro fuel pids hp
    obtain ⟨h1, hmax, -, -, hfree, -⟩ := Pids.getPid_spec hk.pids hp
    exact ⟨h1, hmax, hfree⟩
  · intro p q hp hq heq
    -- the number of `idleproc` is out of the range of the others
    rcases hp with rfl | hp
    · rcases hq with rfl | hq
      · rfl
      · have := hk.pids.range q hq
        have := hk.zero
        omega
    · rcases hq with rfl | hq
      · have := hk.pids.range p hp
        have := hk.zero
        omega
      · exact hk.pids.inj p hp q hq heq

/-- `initproc` forks a process, waits for it and forks another one at the same address. -/
def forkAgain : List Event :=
  [.yield, .proceed, .resume, .fork, .forkLink 3 1, .proceed, .wait 0, .proceed, .proceed, .resume, .exit, .proceed, .proceed, .resume,
    .proceed, .fork, .forkLink 3 1]

theorem pids_unique_again : ∃ k, run (fun _ _ => True) forkAgain (boot 1 2 (fun _ => 1) fun _ => 0) = some k ∧
    k.family.procList = [3, 2] ∧ k.pids.pid 3 = 3 ∧ k.pids.findProc 3 = some 3 ∧
    ∃ fuel, (k.pids.getPid fuel k.family.procList).isSome := by
  refine ⟨(run _ forkAgain _).get (by decide +kernel), (Option.some_get _).symm, by decide +kernel, by decide +kernel,
    by decide +kernel, ?_⟩
  exact (pids_unique 1 2 _ _ (by decide) _ (reach_of_run (Option.some_get _).symm)).1 (by decide +kernel)

/-! ## Families -/

/-- In every state that the kernel reaches in which the current process is not on its way from becoming a zombie to the section of
`do_exit` (at a context switch it never is), a process that sleeps in `do_wait(pid)` has no zombie child with this number, or at
all if `pid` is 0. -/
theorem no_lost_exit (idle init : Nat) (v : Nat → Int) (buffer : Int → UInt8) (hne : idle ≠ init) (k : Kernel)
    (hr : Reach (fun _ _ => True) (boot idle init v buffer) k) :
    (k.inSchedule k.current = true → k.point k.current ≠ .exiting) ∧
    (k.point k.current ≠ .exiting → ∀ p pid, k.point p = .waiting pid → (k.sched.procs p).state = .sleeping →
      ∀ c ∈ k.family.procList, k.family.parent c = p → (pid = 0 ∨ k.pids.pid c = pid) →
        (k.sched.procs c).state ≠ .zombie) := by
  obtain ⟨hc, -, ha⟩ := kinship_of_reach hne hr
  refine ⟨not_exiting_of_resume hc, ?_⟩
  intro hex p pid hpt hs c hcl hpar hpid hz
  obtain ⟨rfl, hpt'⟩ := ha p pid c ⟨Or.inr hpt, hs⟩ ⟨hcl, hpar, hpid, hz⟩
  exact hex hpt'

/-- `initproc` waits for its child, which forks a process and waits in turn. -/
def waitTwice : List Event :=
  [.yield, .proceed, .resume, .fork, .forkLink 3 1, .proceed, .wait 2, .proceed, .proceed, .resume, .fork, .forkLink 4 1, .proceed,
    .wait 0, .proceed, .proceed]

theorem no_lost_exit_waiting : ∃ k, run (fun _ _ => True) waitTwice (boot 1 2 (fun _ => 1) fun _ => 0) = some k ∧
    k.inSchedule k.current = true ∧ k.point 2 = .waiting 2 ∧ (k.sched.procs 2).state = .sleeping ∧ k.pids.pid 3 = 2 ∧
    (k.sched.procs 3).state ≠ .zombie := by
  refine ⟨(run _ waitTwice _).get (by decide +kernel), (Option.some_get _).symm, by decide +kernel, by decide +kernel,
    by decide +kernel, by decide +kernel, ?_⟩
  obtain ⟨hsw, hno⟩ := no_lost_exit 1 2 _ _ (by decide) _ (reach_of_run (Option.some_get _).symm)
  exact hno (hsw (by decide +kernel)) 2 2 (by decide +kernel) (by decide +kernel) 3 (by decide +kernel) (by decide +kernel)
    (Or.inr (by decide +kernel))

end Kernel

end Ucore
