import Ucore.Lemmas.KernelStep

/-!
# What an event does

`Kernel.Effect` lists the ways in which an event can change the state, with what is known of the state before it. `effect_of_step` reads
them off the functions of the kernel once; the invariants of the semaphores, the keyboard and the links are proved from the list.
-/

namespace Ucore

open Checked Function

namespace Kernel

/-- The state in which the current process has become a zombie. -/
def died (k : Kernel) : Kernel :=
  { k with sched := k.sched.setProc k.current { k.sched.procs k.current with state := .zombie } }.go .exiting

/-- The state in which the current process has marked itself asleep in `do_wait`. -/
def dozed (pid : Int) (k : Kernel) : Kernel :=
  { k with sched := k.sched.setProc k.current { k.sched.procs k.current with state := .sleeping } }.go (.marked pid)

/-- The outcomes of `do_wait` from the label `repeat` on. -/
inductive WaitEffect (k : Kernel) (pid : Int) : Kernel → Prop
  | none : WaitEffect k pid (k.go .run)
  | named (p : Nat) : pid ≠ 0 → k.pids.findProc pid = some p → k.family.parent p = k.current →
    (k.sched.procs p).state = .zombie → WaitEffect k pid (k.go (.reaping p))
  | first (p : Nat) : pid = 0 → k.firstZombie k.family.nrProcess (k.family.cptr k.current) = .ok (some p) →
    WaitEffect k pid (k.go (.reaping p))
  | sleepNamed (p : Nat) : pid ≠ 0 → k.pids.findProc pid = some p → k.family.parent p = k.current →
    (k.sched.procs p).state ≠ .zombie → WaitEffect k pid (k.dozed pid)
  | sleepAny : pid = 0 → k.firstZombie k.family.nrProcess (k.family.cptr k.current) = .ok none → WaitEffect k pid (k.dozed pid)

/-- The ways in which an event changes the state. -/
inductive Effect (k : Kernel) : Event → Kernel → Prop
  | clock (s : Sched) : Sched.Same k.sched s → s.current = k.sched.current → Effect k .clock { k with sched := s }
  | expire (p : Nat) (s : Sched) : Sched.Roused k.sched s → Effect k (.expire p) { k with sched := s, timers := k.timers.erase p }
  | key (c : UInt8) (s : Sched) (flags : Nat → Nat) : Sched.Roused k.sched s →
    Effect k (.key c) { k with sched := s, wakeupFlags := flags, stdin := { k.stdin.write c with waitQueue := [] } }
  | wake (p : Nat) (s : Sched) : k.point k.current = .linked p ∨ k.point k.current = .killing p → Sched.Roused k.sched s →
    Effect k .proceed ({ k with sched := s }.go .run)
  | mark (pid : Int) : k.point k.current = .marked pid → Effect k .proceed (k.waitMark pid)
  | reap (p : Nat) : k.point k.current = .reaping p → p ≠ k.sched.idleproc → p ≠ k.initproc →
    Effect k .proceed ({ k with pids := k.pids.unhashProc p, family := k.family.removeLinks p }.go .run)
  | links (s : Sched) (k' : Kernel) : k.point k.current = .exiting →
    k.wakeupParent (k.family.parent k.current) = .ok { k with sched := s } → Sched.Roused k.sched s →
    (s.procs (k.family.parent k.current)).waitState ≠ wtChild → ({ k with sched := s } : Kernel).Control →
    adoptAll k.family.nrProcess { k with sched := s } = .ok k' → Adopts { k with sched := s } k' →
    Effect k .proceed (k'.go .exited)
  | schedule (s : Sched) : (k.point k.current).Schedules → Sched.Same k.sched s → s.Ok →
    Effect k .proceed { k with sched := s, inSchedule := update k.inSchedule k.current true }
  | waitExit (pid : Int) : k.point k.current = .waiting pid → k.exiting k.current = true → k.current ≠ k.initproc →
    Effect k .resume k.left.died
  | waitAgain (pid : Int) (k' : Kernel) : k.point k.current = .waiting pid → WaitEffect k.left pid k' → Effect k .resume k'
  | downed (i : Nat) : k.point k.current = .downing i →
    Effect k .resume ((k.left.setSem i (k.sems i) (k.semLog i)).go .run)
  | reads (n : Nat) : k.point k.current = .reading n → Effect k .resume (k.left.readResume n)
  | slept : k.point k.current = .sleeping → Effect k .resume ({ k.left with timers := k.timers.erase k.current }.go .run)
  | yielded : k.point k.current = .yielding → Effect k .resume (k.left.go .run)
  | yield : Effect k .yield (k.go .yielding)
  | forkNone : Effect k .fork k
  | fork : Effect k .fork { k with forking := update k.forking k.current true }
  | forkFail : Effect k .forkFail { k with forking := update k.forking k.current false }
  | forkLink (p fuel : Nat) (pids : Pids) (k' : Kernel) : p ≠ 0 → ¬k.Live p →
    k.pids.getPid fuel k.family.procList = some pids → k.forkLink p fuel = .ok k' → Effect k (.forkLink p fuel) k'
  | exit : k.current ≠ k.initproc → Effect k .exit k.died
  | wait (pid : Int) (k' : Kernel) : WaitEffect k pid k' → Effect k (.wait pid) k'
  | killNone (pid : Int) : Effect k (.kill pid) k
  | killFlag (pid : Int) (p : Nat) : Effect k (.kill pid) { k with exiting := update k.exiting p true }
  | killWake (pid : Int) (p : Nat) :
    Effect k (.kill pid) ({ k with exiting := update k.exiting p true }.go (.killing p))
  | down (i : Nat) : Effect k (.down i) (k.down i)
  | raise (i : Nat) (s : Semaphore) : (k.sems i).waitQueue = [] → s = { k.sems i with value := int32 ((k.sems i).value + 1) } →
    Effect k (.up i) (k.setSem i s (k.semLog i).raised)
  | grant (i p : Nat) (rest : List Nat) (k₁ : Kernel) (s : Sched) : (k.sems i).waitQueue = p :: rest →
    k₁ = { k.setSem i { k.sems i with waitQueue := rest } ((k.semLog i).grant p) with
      wakeupFlags := update k.wakeupFlags p wtKsem } →
    Sched.Roused k.sched s → Effect k (.up i) { k₁ with sched := s }
  | tryDown (i : Nat) : Effect k (.tryDown i) (k.tryDown i)
  | read (n : Nat) : Effect k (.read n) (k.devStdinRead n)
  | sleep : Effect k .sleep k.doSleep

section

variable {k k' : Kernel} {p : Nat} {pid : Int} {e : Event}

theorem doExit_eq (h : k.doExit = .ok k') : k' = k.died ∧ k.current ≠ k.initproc := by
  obtain ⟨-, h⟩ := ensure_bind_eq_ok.mp h
  obtain ⟨hin, h⟩ := ensure_bind_eq_ok.mp h
  exact ⟨(Except.ok.inj h).symm, hin⟩

theorem doWait_effect (h : k.doWait pid = .ok k') : WaitEffect k pid k' := by
  unfold doWait at h
  split at h
  · rename_i hp
    split at h
    · cases h
      exact .none
    · rename_i p hf
      split at h
      · cases h
        exact .none
      · rename_i hpa
        split at h
        · rename_i hz
          cases h
          exact .named p hp hf (not_not.mp hpa) hz
        · rename_i hz
          cases h
          exact .sleepNamed p hp hf (not_not.mp hpa) hz
  · rename_i hp
    obtain ⟨z, hz, h⟩ := bind_eq_ok.mp h
    cases z with
    | some p =>
      cases h
      exact .first p (not_not.mp hp) hz
    | none =>
      dsimp only at h
      split at h
      · cases h
        exact .none
      · cases h
        exact .sleepAny (not_not.mp hp) hz

theorem wake_effect (h : k.Control) (hw : k.Wakes p) (hpt : k.point k.current = .linked p ∨ k.point k.current = .killing p)
    (hs : (k.wakeup p >>= fun k => .ok (k.go .run)) = .ok k') : Effect k .proceed k' := by
  obtain ⟨s, hwake, -, hwo⟩ := h.wakeup hw
  rw [hwake] at hs
  cases hs
  exact .wake p s hpt (hwo.roused (hw.not_zombie (h.procs p)))

theorem proceed_effect (h : k.Control) (hpt : k.point k.current ≠ .run) (hs : k.proceed = .ok k') : Effect k .proceed k' := by
  unfold Kernel.proceed at hs
  cases hp : k.point k.current with
  | run => exact absurd hp hpt
  | linked child =>
    rw [hp] at hs
    exact wake_effect h (h.wakes_linked hp) (Or.inl hp) hs
  | killing proc =>
    rw [hp] at hs
    exact wake_effect h (h.wakes_killing hp) (Or.inr hp) hs
  | marked pid =>
    rw [hp] at hs
    cases hs
    exact .mark pid hp
  | reaping proc =>
    rw [hp] at hs
    obtain ⟨⟨hid, hin⟩, hs⟩ := ensure_bind_eq_ok.mp hs
    cases hs
    exact .reap proc hp hid hin
  | exiting =>
    rw [hp] at hs
    unfold Kernel.exitLinks at hs
    obtain ⟨s, hw, h1, hr, hne⟩ := h.wakeupParent (k.family.parent k.current)
    rw [hw, bind_ok] at hs
    obtain ⟨k1, hk1, hs⟩ := bind_eq_ok.mp hs
    cases hs
    have ha := Control.adoptAll k.family.nrProcess _ h1
    rw [hk1] at ha
    exact .links s k1 hp hw hr hne h1 hk1 ha.2
  | waiting | downing | reading | sleeping | exited | yielding =>
    rw [hp] at hs
    obtain ⟨s, hcall, h1, hsa⟩ := h.callSchedule (by rw [hp]; trivial)
    rw [hcall] at hs
    cases hs
    exact .schedule s (by rw [hp]; trivial) hsa h1.sched

theorem resume_effect (h : k.Control) (hin : k.inSchedule k.current = true) (hs : k.resume = .ok k') : Effect k .resume k' := by
  have h1 := h.leave hin
  have hr := h.cur.picked hin
  have ho : k.left.inSchedule k.current = false := update_self ..
  have hsc := (h.procs k.current).schedules hin
  unfold Kernel.resume afterSchedule at hs
  cases hp : k.left.point k.left.current with
  | waiting pid =>
    rw [hp] at hs
    change k.left.waitResume pid = _ at hs
    unfold Kernel.waitResume at hs
    split at hs
    · rename_i hex
      obtain ⟨rfl, hit⟩ := doExit_eq hs
      exact .waitExit pid hp hex hit
    · exact .waitAgain pid k' hp (doWait_effect hs)
  | downing i =>
    rw [hp] at hs
    obtain ⟨hd, -⟩ := h1.downResume hr ho hp
    cases hd.symm.trans hs
    exact .downed i hp
  | reading n =>
    rw [hp] at hs
    cases hs
    exact .reads n hp
  | sleeping =>
    rw [hp] at hs
    cases hs
    exact .slept hp
  | exited =>
    rw [hp] at hs
    cases hs
  | yielding =>
    rw [hp] at hs
    cases hs
    exact .yielded hp
  | run | linked | killing | marked | reaping | exiting =>
    have hp : k.point k.current = _ := hp
    rw [hp] at hsc
    exact hsc.elim

theorem effect_of_step (h : k.Control) (he : k.Enabled e) (hs : k.step e = .ok k') : Effect k e k' := by
  cases e with
  | clock =>
    cases hs
    obtain ⟨-, hsa, hc⟩ := Sched.schedClassProcTick_spec h.sched
    exact .clock _ hsa hc
  | expire p =>
    obtain ⟨s, hs', -, hr⟩ := h.expire he
    cases hs'.symm.trans hs
    exact .expire p s hr
  | key c =>
    obtain ⟨s, flags, hs', -, hr⟩ := h.devStdinWrite c
    cases hs'.symm.trans hs
    exact .key c s flags hr
  | proceed => exact proceed_effect h he.1 hs
  | resume => exact resume_effect h he hs
  | yield | forkFail | down | tryDown | read | sleep =>
    cases hs
    constructor
  | fork =>
    change k.forkCheck = _ at hs
    unfold forkCheck at hs
    split at hs
    · cases hs
      exact .forkNone
    · obtain ⟨-, hs⟩ := ensure_bind_eq_ok.mp hs
      cases hs
      exact .fork
  | forkLink p fuel =>
    obtain ⟨-, -, h0, hid, hli, hp⟩ := he
    obtain ⟨pids, hp⟩ := Option.isSome_iff_exists.mp hp
    exact .forkLink p fuel pids k' h0 (fun hl => hl.elim hid hli) hp hs
  | exit =>
    obtain ⟨rfl, hin⟩ := doExit_eq hs
    exact .exit hin
  | wait pid => exact .wait pid k' (doWait_effect hs)
  | kill pid =>
    cases hs
    unfold doKill
    split
    · exact .killNone pid
    · rename_i p _
      split
      · exact .killNone pid
      · dsimp only
        split
        · exact .killWake pid p
        · exact .killFlag pid p
  | up i =>
    rcases h.up i with ⟨s, hq, hsem, hup, -⟩ | ⟨p, rest, k1, s, hq, hk1, hup, -, hr⟩
    · cases hup.symm.trans hs
      exact .raise i s hq hsem
    · cases hup.symm.trans hs
      exact .grant i p rest k1 s hq hk1 hr

end

end Kernel

end Ucore
