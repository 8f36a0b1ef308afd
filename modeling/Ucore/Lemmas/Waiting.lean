import Ucore.Lemmas.Kinship

/-!
# Parents that wait

A process that sleeps in `do_wait` has no zombie child that would answer it (`Kernel.Attended`). The one exception is the current process
between becoming a zombie and the section of `do_exit`, in which it wakes its parent. A parent decides to sleep by looking at its
children, and no child can become a zombie before the parent has set its wait state: only the current process moves.
-/

namespace Ucore

open Checked Siblings Function

namespace Kernel

/-- The process sleeps in `do_wait`, or is about to. -/
structure Waits (k : Kernel) (p : Nat) (pid : Int) : Prop where
  point : k.point p = .marked pid ∨ k.point p = .waiting pid
  asleep : (k.sched.procs p).state = .sleeping

/-- The process `c` is a zombie that `do_wait` of its parent `p` is to find. -/
structure Answers (k : Kernel) (p : Nat) (pid : Int) (c : Nat) : Prop where
  live : c ∈ k.family.procList
  parent : k.family.parent c = p
  pid : pid = 0 ∨ k.pids.pid c = pid
  zombie : (k.sched.procs c).state = .zombie

/-- A process that waits has no answer, unless it comes from the current process. -/
def Attended (k : Kernel) : Prop := ∀ p pid c, k.Waits p pid → k.Answers p pid c → c = k.current ∧ k.point c = .exiting

section

variable {k k' : Kernel} {p c cur fuel : Nat} {pid : Int} {pt : Point} {e : Event}

/-- Fewer processes wait, and there are fewer zombies. -/
theorem Attended.mono (h : k.Attended) (hw : ∀ p pid, k'.Waits p pid → k.Waits p pid)
    (ha : ∀ p pid c, k'.Answers p pid c → k.Answers p pid c)
    (hex : k.point k.current = .exiting → k'.current = k.current ∧ k'.point k.current = .exiting) : k'.Attended := by
  intro p pid c hp hc
  obtain ⟨rfl, hpt⟩ := h p pid c (hw p pid hp) (ha p pid c hc)
  obtain ⟨hcur, hpt'⟩ := hex hpt
  exact ⟨hcur.symm, hpt'⟩

theorem Answers.congr (h : k'.Answers p pid c) (hf : k'.family = k.family) (hp : k'.pids = k.pids)
    (hz : (k'.sched.procs c).state = .zombie → (k.sched.procs c).state = .zombie) : k.Answers p pid c where
  live := by
    rw [← hf]
    exact h.live
  parent := by
    rw [← hf]
    exact h.parent
  pid := by
    rw [← hp]
    exact h.pid
  zombie := hz h.zombie

theorem Waits.congr (hw : k'.Waits p pid) (hp : k'.point p = k.point p)
    (hs : (k'.sched.procs p).state = (k.sched.procs p).state) : k.Waits p pid :=
  ⟨hp ▸ hw.point, hs ▸ hw.asleep⟩

/-- The process is not in `do_wait`. -/
def Apart : Point → Prop
  | .marked _ | .waiting _ => False
  | _ => True

theorem Waits.not_apart (hw : k.Waits p pid) (hpt : k.point p = pt) : ¬Apart pt := by
  rcases hw.point with hp | hp
  all_goals
    rw [← hpt, hp]
    exact id

theorem Waits.roused (hw : k'.Waits p pid) (hr : Sched.Roused k.sched k'.sched) (hp : k'.point = k.point) : k.Waits p pid := by
  refine ⟨by rw [← hp]; exact hw.point, ?_⟩
  rcases hr.procs p with heq | ⟨hrun, -⟩
  · rw [← heq]
    exact hw.asleep
  · exact nomatch hrun.symm.trans hw.asleep

section

variable (h : k.Attended)
include h

/-- Processes are woken. -/
theorem Attended.roused (hr : Sched.Roused k.sched k'.sched) (hf : k'.family = k.family) (hp : k'.pids = k.pids)
    (hpo : k'.point = k.point) : k'.Attended := by
  refine h.mono ?_ ?_ ?_
  · exact fun p pid hw => hw.roused hr hpo
  · intro p pid c hc
    exact hc.congr hf hp (hr.zombie_iff c).mp
  · intro hpt
    exact ⟨hr.current, by rw [hpo]; exact hpt⟩

/-- The current process, which does not exit, goes on to a point outside of `do_wait`. -/
theorem Attended.moved (hne : k.point k.current ≠ .exiting) (hpo : k'.point = update k.point k.current pt)
    (hf : k'.family = k.family) (hp : k'.pids = k.pids)
    (hs : ∀ p, p ≠ k.current → (k'.sched.procs p).state = (k.sched.procs p).state)
    (hz : (k'.sched.procs k.current).state = .zombie → (k.sched.procs k.current).state = .zombie) (hpt : Apart pt) :
    k'.Attended := by
  refine h.mono ?_ ?_ fun hex => absurd hex hne
  · intro p pid hw
    by_cases hpc : p = k.current
    · exact absurd hpt (hw.not_apart (by rw [hpc, hpo, update_self]))
    · exact hw.congr (by rw [hpo, update_of_ne hpc]) (hs p hpc)
  · intro p pid c hc
    refine hc.congr hf hp ?_
    by_cases hcc : c = k.current
    · rw [hcc]
      exact hz
    · rw [hs c hcc]
      exact id

/-- The current process goes to sleep outside of `do_wait`. -/
theorem Attended.sleeps (hne : k.point k.current ≠ .exiting) (w : Nat)
    (hpo : k'.point = update k.point k.current pt) (hf : k'.family = k.family) (hp : k'.pids = k.pids)
    (hs : k'.sched = (k.setSleeping w).sched) (hpt : Apart pt) : k'.Attended := by
  refine h.moved hne hpo hf hp ?_ ?_ hpt
  · intro p hpc
    rw [hs]
    exact congrArg SchedProc.state (Sched.setProc_of_ne hpc ..)
  · rw [hs]
    intro hz
    rw [show (k.setSleeping w).sched.procs k.current = _ from Sched.setProc_self ..] at hz
    cases hz

/-- The current process becomes a zombie. -/
theorem Attended.died : k.died.Attended := by
  intro p pid c hw hc
  by_cases hcc : c = k.current
  · subst hcc
    exact ⟨rfl, update_self ..⟩
  · have hp : ∀ q, q ≠ k.current → k.died.sched.procs q = k.sched.procs q := fun q hq => update_of_ne hq ..
    have hpc : p ≠ k.current := by
      rintro rfl
      exact hw.not_apart (update_self ..) trivial
    have hw' : k.Waits p pid := hw.congr (update_of_ne hpc ..) (by rw [hp p hpc])
    have hc' : k.Answers p pid c := hc.congr rfl rfl (by rw [hp c hcc]; exact id)
    exact absurd (h p pid c hw' hc').1 hcc

/-- The current process marks itself asleep, where no child of it answers. -/
theorem Attended.dozed (hne : k.point k.current ≠ .exiting) (hno : ∀ c, ¬k.Answers k.current pid c) : (k.dozed pid).Attended := by
  have hs : (k.dozed pid).point k.current = .marked pid := update_self ..
  have hp : ∀ q, q ≠ k.current → (k.dozed pid).sched.procs q = k.sched.procs q := fun q hq => update_of_ne hq ..
  have ha : ((k.dozed pid).sched.procs k.current).state = .sleeping := by
    rw [show (k.dozed pid).sched.procs k.current = _ from update_self ..]
  intro p pid' c hw hc
  have hc' : k.Answers p pid' c := by
    refine hc.congr rfl rfl fun hz => ?_
    by_cases hcc : c = k.current
    · rw [hcc, ha] at hz
      cases hz
    · rw [← hp c hcc]
      exact hz
  by_cases hpc : p = k.current
  · have hwp := hw.point
    rw [hpc, hs] at hwp
    rcases hwp with hwp | hwp
    · cases hwp
      rw [hpc] at hc'
      exact absurd hc' (hno c)
    · cases hwp
  · obtain ⟨rfl, hex⟩ := h p pid' c (hw.congr (update_of_ne hpc ..) (by rw [hp p hpc])) hc'
    exact absurd hex hne

/-- The current process sets its wait state. -/
theorem Attended.waitMark (hpt : k.point k.current = .marked pid) : (k.waitMark pid).Attended := by
  have hs : ∀ p, ((k.waitMark pid).sched.procs p).state = (k.sched.procs p).state := by
    intro p
    by_cases hpc : p = k.current
    · rw [hpc, show (k.waitMark pid).sched.procs k.current = _ from Sched.setProc_self ..]
    · exact congrArg SchedProc.state (Sched.setProc_of_ne hpc ..)
  refine h.mono ?_ ?_ ?_
  · intro p pid' hw
    refine ⟨?_, by rw [← hs p]; exact hw.asleep⟩
    have hwp := hw.point
    by_cases hpc : p = k.current
    · rw [hpc, show (k.waitMark pid).point k.current = .waiting pid from go_point_self ..] at hwp
      rcases hwp with hwp | hwp
      · cases hwp
      · cases hwp
        rw [hpc]
        exact Or.inl hpt
    · rwa [show (k.waitMark pid).point p = k.point p from update_of_ne hpc ..] at hwp
  · exact fun p pid' c hx => hx.congr rfl rfl fun hz => by rw [← hs c]; exact hz
  · exact fun hex => nomatch hpt.symm.trans hex

theorem WaitEffect.attended (hk : k.Kinship) (hne : k.point k.current ≠ .exiting) (hw : WaitEffect k pid k') : k'.Attended := by
  cases hw with
  | none | named | first => exact h.moved hne rfl rfl rfl (fun _ _ => rfl) id trivial
  | sleepNamed p hpid hfi hpar hz =>
    refine h.dozed hne fun c hc => ?_
    -- the number belongs to one process
    have hpc := (hk.pids.findProc pid).mpr ⟨hc.live, hc.pid.resolve_left hpid⟩
    cases hfi.symm.trans hpc
    exact hz hc.zombie
  | sleepAny hpid hf =>
    refine h.dozed hne fun c hc => ?_
    rcases hk.firstZombie with ⟨p, hp, -⟩ | ⟨-, hn⟩
    · cases hp.symm.trans hf
    · exact hn c hc.live hc.parent hc.zombie

end

/-! ## The section of `do_exit` -/

/-- A process whose wait state is not `WT_CHILD` does not wait, as long as the current process is elsewhere. -/
theorem Control.not_waits (hc : k.Control) (hcur : k.point k.current = .exiting)
    (hp : (k.sched.procs p).waitState ≠ wtChild) (pid : Int) : ¬k.Waits p pid := by
  rintro ⟨hpt | hpt, hs⟩
  · have hpc : p ≠ k.current := by
      rintro rfl
      cases hpt.symm.trans hcur
    have hsc := (hc.procs p).schedules (hc.inside p hpc)
    rw [hpt] at hsc
    exact hsc.elim
  · have hst := (hc.procs p).stands
    rw [hpt, hs] at hst
    rcases hst with ⟨-, hw⟩ | ⟨hr, -⟩
    · exact hp (Option.some.inj hw).symm
    · cases hr

/-- What the loop of `do_exit` keeps: waiting processes have no answer, and the parent of the current process does not wait. -/
structure Served (cur : Nat) (k : Kernel) : Prop where
  control : k.Control
  current : k.current = cur
  point : k.point cur = .exiting
  attended : k.Attended
  parent : ∀ pid, ¬k.Waits (k.family.parent cur) pid

theorem Served.adopt (h : Served cur k) (hk : k.adopt c = .ok k') : Served cur k' := by
  obtain ⟨s, rfl, hco, hr, hin⟩ := h.control.adopt_spec hk
  have hc := h.current
  subst hc
  have hp' : s.current = k.current := hr.current
  -- `initproc` does not wait once it got a zombie
  have hn : (k.sched.procs c).state = .zombie → ∀ pid,
      ¬Waits { k with family := k.family.adopt k.current k.initproc c, sched := s } k.initproc pid := by
    intro hz pid
    refine hco.not_waits ?_ (hin hz) pid
    change k.point s.current = .exiting
    rw [hp']
    exact h.point
  have hpa : ∀ x, x ≠ c → (k.family.adopt k.current k.initproc c).parent x = k.family.parent x :=
    fun x hx => update_of_ne hx ..
  have hs : (k.family.adopt k.current k.initproc c).parent c = k.initproc := update_self ..
  refine ⟨hco, hp', h.point, ?_, ?_⟩
  · intro p pid x hw hx
    by_cases hxc : x = c
    · subst hxc
      have hp : k.initproc = p := hs.symm.trans hx.parent
      subst hp
      exact absurd hw (hn ((hr.zombie_iff x).mp hx.zombie) pid)
    · have hx' : k.Answers p pid x := ⟨hx.live, (hpa x hxc).symm.trans hx.parent, hx.pid, (hr.zombie_iff x).mp hx.zombie⟩
      obtain ⟨hxk, hex⟩ := h.attended p pid x (hw.roused hr rfl) hx'
      exact ⟨hxk.trans hp'.symm, hex⟩
  · intro pid hw
    by_cases hkc : k.current = c
    · have hpar : (k.family.adopt k.current k.initproc c).parent k.current = k.initproc :=
        (congrArg (k.family.adopt k.current k.initproc c).parent hkc).trans hs
      rw [hpar] at hw
      refine hn ?_ pid hw
      have hst := (h.control.procs k.current).stands
      rw [h.point] at hst
      rw [← hkc]
      exact hst.1
    · rw [hpa _ hkc] at hw
      exact h.parent pid (hw.roused hr rfl)

theorem Attended.links {s : Sched} (h : k.Attended) (hpt : k.point k.current = .exiting) (hr : Sched.Roused k.sched s)
    (hne : (s.procs (k.family.parent k.current)).waitState ≠ wtChild) (hc : ({ k with sched := s } : Kernel).Control)
    (hk : adoptAll fuel { k with sched := s } = .ok k') : (k'.go .exited).Attended := by
  have hpt' : ({ k with sched := s } : Kernel).point ({ k with sched := s } : Kernel).current = .exiting := by
    change k.point s.current = .exiting
    rw [hr.current]
    exact hpt
  have h0 : Served k.current { k with sched := s } :=
    ⟨hc, hr.current, hpt, h.roused hr rfl rfl rfl, hc.not_waits hpt' hne⟩
  obtain ⟨h', -⟩ := adoptAll_invariant (fun k1 k2 c h1 _ hk2 => h1.adopt hk2) fuel _ h0 hk
  intro p pid c hw hx
  have hs : (k'.go .exited).point k'.current = .exited := go_point_self ..
  have hpk : p ≠ k'.current := by
    rintro rfl
    exact hw.not_apart hs trivial
  have hw' : k'.Waits p pid := hw.congr (go_point_of_ne hpk) rfl
  have hx' : k'.Answers p pid c := ⟨hx.live, hx.parent, hx.pid, hx.zombie⟩
  obtain ⟨hcc, -⟩ := h'.attended p pid c hw' hx'
  have hp := hx'.parent
  rw [hcc, h'.current] at hp
  rw [← hp] at hw'
  exact absurd hw' (h'.parent pid)

/-! ## The other sections -/

theorem removeLinks_parent (p : Nat) (f : Family) : (f.removeLinks p).parent = f.parent := by
  unfold Family.removeLinks
  dsimp only
  split <;> split <;> rfl

theorem Attended.reap (h : k.Attended) (hpt : k.point k.current = .reaping p) :
    Attended ({ k with pids := k.pids.unhashProc p, family := k.family.removeLinks p }.go .run) := by
  have h1 : (k.go .run).Attended := h.moved (by rw [hpt]; nofun) rfl rfl rfl (fun _ _ => rfl) id trivial
  refine h1.mono (fun _ _ hw => ⟨hw.point, hw.asleep⟩) ?_ fun hex => ⟨rfl, hex⟩
  intro q pid c hc
  refine ⟨?_, ?_, hc.pid, hc.zombie⟩
  · have hl : c ∈ (k.family.removeLinks p).procList := hc.live
    rw [removeLinks_procList] at hl
    exact List.mem_of_mem_erase hl
  · have hp : (k.family.removeLinks p).parent c = q := hc.parent
    rwa [removeLinks_parent] at hp

theorem Attended.forkLink {pids : Pids} (h : k.Attended) (hk : k.Kinship) (hne : k.point k.current ≠ .exiting)
    (hp : k.pids.getPid fuel k.family.procList = some pids) (hs : k.forkLink p fuel = .ok k') : k'.Attended := by
  rw [Kernel.forkLink, hp] at hs
  cases hs
  have hpi := (Pids.getPid_spec hk.pids hp).2.2.2.2.2.1
  refine h.mono ?_ ?_ fun hex => absurd hex hne
  · intro q pid hw
    have ha := hw.asleep
    change (update k.sched.procs p SchedProc.alloc q).state = _ at ha
    by_cases hqc : q = k.current
    · rw [hqc] at hw
      exact absurd trivial (hw.not_apart (update_self ..))
    · by_cases hqp : q = p
      · rw [hqp, update_self] at ha
        cases ha
      · refine hw.congr ?_ (congrArg SchedProc.state (update_of_ne hqp ..))
        change update (update k.point p .yielding) k.current (.linked p) q = _
        rw [update_of_ne hqc, update_of_ne hqp]
  · intro q pid c hc
    have hz := hc.zombie
    change (update k.sched.procs p SchedProc.alloc c).state = _ at hz
    have hcp : c ≠ p := by
      rintro rfl
      rw [update_self] at hz
      cases hz
    rw [update_of_ne hcp] at hz
    refine ⟨(List.mem_cons.mp hc.live).resolve_left hcp, ?_, hc.pid.imp_right fun hcd => ?_, hz⟩
    · have hpar : update k.family.parent p k.current c = q := hc.parent
      rwa [update_of_ne hcp] at hpar
    · have hcd : update pids.pid p pids.lastPid c = pid := hcd
      rwa [update_of_ne hcp, hpi] at hcd

theorem not_exiting_of_resume (hc : k.Control) (hin : k.inSchedule k.current = true) : k.point k.current ≠ .exiting := by
  intro hpt
  have hs := (hc.procs k.current).schedules hin
  rw [hpt] at hs
  exact hs.elim

theorem not_exiting_of_run (h : k.point k.current = .run) : k.point k.current ≠ .exiting := by
  rw [h]
  nofun

theorem Attended.devStdinRead (h : k.Attended) (hne : k.point k.current ≠ .exiting) (n : Nat) : (k.devStdinRead n).Attended := by
  unfold Kernel.devStdinRead
  dsimp only
  split
  · exact h.moved hne rfl rfl rfl (fun _ _ => rfl) id trivial
  · exact h.sleeps hne wtKbd rfl rfl rfl rfl trivial

/-- Every event keeps it. -/
theorem step_attended (h : k.Attended) (hk : k.Kinship) (hc : k.Control) (he : k.Enabled e) (hs : Effect k e k') : k'.Attended := by
  have hsa : ∀ k' : Kernel, k'.point = k.point → k'.family = k.family → k'.pids = k.pids → k'.current = k.current →
      (∀ p, (k'.sched.procs p).state = (k.sched.procs p).state) → k'.Attended := by
    intro k' hpo hf hp hcur hst
    refine h.mono ?_ ?_ ?_
    · exact fun p pid hw => hw.congr (by rw [hpo]) (hst p)
    · exact fun p pid c hx => hx.congr hf hp fun hz => by rw [← hst c]; exact hz
    · exact fun hex => ⟨hcur, by rw [hpo]; exact hex⟩
  cases hs with
  | clock s hsd hcur => exact hsa _ rfl rfl rfl hcur hsd.state
  | expire p s hr => exact h.roused hr rfl rfl rfl
  | key c s flags hr => exact h.roused hr rfl rfl rfl
  | wake p s hpt hr =>
    have h1 : ({ k with sched := s } : Kernel).Attended := h.roused hr rfl rfl rfl
    refine h1.moved ?_ rfl rfl rfl (fun _ _ => rfl) id trivial
    change k.point s.current ≠ .exiting
    rw [hr.current]
    rcases hpt with hpt | hpt
    · exact fun hex => nomatch hpt.symm.trans hex
    · exact fun hex => nomatch hpt.symm.trans hex
  | mark pid hpt => exact h.waitMark hpt
  | reap p hpt hid hin => exact h.reap hpt
  | links s k' hpt hw hr hne hcs hrun ha => exact h.links hpt hr hne hcs hrun
  | schedule s hpt hsd hok =>
    refine h.mono ?_ ?_ ?_
    · exact fun p pid hw => hw.congr rfl (hsd.state p)
    · exact fun p pid c hx => hx.congr rfl rfl fun hz => by rw [← hsd.state c]; exact hz
    · intro hex
      rw [hex] at hpt
      exact hpt.elim
  | waitExit pid hpt hex hin =>
    have h1 : k.left.Attended := hsa _ rfl rfl rfl rfl fun _ => rfl
    exact h1.died
  | waitAgain pid k' hpt hw =>
    have h1 : k.left.Attended := hsa _ rfl rfl rfl rfl fun _ => rfl
    have hne : k.point k.current ≠ .exiting := not_exiting_of_resume hc he
    exact hw.attended h1 hk.left hne
  | downed | slept | yielded => exact h.moved (not_exiting_of_resume hc he) rfl rfl rfl (fun _ _ => rfl) id trivial
  | reads n hpt =>
    unfold Kernel.readResume
    dsimp only
    split
    · have hne : k.point k.current ≠ .exiting := not_exiting_of_resume hc he
      refine Attended.devStdinRead ?_ ?_ n
      · exact hsa _ rfl rfl rfl rfl fun _ => rfl
      · exact hne
    · exact h.moved (not_exiting_of_resume hc he) rfl rfl rfl (fun _ _ => rfl) id trivial
  | yield => exact h.moved (not_exiting_of_run he.1) rfl rfl rfl (fun _ _ => rfl) id trivial
  | forkNone | killNone => exact h
  | fork | forkFail | killFlag | raise | tryDown => exact hsa _ rfl rfl rfl rfl fun _ => rfl
  | forkLink p fuel pids k' h0 hn hpid hs => exact h.forkLink hk (not_exiting_of_run he.1.run) hpid hs
  | exit hin => exact h.died
  | wait pid k' hw => exact hw.attended h hk (not_exiting_of_run he.run)
  | killWake pid p => exact h.moved (not_exiting_of_run he.run) rfl rfl rfl (fun _ _ => rfl) id trivial
  | down i =>
    unfold Kernel.down
    dsimp only
    split
    · exact hsa _ rfl rfl rfl rfl fun _ => rfl
    · exact h.sleeps (not_exiting_of_run he.run) wtKsem rfl rfl rfl rfl trivial
  | grant i p rest k1 s hq hk1 hr =>
    subst hk1
    exact h.roused hr rfl rfl rfl
  | read n => exact h.devStdinRead (not_exiting_of_run he.run) n
  | sleep => exact h.sleeps (not_exiting_of_run he.run) wtTimer rfl rfl rfl rfl trivial

end

end Kernel

end Ucore
