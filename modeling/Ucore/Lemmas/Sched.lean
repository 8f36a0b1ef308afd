import Mathlib.Data.List.Nodup
import Ucore.Sched

/-!
# The run queue

`Sched.Ok` says what the run queue holds. Each function of the scheduler keeps it and meets no failed assertion: `wakeup_proc` for a
process that is not a zombie (`wakeupProc_spec`), and `schedule` (`schedule_spec`). A write to the fields of one process keeps it
where the process is current, or neither was nor becomes runnable (`Ok.setProc`).
-/

namespace Ucore

open Checked Function

namespace Sched

/-- The run queue holds no process twice, `proc_num` counts it, and what left it is what entered it first. -/
structure Listed (s : Sched) : Prop where
  nodup : s.runList.Nodup
  num : s.procNum = s.runList.length
  rq : ∀ p ∈ s.runList, (s.procs p).rq = true
  fifo : s.entered = s.left ++ s.runList

/-- The run queue holds exactly the runnable processes other than the current one and `idleproc`. -/
structure Ok (s : Sched) : Prop extends s.Listed where
  mem : ∀ p, p ∈ s.runList ↔ (s.procs p).state = .runnable ∧ p ≠ s.current ∧ p ≠ s.idleproc

/-- What the scheduler keeps of every process: its state and its wait state. -/
structure Same (s s' : Sched) : Prop where
  idleproc : s'.idleproc = s.idleproc
  state : ∀ p, (s'.procs p).state = (s.procs p).state
  waitState : ∀ p, (s'.procs p).waitState = (s.procs p).waitState

/-- What `wakeup_proc` does. -/
structure Woken (p : Nat) (s s' : Sched) : Prop where
  current : s'.current = s.current
  idleproc : s'.idleproc = s.idleproc
  state : (s'.procs p).state = .runnable
  waitState : (s'.procs p).waitState = if (s.procs p).state = .runnable then (s.procs p).waitState else 0
  others : ∀ q, q ≠ p → s'.procs q = s.procs q

/-- What waking processes does to the scheduler's part of the state. -/
structure Roused (s s' : Sched) : Prop where
  current : s'.current = s.current
  idleproc : s'.idleproc = s.idleproc
  procs : ∀ p, s'.procs p = s.procs p ∨ ((s'.procs p).state = .runnable ∧ (s.procs p).state ≠ .zombie)

section

variable {s s' s'' : Sched} {p : Nat} {f : SchedProc}

@[simp] theorem setProc_self (p : Nat) (f : SchedProc) (s : Sched) : (s.setProc p f).procs p = f := update_self ..

theorem setProc_of_ne {q : Nat} (h : q ≠ p) (f : SchedProc) (s : Sched) : (s.setProc p f).procs q = s.procs q :=
  update_of_ne h ..

@[simp] theorem setProc_current (p : Nat) (f : SchedProc) (s : Sched) : (s.setProc p f).current = s.current := rfl

@[simp] theorem setProc_idleproc (p : Nat) (f : SchedProc) (s : Sched) : (s.setProc p f).idleproc = s.idleproc := rfl

@[simp] theorem setProc_runList (p : Nat) (f : SchedProc) (s : Sched) : (s.setProc p f).runList = s.runList := rfl

theorem Same.refl (s : Sched) : Same s s := ⟨rfl, fun _ => rfl, fun _ => rfl⟩

theorem Same.trans (h : Same s s') (h' : Same s' s'') : Same s s'' :=
  ⟨h'.idleproc.trans h.idleproc, fun p => (h'.state p).trans (h.state p), fun p => (h'.waitState p).trans (h.waitState p)⟩

/-- A write to the other fields of a process. -/
theorem Same.setProc (hs : f.state = (s.procs p).state) (hw : f.waitState = (s.procs p).waitState) : Same s (s.setProc p f) where
  idleproc := rfl
  state q := by
    by_cases hq : q = p
    · subst hq
      rw [setProc_self, hs]
    · rw [setProc_of_ne hq]
  waitState q := by
    by_cases hq : q = p
    · subst hq
      rw [setProc_self, hw]
    · rw [setProc_of_ne hq]

theorem Ok.not_mem_current (h : s.Ok) : s.current ∉ s.runList := fun hm => ((h.mem _).mp hm).2.1 rfl

/-- A write to the fields of a process that is not in the run queue, and does not have to be in it afterwards. -/
theorem Ok.setProc (h : s.Ok) (hp : p = s.current ∨ ((s.procs p).state ≠ .runnable ∧ f.state ≠ .runnable)) :
    (s.setProc p f).Ok where
  nodup := h.nodup
  mem q := by
    rw [setProc_runList, h.mem q, setProc_current, setProc_idleproc]
    by_cases hq : q = p
    · subst hq
      rcases hp with hp | ⟨hs, hf⟩
      · simp [hp]
      · simp [hs, hf]
    · rw [setProc_of_ne hq]
  num := h.num
  rq q hq := by
    by_cases hqp : q = p
    · subst hqp
      obtain ⟨hr, hc, -⟩ := (h.mem q).mp hq
      rcases hp with hp | ⟨hs, -⟩
      · exact absurd hp hc
      · exact absurd hr hs
    · rw [setProc_of_ne hqp]
      exact h.rq q hq
  fifo := h.fifo

/-! ## What waking does -/

theorem Roused.refl (s : Sched) : Roused s s := ⟨rfl, rfl, fun _ => Or.inl rfl⟩

theorem Roused.trans (h : Roused s s') (h' : Roused s' s'') : Roused s s'' where
  current := h'.current.trans h.current
  idleproc := h'.idleproc.trans h.idleproc
  procs p := by
    rcases h.procs p with h1 | ⟨h1, hz⟩
    · rcases h'.procs p with h2 | ⟨h2, hz⟩
      · exact Or.inl (h2.trans h1)
      · exact Or.inr ⟨h2, h1 ▸ hz⟩
    · rcases h'.procs p with h2 | ⟨h2, -⟩
      · exact Or.inr ⟨h2 ▸ h1, hz⟩
      · exact Or.inr ⟨h2, hz⟩

theorem Roused.zombie_iff (h : Roused s s') (p : Nat) : (s'.procs p).state = .zombie ↔ (s.procs p).state = .zombie := by
  rcases h.procs p with h | ⟨h, hz⟩
  · rw [h]
  · rw [h]
    exact iff_of_false nofun hz

theorem Woken.roused (h : Woken p s s') (hz : (s.procs p).state ≠ .zombie) : Roused s s' where
  current := h.current
  idleproc := h.idleproc
  procs q := by
    by_cases hq : q = p
    · subst hq
      exact Or.inr ⟨h.state, hz⟩
    · exact Or.inl (h.others q hq)

/-! ## The round robin class -/

/-- The run queue with a process at its end that it did not hold. -/
theorem rrEnqueue_spec (h : s.Listed) (hn : p ∉ s.runList) :
    ∃ s', s.rrEnqueue p = .ok s' ∧ s'.Listed ∧ s'.runList = s.runList ++ [p] ∧ s'.current = s.current ∧ Same s s' ∧
      ∀ q, q ≠ p → s'.procs q = s.procs q := by
  unfold rrEnqueue
  rw [ensure_of hn]
  have hs : Same s (s.setProc p { s.procs p with timeSlice := (if (s.procs p).timeSlice = 0 ∨ maxTimeSlice < (s.procs p).timeSlice
      then maxTimeSlice else (s.procs p).timeSlice), rq := true }) := Same.setProc rfl rfl
  refine ⟨_, rfl, ⟨?_, ?_, ?_, ?_⟩, rfl, rfl, ⟨hs.idleproc, hs.state, hs.waitState⟩, fun q hq => setProc_of_ne hq ..⟩
  · rw [List.nodup_append_comm]
    exact List.nodup_cons.mpr ⟨hn, h.nodup⟩
  · rw [h.num, List.length_append, List.length_singleton]
  · intro q hq
    by_cases hqp : q = p
    · subst hqp
      exact congrArg SchedProc.rq (setProc_self ..)
    · rcases List.mem_append.mp hq with hq | hq
      · exact (congrArg SchedProc.rq (setProc_of_ne hqp ..)).trans (h.rq q hq)
      · exact absurd (List.mem_singleton.mp hq) hqp
  · change s.entered ++ [p] = s.left ++ (s.runList ++ [p])
    rw [h.fifo, List.append_assoc]

/-- `sched_class_enqueue`, which leaves `idleproc` out. -/
theorem schedClassEnqueue_spec (h : s.Listed) (hn : p ∉ s.runList) :
    ∃ s', s.schedClassEnqueue p = .ok s' ∧ s'.Listed ∧ s'.current = s.current ∧ Same s s' ∧
      (∀ q, q ≠ p → s'.procs q = s.procs q) ∧ ∀ q, q ∈ s'.runList ↔ q ∈ s.runList ∨ (q = p ∧ p ≠ s.idleproc) := by
  unfold schedClassEnqueue
  by_cases hid : p = s.idleproc
  · rw [if_neg (not_not.mpr hid)]
    refine ⟨s, rfl, h, rfl, .refl s, fun _ _ => rfl, ?_⟩
    intro q
    simp [hid]
  · rw [if_pos hid]
    obtain ⟨s', hs', hl, hli, hc, hs, ho⟩ := rrEnqueue_spec h hn
    refine ⟨s', hs', hl, hc, hs, ho, ?_⟩
    intro q
    simp [hli, hid]

/-! ## `wakeup_proc` and `schedule` -/

/-- Waking a process that is no zombie. -/
theorem wakeupProc_spec (h : s.Ok) (hz : (s.procs p).state ≠ .zombie) : ∃ s', s.wakeupProc p = .ok s' ∧ s'.Ok ∧ Woken p s s' := by
  unfold wakeupProc
  rw [ensure_of hz]
  by_cases hr : (s.procs p).state = .runnable
  · rw [if_neg (not_not.mpr hr)]
    exact ⟨s, rfl, h, ⟨rfl, rfl, hr, (if_pos hr).symm, fun _ _ => rfl⟩⟩
  · rw [if_pos hr]
    set r := s.setProc p { s.procs p with state := .runnable, waitState := 0 }
    have hn : p ∉ s.runList := fun hm => hr ((h.mem p).mp hm).1
    have hst : (r.procs p).state = .runnable := congrArg SchedProc.state (setProc_self ..)
    have hw : (r.procs p).waitState = if (s.procs p).state = .runnable then (s.procs p).waitState else 0 := by
      rw [if_neg hr]
      exact congrArg SchedProc.waitState (setProc_self ..)
    have ho : ∀ q, q ≠ p → r.procs q = s.procs q := fun q hq => setProc_of_ne hq ..
    by_cases hc : p = r.current
    · -- the current process has not called `schedule` yet, which will find it runnable
      rw [if_neg (not_not.mpr hc)]
      exact ⟨r, rfl, h.setProc (Or.inl hc), ⟨rfl, rfl, hst, hw, ho⟩⟩
    · rw [if_pos hc]
      have hli : r.Listed := by
        refine ⟨h.nodup, h.num, ?_, h.fifo⟩
        intro q hq
        have hqp : q ≠ p := fun hqp => hn (hqp ▸ hq)
        rw [ho q hqp]
        exact h.rq q hq
      obtain ⟨s', hs', hl, hc', hs, hothers', hmem⟩ := schedClassEnqueue_spec hli hn
      refine ⟨s', hs', ⟨hl, ?_⟩, ⟨hc', hs.idleproc, (hs.state p).trans hst, (hs.waitState p).trans hw,
        fun q hq => (hothers' q hq).trans (ho q hq)⟩⟩
      intro q
      rw [hmem q, hs.state q, hc', hs.idleproc]
      change q ∈ s.runList ∨ (q = p ∧ p ≠ s.idleproc) ↔ (r.procs q).state = .runnable ∧ q ≠ s.current ∧ q ≠ s.idleproc
      rw [h.mem q]
      by_cases hqp : q = p
      · subst hqp
        have hne : q ≠ s.current := hc
        simp [hst, hne, hr]
      · simp [ho q hqp, hqp]

theorem putCurrent_spec (h : s.Ok) : ∃ t, s.putCurrent = .ok t ∧ t.Listed ∧ Same s t ∧
    ∀ q, q ∈ t.runList ↔ (s.procs q).state = .runnable ∧ q ≠ s.idleproc := by
  unfold putCurrent
  by_cases hr : (s.procs s.current).state = .runnable
  · rw [if_pos hr]
    obtain ⟨t, ht, hl, -, hs, -, hm⟩ := schedClassEnqueue_spec h.toListed h.not_mem_current
    refine ⟨t, ht, hl, hs, ?_⟩
    intro q
    rw [hm q, h.mem q]
    by_cases hq : q = s.current
    · subst hq
      simp [hr]
    · simp [hq]
  · rw [if_neg hr]
    refine ⟨s, rfl, h.toListed, .refl s, ?_⟩
    intro q
    rw [h.mem q]
    constructor
    · exact fun ⟨hq, _, hi⟩ => ⟨hq, hi⟩
    · refine fun ⟨hq, hi⟩ => ⟨hq, ?_, hi⟩
      intro hc
      exact hr (hc ▸ hq)

/-- The first process of the queue gets the processor, and `idleproc` where there is none. -/
theorem runNext_spec (h : s.Listed) (hm : ∀ q, q ∈ s.runList ↔ (s.procs q).state = .runnable ∧ q ≠ s.idleproc) :
    ∃ s', s.runNext = .ok s' ∧ s'.Ok ∧ Same s s' ∧ (s'.current = s.idleproc ∨ (s.procs s'.current).state = .runnable) := by
  unfold runNext
  cases hn : s.rrPickNext with
  | none =>
    refine ⟨_, rfl, ⟨⟨h.nodup, h.num, h.rq, h.fifo⟩, ?_⟩, ⟨rfl, fun _ => rfl, fun _ => rfl⟩, Or.inl rfl⟩
    intro q
    rw [hm q, and_self]
  | some next =>
    obtain ⟨rest, hl⟩ := List.head?_eq_some_iff.mp hn
    have hin : next ∈ s.runList := hl ▸ List.mem_cons_self
    dsimp only
    rw [rrDequeue, ensure_of ⟨hin, h.rq next hin⟩]
    refine ⟨_, rfl, ⟨⟨h.nodup.erase next, ?_, fun q hq => h.rq q (List.mem_of_mem_erase hq), ?_⟩, ?_⟩,
      ⟨rfl, fun _ => rfl, fun _ => rfl⟩, Or.inr ((hm next).mp hin).1⟩
    · rw [List.length_erase_of_mem hin, h.num]
    · rw [h.fifo, hl, List.erase_cons_head, List.append_assoc, List.singleton_append]
    · intro q
      rw [h.nodup.mem_erase_iff, hm q]
      exact ⟨fun ⟨h1, h2, h3⟩ => ⟨h2, h1, h3⟩, fun ⟨h1, h2, h3⟩ => ⟨h2, h1, h3⟩⟩

/-- What `schedule` does: the processor goes to a runnable process, or to `idleproc` where there is no other. -/
theorem schedule_spec (h : s.Ok) : ∃ s', s.schedule = .ok s' ∧ s'.Ok ∧ Same s s' ∧
    (s'.current = s.idleproc ∨ (s.procs s'.current).state = .runnable) := by
  have hr : Same s (s.setProc s.current { s.procs s.current with needResched := false }) := Same.setProc rfl rfl
  obtain ⟨t, ht, hl, hrt, hm⟩ := putCurrent_spec (h.setProc (Or.inl rfl))
  have hst := hr.trans hrt
  have hm' : ∀ q, q ∈ t.runList ↔ (t.procs q).state = .runnable ∧ q ≠ t.idleproc := by
    intro q
    rw [hm q, hrt.state q, hrt.idleproc]
  obtain ⟨s', hs', hok, hts, hc⟩ := runNext_spec hl hm'
  refine ⟨s', ?_, hok, hst.trans hts, ?_⟩
  · unfold schedule
    rw [ht]
    exact hs'
  · rwa [hst.idleproc, hst.state] at hc

/-- The clock's tick for the current process. -/
theorem schedClassProcTick_spec (h : s.Ok) : s.schedClassProcTick.Ok ∧ Same s s.schedClassProcTick ∧
    s.schedClassProcTick.current = s.current := by
  unfold schedClassProcTick rrProcTick
  split
  · exact ⟨h.setProc (Or.inl rfl), Same.setProc rfl rfl, rfl⟩
  · exact ⟨h.setProc (Or.inl rfl), Same.setProc rfl rfl, rfl⟩

end

end Sched

end Ucore
