import Ucore.Lemmas.Sched
import Ucore.Lemmas.Timer

/-!
# Runs of the timer list

`dueIn` says from the history alone which timers are due: a timer added with `expires = e` is due when `e - 1` ticks have gone
by, unless it was deleted since it was added. `timer_runs_fire_due` says that every tick of every run fires those timers, in the
order in which they were added, and no others. `wakeupProc_sched` connects it with the scheduler.
-/

namespace Ucore

open Checked DeltaQueue

/-- The timers that a history leaves due `k` ticks after its end, each with its process, in the order of insertion. The history
begins with its oldest operation. Whether a timer is among them is a matter of the ticks and of the deletions of that timer
behind its insertion; no operation on another timer has a part in it. -/
def dueIn (k : Nat) : List TimerOp → List (Nat × Nat)
  | [] => []
  | .add t p e :: later =>
    if later.count .tick + k = e ∧ .del t ∉ later then (t, p) :: dueIn k later else dueIn k later
  | _ :: later => dueIn k later

/-- What the users of the timer list keep to: a timer is added with a positive `unsigned int` for a process, and only when it is
not on the list. -/
def TimerOp.Allowed (s : TimerState) : TimerOp → Prop
  | .add t p e => 0 < e ∧ e < uintSize ∧ p ≠ 0 ∧ t ∉ s.timerList
  | _ => True

instance (s : TimerState) : (op : TimerOp) → Decidable (op.Allowed s)
  | .add t p e => inferInstanceAs (Decidable (0 < e ∧ e < uintSize ∧ p ≠ 0 ∧ t ∉ s.timerList))
  | .del _ | .tick | .setProc _ _ => .isTrue trivial

/-- The states that a history leads to from the empty list. -/
inductive TimerReach : List TimerOp → TimerState → Prop where
  | init (timers : Nat → Timer) (procs : Nat → Proc) : TimerReach [] ⟨timers, [], procs, false⟩
  | step {ops : List TimerOp} {s s' : TimerState} {fired : List (Nat × Nat)} (op : TimerOp) : TimerReach ops s →
      op.Allowed s → stepTimer s op = .ok (fired, s') → TimerReach (ops ++ [op]) s'

namespace TimerAux

variable {ops : List TimerOp} {s s' : TimerState} {k t p e : Nat}

/-! ## Histories -/

/-- What one more operation does to the timers that a history leaves due. -/
theorem dueIn_append (k : Nat) (ops : List TimerOp) (op : TimerOp) : dueIn k (ops ++ [op]) =
      (dueIn (k + if op = .tick then 1 else 0) ops).filter (fun x => decide (op ≠ .del x.1)) ++ dueIn k [op] := by
  induction ops with
  | nil => rfl
  | cons o ops ih =>
    cases o with
    | add t p e =>
      have hc : (ops ++ [op]).count .tick + k = ops.count .tick + (k + if op = .tick then 1 else 0) := by
        rw [List.count_append, List.count_singleton]
        simp only [beq_iff_eq]
        omega
      have hd : TimerOp.del t ∉ ops ++ [op] ↔ TimerOp.del t ∉ ops ∧ op ≠ .del t := by simp [eq_comm]
      simp only [List.cons_append, dueIn, hc, hd, ih]
      by_cases hin : ops.count .tick + (k + if op = .tick then 1 else 0) = e ∧ TimerOp.del t ∉ ops
      · by_cases hop : op = .del t
        · rw [if_neg (fun h => h.2.2 hop), if_pos hin, List.filter_cons_of_neg (by simpa using hop)]
        · rw [if_pos ⟨hin.1, hin.2, hop⟩, if_pos hin, List.filter_cons_of_pos (by simpa using hop), List.cons_append]
      · rw [if_neg (fun h => hin ⟨h.1, h.2.1⟩), if_neg hin]
    | del | tick | setProc => exact ih

/-! ## The invariant of a run -/

/-- The timer list agrees with the history: every deadline is positive and an `unsigned int`, and the timers due in `k` ticks
are those of the history, in its order. -/
structure Inv (ops : List TimerOp) (s : TimerState) : Prop where
  nodup : s.timerList.Nodup
  range : ∀ x ∈ deadlines 0 s.gaps, 0 < x.2 ∧ x.2 < uintSize
  unwrapped : s.wrapped = false
  due : ∀ k, 0 < k → s.dueIn k = dueIn k ops

/-- The `expires` fields of the list are bounded when its deadlines are. -/
theorem expires_lt (h : Inv ops s) : ∀ t ∈ s.timerList, (s.timers t).expires < uintSize := by
  intro t ht
  have hin : (t, (s.timers t).expires) ∈ s.gaps := List.mem_map.mpr ⟨t, ht, rfl⟩
  obtain ⟨d, hd, hle⟩ := exists_deadline hin
  have := (h.range _ hd).2
  omega

theorem nodup_deadlines : ((deadlines 0 s.gaps).map Prod.fst).Nodup ↔ s.timerList.Nodup := by
  simp

section

variable (h : Inv ops s)
include h

theorem inv_add (he : 0 < e) (heb : e < uintSize) (hp : p ≠ 0) (hno : t ∉ s.timerList) :
    ∃ s', stepTimer s (.add t p e) = .ok ([], s') ∧ Inv (ops ++ [.add t p e]) s' := by
  obtain ⟨s', hs', hg, hw, hpt, hpo⟩ := addTimer_spec h.nodup (expires_lt h) hno he heb hp
  have hdl : deadlines 0 s'.gaps = (deadlines 0 s.gaps).orderedInsert (fun x y => x.2 < y.2) (t, e) := by
    rw [hg, deadlines_enqueue, Nat.zero_add]
  have hkey : t ∉ (deadlines 0 s.gaps).map Prod.fst := by simpa using hno
  refine ⟨s', by simp only [stepTimer, hs', bind_ok], ?_, ?_, ?_, ?_⟩
  · rw [← nodup_deadlines, hdl]
    exact ((List.perm_orderedInsert _ _ _).map Prod.fst).nodup_iff.mpr
      (List.nodup_cons.mpr ⟨hkey, nodup_deadlines.mpr h.nodup⟩)
  · intro x hx
    rw [hdl, List.mem_orderedInsert] at hx
    rcases hx with rfl | hx
    · exact ⟨he, heb⟩
    · exact h.range x hx
  · rw [hw, h.unwrapped]
  · intro k hk
    have hold : ((deadlines 0 s.gaps).filter (fun x => decide (x.2 = k))).map (fun x => (x.1, (s'.timers x.1).proc)) =
        s.dueIn k := by
      apply List.map_congr_left
      intro x hx
      have hne : x.1 ≠ t := fun hxt => hkey (List.mem_map.mpr ⟨x, List.mem_of_mem_filter hx, hxt⟩)
      rw [hpo x.1 hne]
    rw [TimerState.dueIn, hdl, filter_orderedInsert t e k (deadlines_sorted 0 s.gaps), List.map_append, hold, h.due k hk,
      dueIn_append]
    by_cases hek : e = k <;> simp [dueIn, hek, hpt, eq_comm]

theorem inv_del (t : Nat) : Inv (ops ++ [.del t]) (delTimer t s) := by
  obtain ⟨hg, hw, hp⟩ := delTimer_spec t h.nodup fun x hx => (h.range x hx).2
  have hdl : deadlines 0 (delTimer t s).gaps = (deadlines 0 s.gaps).filter (fun x => decide (x.1 ≠ t)) := by
    rw [hg, deadlines_remove t 0 s.gaps (by simpa using h.nodup)]
  refine ⟨?_, ?_, ?_, ?_⟩
  · rw [← nodup_deadlines, hdl]
    exact (nodup_deadlines.mpr h.nodup).sublist (List.filter_sublist.map Prod.fst)
  · intro x hx
    rw [hdl] at hx
    exact h.range x (List.mem_of_mem_filter hx)
  · rw [hw, h.unwrapped]
  · intro k hk
    rw [dueIn_append, if_neg nofun, Nat.add_zero, ← h.due k hk, TimerState.dueIn, TimerState.dueIn, List.filter_map, hdl]
    simp [hp, dueIn, Bool.and_comm, eq_comm]

theorem inv_tick : (∃ s', stepTimer s .tick = .ok (dueIn 1 ops, s') ∧
        s'.procs = wake ((dueIn 1 ops).map Prod.snd) s.procs ∧ Inv (ops ++ [.tick]) s') ∨
      ∃ e, stepTimer s .tick = .error e ∧ e ≠ .headExpires ∧ ∃ x ∈ dueIn 1 ops, ¬(s.procs x.2).Wakeable := by
  rw [← h.due 1 Nat.one_pos]
  rcases runTimerList_spec h.nodup h.range with ⟨s', hs', hdl, hw, hp, hps⟩ | he
  · refine Or.inl ⟨s', hs', hps, ?_, ?_, ?_, ?_⟩
    · rw [← nodup_deadlines, hdl, List.map_map]
      exact (nodup_deadlines.mpr h.nodup).sublist (List.filter_sublist.map Prod.fst)
    · intro x hx
      rw [hdl, List.mem_map] at hx
      obtain ⟨y, hy, rfl⟩ := hx
      rw [List.mem_filter, decide_eq_true_iff] at hy
      have := h.range y hy.1
      omega
    · rw [hw, h.unwrapped]
    · intro k hk
      rw [dueIn_append, if_pos rfl, ← h.due (k + 1) (Nat.succ_pos k), TimerState.dueIn, TimerState.dueIn, hdl,
        List.filter_map, List.filter_filter]
      simp only [hp]
      have hs : (deadlines 0 s.gaps).filter
            (fun x => ((fun x : Nat × Nat => decide (x.2 = k)) ∘ fun x => (x.1, x.2 - 1)) x && decide (x.2 ≠ 1)) =
          (deadlines 0 s.gaps).filter (fun x => decide (x.2 = k + 1)) := by
        apply List.filter_congr
        intro x hx
        rw [Function.comp_apply, ← Bool.decide_and, decide_eq_decide]
        omega
      rw [hs]
      simp [dueIn, Function.comp_def]
  · exact Or.inr he

theorem inv_setProc (p : Nat) (st : Proc) : Inv (ops ++ [.setProc p st]) { s with procs := Function.update s.procs p st } := by
  refine ⟨h.nodup, h.range, h.unwrapped, ?_⟩
  intro k hk
  rw [dueIn_append, if_neg nofun, Nat.add_zero, ← h.due k hk]
  simp [dueIn, TimerState.dueIn, TimerState.gaps]

end

/-- The invariant holds of every state that a history leads to. -/
theorem inv_of_reach (h : TimerReach ops s) : Inv ops s := by
  induction h with
  | init timers procs =>
    refine ⟨List.nodup_nil, ?_, rfl, fun _ _ => rfl⟩
    intro x hx
    cases hx
  | @step ops s s' fired op _ hop hs ih =>
    cases op with
    | add t p e =>
      obtain ⟨he, heb, hp, hno⟩ := hop
      obtain ⟨s'', hs'', hinv⟩ := inv_add ih he heb hp hno
      rw [hs''] at hs
      cases hs
      exact hinv
    | del t =>
      cases hs
      exact inv_del ih t
    | tick =>
      rcases inv_tick ih with ⟨s'', hs'', -, hinv⟩ | ⟨e, he, -⟩
      · rw [hs''] at hs
        cases hs
        exact hinv
      · rw [he] at hs
        cases hs
    | setProc p st =>
      cases hs
      exact inv_setProc ih p st

/-- The timers on the list are those that the history leaves due in some number of ticks. -/
theorem mem_timerList (h : Inv ops s) : t ∈ s.timerList ↔ ∃ k p, 0 < k ∧ (t, p) ∈ dueIn k ops := by
  constructor
  · intro ht
    have hkey : t ∈ (deadlines 0 s.gaps).map Prod.fst := by simpa using ht
    obtain ⟨⟨u, d⟩, hx, rfl⟩ := List.mem_map.mp hkey
    have hd : 0 < d := (h.range _ hx).1
    refine ⟨d, (s.timers u).proc, hd, ?_⟩
    rw [← h.due d hd]
    exact List.mem_map.mpr ⟨(u, d), List.mem_filter.mpr ⟨hx, by simp⟩, rfl⟩
  · rintro ⟨k, p, hk, hin⟩
    rw [← h.due k hk] at hin
    obtain ⟨x, hx, he⟩ := List.mem_map.mp hin
    rw [Prod.mk.injEq] at he
    have hkey : t ∈ (deadlines 0 s.gaps).map Prod.fst := List.mem_map.mpr ⟨x, List.mem_of_mem_filter hx, he.1⟩
    simpa using hkey

end TimerAux

open TimerAux

/-- The timer list over whole runs. In every state that a history leads to, no difference of expiry times has wrapped around,
and the timers on the list are those the history leaves due later. A tick there fires exactly the timers due on it, in the order
in which they were added, and wakes their processes and no others; or it stops at a process among theirs that must not be woken, and
never because the first timer of the list has no time left. Every other operation goes through and fires nothing. -/
theorem timer_runs_fire_due (ops : List TimerOp) (s : TimerState) (h : TimerReach ops s) :
    s.wrapped = false ∧
    (∀ t, t ∈ s.timerList ↔ ∃ k p, 0 < k ∧ (t, p) ∈ dueIn k ops) ∧
    ((∃ s', stepTimer s .tick = .ok (dueIn 1 ops, s') ∧ s'.procs = wake ((dueIn 1 ops).map Prod.snd) s.procs) ∨
      ∃ e, stepTimer s .tick = .error e ∧ e ≠ .headExpires ∧ ∃ x ∈ dueIn 1 ops, ¬(s.procs x.2).Wakeable) ∧
    ∀ op : TimerOp, op ≠ .tick → op.Allowed s → ∃ s', stepTimer s op = .ok ([], s') := by
  have hinv := inv_of_reach h
  refine ⟨hinv.unwrapped, fun t => mem_timerList hinv, ?_, ?_⟩
  · rcases inv_tick hinv with ⟨s', hs', hp, -⟩ | herr
    · exact Or.inl ⟨s', hs', hp⟩
    · exact Or.inr herr
  · intro op hop hall
    cases op with
    | add t p e =>
      obtain ⟨he, heb, hp, hno⟩ := hall
      obtain ⟨s', hs', -⟩ := inv_add hinv he heb hp hno
      exact ⟨s', hs'⟩
    | del t => exact ⟨_, rfl⟩
    | tick => exact absurd rfl hop
    | setProc p st => exact ⟨_, rfl⟩

/-- Three timers, the last one due with the first and one of them deleted again: the tick that is next fires the two others in
the order of insertion. -/
theorem timer_runs_fire_due_tie :
    ∃ s, TimerReach [.add 10 1 2, .add 20 2 1, .tick, .add 30 3 1, .add 40 4 5, .del 40] s ∧ s.wrapped = false ∧
      dueIn 1 [.add 10 1 2, .add 20 2 1, .tick, .add 30 3 1, .add 40 4 5, .del 40] = [(10, 1), (30, 3)] := by
  have h0 : TimerReach [] _ := .init (fun _ => ⟨0, 0⟩) (fun _ => ⟨.sleeping, wtInterrupted⟩)
  have h1 := TimerReach.step (.add 10 1 2) h0 (by decide) rfl
  have h2 := TimerReach.step (.add 20 2 1) h1 (by decide) rfl
  have h3 := TimerReach.step .tick h2 (by decide) rfl
  have h4 := TimerReach.step (.add 30 3 1) h3 (by decide) rfl
  have h5 := TimerReach.step (.add 40 4 5) h4 (by decide) rfl
  have h6 := TimerReach.step (.del 40) h5 (by decide) rfl
  exact ⟨_, h6, (timer_runs_fire_due _ _ h6).1, by decide⟩

/-- The fields of the processes of the scheduler that the timer list has. -/
def Sched.timerProcs (s : Sched) (p : Nat) : Proc := ⟨(s.procs p).state, (s.procs p).waitState⟩

/-- The timer list wakes a process as the scheduler does, which puts it on the run queue besides. -/
theorem wakeupProc_sched {k : Sched} {s : TimerState} {p : Nat} (h : k.Ok) (hz : (k.procs p).state ≠ .zombie)
    (hs : s.procs = k.timerProcs) :
    ∃ k', k.wakeupProc p = .ok k' ∧ wakeupProc p s = .ok { s with procs := k'.timerProcs } := by
  obtain ⟨k', hk', -, hw⟩ := Sched.wakeupProc_spec h hz
  have hp : k'.timerProcs = wake [p] k.timerProcs := by
    funext q
    by_cases hq : q = p
    · subst hq
      by_cases hr : (k.procs q).state = .runnable <;> simp [wake, Sched.timerProcs, hw.state, hw.waitState, hr]
    · simp [wake, Sched.timerProcs, hw.others q hq, hq]
  refine ⟨k', hk', ?_⟩
  rw [wakeupProc_spec (hs ▸ hz), hs, hp]

end Ucore
