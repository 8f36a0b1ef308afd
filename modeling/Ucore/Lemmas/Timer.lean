import Ucore.Timer
import Ucore.Lib.DeltaQueue

/-!
# The timer list is a delta queue

`TimerState.gaps` reads the timer list as a delta queue. As long as nothing wraps around, `add_timer` is its insertion
(`addTimer_spec`), `del_timer` its deletion (`delTimer_spec`), and `run_timer_list` takes one step of time and removes the
entries due now (`runTimerList_spec`), unless it finds a process among theirs that it must not wake.
-/

namespace Ucore

open Checked DeltaQueue Function

/-- The timer list as a delta queue. -/
def TimerState.gaps (s : TimerState) : List (Nat × Nat) := s.timerList.map (fun t => (t, (s.timers t).expires))

@[simp] theorem TimerState.map_fst_gaps (s : TimerState) : s.gaps.map Prod.fst = s.timerList := by
  simp [TimerState.gaps, Function.comp_def]

/-- A process that `run_timer_list` may wake: it is not a zombie, and if it waits then in a way that can be interrupted. -/
def Proc.Wakeable (p : Proc) : Prop :=
  p.state ≠ .zombie ∧ (p.waitState = 0 ∨ p.waitState &&& wtInterrupted ≠ 0)

/-- The processes with those of `ps` woken: one that was not runnable is so now, and waits for nothing. -/
def wake (ps : List Nat) (procs : Nat → Proc) (p : Nat) : Proc :=
  if p ∈ ps ∧ (procs p).state ≠ .runnable then ⟨.runnable, 0⟩ else procs p

namespace TimerState

/-- The `expires` fields. -/
abbrev expires (s : TimerState) (t : Nat) : Nat := (s.timers t).expires

/-- The state with other `expires` fields. -/
def setExpires (s : TimerState) (g : Nat → Nat) : TimerState :=
  { s with timers := fun t => { s.timers t with expires := g t } }

theorem setExpires_update (s : TimerState) (t e : Nat) :
    { s with timers := update s.timers t { s.timers t with expires := e } } = s.setExpires (update s.expires t e) := by
  congr 1
  funext u
  by_cases hu : u = t
  · simp [hu]
  · simp [hu, expires]

end TimerState

variable {s : TimerState} {timer : Nat}

namespace TimerAux

variable {t d : Nat} {le : List Nat}

/-! ## The arithmetic of `expires` -/

/-- A subtraction that does not wrap around. -/
theorem subExpires_eq (h : d ≤ s.expires t) (hb : s.expires t < uintSize) :
    s.subExpires t d = s.setExpires (update s.expires t (s.expires t - d)) := by
  have h1 : ((s.timers t).expires + uintSize - d) % uintSize = s.expires t - d := by
    rw [show (s.timers t).expires + uintSize - d = s.expires t - d + uintSize from Nat.sub_add_comm h, Nat.add_mod_right,
      Nat.mod_eq_of_lt (by omega)]
  have h2 : decide ((s.timers t).expires < d) = false := decide_eq_false (not_lt.mpr h)
  rw [← TimerState.setExpires_update, TimerState.subExpires, h1, h2, Bool.or_false]

/-- An addition that does not wrap around. -/
theorem addExpires_eq (hb : s.expires t + d < uintSize) :
    s.addExpires t d = s.setExpires (update s.expires t (s.expires t + d)) := by
  have h1 : ((s.timers t).expires + d) % uintSize = s.expires t + d := Nat.mod_eq_of_lt hb
  have h2 : decide (uintSize ≤ (s.timers t).expires + d) = false := decide_eq_false (not_le.mpr hb)
  rw [← TimerState.setExpires_update, TimerState.addExpires, h1, h2, Bool.or_false]

/-- Fields of timers outside of a list do not matter to its gaps. -/
theorem map_update {l : List Nat} (f : Nat → Nat) (e : Nat) (h : t ∉ l) :
    l.map (fun u => (u, update f t e u)) = l.map (fun u => (u, f u)) := by
  apply List.map_congr_left
  intro u hu
  rw [update_of_ne (ne_of_mem_of_not_mem hu h)]

/-! ## Insertion -/

/-- The loop of `add_timer` is the insertion into the delta queue. It leaves the timers alone that it does not pass. -/
theorem addLoop_spec : ∀ (le : List Nat) (s : TimerState), timer ∉ le → le.Nodup → s.expires timer < uintSize →
    (∀ t ∈ le, s.expires t < uintSize) →
    ∃ g, (addLoop timer le s).2 = s.setExpires g ∧
      (addLoop timer le s).1.map (fun t => (t, g t)) = enqueue timer (s.expires timer) (le.map (fun t => (t, s.expires t))) ∧
      ∀ t, t ∉ timer :: le → g t = s.expires t := by
  intro le
  induction le with
  | nil =>
    intro s _ _ _ _
    exact ⟨s.expires, rfl, rfl, fun _ _ => rfl⟩
  | cons next le ih =>
    intro s hno hnd hb hbs
    rw [List.mem_cons, not_or] at hno
    rw [List.nodup_cons] at hnd
    have hnb := hbs next List.mem_cons_self
    rw [addLoop, List.map_cons, enqueue]
    by_cases hlt : s.expires timer < s.expires next
    · rw [if_pos hlt, if_pos hlt]
      refine ⟨_, subExpires_eq hlt.le hnb, ?_, ?_⟩
      · rw [List.map_cons, List.map_cons, map_update _ _ hnd.1, update_self, update_of_ne hno.1]
      · intro t ht
        rw [List.mem_cons, List.mem_cons, not_or, not_or] at ht
        exact update_of_ne ht.2.1 ..
    · rw [if_neg hlt, if_neg hlt]
      have hs : s.subExpires timer (s.timers next).expires = _ := subExpires_eq (not_lt.mp hlt) hb
      obtain ⟨g, hg, hm, hr⟩ := ih (s.setExpires (update s.expires timer (s.expires timer - s.expires next))) hno.2 hnd.2
        (by
          change update s.expires timer _ timer < _
          rw [update_self]
          omega)
        (by
          intro t ht
          change update s.expires timer _ t < _
          rw [update_of_ne (ne_of_mem_of_not_mem ht hno.2)]
          exact hbs t (List.mem_cons_of_mem _ ht))
      rw [hs]
      have hold : ∀ t, t ≠ timer → t ∉ le → g t = s.expires t := by
        intro t h1 h2
        rw [hr t (by simp [h1, h2])]
        exact update_of_ne h1 ..
      refine ⟨g, hg, ?_, ?_⟩
      · change (next, g next) :: _ = _
        rw [hm, hold next (Ne.symm hno.1) hnd.1]
        change _ :: enqueue timer (update s.expires timer _ timer) (le.map fun t => (t, update s.expires timer _ t)) = _
        rw [map_update _ _ hno.2, update_self]
      · intro t ht
        rw [List.mem_cons, List.mem_cons, not_or, not_or] at ht
        exact hold t ht.1 ht.2.2

/-! ## Deletion -/

/-- A deletion from the delta queue, in the terms of `del_timer`. -/
theorem remove_gaps (g : Nat → Nat) : ∀ l : List Nat, timer ∈ l → l.Nodup →
    listNext timer l = none ∧ remove timer (l.map (fun t => (t, g t))) = (l.erase timer).map (fun t => (t, g t)) ∨
    ∃ next ∈ l, next ≠ timer ∧ listNext timer l = some next ∧ remove timer (l.map (fun t => (t, g t))) =
      (l.erase timer).map (fun t => (t, update g next (g next + g timer) t)) := by
  intro l
  induction l with
  | nil => exact nofun
  | cons a l ih =>
    intro hl hnd
    rw [List.nodup_cons] at hnd
    rw [listNext, List.map_cons, remove]
    by_cases ha : a = timer
    · rw [if_pos ha, if_pos ha, ha, List.erase_cons_head]
      cases l with
      | nil => exact Or.inl ⟨rfl, rfl⟩
      | cons b l =>
        have hne : b ≠ timer := fun hb => hnd.1 (by rw [ha, hb]; exact List.mem_cons_self)
        refine Or.inr ⟨b, by simp, hne, rfl, ?_⟩
        rw [List.map_cons, List.map_cons, carry, map_update _ _ (List.nodup_cons.mp hnd.2).1, update_self]
    · rw [if_neg ha, if_neg ha, List.erase_cons_tail (by simpa using ha)]
      have hl' := (List.mem_cons.mp hl).resolve_left (Ne.symm ha)
      rcases ih hl' hnd.2 with ⟨hn, hr⟩ | ⟨next, hm, hne, hnt, hr⟩
      · exact Or.inl ⟨hn, by rw [hr, List.map_cons]⟩
      · refine Or.inr ⟨next, List.mem_cons_of_mem a hm, hne, hnt, ?_⟩
        rw [hr, List.map_cons, update_of_ne (ne_of_mem_of_not_mem hm hnd.1).symm]

end TimerAux

open TimerAux

/-- `add_timer` of a timer that was just initialised: the insertion into the delta queue. -/
theorem addTimer_spec {proc e : Nat} (hnd : s.timerList.Nodup)
    (hb : ∀ t ∈ s.timerList, (s.timers t).expires < uintSize) (hno : timer ∉ s.timerList) (he : 0 < e)
    (heb : e < uintSize) (hp : proc ≠ 0) :
    ∃ s', addTimer timer (timerInit timer proc e s) = .ok s' ∧ s'.gaps = enqueue timer e s.gaps ∧
      s'.wrapped = s.wrapped ∧ (s'.timers timer).proc = proc ∧
      ∀ t, t ≠ timer → (s'.timers t).proc = (s.timers t).proc := by
  have hs : (timerInit timer proc e s).timers timer = ⟨e, proc⟩ := update_self ..
  have ho : ∀ t, t ≠ timer → (timerInit timer proc e s).timers t = s.timers t := fun t ht => update_of_ne ht ..
  have hexp : (timerInit timer proc e s).expires timer = e := congrArg Timer.expires hs
  have hl : ∀ t ∈ s.timerList, (timerInit timer proc e s).expires t = s.expires t :=
    fun t ht => congrArg Timer.expires (ho t (ne_of_mem_of_not_mem ht hno))
  obtain ⟨g, hg, hm, -⟩ := addLoop_spec s.timerList (timerInit timer proc e s) hno hnd
    (by rw [hexp]; exact heb) (fun t ht => by rw [hl t ht]; exact hb t ht)
  have hga : s.timerList.map (fun t => (t, (timerInit timer proc e s).expires t)) = s.gaps :=
    List.map_congr_left fun t ht => congrArg (Prod.mk t) (hl t ht)
  rw [hexp, hga] at hm
  refine ⟨{ (timerInit timer proc e s).setExpires g with timerList := (addLoop timer s.timerList (timerInit timer proc e s)).1 },
    ?_, hm, rfl, ?_, ?_⟩
  · unfold addTimer
    rw [ensure_of (by rw [hs]; exact ⟨he, hp⟩), ensure_of (by exact hno), ← hg]
    rfl
  · change ((timerInit timer proc e s).timers timer).proc = proc
    rw [hs]
  · intro t ht
    change ((timerInit timer proc e s).timers t).proc = _
    rw [ho t ht]

/-- `del_timer` is the deletion from the delta queue. -/
theorem delTimer_spec (timer : Nat) (hnd : s.timerList.Nodup) (hb : ∀ x ∈ deadlines 0 s.gaps, x.2 < uintSize) :
    (delTimer timer s).gaps = remove timer s.gaps ∧ (delTimer timer s).wrapped = s.wrapped ∧
      ∀ t, ((delTimer timer s).timers t).proc = (s.timers t).proc := by
  by_cases hm : timer ∈ s.timerList
  swap
  · have hd : delTimer timer s = s := if_neg hm
    rw [hd, remove_of_not_mem (by simpa using hm)]
    exact ⟨rfl, rfl, fun _ => rfl⟩
  unfold delTimer
  rw [if_pos hm]
  rcases remove_gaps s.expires s.timerList hm hnd with ⟨hn, hr⟩ | ⟨next, hmem, hne, hn, hr⟩
  · rw [hn, TimerState.gaps, TimerState.gaps, hr]
    split <;> exact ⟨rfl, rfl, fun _ => rfl⟩
  · rw [hn]
    by_cases hz : s.expires timer = 0
    · rw [if_neg (not_not.mpr hz), TimerState.gaps, TimerState.gaps, hr, hz, Nat.add_zero, update_eq_self]
      exact ⟨rfl, rfl, fun _ => rfl⟩
    · -- the deadline of the next timer is the sum of the two gaps at least, so the sum does not wrap around
      have hs : s.expires next + s.expires timer < uintSize := by
        have hin : (next, s.expires next + s.expires timer) ∈ remove timer s.gaps := by
          rw [TimerState.gaps, hr, List.mem_map]
          exact ⟨next, (List.Nodup.mem_erase_iff hnd).mpr ⟨hne, hmem⟩, by simp⟩
        obtain ⟨d, hd, hle⟩ := exists_deadline hin
        rw [deadlines_remove timer 0 s.gaps (by simpa using hnd)] at hd
        have := hb _ (List.mem_of_mem_filter hd)
        omega
      rw [if_pos hz]
      dsimp only
      rw [addExpires_eq hs, TimerState.gaps, TimerState.gaps, hr]
      exact ⟨rfl, rfl, fun _ => rfl⟩

/-! ## Firing -/

namespace TimerAux

/-- Deleting the first timer when its gap is zero. -/
theorem delTimer_head {le : List Nat} (hl : s.timerList = timer :: le)
    (hz : (s.timers timer).expires = 0) : delTimer timer s = { s with timerList := le } := by
  unfold delTimer
  rw [if_pos (by rw [hl]; exact List.mem_cons_self), if_neg (by simpa using hz)]
  dsimp only
  rw [hl, List.erase_cons_head]

theorem wake_nil (f : Nat → Proc) : wake [] f = f := by
  funext p
  simp [wake]

theorem wakeupProc_spec {proc : Nat} (h : (s.procs proc).state ≠ .zombie) :
    wakeupProc proc s = .ok { s with procs := wake [proc] s.procs } := by
  have hu : wake [proc] s.procs =
      if (s.procs proc).state ≠ .runnable then update s.procs proc ⟨.runnable, 0⟩ else s.procs := by
    funext p
    by_cases hp : p = proc
    · subst hp
      by_cases hr : (s.procs p).state = .runnable <;> simp [wake, hr]
    · split_ifs <;> simp [wake, hp]
  rw [wakeupProc, ensure_of h, bind_ok, hu]
  split_ifs <;> rfl

theorem wake_wakeable {f : Nat → Proc} {p : Nat} (ps : List Nat) (h : (f p).Wakeable) : (wake ps f p).Wakeable := by
  unfold wake
  split_ifs
  · exact ⟨by decide, Or.inl rfl⟩
  · exact h

theorem wake_cons (proc : Nat) (ps : List Nat) (f : Nat → Proc) : wake ps (wake [proc] f) = wake (proc :: ps) f := by
  funext p
  by_cases hp : p = proc
  · subst hp
    by_cases hr : (f p).state = .runnable <;> simp [wake, hr]
  · simp [wake, hp]

/-- The loop of `run_timer_list` fires the timers in front whose gap is zero, in the order of the list, and leaves the others;
their processes are woken; or the process of one of those timers must not be woken. -/
theorem fireLoop_spec : ∀ (l : List Nat) (s : TimerState), s.timerList = l →
      (∃ fired, fired = (l.takeWhile (fun t => decide ((s.timers t).expires = 0))).map (fun t => (t, (s.timers t).proc)) ∧
        fireLoop l s = .ok (fired, { s with
          timerList := l.dropWhile (fun t => decide ((s.timers t).expires = 0)), procs := wake (fired.map Prod.snd) s.procs })) ∨
      ∃ e, fireLoop l s = .error e ∧ e ≠ .headExpires ∧
        ∃ t ∈ l.takeWhile (fun t => decide ((s.timers t).expires = 0)), ¬(s.procs (s.timers t).proc).Wakeable := by
  intro l
  induction l with
  | nil =>
    intro s hl
    obtain ⟨tm, tl, pr, w⟩ := s
    cases hl
    exact Or.inl ⟨[], rfl, by rw [List.map_nil, wake_nil]; rfl⟩
  | cons timer le ih =>
    intro s hl
    rw [fireLoop]
    by_cases hz : (s.timers timer).expires = 0
    swap
    · rw [if_neg hz, List.takeWhile_cons_of_neg (by simpa using hz), List.dropWhile_cons_of_neg (by simpa using hz), ← hl]
      exact Or.inl ⟨[], rfl, by rw [List.map_nil, wake_nil]⟩
    rw [if_pos hz, List.takeWhile_cons_of_pos (by simpa using hz), List.dropWhile_cons_of_pos (by simpa using hz)]
    dsimp only
    by_cases hw : (s.procs (s.timers timer).proc).Wakeable
    swap
    · refine Or.inr ?_
      by_cases hwa : (s.procs (s.timers timer).proc).waitState = 0 ∨
        (s.procs (s.timers timer).proc).waitState &&& wtInterrupted ≠ 0
      · refine ⟨.wakeZombie, ?_, by decide, timer, List.mem_cons_self, hw⟩
        rw [ensure_of hwa, bind_ok, wakeupProc, ensure_of_not fun hz => hw ⟨hz, hwa⟩, bind_error, bind_error]
      · refine ⟨.notInterruptible, ?_, by decide, timer, List.mem_cons_self, hw⟩
        rw [ensure_of_not hwa, bind_error]
    set f := wake [(s.timers timer).proc] s.procs with hf
    have hd : delTimer timer { s with procs := f } = { s with procs := f, timerList := le } :=
      delTimer_head hl hz
    rw [ensure_of hw.2, bind_ok, wakeupProc_spec hw.1, bind_ok, hd]
    rcases ih { s with procs := f, timerList := le } rfl with ⟨fired, rfl, hr⟩ | ⟨e, he, hne, t, ht, hnw⟩
    · rw [hr, hf]
      dsimp only
      rw [wake_cons]
      exact Or.inl ⟨_, rfl, rfl⟩
    · rw [he]
      exact Or.inr ⟨e, rfl, hne, t, List.mem_cons_of_mem _ ht, fun h => hnw (wake_wakeable _ h)⟩

end TimerAux

/-- The timers that are due `k` ticks from now, each with its process. -/
def TimerState.dueIn (s : TimerState) (k : Nat) : List (Nat × Nat) :=
  ((deadlines 0 s.gaps).filter (fun x => decide (x.2 = k))).map (fun x => (x.1, (s.timers x.1).proc))

/-- `run_timer_list` where every timer is due in one tick at least: the timers due in one tick fire, in the order of the list,
their processes are woken, and the others are due one tick earlier; or the process of a timer due in one tick must not be woken. -/
theorem runTimerList_spec (hnd : s.timerList.Nodup)
    (hb : ∀ x ∈ deadlines 0 s.gaps, 0 < x.2 ∧ x.2 < uintSize) : (∃ s', runTimerList s = .ok (s.dueIn 1, s') ∧
      deadlines 0 s'.gaps = ((deadlines 0 s.gaps).filter (fun x => decide (x.2 ≠ 1))).map (fun x => (x.1, x.2 - 1)) ∧
      s'.wrapped = s.wrapped ∧ (∀ t, (s'.timers t).proc = (s.timers t).proc) ∧
      s'.procs = wake ((s.dueIn 1).map Prod.snd) s.procs) ∨
    ∃ e, runTimerList s = .error e ∧ e ≠ .headExpires ∧ ∃ x ∈ s.dueIn 1, ¬(s.procs x.2).Wakeable := by
  obtain ⟨hdue, hla⟩ := due_next fun x hx => (hb x hx).1
  unfold runTimerList
  split
  · rename_i hn
    have hga : s.gaps = [] := by rw [TimerState.gaps, hn, List.map_nil]
    rw [TimerState.dueIn, hga]
    exact Or.inl ⟨s, rfl, by rw [hga]; rfl, rfl, fun _ => rfl, (wake_nil _).symm⟩
  · rename_i timer le hl
    rw [hl, List.nodup_cons] at hnd
    have hga : s.gaps = (timer, s.expires timer) :: le.map (fun t => (t, s.expires t)) := by
      rw [TimerState.gaps, hl, List.map_cons]
    have hin : (timer, 0 + s.expires timer) ∈ deadlines 0 s.gaps := by
      rw [hga]
      exact List.mem_cons_self
    obtain ⟨hg0, hgb⟩ : 0 < s.expires timer ∧ s.expires timer < uintSize := by simpa using hb _ hin
    -- one tick taken off the first gap
    set g := update s.expires timer (s.expires timer - 1) with hg
    have helapse : elapse s.gaps = (timer :: le).map (fun t => (t, g t)) := by
      rw [hga, elapse, List.map_cons, hg, map_update _ _ hnd.1, update_self]
    rw [helapse, List.takeWhile_map, List.map_map] at hdue
    rw [helapse, List.dropWhile_map] at hla
    have hfired : s.dueIn 1 = ((timer :: le).takeWhile (fun t => decide (g t = 0))).map (fun t => (t, (s.timers t).proc)) := by
      have hm := congrArg (List.map (fun t => (t, (s.timers t).proc))) hdue
      rw [List.map_map, List.map_map] at hm
      exact hm
    rw [ensure_of hg0.ne', subExpires_eq hg0 hgb, hfired]
    rcases fireLoop_spec (timer :: le) (s.setExpires g) hl with ⟨_, rfl, hf⟩ | ⟨e, he, hne, t, ht, hnw⟩
    · exact Or.inl ⟨_, hf, hla.symm, rfl, fun _ => rfl, rfl⟩
    · exact Or.inr ⟨e, he, hne, (t, (s.timers t).proc), List.mem_map.mpr ⟨t, ht, rfl⟩, hnw⟩

end Ucore
