import Ucore.Lemmas.KernelEffect
import Ucore.Lemmas.Sync
import Ucore.Theorems.Sched

/-!
# The keyboard in every run of the kernel

The device changes only when a key is pressed and when a process reads. Two things go wrong in it. `dev_stdin_write` stores a character
before it asks whether there is room, so that a character which comes while 4096 are unread takes the place of the oldest of them
(`full_buffer_overwritten`). And the two positions are signed numbers of 32 bits that only grow, so that after `2 ^ 31` characters the
write position is negative, and a reader goes to sleep although there is something to read (`reader_misses_character`). Without
these two, the characters are delivered in order and no wake-up is lost.
-/

namespace Ucore

open Checked Function

/-- A key is pressed. -/
def Event.isKey : Event → Bool
  | .key _ => true
  | _ => false

namespace Kernel

section

variable {k k' : Kernel} {e : Event} {n : Nat} {pid : Int} {I : Stdin → Prop}

theorem devStdinRead_stdin (hq : ∀ (d : Stdin) l, I d → I { d with waitQueue := l })
    (ht : ∀ d, I d → d.pRpos < d.pWpos → I d.take) (h : I k.stdin) : I (k.devStdinRead n).stdin := by
  have hl := (Stdin.readLoop_invariant ht n k.stdin h).1
  unfold devStdinRead
  dsimp only
  split
  · exact hl
  · exact hq _ _ hl

theorem WaitEffect.stdin (h : WaitEffect k pid k') : k'.stdin = k.stdin := by
  cases h with
  | none | named | first | sleepNamed | sleepAny => rfl

/-- What reading and the pressing of keys keep of the device, every event keeps. -/
theorem step_device (hqu : ∀ (d : Stdin) l, I d → I { d with waitQueue := l })
    (ht : ∀ d, I d → d.pRpos < d.pWpos → I d.take) (hwr : ∀ c, e = .key c → I (k.stdin.write c)) (h : I k.stdin)
    (he : Effect k e k') : I k'.stdin := by
  cases he with
  | clock | expire | wake | mark | reap | schedule | waitExit | downed | slept | yielded | yield | forkNone | fork | forkFail | exit
  | killNone | killFlag | killWake | raise | tryDown | sleep => exact h
  | key c s flags => exact hqu _ _ (hwr c rfl)
  | links s k' hpt hw hr hne hc hrun ha =>
    rw [ha.eq]
    exact h
  | waitAgain pid k' hpt hw =>
    rw [hw.stdin]
    exact h
  | wait pid k' hw =>
    rw [hw.stdin]
    exact h
  | reads n =>
    unfold readResume
    dsimp only
    split
    · exact devStdinRead_stdin hqu ht (hqu _ _ h)
    · exact hqu _ _ h
  | read n => exact devStdinRead_stdin hqu ht h
  | forkLink p fuel pids k' h0 hl hp hs =>
    rw [Kernel.forkLink, hp] at hs
    cases hs
    exact h
  | down i =>
    unfold Kernel.down
    dsimp only
    split
    · exact h
    · exact h
  | grant i p rest k1 s hq hk1 =>
    subst hk1
    exact h

theorem sound_setQueue (d : Stdin) (l : List Nat) (h : d.Sound) : ({ d with waitQueue := l } : Stdin).Sound :=
  ⟨h.nonneg, h.le, h.small, h.room⟩

theorem fifo_setQueue (d : Stdin) (l : List Nat) (h : d.Fifo) : ({ d with waitQueue := l } : Stdin).Fifo :=
  ⟨sound_setQueue d l h.toSound, h.reads, h.writes, h.front, h.cells⟩

/-! ## Readers that sleep -/

/-- A process that sleeps on the queue of the device sleeps for a reason. -/
def Quiet (k : Kernel) : Prop :=
  ∀ p ∈ k.stdin.waitQueue, (k.sched.procs p).state = .sleeping → k.stdin.pRpos = k.stdin.pWpos

/-- The device is as before, and no process on its queue has fallen asleep. -/
theorem Quiet.same (h : k.Quiet) (hd : k'.stdin = k.stdin)
    (hs : ∀ p ∈ k.stdin.waitQueue, (k'.sched.procs p).state = .sleeping → (k.sched.procs p).state = .sleeping) : k'.Quiet := by
  intro p hp hst
  rw [hd] at hp ⊢
  exact h p hp (hs p hp hst)

/-- Processes have been woken. -/
theorem Quiet.roused (h : k.Quiet) (hd : k'.stdin = k.stdin) (hr : Sched.Roused k.sched k'.sched) : k'.Quiet := by
  refine h.same hd fun p _ hst => ?_
  rcases hr.procs p with hp | ⟨hp, -⟩
  · rw [← hp]
    exact hst
  · rw [hp] at hst
    cases hst

/-- The current process, which does not read, has changed its own state. -/
theorem Quiet.own (h : k.Quiet) (hc : k.Control) (hd : k'.stdin = k.stdin) (hpt : ∀ n, k.point k.current ≠ .reading n)
    (ho : ∀ p, p ≠ k.current → k'.sched.procs p = k.sched.procs p) : k'.Quiet := by
  refine h.same hd fun p hp hst => ?_
  have hne : p ≠ k.current := by
    rintro rfl
    obtain ⟨n, hn⟩ := (hc.procs _).reads hp
    exact hpt n hn
  rw [← ho p hne]
  exact hst

/-- A reader goes on: it leaves nothing to read when it goes to sleep, and takes nothing where another one sleeps. -/
theorem Quiet.devStdinRead (h : k.Quiet) (hd : k.stdin.Sound) : (k.devStdinRead n).Quiet := by
  have hl := Stdin.readLoop_invariant (fun d hd hlt => hd.take hlt) n k.stdin hd
  have hq := readLoop_waitQueue n k.stdin
  -- where another process sleeps the loop finds nothing
  have hs : k.stdin.pRpos = k.stdin.pWpos → (k.stdin.readLoop n).2 = k.stdin := by
    intro heq
    cases n with
    | zero => rfl
    | succ n =>
      unfold Stdin.readLoop
      rw [if_neg (by omega)]
  unfold Kernel.devStdinRead
  dsimp only
  split
  · intro p hp hst
    change p ∈ (k.stdin.readLoop n).2.waitQueue at hp
    rw [hq] at hp
    have heq := h p hp hst
    rw [hs heq]
    exact heq
  · rename_i hm
    intro p _ _
    have hle := hl.1.le
    change (k.stdin.readLoop n).2.pRpos = (k.stdin.readLoop n).2.pWpos
    omega

theorem WaitEffect.others (h : WaitEffect k pid k') (p : Nat) (hp : p ≠ k.current) : k'.sched.procs p = k.sched.procs p := by
  cases h with
  | none | named | first => rfl
  | sleepNamed | sleepAny => exact Sched.setProc_of_ne hp ..

theorem step_quiet (h : k.Quiet) (hc : k.Control) (hd : k.stdin.Sound) (hen : k.Enabled e) (he : Effect k e k') : k'.Quiet := by
  have hrun : k.Runs → ∀ n, k.point k.current ≠ .reading n := by
    intro hr n
    rw [hr.run]
    nofun
  cases he with
  | clock s hsa | schedule s _ hsa => exact h.same rfl fun p _ hst => (hsa.state p).symm.trans hst
  | expire p s hr => exact h.roused rfl hr
  | key c s flags hr => exact fun p hp => absurd hp List.not_mem_nil
  | wake p s _ hr => exact h.roused rfl hr
  | mark pid hpt =>
    refine h.own hc rfl ?_ fun p hp => Sched.setProc_of_ne hp ..
    intro n
    rw [hpt]
    nofun
  | reap | downed | slept | yielded | yield | forkNone | fork | forkFail | killNone | killFlag | killWake | raise | tryDown =>
    exact h.same rfl fun _ _ hst => hst
  | links s k' hpt hw hr hne hc' hrun ha =>
    refine h.roused ?_ (hr.trans ha.roused)
    rw [ha.eq]
    rfl
  | waitExit pid hpt =>
    refine h.own hc rfl ?_ fun p hp => Sched.setProc_of_ne hp ..
    intro n
    rw [hpt]
    nofun
  | exit => exact h.own hc rfl (hrun hen.toRuns) fun p hp => Sched.setProc_of_ne hp ..
  | waitAgain pid k' hpt hw =>
    refine h.own hc hw.stdin ?_ hw.others
    intro n
    rw [hpt]
    nofun
  | wait pid k' hw => exact h.own hc hw.stdin (hrun hen.toRuns) hw.others
  | reads n hpt =>
    unfold readResume
    dsimp only
    have hq : Quiet { k.left with stdin := { k.left.stdin with waitQueue := k.left.stdin.waitQueue.erase k.left.current } } :=
      fun p hp hst => h p (List.mem_of_mem_erase hp) hst
    split
    · exact hq.devStdinRead (sound_setQueue _ _ hd)
    · exact hq
  | read n => exact h.devStdinRead hd
  | forkLink p fuel pids k' h0 hl hpid hs =>
    rw [Kernel.forkLink, hpid] at hs
    cases hs
    refine h.same rfl fun q hq hst => ?_
    have hne : q ≠ p := by
      rintro rfl
      exact (hc.fresh hl).1.stdin hq
    change (update k.sched.procs p SchedProc.alloc q).state = _ at hst
    rwa [update_of_ne hne] at hst
  | down i =>
    unfold Kernel.down
    dsimp only
    split
    · exact h.same rfl fun _ _ hst => hst
    · exact h.own hc rfl (hrun hen) fun p hp => Sched.setProc_of_ne hp ..
  | grant i p rest k1 s hq hk1 hr =>
    subst hk1
    exact h.roused rfl hr
  | sleep => exact h.own hc rfl (hrun hen.toRuns) fun p hp => Sched.setProc_of_ne hp ..

end

section

variable {idle init : Nat} {v : Nat → Int} {buffer : Int → UInt8} {k k' : Kernel}

/-! ## Runs -/

theorem boot_fifo : (boot idle init v buffer).stdin.Fifo := by
  refine ⟨⟨?_, ?_, ?_, ?_⟩, rfl, rfl, List.nil_prefix, RingWindow.holds_nil⟩
  all_goals simp [boot, stdinBufsize]

/-- As long as the write position does not wrap around, the positions are in order and readers sleep only where there is nothing to
read. -/
theorem quiet_of_reach (hne : idle ≠ init)
    (hr : Reach (fun k e => e.isKey → k.stdin.pWpos < 2 ^ 31 - 1) (boot idle init v buffer) k) :
    k.Control ∧ k.stdin.Sound ∧ k.Quiet := by
  refine hr.invariant (I := fun k => k.Control ∧ k.stdin.Sound ∧ k.Quiet)
    ⟨boot_control hne, boot_fifo.toSound, fun p hp => absurd hp List.not_mem_nil⟩ ?_
  intro k k' e ⟨hc, hd, hq⟩ hP he hs
  have hw := step_control hc e he
  rw [hs] at hw
  have hef := effect_of_step hc he hs
  refine ⟨hw, step_device sound_setQueue (fun d hd hlt => hd.take hlt) ?_ hd hef, step_quiet hq hc hd he hef⟩
  rintro c rfl
  exact hd.write (hP rfl) c

theorem fifo_of_reach (hne : idle ≠ init)
    (hr : Reach (fun k e => e.isKey → k.stdin.pWpos < 2 ^ 31 - 1 ∧ k.stdin.pWpos - k.stdin.pRpos < stdinBufsize)
      (boot idle init v buffer) k) : k.Control ∧ k.stdin.Fifo := by
  refine hr.invariant (I := fun k => k.Control ∧ k.stdin.Fifo) ⟨boot_control hne, boot_fifo⟩ ?_
  intro k k' e ⟨hc, hd⟩ hP he hs
  have hw := step_control hc e he
  rw [hs] at hw
  refine ⟨hw, step_device fifo_setQueue (fun d hd hlt => hd.take hlt) ?_ hd (effect_of_step hc he hs)⟩
  rintro c rfl
  exact hd.write (hP rfl).1 (hP rfl).2 c

/-! ## Pressing and reading -/

/-- A key is pressed while the current process is about to make a call. -/
theorem press (hc : k.Control) (hca : k.Calls) (c : UInt8) :
    ∃ k', k.step (.key c) = .ok k' ∧ k'.Calls ∧ k'.stdin = { k.stdin.write c with waitQueue := [] } := by
  obtain ⟨s, flags, hs, -, hr⟩ := hc.devStdinWrite c
  have hcur : s.current = k.current := hr.current
  refine ⟨_, hs, ⟨⟨?_, ?_, ?_⟩, ?_⟩, rfl⟩
  · change k.point s.current = _
    rw [hcur]
    exact hca.run
  · change k.inSchedule s.current = _
    rw [hcur]
    exact hca.out
  · change s.current ≠ s.idleproc
    rw [hcur, hr.idleproc]
    exact hca.busy
  · change k.forking s.current = _
    rw [hcur]
    exact hca.idle

/-- The current process reads a character that is there. -/
theorem read_one (hc : k.Calls) (hlt : k.stdin.pRpos < k.stdin.pWpos) :
    ∃ k', k.step (.read 1) = .ok k' ∧ k'.Calls ∧ k'.stdin = k.stdin.take := by
  have hl : k.stdin.readLoop 1 = (0, k.stdin.take) := if_pos hlt
  have hr : k.devStdinRead 1 = ({ k with stdin := k.stdin.take } : Kernel).go .run := by
    unfold devStdinRead
    rw [hl]
    rfl
  refine ⟨_, congrArg Except.ok hr, ⟨⟨?_, hc.out, hc.busy⟩, hc.idle⟩, rfl⟩
  exact update_self ..

/-- The kernel after `proc_init`, at fixed addresses. -/
def bootSmall : Kernel := boot 1 2 (fun _ => 0) fun _ => 0

/-- A state that the kernel reaches, in which a process is about to make a call. -/
structure Before (k : Kernel) : Prop where
  reach : Reach (fun _ _ => True) bootSmall k
  calls : k.Calls

theorem Before.control (h : k.Before) : k.Control := control_of_reach (by decide) h.reach

theorem Before.press (h : k.Before) {c : UInt8} (hc : c ≠ 0) :
    ∃ k' : Kernel, k'.Before ∧ k'.stdin = { k.stdin.write c with waitQueue := [] } := by
  obtain ⟨k', hs, hca, hd⟩ := Kernel.press h.control h.calls c
  exact ⟨k', ⟨h.reach.step (.key c) trivial hc hs, hca⟩, hd⟩

theorem Before.read (h : k.Before) (hlt : k.stdin.pRpos < k.stdin.pWpos) : ∃ k' : Kernel, k'.Before ∧ k'.stdin = k.stdin.take := by
  obtain ⟨k', hs, hc, hd⟩ := read_one h.calls hlt
  exact ⟨k', ⟨h.reach.step (.read 1) trivial h.calls hs, hc⟩, hd⟩

/-- `initproc` runs, and nothing has been typed. -/
theorem before_init : ∃ k : Kernel, k.Before ∧ k.stdin.pRpos = 0 ∧ k.stdin.pWpos = 0 ∧ k.stdin.accepted = [] ∧ k.stdin.delivered = [] := by
  exact ⟨(run _ [.yield, .proceed, .resume] _).get (by decide +kernel), ⟨reach_of_run (Option.some_get _).symm, by decide +kernel⟩,
    by decide +kernel⟩

/-- So many characters have been typed, and none read. -/
theorem before_typed (n : Nat) (hn : n ≤ 4096) :
    ∃ k : Kernel, k.Before ∧ k.stdin.Fifo ∧ k.stdin.accepted = List.replicate n 97 ∧ k.stdin.delivered = [] := by
  induction n with
  | zero =>
    obtain ⟨k, hk, hr, hw, ha, hd⟩ := before_init
    refine ⟨k, hk, ⟨⟨?_, ?_, ?_, ?_⟩, ?_, ?_, ?_, ?_⟩, ha, hd⟩
    · omega
    · omega
    · omega
    · unfold stdinBufsize
      omega
    · rw [hr, hd]
      rfl
    · rw [hw, ha]
      rfl
    · rw [hd]
      exact List.nil_prefix
    · rw [ha, hd]
      exact RingWindow.holds_nil
  | succ n ih =>
    obtain ⟨k, hk, hf, ha, hd⟩ := ih (by omega)
    have hwp : k.stdin.pWpos = n := by
      rw [hf.writes, ha, List.length_replicate]
    have hrp : k.stdin.pRpos = 0 := by
      rw [hf.reads, hd]
      rfl
    have hro : k.stdin.pWpos - k.stdin.pRpos < stdinBufsize := by
      unfold stdinBufsize
      omega
    obtain ⟨k', hk', hd'⟩ := hk.press (c := 97) (by decide)
    have hwr := Stdin.write_of_room hf.toSound (by omega) hro 97
    refine ⟨k', hk', ?_, ?_, ?_⟩
    · rw [hd']
      exact fifo_setQueue _ _ (hf.write (by omega) hro 97)
    · rw [hd', hwr]
      rw [ha, List.replicate_succ']
    · rw [hd', hwr]
      exact hd

/-- So many characters have been typed and read. -/
theorem before_consumed (n : Nat) (hn : n < 2 ^ 31) : ∃ k : Kernel, k.Before ∧ k.stdin.pRpos = n ∧ k.stdin.pWpos = n := by
  induction n with
  | zero =>
    obtain ⟨k, hk, hr, hw, -, -⟩ := before_init
    exact ⟨k, hk, hr, hw⟩
  | succ n ih =>
    obtain ⟨k, hk, hr, hw⟩ := ih (by omega)
    have hs : k.stdin.Sound := ⟨by omega, by omega, by omega, by unfold stdinBufsize; omega⟩
    have hro : k.stdin.pWpos - k.stdin.pRpos < stdinBufsize := by
      unfold stdinBufsize
      omega
    have hwr := Stdin.write_of_room hs (by omega) hro 97
    obtain ⟨k1, hk1, hd1⟩ := hk.press (c := 97) (by decide)
    have hw1 : k1.stdin.pWpos = n + 1 := by
      rw [hd1, hwr]
      rw [hw]
    have hr1 : k1.stdin.pRpos = n := by
      rw [hd1, hwr]
      exact hr
    obtain ⟨k2, hk2, hd2⟩ := hk1.read (by omega)
    refine ⟨k2, hk2, ?_, ?_⟩
    · rw [hd2]
      change int32 (k1.stdin.pRpos + 1) = _
      rw [int32_of_small (by omega) (by omega)]
      omega
    · rw [hd2]
      change k1.stdin.pWpos = _
      omega

end

/-! ## The results -/

/-- In every run in which each key comes while fewer than 4096 characters are unread, and fewer than `2 ^ 31 - 1` have come before it,
whatever the processes do: the characters that readers got are, unaltered and in this order, the first of those that were accepted,
and a character that comes while there is room is accepted. -/
theorem keyboard_fifo (idle init : Nat) (v : Nat → Int) (buffer : Int → UInt8) (hne : idle ≠ init) (k : Kernel)
    (hr : Reach (fun k e => e.isKey → k.stdin.pWpos < 2 ^ 31 - 1 ∧ k.stdin.pWpos - k.stdin.pRpos < stdinBufsize)
      (boot idle init v buffer) k) :
    k.stdin.delivered <+: k.stdin.accepted ∧
    k.stdin.pWpos - k.stdin.pRpos = (k.stdin.accepted.length : Int) - k.stdin.delivered.length ∧
    ∀ c, k.stdin.pWpos < 2 ^ 31 - 1 → k.stdin.pWpos - k.stdin.pRpos < stdinBufsize →
      ∃ k', k.step (.key c) = .ok k' ∧ k'.stdin.accepted = k.stdin.accepted ++ [c] ∧ k'.stdin.delivered = k.stdin.delivered := by
  obtain ⟨hc, hf⟩ := fifo_of_reach hne hr
  refine ⟨hf.front, ?_, ?_⟩
  · rw [hf.writes, hf.reads]
  · intro c hw hroom
    obtain ⟨s, flags, hs, -, -⟩ := hc.devStdinWrite c
    refine ⟨_, hs, ?_, ?_⟩
    · rw [Stdin.write_of_room hf.toSound hw hroom]
    · rw [Stdin.write_of_room hf.toSound hw hroom]

/-- `initproc` waits for two characters. The first comes before it has called `schedule`, the second after it has read the first. -/
def readTwo : List Event :=
  [.yield, .proceed, .resume, .read 2, .key 97, .proceed, .resume, .proceed, .key 98, .resume, .yield, .proceed, .resume]

theorem keyboard_fifo_two :
    ∃ k, run (fun k e => e.isKey → k.stdin.pWpos < 2 ^ 31 - 1 ∧ k.stdin.pWpos - k.stdin.pRpos < stdinBufsize) readTwo bootSmall = some k ∧
      k.stdin.delivered = [97, 98] ∧ k.stdin.delivered <+: k.stdin.accepted := by
  have hk : run (fun k e => e.isKey → k.stdin.pWpos < 2 ^ 31 - 1 ∧ k.stdin.pWpos - k.stdin.pRpos < stdinBufsize) readTwo bootSmall =
    some _ := (Option.some_get (by decide +kernel)).symm
  exact ⟨_, hk, by decide +kernel, (keyboard_fifo 1 2 (fun _ => 0) (fun _ => 0) (by decide) _ (reach_of_run hk)).1⟩

/-- 4096 times `a` is typed, then `b`, and then a character is read: it is `b`. -/
theorem full_buffer_overwritten :
    ∃ k, Reach (fun _ _ => True) bootSmall k ∧ k.stdin.accepted = List.replicate 4096 97 ∧ k.stdin.delivered = [98] ∧
      ¬k.stdin.delivered <+: k.stdin.accepted := by
  obtain ⟨k, hk, hf, ha, hd⟩ := before_typed 4096 (Nat.le_refl _)
  have hwpos : k.stdin.pWpos = 4096 := by
    rw [hf.writes, ha, List.length_replicate]
    rfl
  have hrpos : k.stdin.pRpos = 0 := by
    rw [hf.reads, hd]
    rfl
  have hwrite := Stdin.write_of_full hf.toSound (by rw [hwpos, hrpos]; rfl) 98
  obtain ⟨k₁, hk₁, hd₁⟩ := hk.press (c := 98) (by decide)
  obtain ⟨k₂, hk₂, hd₂⟩ := hk₁.read (by
    rw [hd₁, hwrite]
    change k.stdin.pRpos < k.stdin.pWpos
    omega)
  have hacc : k₂.stdin.accepted = List.replicate 4096 97 := by
    rw [hd₂, hd₁, hwrite]
    exact ha
  have hdel : k₂.stdin.delivered = [98] := by
    rw [hd₂, hd₁, hwrite]
    rw [hd, hwpos, hrpos]
    rfl
  refine ⟨k₂, hk₂.reach, hacc, hdel, ?_⟩
  rw [hacc, hdel]
  intro hp
  have hmem : (98 : UInt8) ∈ List.replicate 4096 97 := hp.subset List.mem_cons_self
  exact absurd (List.eq_of_mem_replicate hmem) (by decide)

/-- In every run in which no key comes after `2 ^ 31 - 1` characters: a process that sleeps on the queue of the keyboard sleeps while
there is nothing to read; no process is on the queue twice; a process on the queue is in `dev_stdin_read`, and one that has
returned from it is on no queue. -/
theorem keyboard_wakeups (idle init : Nat) (v : Nat → Int) (buffer : Int → UInt8) (hne : idle ≠ init) (k : Kernel)
    (hr : Reach (fun k e => e.isKey → k.stdin.pWpos < 2 ^ 31 - 1) (boot idle init v buffer) k) :
    (∀ p ∈ k.stdin.waitQueue, (k.sched.procs p).state = .sleeping → k.stdin.pRpos = k.stdin.pWpos) ∧
    k.stdin.waitQueue.Nodup ∧ (∀ p ∈ k.stdin.waitQueue, ∃ n, k.point p = .reading n) ∧
    ∀ p, k.point p = .run → p ∉ k.stdin.waitQueue ∧ ∀ i, p ∉ (k.sems i).waitQueue := by
  obtain ⟨hc, -, hq⟩ := quiet_of_reach hne hr
  refine ⟨hq, hc.single.stdin, fun p hp => (hc.procs p).reads hp, ?_⟩
  intro p hp
  have hoff := (hc.procs p).off (by rw [hp]; rfl)
  exact ⟨hoff.stdin, hoff.sems⟩

/-- `initproc` waits for a character while `idleproc` runs. -/
theorem keyboard_wakeups_one :
    ∃ k, run (fun k e => e.isKey → k.stdin.pWpos < 2 ^ 31 - 1) [.yield, .proceed, .resume, .read 1, .proceed] bootSmall = some k ∧
      k.current = 1 ∧ 2 ∈ k.stdin.waitQueue ∧ (k.sched.procs 2).state = .sleeping ∧ k.stdin.pRpos = k.stdin.pWpos := by
  refine ⟨(run _ [.yield, .proceed, .resume, .read 1, .proceed] _).get (by decide +kernel), (Option.some_get _).symm,
    by decide +kernel, by decide +kernel, by decide +kernel, ?_⟩
  exact (keyboard_wakeups 1 2 (fun _ => 0) (fun _ => 0) (by decide) _ (reach_of_run (Option.some_get _).symm)).1 2
    (by decide +kernel) (by decide +kernel)

/-- After `2 ^ 31 - 1` characters that were typed and read, one more is typed. The process that wants to read it goes to sleep, and the
processor goes to another one. -/
theorem reader_misses_character :
    ∃ k, Reach (fun _ _ => True) bootSmall k ∧ k.inSchedule k.current = true ∧
      ∃ p ∈ k.stdin.waitQueue, (k.sched.procs p).state = .sleeping ∧ k.stdin.pRpos ≠ k.stdin.pWpos := by
  obtain ⟨k, hk, hr, hw⟩ := before_consumed (2 ^ 31 - 1) (by omega)
  obtain ⟨k₁, hk₁, hd₁⟩ := hk.press (c := 97) (by decide)
  obtain ⟨hrp, hwp⟩ := Stdin.write_wraps (d := k.stdin) (by omega) (by omega) 97
  have hr₁ : k₁.stdin.pRpos = 2 ^ 31 - 1 := by
    rw [hd₁]
    exact hrp
  have hw₁ : k₁.stdin.pWpos = -2 ^ 31 := by
    rw [hd₁]
    exact hwp
  have hloop : k₁.stdin.readLoop 1 = (1, k₁.stdin) := if_neg (by omega)
  have hread := hk₁.reach.step (.read 1) trivial hk₁.calls rfl
  have hk₂ : k₁.devStdinRead 1 = (({ k₁ with stdin := { k₁.stdin with
      waitQueue := k₁.stdin.waitQueue ++ [k₁.current] } } : Kernel).waitCurrentSet wtKbd).go (.reading 1) := by
    unfold devStdinRead
    rw [hloop]
    rfl
  rw [hk₂] at hread
  set k₂ := Kernel.go (.reading 1) _ with hdef
  have hc₂ : k₂.Control := control_of_reach (by decide) hread
  have hpt : k₂.point k₂.current = .reading 1 := update_self ..
  have hout : k₂.inSchedule k₂.current = false := hk₁.calls.out
  obtain ⟨s, hs, hc₃, hsame⟩ := hc₂.callSchedule (by rw [hpt]; trivial)
  have hstep : k₂.step .proceed = .ok { k₂ with sched := s, inSchedule := update k₂.inSchedule k₂.current true } := by
    change k₂.proceed = _
    unfold Kernel.proceed
    rw [hpt]
    exact hs
  refine ⟨_, hread.step .proceed trivial ⟨by rw [hpt]; nofun, hout⟩ hstep, ?_, k₁.current, ?_, ?_, ?_⟩
  · change update k₂.inSchedule k₂.current true s.current = true
    by_cases hcur : s.current = k₂.current
    · rw [hcur, update_self]
    · rw [update_of_ne hcur]
      exact hc₂.inside s.current hcur
  · exact List.mem_append_right _ (List.mem_singleton.mpr rfl)
  · rw [hsame.state]
    exact congrArg SchedProc.state (Sched.setProc_self ..)
  · change k₁.stdin.pRpos ≠ k₁.stdin.pWpos
    omega

end Kernel

end Ucore
