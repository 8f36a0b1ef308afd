import Ucore.Lemmas.Family
import Ucore.Lemmas.KernelEffect
import Ucore.Lemmas.Pid

/-!
# The tables of processes in a running kernel

`Kernel.Kinship` is the invariant on the process numbers and the links between processes. Forking, reaping and the section of `do_exit`
are the events that touch the tables; what makes them safe is where the processes are: a zombie that gave up the processor has
no children, a process is reaped by its parent, and `initproc` does not exit.
-/

namespace Ucore

open Checked Siblings Function

namespace Kernel

structure Kinship (k : Kernel) : Prop where
  pids : k.pids.Ok k.family.procList
  zero : k.pids.pid k.sched.idleproc = 0
  tree : k.family.Full k.sched.idleproc fun _ => False
  nr : k.family.nrProcess = k.family.procList.length + 1
  init : k.initproc ∈ k.family.procList
  undying : k.point k.initproc ≠ .exiting ∧ k.point k.initproc ≠ .exited
  childless : ∀ p, k.point p = .exited → k.family.cptr p = none
  alive : k.Live k.current
  reaping : ∀ p, k.point k.current = .reaping p → p ∈ k.family.procList ∧ k.family.parent p = k.current

section

variable {k k' k0 : Kernel} {p : Nat} {pt : Point} {e : Event} {l : List Nat}

/-- The tables are as before, and perhaps another process is the current one. -/
theorem Kinship.switch (h : k.Kinship) (hp : k'.pids = k.pids) (hf : k'.family = k.family)
    (hid : k'.sched.idleproc = k.sched.idleproc) (hin : k'.initproc = k.initproc)
    (hundying : k'.point k.initproc ≠ .exiting ∧ k'.point k.initproc ≠ .exited)
    (hchildless : ∀ p, k'.point p = .exited → k.point p = .exited) (halive : k'.Live k'.current)
    (hr : ∀ p, k'.point k'.current = .reaping p → p ∈ k.family.procList ∧ k.family.parent p = k'.current) : k'.Kinship where
  pids := by
    rw [hp, hf]
    exact h.pids
  zero := by
    rw [hp, hid]
    exact h.zero
  tree := by
    rw [hf, hid]
    exact h.tree
  nr := by
    rw [hf]
    exact h.nr
  init := by
    rw [hin, hf]
    exact h.init
  undying := by
    rw [hin]
    exact hundying
  childless := by
    rw [hf]
    exact fun p hp => h.childless p (hchildless p hp)
  alive := halive
  reaping := by
    rw [hf]
    exact hr

theorem live_congr (hf : k'.family = k.family) (hid : k'.sched.idleproc = k.sched.idleproc) (h : k.Live p) : k'.Live p := by
  unfold Live
  rw [hf, hid]
  exact h

/-- The points and the tables are as before. -/
theorem Kinship.same (h : k.Kinship) (hp : k'.pids = k.pids) (hf : k'.family = k.family) (hc : k'.current = k.current)
    (hid : k'.sched.idleproc = k.sched.idleproc) (hin : k'.initproc = k.initproc) (hpo : k'.point = k.point) : k'.Kinship := by
  refine h.switch hp hf hid hin (hpo ▸ h.undying) (fun _ hq => hpo ▸ hq) ?_ ?_
  · rw [hc]
    exact live_congr hf hid h.alive
  · rw [hc, hpo]
    exact h.reaping

/-- The current process goes on to a point that keeps the invariant. -/
structure Moves (k : Kernel) (pt : Point) : Prop where
  exiting : pt = .exiting → k.current ≠ k.initproc
  exited : pt ≠ .exited
  reaping : ∀ p, pt = .reaping p → p ∈ k.family.procList ∧ k.family.parent p = k.current

/-- A point of which the invariant says nothing. -/
def Plain : Point → Prop
  | .exiting | .exited | .reaping _ => False
  | _ => True

theorem Moves.plain (h : Plain pt) : k.Moves pt := by
  refine ⟨?_, ?_, ?_⟩
  · rintro rfl
    exact h.elim
  · rintro rfl
    exact h.elim
  · rintro p rfl
    exact h.elim

/-- The current process goes on, and the tables are as before. -/
theorem Kinship.moved (h : k.Kinship) (hp : k'.pids = k.pids) (hf : k'.family = k.family)
    (hcur : k'.current = k.current) (hid : k'.sched.idleproc = k.sched.idleproc) (hin : k'.initproc = k.initproc)
    (hpo : k'.point = update k.point k.current pt) (hm : k.Moves pt) : k'.Kinship := by
  refine h.switch hp hf hid hin ?_ ?_ ?_ ?_
  · rw [hpo]
    by_cases hc : k.initproc = k.current
    · rw [hc, update_self]
      exact ⟨fun he => hm.exiting he hc.symm, hm.exited⟩
    · rw [update_of_ne hc]
      exact h.undying
  · intro q hq
    rw [hpo] at hq
    by_cases hc : q = k.current
    · rw [hc, update_self] at hq
      exact absurd hq hm.exited
    · rwa [update_of_ne hc] at hq
  · rw [hcur]
    exact live_congr hf hid h.alive
  · intro q hq
    rw [hcur, hpo, update_self] at hq
    rw [hcur]
    exact hm.reaping q hq

/-! ## The loop of `do_wait` -/

/-- The loop ends within the length of the list, with a zombie of the list, or with none if there is none. -/
theorem firstZombie_spec : ∀ (fuel : Nat) (o : Option Nat), Seg k.family.optr o l none → l.length ≤ fuel →
    (∃ p ∈ l, k.firstZombie fuel o = .ok (some p)) ∨
      (k.firstZombie fuel o = .ok none ∧ ∀ q ∈ l, (k.sched.procs q).state ≠ .zombie) := by
  induction l with
  | nil =>
    intro fuel o hs _
    rw [show o = none from hs]
    exact Or.inr ⟨by cases fuel <;> rfl, nofun⟩
  | cons x l ih =>
    intro fuel o hs hf
    obtain ⟨fuel, rfl⟩ := Nat.exists_eq_add_one_of_ne_zero (Nat.ne_zero_of_lt hf)
    rw [hs.1, firstZombie]
    by_cases hz : (k.sched.procs x).state = .zombie
    · rw [if_pos hz]
      exact Or.inl ⟨x, List.mem_cons_self, rfl⟩
    · rw [if_neg hz]
      rcases ih fuel _ hs.2 (Nat.le_of_succ_le_succ hf) with ⟨p, hp, hr⟩ | ⟨hr, hn⟩
      · exact Or.inl ⟨p, List.mem_cons_of_mem x hp, hr⟩
      · exact Or.inr ⟨hr, List.forall_mem_cons.mpr ⟨hz, hn⟩⟩

/-! ## The loop of `do_exit` -/

/-- What every round of the loop keeps holds at its end, and there is no child left. -/
theorem adoptAll_invariant {I : Kernel → Prop} (hs : ∀ k k' c, I k → k.family.cptr k.current = some c → k.adopt c = .ok k' → I k') :
    ∀ (fuel : Nat) (k : Kernel), I k → adoptAll fuel k = .ok k' → I k' ∧ k'.family.cptr k'.current = none := by
  intro fuel
  induction fuel with
  | zero =>
    intro k h hk
    unfold Kernel.adoptAll at hk
    split at hk
    · rename_i hc
      cases hk
      exact ⟨h, hc⟩
    · cases hk
  | succ fuel ih =>
    intro k h hk
    unfold Kernel.adoptAll at hk
    split at hk
    · rename_i hc
      cases hk
      exact ⟨h, hc⟩
    · rename_i c hc
      obtain ⟨k1, hk1, hk⟩ := bind_eq_ok.mp hk
      exact ih k1 (hs k k1 c h hc hk1) hk

/-- What a round of the loop does. -/
theorem Control.adopt_spec {c : Nat} (h : k.Control) (hk : k.adopt c = .ok k') :
    ∃ s, k' = { k with family := k.family.adopt k.current k.initproc c, sched := s } ∧ k'.Control ∧ Sched.Roused k.sched s ∧
      ((k.sched.procs c).state = .zombie → (s.procs k.initproc).waitState ≠ wtChild) := by
  have h1 := h.setTables (k.family.adopt k.current k.initproc c) k.pids (fun q _ hq => hq)
  unfold Kernel.adopt at hk
  dsimp only at hk
  split at hk
  · obtain ⟨s, hs, h2, hr, hne⟩ := h1.wakeupParent k.initproc
    cases hs.symm.trans hk
    exact ⟨s, rfl, h2, hr, fun _ => hne⟩
  · rename_i hz
    cases hk
    exact ⟨k.sched, rfl, h1, .refl _, fun hz' => absurd hz' hz⟩

/-- The states of the loop that starts at `k₀`. -/
structure Exits (k₀ k : Kernel) : Prop where
  control : k.Control
  adopts : Adopts k₀ k
  tree : k.family.Full k₀.sched.idleproc (· = k₀.current)
  nr : k.family.nrProcess = k₀.family.nrProcess
  cptr : ∀ q, q ≠ k₀.current → q ≠ k₀.initproc → k.family.cptr q = k₀.family.cptr q

theorem Exits.current (h : Exits k0 k) : k.current = k0.current := h.adopts.roused.current

theorem Exits.initproc (h : Exits k0 k) : k.initproc = k0.initproc := by
  rw [h.adopts.eq]

theorem Exits.adopt {c : Nat} (hl : k0.Live k0.current) (hin : k0.initproc ∈ k0.family.procList)
    (hne : k0.initproc ≠ k0.current) (h : Exits k0 k) (hc : k.family.cptr k.current = some c) (hk : k.adopt c = .ok k') :
    Exits k0 k' := by
  obtain ⟨s, rfl, hco, hr, -⟩ := h.control.adopt_spec hk
  refine ⟨hco, h.adopts.trans ⟨rfl, hr, rfl⟩, ?_, h.nr, ?_⟩
  all_goals
    rw [h.current] at hc
    rw [h.current, h.initproc]
  · refine h.tree.adopt ?_ ?_ hne hc
    · rw [h.adopts.procList]
      exact hl
    · rw [h.adopts.procList]
      exact Or.inr hin
  · intro q h1 h2
    change update (update k.family.cptr k0.current (k.family.optr c)) k0.initproc (some c) q = _
    rw [update_of_ne h2, update_of_ne h1]
    exact h.cptr q h1 h2

section

variable (h : k.Kinship)
include h

/-- The loop as a whole. -/
theorem Kinship.exits {fuel : Nat} (hco : k.Control) (hne : k.initproc ≠ k.current)
    (hk : adoptAll fuel k = .ok k') : Exits k k' ∧ k'.family.cptr k.current = none := by
  have h0 : Exits k k := ⟨hco, .refl k, h.tree.tear k.current, rfl, fun _ _ _ => rfl⟩
  obtain ⟨hk', hn⟩ := adoptAll_invariant (fun k1 k2 c h1 hc hk2 => h1.adopt h.alive h.init hne hc hk2) fuel k h0 hk
  rw [hk'.current] at hn
  exact ⟨hk', hn⟩

theorem Kinship.children : ∃ l, k.family.Children (· ∈ k.family.procList) k.current l ∧ l.length ≤ k.family.nrProcess := by
  obtain ⟨l, hl, -⟩ := h.tree.children k.current h.alive
  refine ⟨l, hl, ?_⟩
  have hle := hl.length_le h.tree.sub
  have hnr := h.nr
  omega

/-- The loop of `do_wait` over the children of the current process. -/
theorem Kinship.firstZombie :
    (∃ p, k.firstZombie k.family.nrProcess (k.family.cptr k.current) = .ok (some p) ∧ p ∈ k.family.procList ∧
      k.family.parent p = k.current) ∨
    (k.firstZombie k.family.nrProcess (k.family.cptr k.current) = .ok none ∧
      ∀ q ∈ k.family.procList, k.family.parent q = k.current → (k.sched.procs q).state ≠ .zombie) := by
  obtain ⟨l, hl, hlen⟩ := h.children
  rcases firstZombie_spec _ _ hl.seg hlen with ⟨p, hp, hr⟩ | ⟨hr, hn⟩
  · exact Or.inl ⟨p, hr, (hl.mem p).mp hp⟩
  · exact Or.inr ⟨hr, fun q hq hpar => hn q ((hl.mem q).mpr ⟨hq, hpar⟩)⟩

theorem WaitEffect.kinship {pid : Int} (hw : WaitEffect k pid k') : k'.Kinship := by
  cases hw with
  | none | sleepNamed | sleepAny => exact h.moved rfl rfl rfl rfl rfl rfl (.plain trivial)
  | named p hp hfi hpar hz =>
    refine h.moved rfl rfl rfl rfl rfl rfl ⟨nofun, nofun, ?_⟩
    intro q hq
    cases hq
    exact ⟨((h.pids.findProc pid).mp hfi).1, hpar⟩
  | first p hp hf =>
    refine h.moved rfl rfl rfl rfl rfl rfl ⟨nofun, nofun, ?_⟩
    intro q hq
    cases hq
    rcases h.firstZombie with ⟨q, hq, hm⟩ | ⟨hq, -⟩
    · cases hq.symm.trans hf
      exact hm
    · cases hq.symm.trans hf

/-- A zombie other than the current process has no children. -/
theorem Kinship.childless_of_zombie (hc : k.Control) (hz : (k.sched.procs p).state = .zombie)
    (hp : p ≠ k.current) : k.family.cptr p = none := by
  have hpr := hc.procs p
  have hsc := hpr.schedules (hc.inside p hp)
  have hs := hpr.stands
  rw [hz] at hs
  refine h.childless p ?_
  cases hpt : k.point p <;> simp_all [Point.Stands, Point.Schedules]

theorem Kinship.reap (hc : k.Control) (hpt : k.point k.current = .reaping p) (hin : p ≠ k.initproc) :
    Kinship ({ k with pids := k.pids.unhashProc p, family := k.family.removeLinks p }.go .run) := by
  obtain ⟨hp, hpar⟩ := h.reaping p hpt
  have hz := hc.cur.reaping p hpt
  have hr := (hc.procs k.current).stands
  rw [hpt] at hr
  have hpc : p ≠ k.current := by
    intro hpc
    rw [hpc, hr.1] at hz
    cases hz
  have hn := h.childless_of_zombie hc hz hpc
  have hs : k.family.optr p ≠ some p := by
    obtain ⟨l, hl, -⟩ := h.tree.children (k.family.parent p) (h.tree.parent p hp)
    exact hl.seg.next_ne hl.nodup ((hl.mem p).mpr ⟨hp, rfl⟩)
  obtain ⟨-, -, hcp, -, -, -, hli, hnr⟩ := Family.removeLinks_links hs
  have hpos := List.length_pos_of_mem hp
  constructor
  case pids =>
    change (k.pids.unhashProc p).Ok (k.family.removeLinks p).procList
    rw [hli]
    exact h.pids.unlink p
  case zero => exact h.zero
  case tree => exact h.tree.remove hp hn
  case nr =>
    change (k.family.removeLinks p).nrProcess = (k.family.removeLinks p).procList.length + 1
    rw [hnr, hli, List.length_erase_of_mem hp, h.nr]
    omega
  case init =>
    change k.initproc ∈ (k.family.removeLinks p).procList
    rw [hli]
    exact (List.mem_erase_of_ne (Ne.symm hin)).mpr h.init
  case undying =>
    change update k.point k.current .run k.initproc ≠ _ ∧ update k.point k.current .run k.initproc ≠ _
    by_cases hi : k.initproc = k.current
    · rw [hi, update_self]
      exact ⟨nofun, nofun⟩
    · rw [update_of_ne hi]
      exact h.undying
  case childless =>
    intro q hq
    change update k.point k.current .run q = _ at hq
    change (k.family.removeLinks p).cptr q = none
    by_cases hqc : q = k.current
    · rw [hqc, update_self] at hq
      cases hq
    · rw [update_of_ne hqc] at hq
      rw [hcp]
      -- only the list of the parent changes
      split
      · exact h.childless q hq
      · rw [hpar, update_of_ne hqc]
        exact h.childless q hq
  case alive =>
    refine h.alive.imp_right fun hm => ?_
    change k.current ∈ (k.family.removeLinks p).procList
    rw [hli]
    exact (List.mem_erase_of_ne (Ne.symm hpc)).mpr hm
  case reaping =>
    intro q hq
    change update k.point k.current .run k.current = _ at hq
    rw [update_self] at hq
    cases hq

theorem Kinship.forkLink {fuel : Nat} {pids : Pids} (hn : ¬k.Live p)
    (hp : k.pids.getPid fuel k.family.procList = some pids) (hs : k.forkLink p fuel = .ok k') : k'.Kinship := by
  rw [Kernel.forkLink, hp] at hs
  cases hs
  have hl : p ∉ k.family.procList := fun hm => hn (Or.inr hm)
  have hid : p ≠ k.sched.idleproc := fun hi => hn (Or.inl hi)
  have hpc : p ≠ k.current := fun hpc => hn (hpc ▸ h.alive)
  have hpi : k.initproc ≠ p := fun hi => hl (hi ▸ h.init)
  constructor
  case pids => exact h.pids.link hp hl
  case zero =>
    change update pids.pid p pids.lastPid k.sched.idleproc = 0
    rw [update_of_ne (Ne.symm hid), (Pids.getPid_spec h.pids hp).2.2.2.2.2.1]
    exact h.zero
  case tree => exact h.tree.fork hl hid h.alive
  case nr =>
    change k.family.nrProcess + 1 = (p :: k.family.procList).length + 1
    rw [h.nr, List.length_cons]
  case init => exact List.mem_cons_of_mem p h.init
  case undying =>
    change update (update k.point p .yielding) k.current (.linked p) k.initproc ≠ _ ∧
      update (update k.point p .yielding) k.current (.linked p) k.initproc ≠ _
    by_cases hi : k.initproc = k.current
    · simp [hi]
    · rw [update_of_ne hi, update_of_ne hpi]
      exact h.undying
  case childless =>
    intro q hq
    change update (update k.point p .yielding) k.current (.linked p) q = _ at hq
    change update (update k.family.cptr p none) (update k.family.parent p k.current p) (some p) q = _
    rw [update_self]
    by_cases hqc : q = k.current
    · rw [hqc, update_self] at hq
      cases hq
    · rw [update_of_ne hqc] at hq ⊢
      by_cases hqp : q = p
      · rw [hqp, update_self]
      · rw [update_of_ne hqp] at hq ⊢
        exact h.childless q hq
  case alive => exact h.alive.imp_right fun hm => List.mem_cons_of_mem p hm
  case reaping =>
    intro q hq
    change update (update k.point p .yielding) k.current (.linked p) k.current = _ at hq
    rw [update_self] at hq
    cases hq

/-- The section of `do_exit`. -/
theorem Kinship.links {s : Sched} (hpt : k.point k.current = .exiting)
    (hr : Sched.Roused k.sched s) (hc : ({ k with sched := s } : Kernel).Control)
    (hk : adoptAll k.family.nrProcess { k with sched := s } = .ok k') : (k'.go .exited).Kinship := by
  have hcur : ({ k with sched := s } : Kernel).current = k.current := hr.current
  have h1 : ({ k with sched := s } : Kernel).Kinship := h.same rfl rfl hcur hr.idleproc rfl rfl
  have hne : k.initproc ≠ k.current := fun hi => h.undying.1 (hi ▸ hpt)
  obtain ⟨he, hn⟩ := h1.exits hc (by rw [hcur]; exact hne) hk
  have hc' : k'.current = k.current := he.current.trans hcur
  have hp : k'.point = k.point := by rw [he.adopts.eq]
  have hin : k'.initproc = k.initproc := he.initproc
  have hpi : k'.pids = k.pids := by rw [he.adopts.eq]
  have hid : k'.sched.idleproc = k.sched.idleproc := he.adopts.roused.idleproc.trans hr.idleproc
  have hl : k'.family.procList = k.family.procList := he.adopts.procList
  have hgo : ∀ q, (k'.go .exited).point q = update k.point k.current .exited q := by
    intro q
    change update k'.point k'.current .exited q = _
    rw [hc', hp]
  rw [hcur] at hn
  constructor
  case pids =>
    change k'.pids.Ok k'.family.procList
    rw [hpi, hl]
    exact h.pids
  case zero =>
    change k'.pids.pid k'.sched.idleproc = 0
    rw [hpi, hid]
    exact h.zero
  case tree =>
    have htree := he.tree
    rw [hcur] at htree
    change k'.family.Full k'.sched.idleproc fun _ => False
    rw [he.adopts.roused.idleproc]
    exact htree.mend hn
  case nr =>
    change k'.family.nrProcess = k'.family.procList.length + 1
    rw [he.nr, hl]
    exact h.nr
  case init =>
    change k'.initproc ∈ k'.family.procList
    rw [hin, hl]
    exact h.init
  case undying =>
    change (k'.go .exited).point k'.initproc ≠ _ ∧ (k'.go .exited).point k'.initproc ≠ _
    rw [hgo, hin, update_of_ne hne]
    exact h.undying
  case childless =>
    intro q hq
    rw [hgo] at hq
    change k'.family.cptr q = none
    by_cases hqc : q = k.current
    · rw [hqc]
      exact hn
    · rw [update_of_ne hqc] at hq
      have hqi : q ≠ k.initproc := fun hqi => h.undying.2 (hqi ▸ hq)
      rw [he.cptr q (by rw [hcur]; exact hqc) hqi]
      exact h.childless q hq
  case alive =>
    change k'.current = k'.sched.idleproc ∨ k'.current ∈ k'.family.procList
    rw [hc', hid, hl]
    exact h.alive
  case reaping =>
    intro q hq
    change (k'.go .exited).point k'.current = _ at hq
    rw [hgo, hc', update_self] at hq
    cases hq

/-- The point to which `dev_stdin_read` takes its caller. -/
theorem Kinship.devStdinRead (n : Nat) : (k.devStdinRead n).Kinship := by
  unfold Kernel.devStdinRead
  dsimp only
  split
  · exact h.moved rfl rfl rfl rfl rfl rfl (.plain trivial)
  · exact h.moved rfl rfl rfl rfl rfl rfl (.plain trivial)

theorem Kinship.left : k.left.Kinship := h.same rfl rfl rfl rfl rfl rfl

/-- Every event keeps the tables. -/
theorem step_kinship (hc : k.Control) (hc' : k'.Control) (hs : Effect k e k') : k'.Kinship := by
  cases hs with
  | clock s hsa hcur => exact h.same rfl rfl hcur hsa.idleproc rfl rfl
  | expire _ s hr | key _ s _ hr => exact h.same rfl rfl hr.current hr.idleproc rfl rfl
  | wake p s hpt hr =>
    have h1 : ({ k with sched := s } : Kernel).Kinship := h.same rfl rfl hr.current hr.idleproc rfl rfl
    exact h1.moved rfl rfl rfl rfl rfl rfl (.plain trivial)
  | mark | downed | slept | yielded | yield | killWake | sleep => exact h.moved rfl rfl rfl rfl rfl rfl (.plain trivial)
  | reap p hpt hid hit => exact h.reap hc hpt hit
  | links s k' hpt hw hr hne hcs hrun ha => exact h.links hpt hr hcs hrun
  | schedule s hpt hsa hok =>
    -- the process that was picked is inside of `schedule`, and runnable
    have hin : update k.inSchedule k.current true s.current = true := by
      by_cases hsc : s.current = k.current
      · rw [hsc, update_self]
      · rw [update_of_ne hsc]
        exact hc.inside _ hsc
    refine h.switch rfl rfl hsa.idleproc rfl h.undying (fun _ => id) ((hc'.procs _).live (Or.inr (hc'.cur.picked hin))) ?_
    intro p hp
    have hsd := (hc'.procs s.current).schedules hin
    have hp : k.point s.current = .reaping p := hp
    change (k.point s.current).Schedules at hsd
    rw [hp] at hsd
    exact hsd.elim
  | waitExit pid hpt hex hit =>
    exact h.left.moved rfl rfl rfl rfl rfl rfl ⟨fun _ => hit, nofun, nofun⟩
  | waitAgain pid k' hpt hw => exact hw.kinship h.left
  | reads n hpt =>
    unfold Kernel.readResume
    dsimp only
    split
    · refine Kinship.devStdinRead ?_ n
      exact h.same rfl rfl rfl rfl rfl rfl
    · exact h.moved rfl rfl rfl rfl rfl rfl (.plain trivial)
  | forkNone | killNone => exact h
  | fork | forkFail | killFlag | raise | tryDown => exact h.same rfl rfl rfl rfl rfl rfl
  | forkLink p fuel pids k' h0 hn hpid hs => exact h.forkLink hn hpid hs
  | exit hit => exact h.moved rfl rfl rfl rfl rfl rfl ⟨fun _ => hit, nofun, nofun⟩
  | wait pid k' hw => exact hw.kinship h
  | down i =>
    unfold Kernel.down
    dsimp only
    split
    · exact h.same rfl rfl rfl rfl rfl rfl
    · exact h.moved rfl rfl rfl rfl rfl rfl (.plain trivial)
  | grant i p rest k1 s hq hk1 hr =>
    subst hk1
    exact h.same rfl rfl hr.current hr.idleproc rfl rfl
  | read n => exact h.devStdinRead n

/-! ## The loops end -/

end

end

end Kernel

end Ucore
