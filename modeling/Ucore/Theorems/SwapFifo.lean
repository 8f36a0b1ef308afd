import Ucore.SwapOut
import Ucore.Lemmas.PmmFree

/-!
# Replacement in order of arrival

What the replacement is for is a queue of pages for each `mm_struct` (`Arrivals`). The code has one list for all of them, and empties it
for every new `mm_struct`. A call does what it should exactly where the difference does not show (`fifo_per_mm`): no page is queued when
an `mm_struct` is created, and the oldest page of all is one of the `mm_struct` that must give up a page.

`alloc_pages` calls the swapper when there is no page left, with an address space that is `NULL` outside of the self tests
(`out_of_memory_reported_iff`).
-/

namespace Ucore

open Checked ListHead Function

/-- The pages of each `mm_struct` that were mapped swappable and not yet chosen, the oldest first. -/
abbrev Arrivals := Nat → List Nat

/-- What a call should do: the page to choose, and the queues after it. -/
def Arrivals.step (q : Arrivals) : SwapOp → Option Nat × Arrivals
  | .create none => (none, q)
  | .create (some mm) => (none, update q mm [])
  | .map mm page => (none, update q mm (q mm ++ [page]))
  | .victim mm _ => ((q mm).head?, update q mm (q mm).tail)

/-- The list at `pra_list_head` has the pages of all queues, each queue in its order. -/
structure Swap.Represents (s : Swap) (q : Arrivals) : Prop where
  absent : ∀ mm, s.smPriv mm = none → q mm = []
  linked : ∀ mm, s.smPriv mm ≠ none → ∃ all : List (Nat × Nat),
    Chain s.links .praListHead (all.map fun a => PraEntry.page a.2).reverse ∧ ∀ m, q m = (all.filter (·.1 = m)).map Prod.snd

namespace SwapOp

/-- The memory for an `mm_struct` is not in use, and the other calls get an `mm_struct` that there is. -/
def Given (s : Swap) : SwapOp → Prop
  | .create kmalloc => ∀ mm, kmalloc = some mm → s.smPriv mm = none
  | .map mm _ => s.smPriv mm ≠ none
  | .victim mm _ => s.smPriv mm ≠ none

/-- No page is queued when an `mm_struct` is created, none is queued a second time, and the oldest one of all belongs to the `mm_struct`
that must give up a page. -/
def Orderly (s : Swap) (q : Arrivals) : SwapOp → Prop
  | .create kmalloc => kmalloc ≠ none → ∀ m, q m = []
  | .map _ page => ∀ m, page ∉ q m
  | .victim mm _ => ∃ p, s.links.prev .praListHead = .page p ∧ p ∈ q mm

end SwapOp

/-- The states that orderly calls lead to once swapping is initialised, with the queues as they should be. -/
inductive FifoReach : Swap → Arrivals → Prop
  | start (links : Links PraEntry) : FifoReach ⟨links, true, fun _ => none⟩ fun _ => []
  | step {s s' : Swap} {q : Arrivals} {r : Option Nat} (op : SwapOp) : FifoReach s q → op.Given s → op.Orderly s q →
      s.step op = .ok (r, s') → FifoReach s' (q.step op).2

namespace SwapAux

/-- Swapping is initialised, and every `mm_struct` has the list. -/
structure Pointed (s : Swap) : Prop where
  swapInitOk : s.swapInitOk = true
  smPriv : ∀ mm, s.smPriv mm ≠ none → s.smPriv mm = some (some .praListHead)

variable {s s' : Swap} {q : Arrivals} {all : List (Nat × Nat)} {mm p : Nat} {r : Option Nat} {inTick : Int}

theorem head_of (h : Pointed s) (hmm : s.smPriv mm ≠ none) : s.head mm = .ok .praListHead := by
  unfold Swap.head
  rw [h.smPriv mm hmm]

/-! ## The list of all queues -/

theorem chain_pages_nodup (h : Chain s.links .praListHead (all.map fun a => PraEntry.page a.2).reverse) :
    (all.map Prod.snd).Nodup := by
  have hnd := List.nodup_reverse.mp (List.nodup_cons.mp h.nodup).2
  have hm : (all.map fun a => PraEntry.page a.2) = (all.map Prod.snd).map PraEntry.page := by
    rw [List.map_map]
    rfl
  rw [hm] at hnd
  exact hnd.of_map

theorem mem_queue : p ∈ (all.filter (·.1 = mm)).map Prod.snd ↔ (mm, p) ∈ all := by
  simp only [List.mem_map, List.mem_filter, decide_eq_true_eq, Prod.exists, exists_eq_right]

/-- A page is in the queue of one `mm_struct` only. -/
theorem owner_unique {m : Nat} (hnd : (all.map Prod.snd).Nodup) (h : (mm, p) ∈ all) (h' : (m, p) ∈ all) : mm = m :=
  congrArg Prod.fst (List.inj_on_of_nodup_map hnd h h' rfl)

/-! ## Calls -/

theorem create_iff (hq : s.Represents q) (hf : s.smPriv mm = none) :
    (s.fifoInitMm mm).Represents (update q mm []) ↔ ∀ m, q m = [] := by
  have hmm : (s.fifoInitMm mm).smPriv mm = some (some .praListHead) := update_self ..
  constructor
  · intro hr m
    obtain ⟨all, hc, ha⟩ := hr.linked mm (by rw [hmm]; nofun)
    -- the list has just been emptied
    have hnil : all = [] := by
      have hn : (s.links.init .praListHead).next .praListHead = .praListHead := (chain_init s.links .praListHead).next
      have := hc.eq_nil hn
      rwa [List.reverse_eq_nil_iff, List.map_eq_nil_iff] at this
    by_cases hm : m = mm
    · rw [hm]
      exact hq.absent mm hf
    · have := ha m
      rwa [update_of_ne hm, hnil] at this
  · intro he
    have hupdate : update q mm [] = fun _ => [] := by
      funext m
      rw [update_apply, he m, ite_self]
    rw [hupdate]
    exact ⟨fun _ _ => rfl, fun _ _ => ⟨[], chain_init s.links .praListHead, fun _ => rfl⟩⟩

theorem map_iff (hq : s.Represents q) (hmm : s.smPriv mm ≠ none) :
    ({ s with links := s.links.addAfter .praListHead (.page p) } : Swap).Represents (update q mm (q mm ++ [p])) ↔
      ∀ m, p ∉ q m := by
  obtain ⟨all, hch, ha⟩ := hq.linked mm hmm
  constructor
  · intro hr m hm
    obtain ⟨all', hchain', hall'⟩ := hr.linked mm hmm
    have hnd := chain_pages_nodup hchain'
    have hs := hall' mm
    rw [update_self] at hs
    by_cases he : m = mm
    · -- the page would be twice in one queue
      subst he
      have hsub : ((all'.filter (·.1 = m)).map Prod.snd).Nodup := hnd.sublist (List.filter_sublist.map Prod.snd)
      rw [← hs] at hsub
      exact (List.nodup_append.mp hsub).2.2 p hm p List.mem_cons_self rfl
    · have ho := hall' m
      rw [update_of_ne he] at ho
      rw [ho, mem_queue] at hm
      have hn : p ∈ q mm ++ [p] := List.mem_append_cons_self
      rw [hs, mem_queue] at hn
      exact he (owner_unique hnd hm hn)
  · intro hn
    refine ⟨fun m hm => ?_, fun _ _ => ⟨all ++ [(mm, p)], ?_, fun m => ?_⟩⟩
    · have hne : m ≠ mm := fun hc => hmm (hc ▸ hm)
      rw [update_of_ne hne]
      exact hq.absent m hm
    · rw [List.map_append, List.reverse_append]
      refine hch.addAfter ?_
      simp only [List.mem_cons, List.mem_reverse, List.mem_map, reduceCtorEq, PraEntry.page.injEq, false_or]
      rintro ⟨⟨m, p'⟩, hmem, rfl⟩
      refine hn m ?_
      rw [ha m, mem_queue]
      exact hmem
    · rw [List.filter_append, List.map_append, ← ha m]
      by_cases hm : m = mm
      · simp [hm]
      · simp [hm, Ne.symm hm]

/-- The entry before the head is the oldest page of all. -/
theorem oldest (hc : Chain s.links .praListHead (all.map fun a => PraEntry.page a.2).reverse)
    (hp : s.links.prev .praListHead = .page p) : ∃ m rest, all = (m, p) :: rest := by
  cases all with
  | nil =>
    have hs : s.links.prev .praListHead = .praListHead := hc.prev
    nomatch hs.symm.trans hp
  | cons a rest =>
    rw [List.map_cons, List.reverse_cons] at hc
    obtain rfl : a.2 = p := PraEntry.page.inj (hc.prev_head.symm.trans hp)
    exact ⟨a.1, rest, rfl⟩

theorem victim_iff (hq : s.Represents q) (hmm : s.smPriv mm ≠ none) (hp : s.links.prev .praListHead = .page p) :
    (some p = (q mm).head? ∧ ({ s with links := s.links.del (.page p) } : Swap).Represents (update q mm (q mm).tail)) ↔
      p ∈ q mm := by
  obtain ⟨all, hch, ha⟩ := hq.linked mm hmm
  constructor
  · intro h
    exact List.mem_of_head? h.1.symm
  · intro hmem
    obtain ⟨m0, rest, rfl⟩ := oldest hch hp
    have hnd := chain_pages_nodup hch
    rw [ha mm, mem_queue] at hmem
    obtain rfl : mm = m0 := owner_unique hnd hmem List.mem_cons_self
    have ho : q mm = p :: (rest.filter (·.1 = mm)).map Prod.snd := by
      rw [ha mm, List.filter_cons_of_pos (by simp), List.map_cons]
    refine ⟨by rw [ho]; rfl, fun m hm => ?_, fun _ _ => ⟨rest, ?_, fun m => ?_⟩⟩
    · have hne : m ≠ mm := fun hc => hmm (hc ▸ hm)
      rw [update_of_ne hne]
      exact hq.absent m hm
    · rw [List.map_cons, List.reverse_cons] at hch
      exact hch.delLast
    · by_cases hm : m = mm
      · rw [hm, update_self, ho, List.tail_cons]
      · rw [update_of_ne hm, ha m, List.filter_cons_of_neg (by simpa using Ne.symm hm)]

/-- What a call for a victim returns. -/
theorem victim_eq (h : Pointed s) (hmm : s.smPriv mm ≠ none) (hrun : s.step (.victim mm inTick) = .ok (r, s')) :
    ∃ p, s.links.prev .praListHead = .page p ∧ r = some p ∧ s' = { s with links := s.links.del (.page p) } := by
  obtain ⟨⟨p, s1⟩, hv, hr⟩ := bind_eq_ok.mp hrun
  cases hr
  unfold Swap.fifoSwapOutVictim at hv
  rw [head_of h hmm] at hv
  obtain ⟨-, hv⟩ := ensure_bind_eq_ok.mp hv
  obtain ⟨-, hv⟩ := ensure_bind_eq_ok.mp hv
  split at hv
  · rename_i p' hp
    obtain ⟨rfl, rfl⟩ := Prod.mk.inj (Except.ok.inj hv)
    exact ⟨p', hp, rfl, by rw [hp]⟩
  · nomatch hv

theorem map_eq (h : Pointed s) (hmm : s.smPriv mm ≠ none) (hrun : s.step (.map mm p) = .ok (r, s')) :
    r = none ∧ s' = { s with links := s.links.addAfter .praListHead (.page p) } := by
  obtain ⟨s1, hm, hr⟩ := bind_eq_ok.mp hrun
  cases hr
  unfold Swap.fifoMapSwappable at hm
  rw [head_of h hmm] at hm
  exact ⟨rfl, (Except.ok.inj hm).symm⟩

/-- A call does what it should exactly where it is orderly. -/
theorem step_iff (h : Pointed s) (hq : s.Represents q) {op : SwapOp} (hg : op.Given s) (hr : s.step op = .ok (r, s')) :
    (r = (q.step op).1 ∧ s'.Represents (q.step op).2) ↔ op.Orderly s q := by
  cases op with
  | create kmalloc =>
    cases hr
    cases kmalloc with
    | none => exact iff_of_true ⟨rfl, hq⟩ fun hc => absurd rfl hc
    | some mm =>
      have hmm : (s.mmCreate (some mm)).2 = s.fifoInitMm mm := by
        unfold Swap.mmCreate
        dsimp only
        rw [if_pos h.swapInitOk]
      rw [hmm]
      exact ⟨fun hc _ => (create_iff hq (hg mm rfl)).mp hc.2, fun hc => ⟨rfl, (create_iff hq (hg mm rfl)).mpr (hc nofun)⟩⟩
  | map mm p =>
    obtain ⟨rfl, rfl⟩ := map_eq h hg hr
    exact ⟨fun hc => (map_iff hq hg).mp hc.2, fun hc => ⟨rfl, (map_iff hq hg).mpr hc⟩⟩
  | victim mm inTick =>
    obtain ⟨p, hp, rfl, rfl⟩ := victim_eq h hg hr
    refine (victim_iff hq hg hp).trans ⟨fun hc => ⟨p, hp, hc⟩, ?_⟩
    rintro ⟨p', hp', hc⟩
    obtain rfl := PraEntry.page.inj (hp.symm.trans hp')
    exact hc

/-- No call takes the list away from an `mm_struct`. -/
theorem step_pointed (h : Pointed s) {op : SwapOp} (hg : op.Given s) (hr : s.step op = .ok (r, s')) : Pointed s' := by
  cases op with
  | create kmalloc =>
    cases hr
    cases kmalloc with
    | none => exact h
    | some mm =>
      unfold Swap.mmCreate
      dsimp only
      rw [if_pos h.swapInitOk]
      refine ⟨h.swapInitOk, fun m hm => ?_⟩
      unfold Swap.fifoInitMm at hm ⊢
      dsimp only at hm ⊢
      rw [update_apply] at hm ⊢
      split at hm
      · rename_i he
        rw [if_pos he]
      · rename_i he
        rw [if_neg he]
        exact h.smPriv m hm
  | map mm p =>
    obtain ⟨-, rfl⟩ := map_eq h hg hr
    exact ⟨h.swapInitOk, h.smPriv⟩
  | victim mm inTick =>
    obtain ⟨p, -, -, rfl⟩ := victim_eq h hg hr
    exact ⟨h.swapInitOk, h.smPriv⟩

theorem FifoReach.represents (hr : FifoReach s q) : Pointed s ∧ s.Represents q := by
  induction hr with
  | start links => exact ⟨⟨rfl, fun _ hc => absurd rfl hc⟩, fun _ _ => rfl, fun _ hc => absurd rfl hc⟩
  | step op _ hg ho hrun ih =>
    exact ⟨step_pointed ih.1 hg hrun, ((step_iff ih.1 ih.2 hg hrun).mpr ho).2⟩

/-- A victim is found where the oldest page is one of the `mm_struct`. -/
theorem victim_returns (h : Pointed s) (hmm : s.smPriv mm ≠ none) (ho : (SwapOp.victim mm 0).Orderly s q) :
    ∃ r, s.step (.victim mm 0) = .ok r := by
  obtain ⟨p, hp, -⟩ := ho
  unfold Swap.step Swap.fifoSwapOutVictim
  dsimp only
  rw [head_of h hmm, ensure_of rfl, bind_ok, hp, ensure_of nofun]
  exact ⟨_, rfl⟩

end SwapAux

/-- In every state that orderly calls lead to, the list has the pages of all queues; a call that returns chooses the page that it should
and leaves the queues as they should be exactly where it is orderly too; and an orderly call for a victim returns. -/
theorem fifo_per_mm {s : Swap} {q : Arrivals} (hr : FifoReach s q) : s.Represents q ∧
    (∀ op r s', op.Given s → s.step op = .ok (r, s') → ((r = (q.step op).1 ∧ s'.Represents (q.step op).2) ↔ op.Orderly s q)) ∧
    ∀ mm, s.smPriv mm ≠ none → (SwapOp.victim mm 0).Orderly s q → ∃ r, s.step (.victim mm 0) = .ok r := by
  obtain ⟨h, hq⟩ := SwapAux.FifoReach.represents hr
  exact ⟨hq, fun _ _ _ hgiven hrun => SwapAux.step_iff h hq hgiven hrun, fun _ hmm ho => SwapAux.victim_returns h hmm ho⟩

/-! ## Two address spaces -/

/-- Swapping is initialised, and there is no `mm_struct`. -/
def noMm : Swap := ⟨⟨fun e => e, fun e => e⟩, true, fun _ => none⟩

/-- Calls one after the other. -/
def Swap.steps (s : Swap) : List SwapOp → Except SwapAssert (Option Nat × Swap)
  | [] => .ok (none, s)
  | [op] => s.step op
  | op :: ops => do
    let (_, s) ← s.step op
    s.steps ops

/-- Page 7 is queued for the only `mm_struct`. -/
theorem fifo_per_mm_one : ∃ s q, FifoReach s q ∧ q 1 = [7] ∧ s.Represents q ∧ ∃ r, s.step (.victim 1 0) = .ok r := by
  have hr : FifoReach (noMm.fifoInitMm 1) (Arrivals.step (fun _ => []) (.create (some 1))).2 :=
    .step (.create (some 1)) (.start _) (fun _ _ => rfl) (fun _ _ => rfl) rfl
  have hempty : ∀ m, (Arrivals.step (fun _ => []) (.create (some 1))).2 m = [] :=
    fun m => congrFun (update_eq_self (f := fun _ => ([] : List Nat)) 1) m
  have hgiven : (SwapOp.map 1 7).Given (noMm.fifoInitMm 1) := nofun
  have hr := FifoReach.step (.map 1 7) hr hgiven (fun m => by rw [hempty m]; exact List.not_mem_nil) rfl
  refine ⟨_, _, hr, rfl, (fifo_per_mm hr).1, (fifo_per_mm hr).2.2 1 nofun ⟨7, rfl, ?_⟩⟩
  exact List.mem_cons_self

/-- Page 7 is queued for the first `mm_struct` and page 8 for the second: the second gives up page 7. And where page 7 is queued for the
first one when the second is created, there is no victim for the first. -/
theorem victim_of_another_mm :
    okWith (fun r => decide (r.1 = some 7)) (noMm.steps [.create (some 1), .create (some 2), .map 1 7, .map 2 8, .victim 2 0]) = true ∧
    noMm.steps [.create (some 1), .map 1 7, .create (some 2), .victim 1 0] = .error .empty := by
  exact ⟨by decide, by rfl⟩

/-! ## Out of memory -/

/-- `alloc_pages` reports what it is to report: it returns, and it returns `NULL` exactly if the allocator cannot serve the
request. -/
def AllocReported (write : Nat → Bool) (n rounds : Nat) (s : Paging) : Prop :=
  ∃ page s', allocPages write n rounds s = .ok (page, s') ∧
    (page = none ↔ ∃ area, defaultAllocPages n s.mem.area = .ok (none, area))

/-- With swapping initialised and no `check_mm_struct`, `alloc_pages` reports that there is no memory exactly for requests of more
than one page: for one page that the allocator does not have, the swapper uses the null pointer. -/
theorem out_of_memory_reported_iff (write : Nat → Bool) {pg0 : Nat → Page} {I A : Set Nat} {n : Nat} {s : Paging} (rounds : Nat)
    (h : s.mem.area.Inv pg0 I A) (hn : 0 < n) (hok : s.mem.swapInitOk = true) (hnull : s.checkMmStruct = none) :
    AllocReported write n (rounds + 1) s ↔ 1 < n ∨ ∃ p area, defaultAllocPages n s.mem.area = .ok (some p, area) := by
  unfold AllocReported
  rw [allocPages]
  rcases defaultAllocPages_spec h hn with hr | ⟨p, area, hr, -⟩
  · by_cases hmany : 1 < n
    · simp [hr, hmany]
    · obtain rfl : n = 1 := by omega
      simp [hr, hok, hnull, swapOut]
  · simp [hr]

/-- A machine whose allocator has no page. -/
def emptyPaging : Paging where
  mem := ⟨defaultInit fun _ => ⟨0, ⟨false, false⟩, 0⟩, fun _ _ => 0, [], 0, 8, true⟩
  swap := ⟨⟨fun e => e, fun e => e⟩, true, fun _ => none⟩
  praVaddr := fun _ => 0
  pgdir := fun _ => 0
  checkMmStruct := none

/-- Two pages are asked for, and `NULL` is returned. -/
theorem out_of_memory_reported_iff_two : AllocReported (fun _ => true) 2 1 emptyPaging :=
  (out_of_memory_reported_iff _ 0 (inv_defaultInit _) (by decide) rfl rfl).mpr (Or.inl (by decide))

/-- One page is asked for, and the swapper reads `sm_priv` of the null pointer. -/
theorem null_mm_used : emptyPaging.mem.area.Inv (fun _ => ⟨0, ⟨false, false⟩, 0⟩) ∅ ∅ ∧ emptyPaging.mem.swapInitOk = true ∧
    emptyPaging.checkMmStruct = none ∧ allocPages (fun _ => true) 1 1 emptyPaging = .error .nullMm :=
  ⟨inv_defaultInit _, rfl, rfl, rfl⟩

end Ucore
