import Mathlib.Data.Int.Interval
import Ucore.Lib.Buckets
import Ucore.Proc

/-!
# Process numbers

`get_pid` remembers an interval: no process has a number above `last_pid` and below `next_safe`. A scan keeps this for the processes it
has passed (`Clear`), also where it moves its candidate on, and it moves the candidate only over numbers that are taken
(`scan_spec`). So a scan that comes to its end has found a free number, and one that starts again is closer to the next free number; with
fewer processes than numbers there is one, and the search ends (`repeatScan_total`).
-/

namespace Ucore

open Function

namespace Pids

variable {pid : Nat → Int} {l : List Nat} {lastPid nextSafe : Int}

/-- No process of the list has a number from `lastPid` to below `nextSafe`. -/
def Clear (pid : Nat → Int) (l : List Nat) (lastPid nextSafe : Int) : Prop := ∀ p ∈ l, ¬(lastPid ≤ pid p ∧ pid p < nextSafe)

/-- The number is taken. -/
def Taken (pid : Nat → Int) (l : List Nat) (x : Int) : Prop := ∃ p ∈ l, pid p = x

/-- How a scan ends. The numbers from `lastPid` to below the end `x` of its candidate are taken. -/
inductive ScanEnds (pid : Nat → Int) (all l : List Nat) (lastPid nextSafe : Int) : PidScan → Prop
  | done (x y : Int) : lastPid ≤ x → x < y → y ≤ nextSafe → Clear pid all x y → (∀ z, lastPid ≤ z → z < x → Taken pid l z) →
    ScanEnds pid all l lastPid nextSafe (.done x y)
  | restart (x : Int) : lastPid ≤ x → x < nextSafe → (∀ z, lastPid ≤ z → z ≤ x → Taken pid l z) →
    ScanEnds pid all l lastPid nextSafe (.restart (if maxPid ≤ x + 1 then 1 else x + 1))

/-- A scan of the processes of `l`, after it has passed those of `passed`. -/
theorem scan_spec (pid : Nat → Int) (l : List Nat) : ∀ (passed : List Nat) (lastPid nextSafe : Int), lastPid < nextSafe →
    Clear pid passed lastPid nextSafe → ScanEnds pid (passed ++ l) l lastPid nextSafe (scan pid l lastPid nextSafe) := by
  induction l with
  | nil =>
    intro passed lastPid nextSafe hlt hc
    rw [List.append_nil]
    exact .done lastPid nextSafe (Int.le_refl _) hlt (Int.le_refl _) hc fun z h1 h2 => by omega
  | cons p l ih =>
    intro passed lastPid nextSafe hlt hc
    have ha : passed ++ p :: l = (passed ++ [p]) ++ l := by
      rw [List.append_assoc, List.singleton_append]
    -- what the rest of the scan finds, where it is clear behind the process `p`
    have hr : ∀ last next : Int, last < next → lastPid ≤ last → next ≤ nextSafe → ¬(last ≤ pid p ∧ pid p < next) →
        (∀ z, lastPid ≤ z → z < last → z = pid p) →
        ScanEnds pid (passed ++ p :: l) (p :: l) lastPid nextSafe (scan pid l last next) := by
      intro last next hln hl hn hp hb
      have hclear' : Clear pid (passed ++ [p]) last next := by
        intro q hq
        rcases List.mem_append.mp hq with hq | hq
        · have := hc q hq
          omega
        · rw [List.mem_singleton.mp hq]
          exact hp
      have ht : ∀ x : Int, (∀ z, last ≤ z → z < x → Taken pid l z) → ∀ z, lastPid ≤ z → z < x → Taken pid (p :: l) z := by
        intro x hx z h1 h2
        by_cases hz : z < last
        · exact ⟨p, List.mem_cons_self, (hb z h1 hz).symm⟩
        · obtain ⟨q, hq, hqz⟩ := hx z (by omega) h2
          exact ⟨q, List.mem_cons_of_mem p hq, hqz⟩
      have he := ih (passed ++ [p]) last next hln hclear'
      rw [← ha] at he
      generalize scan pid l last next = r at he ⊢
      cases he with
      | done x y h1 h2 h3 h4 h5 => exact .done x y (by omega) h2 (by omega) h4 (ht x h5)
      | restart x h1 h2 h3 =>
        refine .restart x (by omega) (by omega) fun z hz1 hz2 => ?_
        exact ht (x + 1) (fun z h1 h2 => h3 z h1 (by omega)) z hz1 (by omega)
    unfold scan
    split
    · split
      · refine .restart lastPid (Int.le_refl _) hlt fun z h1 h2 => ?_
        exact ⟨p, List.mem_cons_self, by omega⟩
      · exact hr (lastPid + 1) nextSafe (by omega) (by omega) (Int.le_refl _) (by omega) fun z h1 h2 => by omega
    · split
      · rename_i hin
        exact hr lastPid (pid p) hin.1 (Int.le_refl _) (by omega) (by omega) fun z h1 h2 => by omega
      · exact hr lastPid nextSafe hlt (Int.le_refl _) (Int.le_refl _) (by omega) fun z h1 h2 => by omega

/-- What `get_pid` returns from the label `repeat` on: a number that no process has, and an interval behind it that is clear. -/
theorem repeatScan_spec (fuel : Nat) : ∀ lastPid : Int, 1 ≤ lastPid → lastPid < maxPid →
    ∀ r, repeatScan pid l fuel lastPid = some r → 1 ≤ r.1 ∧ r.1 < r.2 ∧ r.2 ≤ maxPid ∧ Clear pid l r.1 r.2 := by
  induction fuel with
  | zero =>
    intro lastPid _ _ r hr
    cases hr
  | succ fuel ih =>
    intro lastPid h1 h2 r hr
    have he := scan_spec pid l [] lastPid maxPid h2 (fun q hq => absurd hq List.not_mem_nil)
    unfold repeatScan at hr
    generalize scan pid l lastPid maxPid = o at he hr
    cases he with
    | done x y hx hxy hy hc _ =>
      cases hr
      exact ⟨by omega, hxy, hy, hc⟩
    | restart x hx hxm _ =>
      refine ih _ ?_ ?_ r hr
      · split
        · omega
        · omega
      · split
        · decide
        · omega

/-! ## The search ends -/

/-- There is a free number at or above the candidate. -/
theorem repeatScan_upward (n : Nat) : ∀ (lastPid f : Int), 1 ≤ lastPid → lastPid ≤ f → f < maxPid → ¬Taken pid l f →
    f - lastPid < n → (repeatScan pid l n lastPid).isSome := by
  induction n with
  | zero =>
    intro lastPid f h1 h2 h3 hf hn
    omega
  | succ n ih =>
    intro lastPid f h1 h2 h3 hf hn
    have he := scan_spec pid l [] lastPid maxPid (by omega) (fun q hq => absurd hq List.not_mem_nil)
    unfold repeatScan
    generalize scan pid l lastPid maxPid = o at he ⊢
    cases he with
    | done x y => rfl
    | restart x hx hxm ht =>
      -- the candidate has not passed the free number
      have hxf : x < f := by
        by_contra hle
        exact hf (ht f h2 (by omega))
      rw [if_neg (by omega)]
      exact ih (x + 1) f (by omega) (by omega) h3 hf (by omega)

/-- There is a free number below the candidate: the search wraps around at the latest when it has passed all numbers above. -/
theorem repeatScan_around (n : Nat) : ∀ (lastPid f : Int), 1 ≤ f → f < lastPid → lastPid < maxPid → ¬Taken pid l f →
    maxPid - lastPid ≤ n → (repeatScan pid l (n + maxPid.toNat + 1) lastPid).isSome := by
  induction n with
  | zero =>
    intro lastPid f h1 h2 h3 hf hn
    omega
  | succ n ih =>
    intro lastPid f h1 h2 h3 hf hn
    have he := scan_spec pid l [] lastPid maxPid h3 (fun q hq => absurd hq List.not_mem_nil)
    have hfu : n + 1 + maxPid.toNat + 1 = (n + maxPid.toNat + 1) + 1 := by omega
    rw [hfu]
    unfold repeatScan
    generalize scan pid l lastPid maxPid = o at he ⊢
    cases he with
    | done x y => rfl
    | restart x hx hxm ht =>
      by_cases hw : maxPid ≤ x + 1
      · rw [if_pos hw]
        exact repeatScan_upward (n + maxPid.toNat + 1) 1 f (Int.le_refl _) h1 (by omega) hf (by omega)
      · rw [if_neg hw]
        exact ih (x + 1) f h1 (by omega) (by omega) hf (by omega)

/-- Fewer processes than numbers: the search ends. -/
theorem repeatScan_total (pid : Nat → Int) {lastPid : Int} (h1 : 1 ≤ lastPid) (h2 : lastPid < maxPid) (hl : l.length < 8191) :
    ∃ fuel, (repeatScan pid l fuel lastPid).isSome := by
  obtain ⟨f, hf, hfr⟩ : ∃ f ∈ Finset.Ico (1 : Int) maxPid, f ∉ (l.map pid).toFinset := by
    apply Finset.exists_mem_notMem_of_card_lt_card
    calc (l.map pid).toFinset.card ≤ (l.map pid).length := List.toFinset_card_le _
      _ = l.length := List.length_map ..
      _ < 8191 := hl
      _ = (Finset.Ico (1 : Int) maxPid).card := by rw [Int.card_Ico]; rfl
  obtain ⟨hf1, hf2⟩ := Finset.mem_Ico.mp hf
  have hn : ¬Taken pid l f := by
    rintro ⟨p, hp, hpf⟩
    exact hfr (List.mem_toFinset.mpr (List.mem_map.mpr ⟨p, hp, hpf⟩))
  by_cases hle : lastPid ≤ f
  · exact ⟨_, repeatScan_upward ((f - lastPid).toNat + 1) lastPid f h1 hle hf2 hn (by omega)⟩
  · exact ⟨_, repeatScan_around (maxPid - lastPid).toNat lastPid f hf1 (by omega) h2 hn (by omega)⟩

/-! ## The tables -/

/-- The process numbers and the hash lists of the processes of `procList`. -/
structure Ok (s : Pids) (procList : List Nat) : Prop where
  nodup : procList.Nodup
  range : ∀ p ∈ procList, 1 ≤ s.pid p ∧ s.pid p < maxPid
  inj : ∀ p ∈ procList, ∀ q ∈ procList, s.pid p = s.pid q → p = q
  last : 1 ≤ s.lastPid
  safe : s.nextSafe ≤ maxPid
  clear : ∀ p ∈ procList, ¬(s.lastPid < s.pid p ∧ s.pid p < s.nextSafe)
  hash : Buckets.Holds (fun p => pidHashfn (s.pid p)) s.hashList procList

section

variable {s s' : Pids} {procList : List Nat} {fuel proc : Nat}

section

variable (h : s.Ok procList)
include h

/-- `get_pid` returns a number in range that no process has, and remembers an interval that is clear. -/
theorem getPid_spec (hp : s.getPid fuel procList = some s') :
    1 ≤ s'.lastPid ∧ s'.lastPid < maxPid ∧ s'.nextSafe ≤ maxPid ∧ Clear s.pid procList s'.lastPid s'.nextSafe ∧
      (∀ p ∈ procList, s.pid p ≠ s'.lastPid) ∧ s'.pid = s.pid ∧ s'.hashList = s.hashList := by
  have hl := h.last
  have hs : ∀ lastPid : Int, 1 ≤ lastPid → lastPid < maxPid →
      (repeatScan s.pid procList fuel lastPid).map (fun r => { s with lastPid := r.1, nextSafe := r.2 }) = some s' →
      1 ≤ s'.lastPid ∧ s'.lastPid < maxPid ∧ s'.nextSafe ≤ maxPid ∧ Clear s.pid procList s'.lastPid s'.nextSafe ∧
        (∀ p ∈ procList, s.pid p ≠ s'.lastPid) ∧ s'.pid = s.pid ∧ s'.hashList = s.hashList := by
    intro lastPid h1 h2 hm
    obtain ⟨r, hr, rfl⟩ := Option.map_eq_some_iff.mp hm
    obtain ⟨hr1, hr2, hr3, hc⟩ := repeatScan_spec fuel lastPid h1 h2 r hr
    refine ⟨hr1, by dsimp only; omega, hr3, hc, ?_, rfl, rfl⟩
    intro p hp heq
    dsimp only at heq
    exact hc p hp ⟨by omega, by omega⟩
  unfold getPid at hp
  dsimp only at hp
  split at hp
  · exact hs 1 (Int.le_refl _) (by decide) hp
  · split at hp
    · exact hs (s.lastPid + 1) (by omega) (by omega) hp
    · cases hp
      have hc : Clear s.pid procList (s.lastPid + 1) s.nextSafe := by
        intro p hp
        have := h.clear p hp
        omega
      refine ⟨by dsimp only; omega, by dsimp only; omega, h.safe, hc, ?_, rfl, rfl⟩
      intro p hp heq
      dsimp only at heq
      exact hc p hp ⟨by omega, by omega⟩

/-- With at most `MAX_PROCESS` processes `get_pid` returns. -/
theorem getPid_total (hl : procList.length ≤ maxProcess) : ∃ fuel, (s.getPid fuel procList).isSome := by
  have hla := h.last
  have hlen : procList.length < 8191 := by
    unfold maxProcess at hl
    omega
  unfold getPid
  dsimp only
  split
  · obtain ⟨fuel, hf⟩ := repeatScan_total s.pid (Int.le_refl 1) (by decide) hlen
    exact ⟨fuel, by rw [Option.isSome_map]; exact hf⟩
  · split
    · obtain ⟨fuel, hf⟩ := repeatScan_total s.pid (show 1 ≤ s.lastPid + 1 by omega) (by omega) hlen
      exact ⟨fuel, by rw [Option.isSome_map]; exact hf⟩
    · exact ⟨0, rfl⟩

/-- A new process gets the number that `get_pid` returned, and enters the tables. -/
theorem Ok.link (hp : s.getPid fuel procList = some s') (hn : proc ∉ procList) :
    Ok ({ s' with pid := update s'.pid proc s'.lastPid }.hashProc proc) (proc :: procList) := by
  obtain ⟨h1, hm, hsafe, hc, hf, hpid, hh⟩ := getPid_spec h hp
  have hs : update s'.pid proc s'.lastPid proc = s'.lastPid := update_self ..
  have hold : ∀ q ∈ procList, update s'.pid proc s'.lastPid q = s.pid q := by
    intro q hq
    rw [update_of_ne (ne_of_mem_of_not_mem hq hn), hpid]
  constructor
  case nodup => exact List.nodup_cons.mpr ⟨hn, h.nodup⟩
  case range =>
    intro q hq
    change 1 ≤ update s'.pid proc s'.lastPid q ∧ update s'.pid proc s'.lastPid q < maxPid
    rcases List.mem_cons.mp hq with rfl | hq
    · rw [hs]
      exact ⟨h1, hm⟩
    · rw [hold q hq]
      exact h.range q hq
  case inj =>
    intro q hq r hr
    change update s'.pid proc s'.lastPid q = update s'.pid proc s'.lastPid r → q = r
    rcases List.mem_cons.mp hq with rfl | hq'
    · rcases List.mem_cons.mp hr with rfl | hr'
      · exact fun _ => rfl
      · rw [hs, hold r hr']
        exact fun heq => absurd heq.symm (hf r hr')
    · rcases List.mem_cons.mp hr with rfl | hr'
      · rw [hs, hold q hq']
        exact fun heq => absurd heq (hf q hq')
      · rw [hold q hq', hold r hr']
        exact h.inj q hq' r hr'
  case last => exact h1
  case safe => exact hsafe
  case clear =>
    intro q hq
    change ¬(s'.lastPid < update s'.pid proc s'.lastPid q ∧ update s'.pid proc s'.lastPid q < s'.nextSafe)
    rcases List.mem_cons.mp hq with rfl | hq
    · omega
    · rw [hold q hq]
      have := hc q hq
      omega
  case hash =>
    have hcongr : Buckets.Holds (fun p => pidHashfn (update s'.pid proc s'.lastPid p)) s'.hashList procList := by
      rw [hh]
      refine h.hash.congr fun q hq => ?_
      rw [hold q hq]
    exact hcongr.insert hn

/-- A process leaves the tables. -/
theorem Ok.unlink (proc : Nat) : (s.unhashProc proc).Ok (procList.erase proc) where
  nodup := h.nodup.erase proc
  range q hq := h.range q (List.mem_of_mem_erase hq)
  inj q hq r hr := h.inj q (List.mem_of_mem_erase hq) r (List.mem_of_mem_erase hr)
  last := h.last
  safe := h.safe
  clear q hq := h.clear q (List.mem_of_mem_erase hq)
  hash := h.hash.erase h.nodup

/-- `find_proc` finds the process that has the number. -/
theorem Ok.findProc (pid : Int) : s.findProc pid = some proc ↔ proc ∈ procList ∧ s.pid proc = pid := by
  unfold Pids.findProc
  split
  · exact h.hash.find? h.inj pid
  · constructor
    · nofun
    · intro ⟨hp, heq⟩
      have := h.range proc hp
      omega

end

end

end Pids

end Ucore
