import Ucore.Kmonitor
import Mathlib.Data.List.Range

/-!
# The arguments of a monitor command

`parse` splits a line from `readline` into its words. It stores into `argv` only exactly when the line has at most `MAXARGS` words
(`parse_in_bounds`): it notices the last place of `argv` and goes on, so a line of one word more is stored past the end
(`parse_past_argv`).
-/

namespace Ucore

open Checked Function

/-- The characters from `i` up to `j` are a maximal run without whitespace in a line of `len` characters. -/
structure Word (line : Nat → UInt8) (len i j : Nat) : Prop where
  inside : i < j ∧ j ≤ len
  chars : ∀ k, i ≤ k → k < j → line k ∉ whitespace
  first : i = 0 ∨ line (i - 1) ∈ whitespace
  last : j = len ∨ line j ∈ whitespace

/-- Where the words among the first `len` characters start, in order. -/
def wordStarts (line : Nat → UInt8) (len : Nat) : List Nat :=
  (List.range len).filter fun i => line i ∉ whitespace ∧ (i = 0 ∨ line (i - 1) ∈ whitespace)

namespace KmonitorAux

variable {line buf : Nat → UInt8} {len p : Nat}

/-- The line with the whitespace among the first `p` characters overwritten. -/
def blank (line : Nat → UInt8) (p i : Nat) : UInt8 := if i < p ∧ line i ∈ whitespace then 0 else line i

theorem blank_succ : blank line (p + 1) = if line p ∈ whitespace then update (blank line p) p 0 else blank line p := by
  grind [blank, update_apply]

theorem wordStarts_succ : wordStarts line (p + 1) =
    wordStarts line p ++ if line p ∉ whitespace ∧ (p = 0 ∨ line (p - 1) ∈ whitespace) then [p] else [] := by
  simp [wordStarts, List.range_succ, List.filter_cons]

theorem wordStarts_le (h : p ≤ len) : (wordStarts line p).length ≤ (wordStarts line len).length :=
  ((List.range_sublist.mpr h).filter _).length_le

/-- The loops from position `p` on, where everything before it is done. -/
theorem parseLoop_spec (hl : ∀ i < len, line i ≠ 0) (he : line len = 0) (n : Nat) (hp : p ≤ len) (hn : len < p + n)
    (hro : (wordStarts line p).length ≤ maxargs) :
    parseLoop n (decide (¬(p = 0 ∨ line (p - 1) ∈ whitespace))) (blank line p) (wordStarts line p) p =
      if (wordStarts line len).length ≤ maxargs then .ok (wordStarts line len, blank line len) else .error .argv := by
  induction n generalizing p with
  | zero => omega
  | succ n ih =>
    have hc : blank line p p = line p := by simp [blank]
    rw [parseLoop, hc]
    rcases Nat.eq_or_lt_of_le hp with rfl | hlt
    · rw [if_pos he, if_pos hro]
    · rw [if_neg (hl p hlt)]
      have hm : (wordStarts line (p + 1)).length ≤ (wordStarts line len).length := wordStarts_le hlt
      have hne := fun hr => ih (p := p + 1) hlt (by omega) hr
      rw [wordStarts_succ] at hm hne
      rw [blank_succ] at hne
      by_cases hs : line p ∈ whitespace
      · simpa [hs, hro] using hne
      · by_cases hf : p = 0 ∨ line (p - 1) ∈ whitespace
        · by_cases hfu : (wordStarts line p).length < maxargs
          · simpa [hs, hf, hfu, Nat.succ_le_of_lt hfu] using hne
          · have hma : ¬(wordStarts line len).length ≤ maxargs := by grind
            simp [hs, hf, hma, ensure_of_not hfu]
        · simpa [hs, hf, hro] using hne

/-- A line from `readline` ends within the buffer, at its first NUL. -/
theorem readline_spec {input : List (Option UInt8)} {i : Nat} (h : readline input i buf = some (len, line)) (hi : i < monitorBufsize)
    (hb : ∀ k < i, buf k ≠ 0) : len < monitorBufsize ∧ line len = 0 ∧ ∀ k < len, line k ≠ 0 := by
  induction input generalizing i buf with
  | nil => nomatch h
  | cons c input ih =>
    cases c with
    | none => nomatch h
    | some c =>
      rw [readline] at h
      split at h
      · rename_i hc
        have hc0 : c ≠ 0 := by
          rintro rfl
          exact absurd hc.1 (by decide)
        exact ih h (by omega) (by grind [update_apply])
      · split at h
        · exact ih h (by omega) fun k hk => hb k (by omega)
        · split at h
          · cases h
            exact ⟨hi, by grind [update_apply]⟩
          · exact ih h hi hb

end KmonitorAux

open KmonitorAux

/-- On every line from `readline`, `parse` stores the starts of the words in order, within `argv`, and leaves each word as it was and
terminated, exactly when there are at most `MAXARGS` words. -/
theorem parse_in_bounds {input : List (Option UInt8)} {buf line : Nat → UInt8} {len : Nat}
    (h : readline input 0 buf = some (len, line)) :
    (∃ text, parse line = .ok (wordStarts line len, text) ∧
        ∀ i j, Word line len i j → text j = 0 ∧ ∀ k, i ≤ k → k < j → text k = line k) ↔
      (wordStarts line len).length ≤ maxargs := by
  obtain ⟨hlen, hend, hline⟩ := readline_spec h (by decide) (by simp)
  have hstart : blank line 0 = line := by
    funext i
    simp [blank]
  have hr := parseLoop_spec hline hend monitorBufsize (Nat.zero_le _) (by omega) (Nat.zero_le _)
  rw [hstart] at hr
  change parse line = _ at hr
  constructor
  · rintro ⟨text, hok, -⟩
    by_contra hmany
    rw [hok, if_neg hmany] at hr
    nomatch hr
  · intro hfew
    rw [if_pos hfew] at hr
    refine ⟨_, hr, ?_⟩
    rintro i j ⟨hin, hchars, -, hlast⟩
    exact ⟨by grind [blank], by grind [blank]⟩

/-- The hypothesis holds of a line of one word. -/
theorem parse_in_bounds_one : ∃ line, readline [some 97, some 10] 0 (fun _ => 0) = some (1, line) ∧
    ((∃ text, parse line = .ok (wordStarts line 1, text) ∧
        ∀ i j, Word line 1 i j → text j = 0 ∧ ∀ k, i ≤ k → k < j → text k = line k) ↔
      (wordStarts line 1).length ≤ maxargs) :=
  ⟨_, rfl, @parse_in_bounds [some 97, some 10] (fun _ => 0) _ _ rfl⟩

/-- A line of 17 words is stored past the end of `argv`. -/
theorem parse_past_argv : ∃ line,
    readline ((List.replicate 17 [some 97, some 32]).flatten ++ [some 10]) 0 (fun _ => 0) = some (34, line) ∧
    (wordStarts line 34).length = 17 ∧ parse line = .error .argv :=
  ⟨_, rfl, by decide +kernel, eq_error_of_errorIs (by decide +kernel)⟩

end Ucore
