import Ucore.Args
import Ucore.Lemmas.Exec

/-!
# The arguments of a program

What `load_icode` leaves on the stack of a new program: the number of the arguments, the pointers and the strings, without
overlaps and inside the stack.
-/

namespace Ucore

open Bytes ExecAux

/-- The bytes that the strings take, each with its NUL. -/
def stringsSize : List (List UInt8) → Nat
  | [] => 0
  | s :: args => s.length + 1 + stringsSize args

namespace ArgsAux

variable {S U : Nat} {s : List UInt8} {args : List (List UInt8)} {user : Nat → UInt8}

theorem stringsSize_le (h : ∀ s ∈ args, s.length ≤ execMaxArgLen ∧ 0 ∉ s) : stringsSize args ≤ args.length * 4096 := by
  induction args with
  | nil => simp [stringsSize]
  | cons s args ih =>
    have hs := (h s List.mem_cons_self).1
    have hr := ih fun t ht => h t (List.mem_cons_of_mem _ ht)
    simp only [stringsSize, List.length_cons, execMaxArgLen] at *
    omega

/-- Of two arguments the earlier one ends where the later one starts, or before. -/
theorem stringsSize_take_lt {i j : Nat} (hij : i < j) (hi : i < args.length) :
    stringsSize (args.take i) + args[i].length + 1 ≤ stringsSize (args.take j) := by
  induction args generalizing i j with
  | nil => simp at hi
  | cons s args ih =>
    obtain ⟨j, rfl⟩ : ∃ m, j = m + 1 := ⟨j - 1, by omega⟩
    cases i with
    | zero => simp [stringsSize]
    | succ i =>
      have := ih (show i < j by omega) (by simpa using hi)
      simp only [List.take_succ_cons, stringsSize, List.getElem_cons_succ]
      omega

theorem strnlen_chars {len : Nat} (h0 : 0 ∉ s) (hl : s.length < len) : strnlen (chars s) len = s.length := by
  induction s generalizing len with
  | nil =>
    obtain ⟨len, rfl⟩ := Nat.exists_eq_add_of_lt hl
    simp [strnlen]
  | cons b s ih =>
    obtain ⟨len, rfl⟩ := Nat.exists_eq_add_of_lt hl
    rw [List.mem_cons, not_or] at h0
    rw [strnlen, if_neg (show ¬chars (b :: s) 0 = 0 from Ne.symm h0.1)]
    exact congrArg (· + 1) (ih h0.2 (by simp; omega))

theorem addArg_eq {size : Nat} (hs : s.length ≤ execMaxArgLen ∧ 0 ∉ s) (h : size + (s.length + 1) < addrSize) :
    addArg size s = size + (s.length + 1) := by
  rw [addArg, strnlen_chars hs.2 (by omega), Nat.mod_eq_of_lt (by omega)]
  omega

/-- The first pass over the arguments. -/
theorem foldl_addArg (size : Nat) (hl : ∀ s ∈ args, s.length ≤ execMaxArgLen ∧ 0 ∉ s)
    (h : size + stringsSize args < addrSize) : args.foldl addArg size = size + stringsSize args := by
  induction args generalizing size with
  | nil => simp [stringsSize]
  | cons s args ih =>
    rw [stringsSize] at h
    rw [List.foldl_cons, addArg_eq (hl s List.mem_cons_self) (by omega),
      ih _ (fun t ht => hl t (List.mem_cons_of_mem _ ht)) (by omega), stringsSize]
    omega

/-- The second pass: the pointers go to `U` and the strings to `S`, and no other byte changes. -/
theorem copyArgs_spec (i size : Nat) (user : Nat → UInt8) (hl : ∀ s ∈ args, s.length ≤ execMaxArgLen ∧ 0 ∉ s)
    (hU : U + 4 * (i + args.length) ≤ S) (hS : S + size + stringsSize args < addrSize) :
    (∀ b, (b < U + 4 * i ∨ U + 4 * (i + args.length) ≤ b) → (b < S + size ∨ S + size + stringsSize args ≤ b) →
        copyArgs S U args i size user b = user b) ∧
      ∀ j, ∀ h : j < args.length,
        word (copyArgs S U args i size user) (U + 4 * (i + j)) = S + size + stringsSize (args.take j) ∧
          ∀ k ≤ args[j].length, copyArgs S U args i size user (S + size + stringsSize (args.take j) + k) = chars args[j] k := by
  induction args generalizing i size user with
  | nil => exact ⟨fun b _ _ => rfl, fun j h => absurd h (by simp)⟩
  | cons s args ih =>
    simp only [List.length_cons, stringsSize] at hU hS ⊢
    have hs := addArg_eq (hl s List.mem_cons_self) (show size + (s.length + 1) < addrSize by omega)
    have hst : copyArgs S U (s :: args) i size user = copyArgs S U args (i + 1) (size + (s.length + 1))
        (putWord (U + 4 * i) (S + size) (strcpy (S + size) s user)) := by
      rw [copyArgs, hs, Nat.mod_eq_of_lt (show S + size < addrSize by omega), Nat.mod_eq_of_lt (show U + 4 * i < addrSize by omega)]
    obtain ⟨ho, ha⟩ := ih (i + 1) (size + (s.length + 1)) (putWord (U + 4 * i) (S + size) (strcpy (S + size) s user))
      (fun t ht => hl t (List.mem_cons_of_mem _ ht)) (by omega) (by omega)
    rw [hst]
    refine ⟨?_, ?_⟩
    · intro b hb1 hb2
      rw [ho b (by omega) (by omega), putWord, patch_of_not (by omega), strcpy, patch_of_not (by omega)]
    · intro j hj
      cases j with
      | zero =>
        simp only [List.take_zero, stringsSize, Nat.add_zero, List.getElem_cons_zero]
        refine ⟨?_, ?_⟩
        · rw [word_congr fun k hk => ho _ (by omega) (by omega)]
          exact word_patch_self (by unfold addrSize at hS; omega)
        · intro k hk
          rw [ho _ (by omega) (by omega), putWord, patch_of_not (by omega), strcpy, patch_of_mem (by omega) (by omega),
            Nat.add_sub_cancel_left]
      | succ j =>
        have := ha j (by omega)
        rw [show i + 1 + j = i + (j + 1) by omega, show S + (size + (s.length + 1)) + stringsSize (args.take j) =
          S + size + (s.length + 1 + stringsSize (args.take j)) by omega] at this
        exact this

end ArgsAux

/-- What the new program finds on its stack below `T`, from `esp` upwards: the number of the arguments, a pointer to each of
them, and the strings. -/
structure ArgBlock (T esp : Nat) (args : List (List UInt8)) (user : Nat → UInt8) (ptr : Nat → Nat) : Prop where
  aligned : esp % 4 = 0
  inside : T - ustackSize ≤ esp
  argc : word user esp = args.length
  argv : ∀ i < args.length, word user (esp + 4 + 4 * i) = ptr i
  string : ∀ i, ∀ h : i < args.length, ∀ k ≤ args[i].length, user (ptr i + k) = chars args[i] k
  above : ∀ i < args.length, esp + 4 + 4 * args.length ≤ ptr i
  below : ∀ i, ∀ h : i < args.length, ptr i + args[i].length + 1 ≤ T
  apart : ∀ i j, ∀ h : i < j, ∀ hj : j < args.length, ptr i + args[i].length + 1 ≤ ptr j

open ArgsAux in
/-- `load_icode` leaves the arguments on the stack and writes nothing else. -/
theorem pushArgs_block {T : Nat} {args : List (List UInt8)} (user : Nat → UInt8)
    (hnum : args.length ≤ execMaxArgNum) (hlen : ∀ s ∈ args, s.length ≤ execMaxArgLen ∧ 0 ∉ s) (hal : T % pgSize = 0)
    (hlo : ustackSize ≤ T) (htop : T < addrSize) :
    (∃ ptr, ArgBlock T (pushArgs T args user).1 args (pushArgs T args user).2 ptr) ∧
      ∀ a, a < (pushArgs T args user).1 ∨ T ≤ a → (pushArgs T args user).2 a = user a := by
  have hsum := stringsSize_le hlen
  have hnum' : args.length ≤ 32 := hnum
  rw [ustackSize_eq] at hlo
  have hal' : T % 4096 = 0 := hal
  have hpass := foldl_addArg 0 hlen (by unfold addrSize; omega)
  rw [Nat.zero_add] at hpass
  obtain ⟨S, hS⟩ : ∃ S, S = T - (stringsSize args / 4 + 1) * 4 := ⟨_, rfl⟩
  obtain ⟨esp, hesp⟩ : ∃ esp, esp = S - args.length * 4 - 4 := ⟨_, rfl⟩
  have hpush : pushArgs T args user =
      (esp, putWord esp args.length (copyArgs S (esp + 4) args 0 0 user)) := by
    have huargv : sub32 S (args.length * 4) = esp + 4 := (sub32_eq (by omega) (by omega)).trans (by omega)
    have htopArgc : sub32 (esp + 4) 4 = esp := sub32_eq (by omega) (by omega)
    simp only [pushArgs, hpass, sub32_eq (show (stringsSize args / 4 + 1) * 4 ≤ T by omega) htop, ← hS, huargv, htopArgc]
  obtain ⟨hother, hargs⟩ := copyArgs_spec (S := S) (U := esp + 4) 0 0 user hlen (by omega) (by omega)
  rw [hpush]
  simp only [Nat.zero_add, Nat.add_zero] at hother hargs ⊢
  have hsame : ∀ b, esp + 4 ≤ b → putWord esp args.length (copyArgs S (esp + 4) args 0 0 user) b =
      copyArgs S (esp + 4) args 0 0 user b := fun b hb => patch_of_not (by omega)
  have hend : ∀ i, ∀ h : i < args.length, S + stringsSize (args.take i) + args[i].length + 1 ≤ S + stringsSize args := by
    intro i hi
    have := stringsSize_take_lt hi hi
    rw [List.take_length] at this
    omega
  refine ⟨⟨fun i => S + stringsSize (args.take i), ?_⟩, ?_⟩
  · exact {
      aligned := by omega
      inside := by rw [ustackSize_eq]; omega
      argc := word_patch_self (by omega)
      argv := fun i hi => by
        rw [word_congr fun k hk => hsame _ (by omega)]
        exact (hargs i hi).1
      string := fun i hi k hk => by
        rw [hsame _ (by omega)]
        exact (hargs i hi).2 k hk
      above := fun i hi => by omega
      below := fun i hi => by
        have := hend i hi
        omega
      apart := fun i j hij hj => by
        have := stringsSize_take_lt hij (hij.trans hj)
        omega }
  · intro a ha
    rw [putWord, patch_of_not (by omega), hother a (by omega) (by omega)]

/-- The arguments of `ls -l`. -/
theorem pushArgs_block_ls :
    (∃ ptr, ArgBlock 0xB0000000 (pushArgs 0xB0000000 [[108, 115], [45, 108]] fun _ => 0).1 [[108, 115], [45, 108]]
        (pushArgs 0xB0000000 [[108, 115], [45, 108]] fun _ => 0).2 ptr) ∧
      (pushArgs 0xB0000000 [[108, 115], [45, 108]] fun _ => 0).1 = 0xAFFFFFEC := by
  refine ⟨(pushArgs_block (fun _ => 0) ?_ ?_ ?_ ?_ ?_).1, ?_⟩
  · decide
  · decide
  · decide
  · rw [ustackSize_eq]; decide
  · decide
  · decide

end Ucore
