import Ucore.Lib.Checked

/-!
# The command line of the kernel monitor

`readline` of `kern/libs/readline.c` and `parse` of `kern/debug/kmonitor.c`, which splits the line in place. What they print is left
out.
-/

namespace Ucore

open Checked Function

/-- `BUFSIZE` -/
def monitorBufsize : Nat := 1024

/-- `MAXARGS` -/
def maxargs : Nat := 16

/-- `WHITESPACE` -/
def whitespace : List UInt8 := [32, 9, 10, 13]

/-- What ends a run of `parse` early. -/
inductive ParseError
  | argv
  | fuel
  deriving DecidableEq

/-- `readline`, with what the calls of `getchar` return, where `none` is a negative value: the text, and where it ends. -/
def readline : List (Option UInt8) → Nat → (Nat → UInt8) → Option (Nat × (Nat → UInt8))
  | [], _, _ => none
  | none :: _, _, _ => none
  | some c :: input, i, buf =>
    if 32 ≤ c ∧ i < monitorBufsize - 1 then readline input (i + 1) (update buf i c)
    else if c = 8 ∧ 0 < i then readline input (i - 1) buf
    else if c = 10 ∨ c = 13 then some (i, update buf i 0)
    else readline input i buf

/-- The loops of `parse`, character by character: `inArg` where the loop over an argument runs, and not the one over whitespace. -/
def parseLoop : Nat → Bool → (Nat → UInt8) → List Nat → Nat → Except ParseError (List Nat × (Nat → UInt8))
  | 0, _, _, _, _ => .error .fuel
  | n + 1, inArg, buf, argv, p =>
    if buf p = 0 then .ok (argv, buf)
    else if buf p ∈ whitespace then parseLoop n false (update buf p 0) argv (p + 1)
    else if inArg then parseLoop n true buf argv (p + 1)
    else do
      -- At `argc == MAXARGS - 1` a message is printed, and the argument is stored all the same.
      ensure (argv.length < maxargs) .argv
      parseLoop n true buf (argv ++ [p]) (p + 1)

/-- `parse`: the positions stored in `argv`, and the text after it. A store outside of `argv` is an error. -/
def parse (buf : Nat → UInt8) : Except ParseError (List Nat × (Nat → UInt8)) := parseLoop monitorBufsize false buf [] 0

end Ucore
