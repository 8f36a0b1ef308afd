import Mathlib.Algebra.Group.Int.Defs
import Mathlib.Algebra.Group.Nat.Defs
import Mathlib.Data.Int.DivMod
import Ucore.Lib.Checked

/-!
# Semaphores and the keyboard buffer

The data of `kern/sync/sem.c` and `kern/fs/devs/dev_stdin.c`, and what an interrupt-disabled section of theirs does to it; the
waiting and waking of processes around it belongs to the kernel. Processes are named by their addresses. A wait queue is the list
of the processes whose wait entries are on it, from `wait_queue_first` on.
-/

namespace Ucore

/-- The value of an `int` after an operation whose exact result is `x`. -/
def int32 (x : Int) : Int := x.bmod (2 ^ 32)

/-- `semaphore_t` -/
structure Semaphore where
  value : Int
  waitQueue : List Nat
  deriving DecidableEq, Repr

namespace Semaphore

/-- `__down` by the process `p`, up to its call of `schedule`: whether it took a unit; if not, its entry is on the queue. -/
def down (p : Nat) (s : Semaphore) : Bool × Semaphore :=
  if 0 < s.value then (true, { s with value := s.value - 1 }) else (false, { s with waitQueue := s.waitQueue ++ [p] })

/-- `__up`: the process whose entry was taken from the queue to be woken, if there was one. -/
def up (s : Semaphore) : Option Nat × Semaphore :=
  match s.waitQueue with
  | [] => (none, { s with value := int32 (s.value + 1) })
  | p :: rest => (some p, { s with waitQueue := rest })

/-- `wait_current_del` -/
def waitDel (p : Nat) (s : Semaphore) : Semaphore := { s with waitQueue := s.waitQueue.erase p }

/-- `try_down` -/
def tryDown (s : Semaphore) : Bool × Semaphore := if 0 < s.value then (true, { s with value := s.value - 1 }) else (false, s)

end Semaphore

/-- What happened to a semaphore, which is no part of the kernel's state: how often `up` was called, how many units went to a `down`,
which processes blocked on it and which were granted a unit by an `up`. -/
structure SemLog where
  ups : Nat
  downs : Nat
  blocked : List Nat
  granted : List Nat
  deriving DecidableEq, Repr

namespace SemLog

/-- A `down` took a unit. -/
def taken (l : SemLog) : SemLog := { l with downs := l.downs + 1 }

/-- A `down` blocked. -/
def block (p : Nat) (l : SemLog) : SemLog := { l with blocked := l.blocked ++ [p] }

/-- An `up` raised the value. -/
def raised (l : SemLog) : SemLog := { l with ups := l.ups + 1 }

/-- An `up` granted its unit to a process that was blocked. -/
def grant (p : Nat) (l : SemLog) : SemLog := { l with ups := l.ups + 1, downs := l.downs + 1, granted := l.granted ++ [p] }

end SemLog

/-- `STDIN_BUFSIZE` -/
def stdinBufsize : Int := 4096

/-- The static variables of `dev_stdin.c`. The buffer has the slots from 0 to 4095; what another index reads or writes is other
memory. `accepted` and `delivered` are no part of the kernel's state: they record the characters for which the write position
advanced, and the characters that readers got. -/
structure Stdin where
  stdinBuffer : Int → UInt8
  pRpos : Int
  pWpos : Int
  waitQueue : List Nat
  accepted : List UInt8
  delivered : List UInt8

namespace Stdin

/-- `dev_stdin_write`, less the waking of the readers. -/
def write (c : UInt8) (d : Stdin) : Stdin :=
  let d := { d with stdinBuffer := Function.update d.stdinBuffer (d.pWpos.tmod stdinBufsize) c }
  if int32 (d.pWpos - d.pRpos) < stdinBufsize then
    { d with pWpos := int32 (d.pWpos + 1), accepted := d.accepted ++ [c] }
  else d

/-- A round of the loop of `dev_stdin_read` that finds a character. -/
def take (d : Stdin) : Stdin :=
  { d with pRpos := int32 (d.pRpos + 1), delivered := d.delivered ++ [d.stdinBuffer (d.pRpos.tmod stdinBufsize)] }

/-- The loop of `dev_stdin_read` for a reader that wants `n` more characters, up to its end or to the point where it has to wait:
how many it still wants. -/
def readLoop : Nat → Stdin → Nat × Stdin
  | 0, d => (0, d)
  | n + 1, d => if d.pRpos < d.pWpos then readLoop n d.take else (n + 1, d)

end Stdin

end Ucore
