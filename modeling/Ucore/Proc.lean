import Mathlib.Algebra.Group.Int.Defs
import Mathlib.Algebra.Group.Nat.Defs
import Ucore.Lib.Checked

/-!
# The tables of processes

The links between processes and the process numbers of `kern/process/proc.c`: `set_links`, `remove_links`, `get_pid`, `hash_proc`,
`unhash_proc` and `find_proc`, on the fields of `struct proc_struct` that they use. Processes are named by their addresses, and
the address 0 is `NULL`. `procList` and the hash lists are the lists of processes from `list_next` of their heads on.

The fields `since` and `clock` of `Family` are no part of the kernel's state: they record when a process got the parent it has.
-/

namespace Ucore

open Function

/-- `MAX_PROCESS` -/
def maxProcess : Nat := 4096

/-- `MAX_PID` -/
def maxPid : Int := 8192

/-! ## Parents and children -/

structure Family where
  parent : Nat → Nat
  cptr : Nat → Option Nat
  yptr : Nat → Option Nat
  optr : Nat → Option Nat
  procList : List Nat
  nrProcess : Nat
  since : Nat → Nat
  clock : Nat

namespace Family

/-- The assignments by which `set_links` and `do_exit` put a process in front of the children of `q`. -/
def addChild (q proc : Nat) (f : Family) : Family :=
  let yptr := update f.yptr proc none
  { f with
    yptr := match f.cptr q with
      | none => yptr
      | some o => update yptr o (some proc)
    optr := update f.optr proc (f.cptr q)
    cptr := update f.cptr q (some proc)
    since := update f.since proc f.clock
    clock := f.clock + 1 }

/-- `set_links` -/
def setLinks (proc : Nat) (f : Family) : Family :=
  let f := { f with procList := proc :: f.procList }
  { f.addChild (f.parent proc) proc with nrProcess := f.nrProcess + 1 }

/-- `remove_links` -/
def removeLinks (proc : Nat) (f : Family) : Family :=
  let f := { f with procList := f.procList.erase proc }
  let f := match f.optr proc with
    | none => f
    | some o => { f with yptr := update f.yptr o (f.yptr proc) }
  let f := match f.yptr proc with
    | some y => { f with optr := update f.optr y (f.optr proc) }
    | none => { f with cptr := update f.cptr (f.parent proc) (f.optr proc) }
  { f with nrProcess := f.nrProcess - 1 }

/-- A round of the loop of `do_exit` for the child `proc` of `p`, less the waking of `q`, which adopts it. -/
def adopt (p q proc : Nat) (f : Family) : Family :=
  let f := { f with cptr := update f.cptr p (f.optr proc) }
  let f := { f with parent := update f.parent proc q }
  f.addChild q proc

end Family

/-! ## Process numbers -/

/-- `pid` is a field of `struct proc_struct`, `lastPid` and `nextSafe` are the static variables of `get_pid`. -/
structure Pids where
  pid : Nat → Int
  hashList : Nat → List Nat
  lastPid : Int
  nextSafe : Int

/-- `hash32` of `libs/hash.c`. -/
def Pids.hash32 (val bits : Nat) : Nat := val * 0x9e370001 % 2 ^ 32 / 2 ^ (32 - bits)

/-- `pid_hashfn` -/
def pidHashfn (pid : Int) : Nat := Pids.hash32 (pid % 2 ^ 32).toNat 10

/-- How the scan of the process list in `get_pid` ends: at the end of the list, or with a jump to `repeat`. -/
inductive PidScan where
  | done (lastPid nextSafe : Int)
  | restart (lastPid : Int)
  deriving DecidableEq, Repr

namespace Pids

/-- The scan of the process list in `get_pid`, from a process on. -/
def scan (pid : Nat → Int) : List Nat → Int → Int → PidScan
  | [], lastPid, nextSafe => .done lastPid nextSafe
  | proc :: le, lastPid, nextSafe =>
    if pid proc = lastPid then
      if nextSafe ≤ lastPid + 1 then .restart (if maxPid ≤ lastPid + 1 then 1 else lastPid + 1)
      else scan pid le (lastPid + 1) nextSafe
    else if lastPid < pid proc ∧ pid proc < nextSafe then scan pid le lastPid (pid proc)
    else scan pid le lastPid nextSafe

/-- `get_pid` from the label `repeat` on, for as many scans as there is fuel: `last_pid` and `next_safe` at the end. -/
def repeatScan (pid : Nat → Int) (procList : List Nat) : Nat → Int → Option (Int × Int)
  | 0, _ => none
  | fuel + 1, lastPid =>
    match scan pid procList lastPid maxPid with
    | .done lastPid nextSafe => some (lastPid, nextSafe)
    | .restart lastPid => repeatScan pid procList fuel lastPid

/-- `get_pid`: the number it returns is `last_pid`. -/
def getPid (fuel : Nat) (procList : List Nat) (s : Pids) : Option Pids :=
  let lastPid := s.lastPid + 1
  let inside (lastPid : Int) : Option Pids :=
    (repeatScan s.pid procList fuel lastPid).map fun r => { s with lastPid := r.1, nextSafe := r.2 }
  if maxPid ≤ lastPid then inside 1
  else if s.nextSafe ≤ lastPid then inside lastPid
  else some { s with lastPid := lastPid }

/-- `hash_proc` -/
def hashProc (proc : Nat) (s : Pids) : Pids :=
  { s with hashList := update s.hashList (pidHashfn (s.pid proc)) (proc :: s.hashList (pidHashfn (s.pid proc))) }

/-- `unhash_proc` -/
def unhashProc (proc : Nat) (s : Pids) : Pids :=
  { s with hashList := update s.hashList (pidHashfn (s.pid proc)) ((s.hashList (pidHashfn (s.pid proc))).erase proc) }

/-- `find_proc` -/
def findProc (pid : Int) (s : Pids) : Option Nat :=
  if 0 < pid ∧ pid < maxPid then (s.hashList (pidHashfn pid)).find? fun proc => s.pid proc = pid else none

end Pids

end Ucore
