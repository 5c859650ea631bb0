import ProvenXv6.SmpModel

/-! `syscall` of 'add system call' over the process table: the number of the call
that each process is in, and the trace lines on the console. -/
namespace ProvenXv6.Trace
open Smp
open Ptable (Slot)

inductive Syscall
  | sysFork | sysExit | sysWait | sysPipe | sysRead | sysKill | sysExec | sysFstat | sysChdir
  | sysDup | sysGetpid | sysSbrk | sysSleep | sysUptime | sysOpen | sysWrite | sysMknod
  | sysUnlink | sysLink | sysMkdir | sysClose | sysMemsize | sysTrace
  deriving DecidableEq, Repr

/-- The table of handlers, at the numbers of syscall.h; number 0 has none. -/
def syscalls : List (Option Syscall) :=
  [none, some .sysFork, some .sysExit, some .sysWait, some .sysPipe, some .sysRead, some .sysKill,
    some .sysExec, some .sysFstat, some .sysChdir, some .sysDup, some .sysGetpid, some .sysSbrk,
    some .sysSleep, some .sysUptime, some .sysOpen, some .sysWrite, some .sysMknod,
    some .sysUnlink, some .sysLink, some .sysMkdir, some .sysClose, some .sysMemsize,
    some .sysTrace]

def syscallNames : List String :=
  ["fork", "exit", "wait", "pipe", "read", "kill", "exec", "fstat", "chdir", "dup", "getpid",
    "sbrk", "sleep", "uptime", "open", "write", "mknod", "unlink", "link", "mkdir", "close",
    "memsize", "trace"]

def handler (num : ℕ) : Option Syscall := (syscalls[num]?).join

/-- The test of `syscall` on the number in eax. -/
def known (num : ℤ) : Bool := 0 < num ∧ num < syscalls.length ∧ (handler num.toNat).isSome

/-- The values in "syscall traced: pid=%d, syscall=%s, %d returned". -/
structure Line where
  pid : ℤ
  name : String
  value : ℤ
  deriving DecidableEq, Repr

/-- The local num of `syscall` of each process that is inside a handler, and the
trace lines printed so far. -/
structure Sys where
  table : Table
  call : Slot → Option ℕ
  lines : List Line

namespace Sys

def start : Sys where
  table := .start
  call := fun _ => none
  lines := []

def handling (s : Sys) (p : Slot) : Option Syscall := (s.call p).bind handler

/-- The steps that belong to one handler are taken inside it. `kill` may also
return -1 for a bad argument, and a killed process exits outside of every call. -/
def permits (s : Sys) : Action → Bool
  | .fork p => s.handling p = some .sysFork
  | .wait p => s.handling p = some .sysWait
  | .kill p _ => s.handling p = some .sysKill
  | .trace p _ => s.handling p = some .sysTrace
  | .other p v => match s.handling p with
    -- these handlers have no way back but the steps above
    | none | some .sysFork | some .sysExit | some .sysWait | some .sysTrace => false
    | some .sysKill => v = -1
    | some _ => true
  | .exit p => s.handling p = some .sysExit ∨ s.call p = none ∧ (s.table.proc p).killed
  | .fault p => s.call p = none
  | .back _ => false
  | _ => true

/-- `syscall` up to the call of the handler; an unknown number only sets eax. -/
def enter (s : Sys) (p : Slot) (num : ℤ) : Sys :=
  if known num then { s with call := Function.update s.call p (some num.toNat) } else s

/-- The rest of `syscall` when the handler has returned v. The mask is an int, so
the shift copies its sign. -/
def leave (s : Sys) (p : Slot) (num : ℕ) (v : ℤ) : Sys where
  table := s.table.setThread p .run
  call := Function.update s.call p none
  lines :=
    if (s.table.proc p).trace.sshiftRight num ≠ 0 then
      s.lines ++ [⟨(s.table.proc p).pid, syscallNames.getD (num-1) "", v⟩]
    else s.lines

/-- A process that exits never leaves its handler. -/
def callAfter (s : Sys) : Action → Slot → Option ℕ
  | .exit p => Function.update s.call p none
  | _ => s.call

end Sys

inductive Event
  | enter (p : Slot) (num : ℤ)
  | act (a : Action)
  | leave (p : Slot)
  deriving DecidableEq, Repr

def step (s : Sys) : Event → Option Sys
  | .enter p num =>
    if s.table.running p = some .run ∧ s.call p = none then some (s.enter p num) else none
  | .act a =>
    if s.permits a then
      (Smp.step s.table a).map fun t => { s with table := t, call := s.callAfter a }
    else none
  | .leave p => match s.table.running p, s.call p with
    | some (.ret v), some num => some (s.leave p num v)
    | _, _ => none

end ProvenXv6.Trace
