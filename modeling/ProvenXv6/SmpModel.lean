import Mathlib.Algebra.GroupWithZero.Nat
import ProvenXv6.ProcModel

/-! The process table of proc.c on any number of CPUs and under any scheduler: the
lock-protected steps of `fork`, `exit`, `wait`, `kill`, `sleep` and `wakeup`, each by
any process that is RUNNING. 'add system call' and xv6-public have this code in
common; the scheduler of the latter and its two fields are in `ProcModel`. -/
namespace ProvenXv6.Smp
open Ptable (NPROC NPROC_pos Slot ProcState Chan wrap32)

instance : NeZero NPROC := ⟨NPROC_pos.ne'⟩

/-- Where the kernel thread of a process stands between two steps: in code that
takes none of them, in `allocproc` with np found and the lock released, in `fork`
with np returned, inside `sched` called by `sleep` or by the `sleep` of `wait`, or
back from one of the functions with its value. -/
inductive Thread
  | run
  | alloc (np : Slot)
  | fork (np : Slot)
  | sleep
  | wait
  | ret (v : ℤ)
  deriving DecidableEq, Repr

/-- `struct proc`; a null pointer is none. -/
structure Proc where
  state : ProcState
  pid : ℤ
  parent : Option Slot
  chan : Option Chan
  killed : Bool
  trace : BitVec 32
  thread : Thread
  deriving DecidableEq, Repr

structure Table where
  proc : Slot → Proc
  initproc : Option Slot
  nextpid : ℤ

namespace Table

def start : Table where
  proc := fun _ => ⟨.unused, 0, none, none, false, 0, .run⟩
  initproc := none
  nextpid := 1

def modify (t : Table) (p : Slot) (f : Proc → Proc) : Table :=
  { t with proc := Function.update t.proc p (f (t.proc p)) }

/-- The first entry that satisfies a test, as a table scan finds it. -/
def scan (t : Table) (test : Proc → Bool) : Option Slot :=
  (List.finRange NPROC).find? (fun p => test (t.proc p))

def setThread (t : Table) (p : Slot) (thread : Thread) : Table :=
  t.modify p (fun e => { e with thread := thread })

/-- The part of `allocproc` under the lock, with the fresh context. -/
def allocproc (t : Table) : Option (Slot × Table) :=
  -- parent, chan and killed stay as the last owner left them
  (t.scan (fun e => e.state = .unused)).map fun p =>
    (p, { t.modify p (fun e => { e with state := .embryo, pid := t.nextpid, thread := .run }) with
          nextpid := wrap32 (t.nextpid+1) })

/-- `allocproc` to its end, then RUNNABLE. -/
def userinit (t : Table) : Option Table :=
  t.allocproc.map fun (p, t) =>
    { t.modify p (fun e => { e with trace := 0, state := .runnable }) with initproc := some p }

/-- `fork` up to the release of the lock in `allocproc`. -/
def fork (t : Table) (p : Slot) : Table :=
  match t.allocproc with
  | none => t.setThread p (.ret (-1))
  | some (np, t) => t.setThread p (.alloc np)

/-- The rest of `allocproc` when it has got a kernel stack. -/
def kalloc (t : Table) (p np : Slot) : Table :=
  (t.modify np (fun e => { e with trace := 0 })).setThread p (.fork np)

/-- The ways out of `fork` when `kalloc` or `copyuvm` fails. -/
def forkFail (t : Table) (p np : Slot) : Table :=
  (t.modify np (fun e => { e with state := .unused })).setThread p (.ret (-1))

/-- The rest of a successful `fork`. -/
def forkDone (t : Table) (p np : Slot) : Table :=
  (t.modify np (fun e => { e with
    parent := some p, trace := (t.proc p).trace, state := .runnable })).setThread p
    (.ret (t.proc np).pid)

def wakeup1 (t : Table) (chan : Option Chan) : Table :=
  { t with proc := fun p =>
      if (t.proc p).state = .sleeping ∧ (t.proc p).chan = chan then
        { t.proc p with state := .runnable }
      else t.proc p }

/-- The loop body of `exit` that passes an abandoned child to init. -/
def abandon (cur : Slot) (t : Table) (p : Slot) : Table :=
  if (t.proc p).parent = some cur then
    let t := t.modify p (fun e => { e with parent := t.initproc })
    if (t.proc p).state = .zombie then t.wakeup1 (t.initproc.map .proc) else t
  else t

/-- `exit`; init exiting is a panic. -/
def exit (t : Table) (p : Slot) : Option Table :=
  if t.initproc = some p then none
  else
    let t := t.wakeup1 ((t.proc p).parent.map .proc)
    let t := (List.finRange NPROC).foldl (abandon p) t
    some (t.modify p (fun e => { e with state := .zombie }))

/-- The first half of `sleep`. -/
def goToSleep (t : Table) (p : Slot) (chan : Chan) (thread : Thread) : Table :=
  t.modify p (fun e => { e with chan := some chan, state := .sleeping, thread := thread })

/-- The first ZOMBIE child of p. -/
def exited (t : Table) (p : Slot) : Option Slot :=
  t.scan (fun e => e.parent = some p ∧ e.state = .zombie)

/-- One pass of the loop of `wait`: reap the first exited child, give up, or sleep. -/
def wait (t : Table) (p : Slot) : Table :=
  match t.exited p with
  | some q =>
    (t.modify q (fun e => { e with
      pid := 0, parent := none, killed := false, state := .unused })).setThread p
      (.ret (t.proc q).pid)
  | none =>
    if (t.scan (fun e => e.parent = some p)).isNone ∨ (t.proc p).killed then
      t.setThread p (.ret (-1))
    else t.goToSleep p (.proc p) .wait

/-- The entry that `kill` finds. -/
def target (t : Table) (pid : ℤ) : Option Slot := t.scan (fun e => e.pid = pid)

def kill (t : Table) (p : Slot) (pid : ℤ) : Table :=
  match t.target pid with
  | none => t.setThread p (.ret (-1))
  | some q =>
    -- the entry counts by its pid alone, in whatever state it is
    (t.modify q (fun e => { e with
      killed := true, state := if e.state = .sleeping then .runnable else e.state })).setThread p
      (.ret 0)

/-- The argument is none when `argint` finds it outside the memory of the process. -/
def sysTrace (t : Table) (p : Slot) (arg : Option (BitVec 32)) : Table :=
  match arg with
  | none => t.setThread p (.ret (-1))
  | some mask => (t.modify p (fun e => { e with trace := mask })).setThread p (.ret 0)

/-- From the dispatch of p to the point where p releases the lock or calls `sched`
again: a process that was asleep first clears its channel. -/
def dispatch (t : Table) (p : Slot) : Table :=
  let t := t.modify p (fun e => { e with state := .running })
  match (t.proc p).thread with
  | .sleep => t.modify p (fun e => { e with chan := none, thread := .run })
  -- `sleep` returns into the loop of `wait`, with the lock still held
  | .wait => (t.modify p (fun e => { e with chan := none, thread := .run })).wait p
  | _ => t

/-- Where the thread of p stands, when p is on a CPU. -/
def running (t : Table) (p : Slot) : Option Thread :=
  if (t.proc p).state = .running then some (t.proc p).thread else none

end Table

inductive Action
  | userinit
  | fork (p : Slot)
  | kalloc (p : Slot)
  | kallocFail (p : Slot)
  | copyuvmFail (p : Slot)
  | forkDone (p : Slot)
  | exit (p : Slot)
  | wait (p : Slot)
  | sleep (p : Slot) (a : ℕ)
  | wakeup (chan : Chan)
  | kill (p : Slot) (pid : ℤ)
  | trace (p : Slot) (arg : Option (BitVec 32))
  /-- `exec` and every other system call: none of them touches these fields. What `exec`
  overwrites when an argument is too long for the stack is left out. -/
  | other (p : Slot) (v : ℤ)
  /-- a trap in user space, which marks the process killed -/
  | fault (p : Slot)
  /-- the caller of the function goes on -/
  | back (p : Slot)
  | yield (p : Slot)
  | dispatch (p : Slot)
  deriving DecidableEq, Repr

/-- One step. None: the process is not on a CPU or not at that point, or the
kernel panics. The writes of `fork` outside the lock are to an EMBRYO entry that
no other CPU uses. -/
def step (t : Table) : Action → Option Table
  | .userinit => if t.initproc = none then t.userinit else none
  | .fork p => if t.running p = some .run then some (t.fork p) else none
  | .kalloc p => match t.running p with
    | some (.alloc np) => some (t.kalloc p np)
    | _ => none
  | .kallocFail p => match t.running p with
    | some (.alloc np) => some (t.forkFail p np)
    | _ => none
  | .copyuvmFail p => match t.running p with
    | some (.fork np) => some (t.forkFail p np)
    | _ => none
  | .forkDone p => match t.running p with
    | some (.fork np) => some (t.forkDone p np)
    | _ => none
  | .exit p => if t.running p = some .run then t.exit p else none
  | .wait p => if t.running p = some .run then some (t.wait p) else none
  | .sleep p a => if t.running p = some .run then some (t.goToSleep p (.addr a) .sleep) else none
  | .wakeup chan => some (t.wakeup1 (some chan))
  | .kill p pid => if t.running p = some .run then some (t.kill p pid) else none
  | .trace p arg => if t.running p = some .run then some (t.sysTrace p arg) else none
  | .other p v => if t.running p = some .run then some (t.setThread p (.ret v)) else none
  | .fault p => if t.running p = some .run then
      some (t.modify p (fun e => { e with killed := true })) else none
  | .back p => match t.running p with
    | some (.ret _) => some (t.setThread p .run)
    | _ => none
  -- the timer may come anywhere outside of the lock
  | .yield p => if (t.running p).isSome then
      some (t.modify p (fun e => { e with state := .runnable })) else none
  | .dispatch p => if (t.proc p).state = .runnable then some (t.dispatch p) else none

end ProvenXv6.Smp
