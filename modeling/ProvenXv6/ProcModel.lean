import Mathlib.Algebra.Group.Nat.Defs
import Mathlib.Data.Fintype.Basic
import Mathlib.Data.Int.Basic
import Mathlib.Data.List.FinRange
import ProvenXv6.StepSystem

/-! The process table of proc.c and its lock-protected steps on one CPU. The
memory image, the open files and the saved registers of a process do not decide
what these steps do and are left out. -/
namespace ProvenXv6.Ptable

def NPROC : ℕ := 64

theorem NPROC_pos : 0 < NPROC := by decide

def TIME_SLICE : ℤ := 10000000

/-- A pointer into `ptable.proc`. -/
abbrev Slot := Fin NPROC

/-- Arithmetic on a 32-bit `int`. -/
def wrap32 (x : ℤ) : ℤ := Int.bmod x (2^32)

inductive ProcState
  | unused | embryo | sleeping | runnable | running | zombie
  deriving DecidableEq, Repr

/-- A sleep channel: the address of a table entry, or any other address. -/
inductive Chan
  | proc (p : Slot)
  | addr (a : ℕ)
  deriving DecidableEq, Repr

/-- Where the kernel thread of a process stands: outside the steps below, in
`fork` after `allocproc` returned np, or inside `sched` called by `sleep`, the
last one apart for the `sleep` of `wait`. -/
inductive Thread
  | user
  | fork (np : Slot)
  | sleep
  | wait
  deriving DecidableEq, Repr

/-- `struct proc`; a null pointer is none. -/
structure Proc where
  state : ProcState
  pid : ℤ
  parent : Option Slot
  chan : Option Chan
  killed : Bool
  priority : ℤ
  weight : ℤ
  thread : Thread
  deriving DecidableEq, Repr

/-- Who has the CPU: nobody before `userinit`, the scheduler with `ptable.lock`
free, a process, or the scheduler just after the process called `sched`, with
the lock held. -/
inductive Cpu
  | boot
  | idle
  | running (p : Slot)
  | switched (p : Slot)
  deriving DecidableEq, Repr

structure Kernel where
  proc : Slot → Proc
  minPriority : ℤ
  initproc : Option Slot
  weight : ℤ
  nextpid : ℤ
  cpu : Cpu

namespace Kernel

/-- The zeroed table and the initialized globals. -/
def start : Kernel where
  proc := fun _ => ⟨.unused, 0, none, none, false, 0, 0, .user⟩
  minPriority := 0
  initproc := none
  weight := 1
  nextpid := 1
  cpu := .boot

def modify (k : Kernel) (p : Slot) (f : Proc → Proc) : Kernel :=
  { k with proc := Function.update k.proc p (f (k.proc p)) }

/-- The first entry that satisfies a test, as a table scan finds it. -/
def scan (k : Kernel) (test : Proc → Bool) : Option Slot :=
  (List.finRange NPROC).find? (fun p => test (k.proc p))

/-- The part of `allocproc` under the lock. -/
def allocproc (k : Kernel) : Option (Slot × Kernel) :=
  (k.scan (fun p => p.state = .unused)).map fun p =>
    (p, { k.modify p (fun e => { e with
            state := .embryo, pid := k.nextpid, weight := k.weight, priority := k.minPriority }) with
          nextpid := wrap32 (k.nextpid+1), weight := wrap32 (k.weight+1) })

def userinit (k : Kernel) : Option Kernel :=
  (allocproc { k with minPriority := 3 }).map fun (p, k) =>
    { k.modify p (fun e => { e with state := .runnable }) with initproc := some p, cpu := .idle }

/-- `fork` up to the end of the locked part of `allocproc`. -/
def fork (k : Kernel) (p : Slot) : Kernel :=
  match k.allocproc with
  | none => k
  | some (np, k) => k.modify p (fun e => { e with thread := .fork np })

/-- The ways out of `fork` when `kalloc` or `copyuvm` fails. -/
def forkFail (k : Kernel) (p np : Slot) : Kernel :=
  (k.modify np (fun e => { e with state := .unused })).modify p (fun e => { e with thread := .user })

/-- The rest of a successful `fork`. -/
def forkDone (k : Kernel) (p np : Slot) : Kernel :=
  (k.modify np (fun e => { e with parent := some p, state := .runnable })).modify p
    (fun e => { e with thread := .user })

def wakeup1 (k : Kernel) (chan : Option Chan) : Kernel :=
  { k with proc := fun p =>
      if (k.proc p).state = .sleeping ∧ (k.proc p).chan = chan then
        { k.proc p with state := .runnable, priority := k.minPriority }
      else k.proc p }

/-- The loop body of `exit` that passes an abandoned child to init. -/
def abandon (cur : Slot) (k : Kernel) (p : Slot) : Kernel :=
  if (k.proc p).parent = some cur then
    let k := k.modify p (fun e => { e with parent := k.initproc })
    if (k.proc p).state = .zombie then k.wakeup1 (k.initproc.map .proc) else k
  else k

/-- `exit`; init exiting is a panic. -/
def exit (k : Kernel) (p : Slot) : Option Kernel :=
  if k.initproc = some p then none
  else
    let k := k.wakeup1 ((k.proc p).parent.map .proc)
    let k := (List.finRange NPROC).foldl (abandon p) k
    some { k.modify p (fun e => { e with state := .zombie }) with cpu := .switched p }

/-- The end of `sleep`'s first half: into the scheduler. -/
def goToSleep (k : Kernel) (p : Slot) (chan : Chan) (thread : Thread) : Kernel :=
  { k.modify p (fun e => { e with chan := some chan, state := .sleeping, thread := thread }) with
    cpu := .switched p }

/-- One pass of the loop of `wait`: reap the first exited child, give up, or sleep. -/
def wait (k : Kernel) (p : Slot) : Kernel :=
  match k.scan (fun e => e.parent = some p ∧ e.state = .zombie) with
  | some q => k.modify q (fun e => { e with
      pid := 0, parent := none, killed := false, state := .unused })
  | none =>
    if (k.scan (fun e => e.parent = some p)).isNone ∨ (k.proc p).killed then k
    else k.goToSleep p (.proc p) .wait

def kill (k : Kernel) (pid : ℤ) : Kernel :=
  match k.scan (fun e => e.pid = pid) with
  | none => k
  | some q => k.modify q (fun e => { e with
      killed := true, state := if e.state = .sleeping then .runnable else e.state })

def yield (k : Kernel) (p : Slot) : Kernel :=
  { k.modify p (fun e => { e with state := .runnable }) with cpu := .switched p }

/-- The pick loop of `scheduler`; none when it runs to the end of the table. -/
def pick (k : Kernel) : Option Slot :=
  k.scan (fun e => e.state = .runnable ∧ e.priority = k.minPriority)

/-- From the dispatch of p to the point where p releases the lock or calls
`sched` again: a process that was asleep first clears its channel. -/
def dispatch (k : Kernel) (p : Slot) : Kernel :=
  let k := { k.modify p (fun e => { e with state := .running }) with cpu := .running p }
  match (k.proc p).thread with
  | .user => k
  | .fork _ => k
  | .sleep => k.modify p (fun e => { e with chan := none, thread := .user })
  | .wait => (k.modify p (fun e => { e with chan := none, thread := .user })).wait p

end Kernel

/-- What the two copies of proc.c and sysproc.c do differently. -/
structure Version where
  /-- the weight after `weightset` is called with an argument -/
  weightset : ℤ → ℤ → ℤ
  /-- the minimum recomputed after a slice -/
  minimum : Kernel → ℤ
  /-- whether the scheduler notices that the pick loop found nothing -/
  notices : Bool

namespace Version
open Kernel

/-- 'update scheduler': a zero weight is rejected; the minimum is taken over the
RUNNABLE entries and kept when there is none. -/
def update : Version where
  weightset := fun old w => if w = 0 then old else w
  minimum := fun k =>
    let min := (List.finRange NPROC).foldl (fun (min : Option ℤ) p =>
      if (k.proc p).state ≠ .runnable then min
      else match min with
        | none => some (k.proc p).priority
        | some m => some (if (k.proc p).priority < m then (k.proc p).priority else m)) none
    min.getD k.minPriority
  notices := true

/-- The built kernel, xv6-public: the argument goes straight into the entry; the
minimum starts from entry 0 whatever its state; a failed pick compares with NULL. -/
def built : Version where
  weightset := fun _ w => w
  minimum := fun k =>
    (List.finRange NPROC).foldl (fun min p =>
      if (k.proc p).state ≠ .runnable then min
      else if min > (k.proc p).priority then (k.proc p).priority else min) (k.proc ⟨0, NPROC_pos⟩).priority
  notices := false

/-- The entry, by its index, that the scheduler switches to: p as the pick loop
leaves it, unless the scheduler goes back to waiting. -/
def target (V : Version) (k : Kernel) : Option ℕ :=
  match k.pick with
  | some p => some p.val
  | none => if V.notices then none else some NPROC

/-- After `swtch` returns; a zero weight is a divide error in the kernel. -/
def sliceDone (V : Version) (k : Kernel) (p : Slot) : Option Kernel :=
  if (k.proc p).weight = 0 then none
  else
    let k := k.modify p (fun e => { e with
      priority := wrap32 (e.priority+Int.tdiv TIME_SLICE e.weight) })
    some { k with minPriority := V.minimum k, cpu := .idle }

end Version

inductive Event
  | userinit
  | fork
  | forkFail
  | forkDone
  | exit
  | wait
  | sleep (chan : Chan)
  | wakeup (chan : Chan)
  | kill (pid : ℤ)
  | yield
  | weightset (w : ℤ)
  | pick
  | sliceDone
  deriving DecidableEq, Repr

namespace Kernel

/-- The process on the CPU, when its thread may start another step. -/
def user (k : Kernel) : Option Slot :=
  match k.cpu with
  | .running p => if (k.proc p).thread = .user then some p else none
  | _ => none

/-- The process on the CPU and its child, inside `fork`. -/
def forking (k : Kernel) : Option (Slot × Slot) :=
  match k.cpu with
  | .running p =>
    match (k.proc p).thread with
    | .fork np => some (p, np)
    | _ => none
  | _ => none

/-- The process on the CPU, with the lock free. -/
def current (k : Kernel) : Option Slot :=
  match k.cpu with
  | .running p => some p
  | _ => none

end Kernel

/-- One step. The running process makes the steps of its system calls; a timer
interrupt may make it yield and an interrupt may wake processes whenever the
lock is free. None: the event cannot happen, or the kernel stops. -/
def Version.step (V : Version) (k : Kernel) : Event → Option Kernel
  | .userinit => if k.cpu = .boot then k.userinit else none
  | .fork => k.user.map k.fork
  | .forkFail => k.forking.map fun (p, np) => k.forkFail p np
  | .forkDone => k.forking.map fun (p, np) => k.forkDone p np
  | .exit => k.user.bind k.exit
  | .wait => k.user.map k.wait
  | .sleep chan => k.user.map fun p => k.goToSleep p chan .sleep
  | .wakeup chan =>
    match k.cpu with
    | .idle => some (k.wakeup1 (some chan))
    | .running _ => some (k.wakeup1 (some chan))
    | _ => none
  | .kill pid => k.user.map fun _ => k.kill pid
  | .yield => k.current.map k.yield
  | .weightset w => k.user.map fun p =>
    k.modify p (fun e => { e with weight := V.weightset e.weight w })
  | .pick =>
    if k.cpu = .idle then
      match V.target k with
      | none => some k
      -- a switch to what lies behind the table has no defined effect
      | some i => if h : i < NPROC then some (k.dispatch ⟨i, h⟩) else none
    else none
  | .sliceDone =>
    match k.cpu with
    | .switched p => V.sliceDone k p
    | _ => none

end ProvenXv6.Ptable
