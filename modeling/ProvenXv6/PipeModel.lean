import Mathlib.Logic.Function.Basic
import ProvenXv6.RingBuffer
import ProvenXv6.StepSystem

/-! One pipe of pipe.c with `pipewrite`, `piperead` and `pipeclose`, and `sleep`, `wakeup`
and `kill` of proc.c as they act on it. A step of a process is one statement; the
statements of different processes interleave as the two locks allow. A call on a pipe that
was freed is not modelled: `fileclose` closes an end when no file refers to it. -/
namespace ProvenXv6.Pipes

abbrev Byte := BitVec 8

def PIPESIZE : ℕ := 512

structure Pipe where
  data : ℕ → Byte
  nread : BitVec 32
  nwrite : BitVec 32
  readopen : Bool
  writeopen : Bool

/-- The channels &p->nread and &p->nwrite. -/
inductive Chan
  | nread
  | nwrite
  deriving DecidableEq, Repr

/-- The arguments of a `pipewrite` call, with the number of the call: n is the length of src. -/
structure Write where
  call : ℕ
  src : List Byte
  deriving DecidableEq, Repr

/-- Where a call goes on when `sleep` returns. -/
inductive Resume
  | read (n : ℕ)
  | write (w : Write) (i : ℕ)
  deriving DecidableEq, Repr

def Resume.chan : Resume → Chan
  | .read _ => .nread
  | .write _ _ => .nwrite

inductive Ret
  /-- return -1; for a write, whether it stored bytes since it took the lock -/
  | fail (moved : Bool)
  | wrote (w : Write)
  | read (buf : List Byte)
  deriving DecidableEq, Repr

/-- The next statement of a call that holds the lock of the pipe. -/
inductive Stmt
  /-- the loop test of `piperead` -/
  | readTest (n : ℕ)
  /-- the copy loop, with the bytes copied to addr -/
  | readCopy (n : ℕ) (buf : List Byte)
  /-- the loop tests of `pipewrite`; it took the lock at index start -/
  | writeTest (w : Write) (start i : ℕ)
  | closeEnd (writable : Bool)
  | closeFree
  | wakeup (c : Chan) (next : Stmt)
  | sleep (r : Resume)
  | release (ret : Ret)
  deriving DecidableEq, Repr

def Resume.stmt : Resume → Stmt
  | .read n => .readTest n
  | .write w i => .writeTest w i i

/-- Where a process is. -/
inductive Pc
  | user
  /-- at `acquire(&p->lock)` -/
  | acquire (k : Stmt)
  | hold (k : Stmt)
  /-- in `sleep`, which has taken ptable.lock and released the lock of the pipe -/
  | going (r : Resume)
  /-- in `sleep`, at `sched` -/
  | asleep (r : Resume)
  deriving DecidableEq, Repr

structure Proc where
  pc : Pc
  /-- state == SLEEPING -/
  sleeping : Bool
  chan : Option Chan
  killed : Bool
  deriving DecidableEq, Repr

/-- The pipe, its lock, ptable.lock and the processes; then the bytes stored so far, each
with the number of its call, the results of the `piperead` calls that returned and the
arguments of the `pipewrite` calls. -/
structure Sys (ι : Type) where
  pipe : Pipe
  lock : Option ι
  ptlock : Option ι
  freed : Bool
  proc : ι → Proc
  stored : List (ℕ × Byte)
  reads : List (List Byte)
  writes : List (List Byte)

def Pipe.empty (p : Pipe) : Prop := p.nread = p.nwrite

def Pipe.full (p : Pipe) : Prop := p.nwrite = p.nread+BitVec.ofNat 32 PIPESIZE

instance (p : Pipe) : Decidable p.empty := inferInstanceAs (Decidable (_ = _))

instance (p : Pipe) : Decidable p.full := inferInstanceAs (Decidable (_ = _))

/-- A statement that only reads and writes the pipe, with the byte it stores. -/
def advance (p : Pipe) (killed : Bool) : Stmt → Option (Pipe × Stmt × List (ℕ × Byte))
  | .readTest n =>
    if p.empty ∧ p.writeopen then
      if killed then some (p, .release (.fail false), [])
      else some (p, .sleep (.read n), [])
    else some (p, .readCopy n [], [])
  | .readCopy n buf =>
    if buf.length < n ∧ ¬p.empty then
      some ({ p with nread := p.nread+1 }, .readCopy n (buf ++ [p.data (p.nread.toNat%PIPESIZE)]), [])
    else some (p, .wakeup .nwrite (.release (.read buf)), [])
  | .writeTest w start i =>
    match w.src[i]? with
    | none => some (p, .wakeup .nread (.release (.wrote w)), [])
    | some b =>
      if p.full then
        if ¬p.readopen ∨ killed then some (p, .release (.fail (decide (start < i))), [])
        else some (p, .wakeup .nread (.sleep (.write w i)), [])
      else
        some ({ p with data := Function.update p.data (p.nwrite.toNat%PIPESIZE) b, nwrite := p.nwrite+1 },
          .writeTest w start (i+1), [(w.call, b)])
  | .closeEnd true => some ({ p with writeopen := false }, .wakeup .nread .closeFree, [])
  | .closeEnd false => some ({ p with readopen := false }, .wakeup .nwrite .closeFree, [])
  | _ => none

inductive Call
  | read (n : ℕ)
  | write (src : List Byte)
  | close (writable : Bool)

/-- The first statement of a call under the lock; n numbers a write. -/
def Call.stmt (n : ℕ) : Call → Stmt
  | .read n => .readTest n
  | .write src => .writeTest ⟨n, src⟩ 0 0
  | .close writable => .closeEnd writable

def Call.srcs : Call → List (List Byte)
  | .write src => [src]
  | _ => []

inductive Event (ι : Type)
  | call (p : ι) (c : Call)
  | run (p : ι)
  | kill (p : ι)

section
variable {ι : Type} [DecidableEq ι]

def Sys.modify (s : Sys ι) (p : ι) (f : Proc → Proc) : Sys ι :=
  { s with proc := Function.update s.proc p (f (s.proc p)) }

def Sys.goto (s : Sys ι) (p : ι) (pc : Pc) : Sys ι := s.modify p fun e => { e with pc := pc }

/-- `wakeup1` -/
def Sys.wake (s : Sys ι) (c : Chan) : Sys ι :=
  { s with proc := fun q =>
      if (s.proc q).sleeping ∧ (s.proc q).chan = some c then { s.proc q with sleeping := false } else s.proc q }

/-- The bytes that a call returns to its caller. -/
def Ret.bytes : Ret → List (List Byte)
  | .read buf => [buf]
  | _ => []

/-- The next statement of a process that holds the lock. -/
def exec (s : Sys ι) (p : ι) : Stmt → Option (Sys ι)
  | .wakeup c next => if s.ptlock = none then some ((s.wake c).goto p (.hold next)) else none
  | .sleep r =>
    if s.ptlock = none then some ({ s with lock := none, ptlock := some p }.goto p (.going r)) else none
  | .release ret => some ({ s with lock := none, reads := s.reads ++ ret.bytes }.goto p .user)
  | .closeFree =>
    some ({ s with lock := none, freed := ¬s.pipe.readopen ∧ ¬s.pipe.writeopen }.goto p .user)
  | k => (advance s.pipe (s.proc p).killed k).map fun (pipe, next, new) =>
      { s with pipe := pipe, stored := s.stored ++ new }.goto p (.hold next)

def step (s : Sys ι) : Event ι → Option (Sys ι)
  | .call p c =>
    if (s.proc p).pc = .user then
      some ({ s with writes := s.writes ++ c.srcs }.goto p (.acquire (c.stmt s.writes.length)))
    else none
  | .run p =>
    match (s.proc p).pc with
    | .user => none
    | .acquire k =>
      if s.lock = none ∧ s.freed = false then some ({ s with lock := some p }.goto p (.hold k)) else none
    | .hold k => exec s p k
    | .going r =>
      some ({ s with ptlock := none }.modify p fun e =>
        { e with pc := .asleep r, chan := some r.chan, sleeping := true })
    | .asleep r =>
      if (s.proc p).sleeping = false ∧ s.ptlock = none then
        some (s.modify p fun e => { e with pc := .acquire r.stmt, chan := none })
      else none
  | .kill p =>
    if s.ptlock = none then some (s.modify p fun e => { e with killed := true, sleeping := false }) else none

end

/-- `pipealloc`: an empty pipe, open at both ends, whose counters start at 0. -/
def start (ι : Type) (data : ℕ → Byte) : Sys ι where
  pipe := ⟨data, 0, 0, true, true⟩
  lock := none
  ptlock := none
  freed := false
  proc := fun _ => ⟨.user, false, none, false⟩
  stored := []
  reads := []
  writes := []

end ProvenXv6.Pipes
