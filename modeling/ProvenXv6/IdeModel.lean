import ProvenXv6.BcacheModel
import ProvenXv6.FsLogSpace

/-! ide.c: `iderw` and the interrupt handler, with a controller that works on one command at a time.
What a process or the handler does under idelock is one step. Only the handler wakes a process that sleeps in `iderw`:
`kill` does so too, after which the loop sleeps again, and is left out. -/
namespace ProvenXv6.Ide
open Chains StepSystem
open Bcache (NBUF Id Node Buf set2)
open Fs (FSSIZE)

variable {ι δ : Type}

/-- What `idestart` sends to the controller: the drive, the sector, and the data of a write. -/
inductive Command (δ : Type)
  | read (drive sector : ℕ)
  | write (drive sector : ℕ) (data : δ)

/-- The controller has nothing to do, is at work, or has interrupted, with the sector that it has read. -/
inductive Controller (δ : Type)
  | idle
  | busy (c : Command δ)
  | ready (input : Option δ)

/-- Where a process is: outside `iderw`, asleep in it, or woken up. -/
inductive Pc
  | run
  | sleeping (b : Id)
  | woken (b : Id)
  deriving DecidableEq

/-- How a step can fail: a panic, a loop along the queue that does not end, or a command for a controller that has
one already. -/
inductive Stop
  | panic (msg : String)
  | hangs
  | overrun

/-- qnext of no buffer is idequeue. The requests and the data of their buffers afterwards are recorded. -/
structure Sys (ι δ : Type) where
  buf : Id → Buf ι δ
  qnext : Node → Node
  havedisk1 : Bool
  controller : Controller δ
  disk : ℕ → ℕ → δ
  pc : ι → Pc
  asked : List (Id × Command δ)
  answered : List ((Id × Command δ) × δ)

inductive Event (ι δ : Type)
  | iderw (p : ι) (b : Id)
  | ideintr
  | resume (p : ι)
  | finish (ok : Bool)
  | other (b : Id) (v : Buf ι δ)

/-- Whether the request for the buffer is finished. -/
def done (v : Buf ι δ) : Bool := v.valid && !v.dirty

def Sys.command (s : Sys ι δ) (b : Id) : Command δ :=
  let v := s.buf b
  if v.dirty then .write (v.dev%2) v.blockno v.data else .read (v.dev%2) v.blockno

def Sys.idestart (s : Sys ι δ) : Node → Except Stop (Sys ι δ)
  | none => .error (.panic "idestart")
  | some b =>
    if (s.buf b).blockno ≥ FSSIZE then .error (.panic "incorrect blockno")
    else match s.controller with
      | .idle => .ok { s with controller := .busy (s.command b) }
      | _ => .error .overrun

/-- b is put at the end of the queue. -/
def Sys.append (s : Sys ι δ) (b : Id) : Except Stop (Sys ι δ) :=
  let s := { s with qnext := Function.update s.qnext (some b) none, asked := s.asked ++ [(b, s.command b)] }
  match walk s.qnext (fun a => s.qnext a = none) (NBUF+1) none with
  | none => .error .hangs
  | some a => .ok { s with qnext := Function.update s.qnext a (some b) }

/-- "Start disk if necessary." -/
def Sys.startFirst (s : Sys ι δ) (b : Id) : Except Stop (Sys ι δ) :=
  if s.qnext none = some b then s.idestart (some b) else .ok s

/-- The data of the buffer when the controller has interrupted. -/
def Sys.input (s : Sys ι δ) (b : Id) : δ :=
  match (s.buf b).dirty, s.controller with
  | false, .ready (some d) => d
  | _, _ => (s.buf b).data

/-- The first request is finished, and the processes that wait for its buffer are woken up. -/
def Sys.serve (s : Sys ι δ) (b : Id) : Sys ι δ :=
  { s with
    qnext := Function.update s.qnext none (s.qnext (some b))
    buf := Function.update s.buf b { s.buf b with valid := true, dirty := false, data := s.input b }
    controller := .idle
    pc := fun p => if s.pc p = .sleeping b then .woken b else s.pc p
    answered := s.answered ++ [((b, s.command b), s.input b)] }

def Sys.ideintr (s : Sys ι δ) : Except Stop (Sys ι δ) :=
  match s.qnext none with
  | none => .ok s
  | some b =>
    let s := s.serve b
    if s.qnext none ≠ none then s.idestart (s.qnext none) else .ok s

def Sys.setBuf (s : Sys ι δ) (b : Id) (v : Buf ι δ) : Sys ι δ := { s with buf := Function.update s.buf b v }

/-- The controller carries out its command, or fails. -/
def Sys.finish (s : Sys ι δ) (ok : Bool) : Option (Sys ι δ) :=
  match s.controller with
  | .busy (.read d n) => some { s with controller := .ready (if ok then some (s.disk d n) else none) }
  | .busy (.write d n x) =>
    some { s with controller := .ready none, disk := if ok then set2 s.disk d n x else s.disk }
  | _ => none

section
variable [DecidableEq ι]

/-- The loop of `iderw` that waits for the request. -/
def Sys.await (s : Sys ι δ) (p : ι) (b : Id) : Sys ι δ :=
  { s with pc := Function.update s.pc p (if done (s.buf b) then .run else .sleeping b) }

def Sys.iderw (s : Sys ι δ) (p : ι) (b : Id) : Except Stop (Sys ι δ) :=
  if (s.buf b).lock ≠ some p then .error (.panic "iderw: buf not locked")
  else if done (s.buf b) then .error (.panic "iderw: nothing to do")
  else if (s.buf b).dev ≠ 0 ∧ s.havedisk1 = false then .error (.panic "iderw: ide disk 1 not present")
  else do
    let s ← s.append b
    let s ← s.startFirst b
    pure (s.await p b)

/-- A step, if it can be taken; a panic is no step. A buffer that is not in `iderw` may be changed in any way by the
rest of the kernel. -/
def step (s : Sys ι δ) : Event ι δ → Option (Sys ι δ)
  | .iderw p b => if s.pc p = .run then (s.iderw p b).toOption else none
  | .ideintr =>
    match s.controller with
    | .busy _ => none
    | _ => s.ideintr.toOption
  | .resume p =>
    match s.pc p with
    | .woken b => some (s.await p b)
    | _ => none
  | .finish ok => s.finish ok
  | .other b v =>
    if (s.buf b).lock.all fun p => s.pc p = .run then some (s.setBuf b v) else none

end

end ProvenXv6.Ide
