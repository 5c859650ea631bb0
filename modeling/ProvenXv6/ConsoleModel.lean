import Mathlib.Logic.Function.Basic
import ProvenXv6.RingBuffer
import ProvenXv6.StepSystem

/-! The input side of console.c. `consoleintr` takes the characters that a driver has, under
cons.lock; `consoleread` runs in segments, from one `acquire` of cons.lock to the next
`sleep` or to its end. A reader may go on at any time: without committed input it sleeps again. -/
namespace ProvenXv6.Console

abbrev Byte := BitVec 8

def INPUT_BUF : ℕ := 128

def ctrlD : Byte := 4
def ctrlH : Byte := 8
def newline : Byte := 10
def carriageReturn : Byte := 13
def ctrlP : Byte := 16
def ctrlU : Byte := 21
def delete : Byte := 127

structure Input where
  buf : ℕ → Byte
  r : BitVec 32
  w : BitVec 32
  e : BitVec 32

/-- The loop of kill line; it ends when e is w. -/
def killLine : ℕ → Input → Input
  | 0, i => i
  | n+1, i =>
    if i.e ≠ i.w ∧ i.buf ((i.e-1).toNat%INPUT_BUF) ≠ newline then killLine n { i with e := i.e-1 }
    else i

/-- One character of `consoleintr`. `getc` returns -1 or a character. -/
def intrChar (i : Input) (c : Byte) : Input :=
  if c = ctrlP then i
  else if c = ctrlU then killLine (i.e-i.w).toNat i
  else if c = ctrlH ∨ c = delete then
    if i.e ≠ i.w then { i with e := i.e-1 } else i
  else if c ≠ 0 ∧ (i.e-i.r).toNat < INPUT_BUF then
    let c := if c = carriageReturn then newline else c
    let i := { i with buf := Function.update i.buf (i.e.toNat%INPUT_BUF) c, e := i.e+1 }
    if c = newline ∨ c = ctrlD ∨ i.e = i.r+BitVec.ofNat 32 INPUT_BUF then { i with w := i.e } else i
  else i

def consoleintr (i : Input) (cs : List Byte) : Input := cs.foldl intrChar i

/-- How a segment of `consoleread` ends. -/
inductive Outcome
  | sleep (n : ℕ)
  | fail
  | ret (value : ℕ)
  deriving DecidableEq, Repr

/-- A segment of `consoleread`, with the bytes it copies to dst. -/
def readLoop (killed : Bool) (target : ℕ) : ℕ → Input → Input × List Byte × Outcome
  | 0, i => (i, [], .ret target)
  | n+1, i =>
    if i.r = i.w then (i, [], if killed then .fail else .sleep (n+1))
    else
      let c := i.buf (i.r.toNat%INPUT_BUF)
      let i := { i with r := i.r+1 }
      if c = ctrlD then
        if n+1 < target then ({ i with r := i.r-1 }, [], .ret (target-(n+1)))
        else (i, [], .ret (target-(n+1)))
      else if c = newline then (i, [c], .ret (target-n))
      else
        let (i, dst, out) := readLoop killed target n i
        (i, c :: dst, out)

/-- The committed characters, how many of them have been read, and the line that is being
edited. -/
structure Disc where
  committed : List Byte
  consumed : ℕ
  line : List Byte

def Disc.unread (d : Disc) : List Byte := d.committed.drop d.consumed

/-- A character edits the line, or is added to it; the line is committed by a newline, by
^D and when the buffer is full. -/
def Disc.key (d : Disc) (c : Byte) : Disc :=
  if c = ctrlP then d
  else if c = ctrlU then { d with line := [] }
  else if c = ctrlH ∨ c = delete then { d with line := d.line.dropLast }
  else if c ≠ 0 ∧ d.unread.length+d.line.length < INPUT_BUF then
    let c := if c = carriageReturn then newline else c
    if c = newline ∨ c = ctrlD ∨ d.unread.length+(d.line.length+1) = INPUT_BUF then
      { d with committed := d.committed ++ (d.line ++ [c]), line := [] }
    else { d with line := d.line ++ [c] }
  else d

/-- How a read of the unread characters ends. -/
inductive Ending
  | full
  | empty
  | newline
  | eof
  deriving DecidableEq, Repr

/-- A read of at most n of the characters: the bytes it copies, how many characters it
takes and how it ends. ^D ends it; it takes the ^D only if it has copied nothing. -/
def take (started : Bool) : ℕ → List Byte → List Byte × ℕ × Ending
  | 0, _ => ([], 0, .full)
  | _+1, [] => ([], 0, .empty)
  | n+1, c :: cs =>
    if c = ctrlD then ([], if started then 0 else 1, .eof)
    else if c = newline then ([c], 1, .newline)
    else
      let (bytes, taken, ending) := take true n cs
      (c :: bytes, taken+1, ending)

def Disc.read (d : Disc) (started : Bool) (n : ℕ) : Disc :=
  { d with consumed := d.consumed+(take started n d.unread).2.1 }

/-- A process in `consoleread`: what it was asked for, what is left, and dst. -/
structure Reader where
  target : ℕ
  n : ℕ
  dst : List Byte

/-- The input, the processes in `consoleread`, what the last call of each has returned
(-1 as none), the bytes copied to dst so far, and the line discipline run beside it. -/
structure Sys (ι : Type) where
  input : Input
  reader : ι → Option Reader
  killed : ι → Bool
  returned : ι → Option (Option ℕ)
  copied : List Byte
  disc : Disc

inductive Event (ι : Type)
  | intr (cs : List Byte)
  | read (p : ι) (n : ℕ)
  | run (p : ι)
  | kill (p : ι)

section
variable {ι : Type} [DecidableEq ι]

/-- How the call that process p is in goes on after a segment. -/
def Sys.finish (s : Sys ι) (p : ι) (rd : Reader) (bytes : List Byte) : Outcome → Sys ι
  | .sleep n => { s with reader := Function.update s.reader p (some { rd with n := n, dst := rd.dst ++ bytes }) }
  | .fail => { s with
      reader := Function.update s.reader p none
      returned := Function.update s.returned p (some none) }
  | .ret value => { s with
      reader := Function.update s.reader p none
      returned := Function.update s.returned p (some (some value)) }

/-- A segment of the call that process p is in. -/
def Sys.segment (s : Sys ι) (p : ι) (rd : Reader) : Sys ι :=
  let out := readLoop (s.killed p) rd.target rd.n s.input
  { s with
    input := out.1
    copied := s.copied ++ out.2.1
    disc := s.disc.read (decide (rd.dst ≠ [])) rd.n }.finish p rd out.2.1 out.2.2

def step (s : Sys ι) : Event ι → Option (Sys ι)
  | .intr cs => some { s with input := consoleintr s.input cs, disc := cs.foldl Disc.key s.disc }
  | .read p n =>
    match s.reader p with
    | some _ => none
    | none => some { s with reader := Function.update s.reader p (some ⟨n, n, []⟩) }
  | .run p => (s.reader p).map (s.segment p)
  | .kill p => some { s with killed := Function.update s.killed p true }

end

/-- The buffer is empty at first. -/
def start (ι : Type) (buf : ℕ → Byte) : Sys ι where
  input := ⟨buf, 0, 0, 0⟩
  reader := fun _ => none
  killed := fun _ => false
  returned := fun _ => none
  copied := []
  disc := ⟨[], 0, []⟩

end ProvenXv6.Console
