import ProvenXv6.Chains
import ProvenXv6.StepSystem

/-! bio.c with the sleep locks of its buffers, `log_write` as far as it concerns a buffer, and
`iderw` with a disk that keeps what is written to it. Each part of a call under bcache.lock or
log.lock, and each transfer of the disk, is one step; a process that waits for a sleep lock or
for the disk has its next step when it goes on. A commit is a sequence of these calls. -/
namespace ProvenXv6.Bcache
open Chains StepSystem

def NBUF : ℕ := 30

abbrev Id := Fin NBUF

/-- The nodes of the list: bcache.head, or a buffer. -/
abbrev Node := Option Id

variable {ι δ : Type}

/-- A buffer; lock is the process that holds the sleep lock. -/
structure Buf (ι δ : Type) where
  dev : ℕ
  blockno : ℕ
  valid : Bool
  dirty : Bool
  refcnt : ℕ
  lock : Option ι
  data : δ

/-- The buffer is used for another block. -/
def Buf.recycle (v : Buf ι δ) (dev blockno : ℕ) : Buf ι δ :=
  { v with dev := dev, blockno := blockno, valid := false, dirty := false, refcnt := 1 }

structure Cache (ι δ : Type) where
  buf : Id → Buf ι δ
  next : Node → Node
  prev : Node → Node

/-- b is put behind bcache.head. -/
def Cache.pushFront (c : Cache ι δ) (b : Id) : Cache ι δ :=
  let c := { c with next := Function.update c.next (some b) (c.next none) }
  let c := { c with prev := Function.update c.prev (some b) none }
  let c := { c with prev := Function.update c.prev (c.next none) (some b) }
  { c with next := Function.update c.next none (some b) }

/-- The buffers are zero before, but for the data. -/
def binit (data : Id → δ) : Cache ι δ :=
  (List.finRange NBUF).foldl Cache.pushFront
    ⟨fun b => ⟨0, 0, false, false, 0, none, data b⟩, fun _ => none, fun _ => none⟩

def Cache.set (c : Cache ι δ) (b : Id) (v : Buf ι δ) : Cache ι δ :=
  { c with buf := Function.update c.buf b v }

/-- How the loops of `bget` end. -/
inductive Got
  | cached (b : Id)
  | recycle (b : Id)
  | noBuffers
  | hangs
  deriving DecidableEq

def Cache.isCached (c : Cache ι δ) (dev blockno : ℕ) : Node → Bool
  | none => true
  | some b => (c.buf b).dev = dev ∧ (c.buf b).blockno = blockno

def Cache.isUnused (c : Cache ι δ) : Node → Bool
  | none => true
  | some b => (c.buf b).refcnt = 0 ∧ (c.buf b).dirty = false

/-- The second loop, from the end of the list. -/
def Cache.findUnused (c : Cache ι δ) : Got :=
  match walk c.prev c.isUnused (NBUF+1) (c.prev none) with
  | none => .hangs
  | some (some b) => .recycle b
  | some none => .noBuffers

/-- Both loops run to bcache.head or to a buffer to take. -/
def Cache.bget (c : Cache ι δ) (dev blockno : ℕ) : Got :=
  match walk c.next (c.isCached dev blockno) (NBUF+1) (c.next none) with
  | none => .hangs
  | some (some b) => .cached b
  | some none => c.findUnused

/-- b is taken out of the list. -/
def Cache.unlink (c : Cache ι δ) (b : Id) : Cache ι δ :=
  let c := { c with prev := Function.update c.prev (c.next (some b)) (c.prev (some b)) }
  { c with next := Function.update c.next (c.prev (some b)) (c.next (some b)) }

/-- The second part of `brelse`, under bcache.lock. -/
def Cache.release (c : Cache ι δ) (b : Id) : Cache ι δ :=
  let refcnt := (c.buf b).refcnt-1
  let c := c.set b { c.buf b with refcnt := refcnt }
  if refcnt = 0 then (c.unlink b).pushFront b else c

/-- Where a process is: it runs, it is in `bget` before `acquiresleep` returns, in `iderw` for a
`bread` or for a `bwrite`, or in `brelse` after `releasesleep`. -/
inductive Pc
  | run
  | acquire (b : Id) (dev blockno : ℕ)
  | read (b : Id) (dev blockno : ℕ)
  | write (b : Id)
  | release (b : Id)
  deriving DecidableEq

/-- last is the data of the last `bwrite` or `log_write` of each block, or what the disk had at
first; a buffer is unsaved if its data changed since. -/
structure Sys (ι δ : Type) where
  cache : Cache ι δ
  disk : ℕ → ℕ → δ
  pc : ι → Pc
  last : ℕ → ℕ → δ
  unsaved : Id → Bool

inductive Event (ι δ : Type)
  | bread (p : ι) (dev blockno : ℕ)
  | acquiresleep (p : ι)
  | ideintr (p : ι)
  | store (p : ι) (b : Id) (d : δ)
  | bwrite (p : ι) (b : Id)
  | log_write (p : ι) (b : Id)
  | brelse (p : ι) (b : Id)
  | release (p : ι)

def set2 {γ : Type} (f : ℕ → ℕ → γ) (i j : ℕ) (v : γ) : ℕ → ℕ → γ :=
  Function.update f i (Function.update (f i) j v)

section
variable [DecidableEq ι]

def Sys.goto (s : Sys ι δ) (p : ι) (pc : Pc) : Sys ι δ := { s with pc := Function.update s.pc p pc }

def Sys.setBuf (s : Sys ι δ) (b : Id) (v : Buf ι δ) : Sys ι δ :=
  { s with cache := s.cache.set b v }

/-- The data of b is the block's data from now on. -/
def Sys.save (s : Sys ι δ) (b : Id) : Sys ι δ :=
  { s with
    last := set2 s.last (s.cache.buf b).dev (s.cache.buf b).blockno (s.cache.buf b).data
    unsaved := Function.update s.unsaved b false }

/-- A step, if the process is where it can take it; a panic is no step. -/
def step (s : Sys ι δ) : Event ι δ → Option (Sys ι δ)
  | .bread p dev blockno =>
    if s.pc p = .run then
      match s.cache.bget dev blockno with
      | .cached b =>
        let v := s.cache.buf b
        some ((s.setBuf b { v with refcnt := v.refcnt+1 }).goto p (.acquire b dev blockno))
      | .recycle b =>
        let v := s.cache.buf b
        some ((s.setBuf b (v.recycle dev blockno)).goto p (.acquire b dev blockno))
      | .noBuffers => none
      | .hangs => none
    else none
  | .acquiresleep p =>
    match s.pc p with
    | .acquire b dev blockno =>
      let v := s.cache.buf b
      if v.lock = none then
        let s := s.setBuf b { v with lock := some p }
        some (s.goto p (if v.valid then .run else .read b dev blockno))
      else none
    | _ => none
  | .ideintr p =>
    match s.pc p with
    | .read b _ _ =>
      let v := s.cache.buf b
      let data := if v.dirty then v.data else s.disk v.dev v.blockno
      some ((s.setBuf b { v with valid := true, dirty := false, data := data }).goto p .run)
    | .write b =>
      let v := s.cache.buf b
      let s := { s with disk := set2 s.disk v.dev v.blockno v.data }
      some ((s.setBuf b { v with valid := true, dirty := false }).goto p .run)
    | _ => none
  | .store p b d =>
    let v := s.cache.buf b
    if s.pc p = .run ∧ v.lock = some p then
      some { s.setBuf b { v with data := d } with unsaved := Function.update s.unsaved b true }
    else none
  | .bwrite p b =>
    let v := s.cache.buf b
    if s.pc p = .run ∧ v.lock = some p then
      some (((s.save b).setBuf b { v with dirty := true }).goto p (.write b))
    else none
  | .log_write p b =>
    let v := s.cache.buf b
    if s.pc p = .run ∧ v.lock = some p then some ((s.save b).setBuf b { v with dirty := true })
    else none
  | .brelse p b =>
    let v := s.cache.buf b
    if s.pc p = .run ∧ v.lock = some p then
      some ((s.setBuf b { v with lock := none }).goto p (.release b))
    else none
  | .release p =>
    match s.pc p with
    | .release b => some ({ s with cache := s.cache.release b }.goto p .run)
    | _ => none

end

/-- Calls are for devices other than 0, and what a holder changed it writes before it releases
the buffer. -/
def Allowed (s : Sys ι δ) : Event ι δ → Prop
  | .bread _ dev _ => dev ≠ 0
  | .brelse _ b => s.unsaved b = false
  | _ => True

def start (data : Id → δ) (disk : ℕ → ℕ → δ) : Sys ι δ :=
  ⟨binit data, disk, fun _ => .run, disk, fun _ => false⟩

end ProvenXv6.Bcache
