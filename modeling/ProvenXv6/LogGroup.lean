import Mathlib.Data.Finset.Insert
import Mathlib.Data.Fintype.Basic
import Mathlib.Logic.Function.Basic
import ProvenXv6.LogModel

/-! Group commit of xv6-public/log.c: `begin_op`, `log_write`, `end_op` and `commit`
of any number of processes, one part under the lock at a time. -/
namespace ProvenXv6.Log
open CrashLogic

def MAXOPBLOCKS : ℕ := 10

deriving instance DecidableEq for Buf

theorem LogHeader.length_append_le {lh : LogHeader} (h : lh.block.length < LOGSIZE) (b : BlockNo) :
    (lh.block ++ [b]).length ≤ LOGSIZE := by
  simp only [List.length_append, List.length_singleton]
  omega

namespace LogState

/-- The first test of `log_write`. -/
def TooBig (L : LogArea) (s : LogState) : Prop :=
  s.lh.block.length ≥ LOGSIZE ∨ (s.lh.block.length:ℤ) ≥ L.size-1

instance (L : LogArea) (s : LogState) : Decidable (s.TooBig L) := inferInstanceAs (Decidable (_ ∨ _))

/-- The part of `log_write` under the lock. None: the entry is past the array. -/
def record (s : LogState) (b : Buf) : Option LogState :=
  if s.lh.block.contains b.blockno then
    some { s with pinned := Function.update s.pinned b.blockno (some b.data) }
  else if h : s.lh.block.length < LOGSIZE then
    some { s with
      lh := ⟨s.lh.block ++ [b.blockno], LogHeader.length_append_le h b.blockno⟩
      pinned := Function.update s.pinned b.blockno (some b.data) }
  else none

/-- `log_write` of a process that nobody comes between. -/
theorem logWrite_eq_record (L : LogArea) (s : LogState) (b : Buf) :
    s.logWrite L b = if s.TooBig L then none else if s.outstanding < 1 then none else s.record b := by
  by_cases hbig : s.TooBig L
  · rw [if_pos hbig]
    exact dif_pos hbig
  · rw [if_neg hbig]
    have hlen : s.lh.block.length < LOGSIZE := not_le.mp fun h => hbig (Or.inl h)
    refine (dif_neg hbig).trans ?_
    by_cases hmem : b.blockno ∈ s.lh.block <;> simp [record, hmem, hlen]

end LogState

/-- The disk after a program that runs to its end. -/
def runOn (p : Prog BlockNo Block) (d : Disk) : Option Disk := (p d).map (applyWrites · d)

/-- What `commit` does next, and the end of `end_op` after it. -/
inductive Stage
  | writeLog
  | writeHead
  | installTrans
  | clear
  | erase
  | done
  deriving DecidableEq, Repr

/-- Where a process is: outside of every operation, awake or asleep in the loop of
`begin_op`, in its operation, in `log_write` past the tests, or in `commit`. -/
inductive Phase
  | idle
  | entering
  | asleep
  | inOp
  | logging (b : Buf)
  | commit (stage : Stage)
  deriving DecidableEq

/-- Between the end of `begin_op` and `end_op`. -/
def Phase.inside : Phase → Bool
  | .inOp => true
  | .logging _ => true
  | _ => false

def Phase.wake : Phase → Phase
  | .asleep => .entering
  | ph => ph

inductive Panic
  /-- the message "too big a transaction" -/
  | tooBig
  /-- the message "log_write outside of trans" -/
  | outsideOfTrans
  /-- the message "log.committing" -/
  | logCommitting
  deriving DecidableEq, Repr

/-- `struct log` without the lock, the disk and the processes. Two components are
only for the record: the blocks on which the operation of a process has called
`log_write`, and the headers that `commit` has written, the oldest first. -/
structure Group (P : Type*) where
  log : LogState
  committing : Bool
  phase : P → Phase
  disk : Disk
  written : P → Finset BlockNo
  committed : List LogHeader

namespace Group

variable {P : Type*} [DecidableEq P]

def start (d : Disk) : Group P where
  log := ⟨0, .empty, fun _ => none⟩
  committing := false
  phase := fun _ => .idle
  disk := d
  written := fun _ => ∅
  committed := []

def setPhase (s : Group P) (p : P) (ph : Phase) : Group P :=
  { s with phase := Function.update s.phase p ph }

def wakeup (s : Group P) : Group P := { s with phase := fun p => (s.phase p).wake }

def beginOp (s : Group P) (p : P) : Group P :=
  if s.committing then s.setPhase p .asleep
  else if s.log.lh.block.length+(s.log.outstanding+1)*MAXOPBLOCKS > LOGSIZE then
    s.setPhase p .asleep
  else
    { s.setPhase p .inOp with
      log := { s.log with outstanding := s.log.outstanding+1 }
      written := Function.update s.written p ∅ }

/-- The tests of `log_write`, which it makes without the lock. -/
def logWrite (L : LogArea) (s : Group P) (p : P) (b : Buf) : Except Panic (Group P) :=
  -- both tests come before the search for an entry of the same block
  if s.log.TooBig L then .error .tooBig
  else if s.log.outstanding < 1 then .error .outsideOfTrans
  else .ok { s.setPhase p (.logging b) with
    written := Function.update s.written p (insert b.blockno (s.written p)) }

def endOp (s : Group P) (p : P) : Except Panic (Group P) :=
  let s := { s with log := { s.log with outstanding := s.log.outstanding-1 } }
  if s.committing then .error .logCommitting
  else if s.log.outstanding = 0 then
    .ok { s.setPhase p (.commit .writeLog) with committing := true }
  else .ok (s.wakeup.setPhase p .idle)

/-- The next part of `commit`, and last what `end_op` does after it. The blocks that
`install_trans` writes home are no longer pinned. -/
def commitStage (L : LogArea) (s : Group P) (p : P) : Stage → Option (Group P)
  | .writeLog =>
    -- `commit` does nothing for an empty transaction
    if 0 < s.log.lh.block.length then
      (runOn (writeLog L s.log) s.disk).map fun d =>
        { s.setPhase p (.commit .writeHead) with disk := d }
    else some (s.setPhase p (.commit .done))
  | .writeHead =>
    (runOn (writeHead L s.log.lh) s.disk).map fun d =>
      { s.setPhase p (.commit .installTrans) with
        disk := d
        committed := s.committed ++ [s.log.lh] }
  | .installTrans =>
    (runOn (installTrans L s.log.lh) s.disk).map fun d =>
      { s.setPhase p (.commit .clear) with
        disk := d
        log := { s.log with
          pinned := fun b => if s.log.lh.block.contains b then none else s.log.pinned b } }
  | .clear => some { s.setPhase p (.commit .erase) with log := { s.log with lh := .empty } }
  | .erase =>
    (runOn (writeHead L s.log.lh) s.disk).map fun d =>
      { s.setPhase p (.commit .done) with disk := d }
  | .done => some { s.wakeup.setPhase p .idle with committing := false }

end Group

inductive GroupEvent (P : Type*)
  | beginOp (p : P)
  /-- `kill` wakes a process from any sleep -/
  | rouse (p : P)
  | logWrite (p : P) (b : Buf)
  | record (p : P)
  | endOp (p : P)
  | commit (p : P)

namespace Group

variable {P : Type*} [DecidableEq P]

/-- What the event leads to. None: the process is not at that point. -/
def call (L : LogArea) (s : Group P) : GroupEvent P → Option (Except Panic (Group P))
  | .beginOp p => match s.phase p with
    | .idle => some (.ok (s.beginOp p))
    | .entering => some (.ok (s.beginOp p))
    | _ => none
  | .rouse p => match s.phase p with
    | .asleep => some (.ok (s.setPhase p .entering))
    | _ => none
  | .logWrite p b => match s.phase p with
    | .inOp => some (s.logWrite L p b)
    | _ => none
  | .record p => match s.phase p with
    | .logging b => (s.log.record b).map fun log => .ok { s.setPhase p .inOp with log := log }
    | _ => none
  | .endOp p => match s.phase p with
    | .inOp => some (s.endOp p)
    | _ => none
  | .commit p => match s.phase p with
    | .commit stage => (s.commitStage L p stage).map .ok
    | _ => none

def step (L : LogArea) (s : Group P) (e : GroupEvent P) : Option (Group P) :=
  match s.call L e with
  | some (.ok s') => some s'
  | _ => none

def panics (L : LogArea) (s : Group P) (e : GroupEvent P) : Option Panic :=
  match s.call L e with
  | some (.error x) => some x
  | _ => none

end Group

end ProvenXv6.Log
