import ProvenXv6.FsLogModel
import ProvenXv6.KernModel
import ProvenXv6.LogGroup

/-! `filewrite` of xv6-public/file.c, with a record of the blocks that each of its transactions
calls `log_write` on. What `pipewrite` does is a parameter. -/
namespace ProvenXv6.Kern
open WeakestPre
open Fs (Byte Superblock Devsw)
open Fs.Logged (LogM)

/-- The kernel, the blocks of the transaction that is open, and those of the ones that have ended. -/
structure Journal where
  kern : Kernel
  log : List ℕ
  txns : List (List ℕ)

abbrev JourM (α : Type) := Comp Journal Stop α

/-- A part of the kernel without a `log_write`. -/
def onKern {α : Type} (m : KernM α) : JourM α := fun j =>
  match m j.kern with
  | .ok (a, k) => .ok (a, { j with kern := k })
  | .error e => .error e

def onLog {α : Type} (m : LogM α) : JourM α := fun j =>
  match m ⟨j.kern.fs, j.log⟩ with
  | .ok (a, s) => .ok (a, { j with kern := { j.kern with fs := s.state }, log := s.record })
  | .error e => .error (.fs e)

namespace Journal

def begin_op : JourM Unit := do
  onKern Kern.begin_op
  modify fun j => { j with log := [] }

def end_op : JourM Unit := do
  onKern Kern.end_op
  modify fun j => { j with log := [], txns := j.txns ++ [j.log] }

end Journal

/-- `max` in `filewrite`. -/
def maxWrite : ℕ := (Log.MAXOPBLOCKS-1-1-2)/2*512

section
variable (sb : Superblock) (dev : Devsw)

/-- The transaction of one round of the loop of `filewrite`. -/
def writeChunk (f : FilePtr) (src : ℕ → Byte) (n1 : ℤ) : JourM ℤ := do
  Journal.begin_op
  let e ← onKern (getFile f)
  onKern (onFs (Fs.ilock sb e.ip))
  let r ← onLog (Fs.Logged.writei sb dev e.ip src (BitVec.ofNat 32 e.off) (BitVec.ofInt 32 n1))
  onKern (setFile f fun e => { e with off := if r > 0 then (e.off+r.toNat)%0x100000000 else e.off })
  onKern (onFs (Fs.iunlock e.ip))
  Journal.end_op
  pure r

/-- The loop of `filewrite`, with a bound on its rounds; it returns i. -/
def writeChunks (f : FilePtr) (addr : ℕ → Byte) (n : ℤ) : ℕ → ℤ → JourM ℤ
  | 0, _ => throw (.fs .fuel)
  | fuel+1, i =>
    if i < n then do
      let n1 := if n-i > maxWrite then (maxWrite : ℤ) else n-i
      let r ← writeChunk sb dev f (fun j => addr (i.toNat+j)) n1
      if r < 0 then pure i
      else if r ≠ n1 then onKern (panic "short filewrite")
      else writeChunks f addr n fuel (i+r)
    else pure i

def filewrite (pipewrite : ℕ → (ℕ → Byte) → ℤ → JourM ℤ) (f : FilePtr) (addr : ℕ → Byte) (n : ℤ) :
    JourM ℤ := do
  let e ← onKern (getFile f)
  if e.writable = false then pure (-1)
  else
    match e.type with
    | .FD_PIPE => pipewrite e.pipe addr n
    | .FD_INODE => do
      let i ← writeChunks sb dev f addr n (n.toNat+1) 0
      pure (if i = n then n else -1)
    | .FD_NONE => onKern (panic "filewrite")

end

end ProvenXv6.Kern
