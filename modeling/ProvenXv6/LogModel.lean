import Mathlib.Algebra.Group.Nat.Defs
import Mathlib.Data.List.OfFn
import ProvenXv6.CrashLogic

/-! The redo log of xv6-public/log.c. A block is its 32-bit words; the in-memory
header is the list of the block numbers below n. -/
namespace ProvenXv6.Log
open CrashLogic

def BSIZE : ℕ := 512

def LOGSIZE : ℕ := 30

abbrev BlockNo := BitVec 32

abbrev Block := Fin (BSIZE/4) → BitVec 32

abbrev Disk := BlockNo → Block

/-- The log area of the superblock: a header block and size-1 log blocks. -/
structure LogArea where
  start : ℕ
  size : ℕ
  nonempty : 0 < size
  fits : start+size ≤ 2^31

namespace LogArea

def header (L : LogArea) : BlockNo := BitVec.ofNat 32 L.start

/-- The log block of entry tail. -/
def slot (L : LogArea) (tail : ℕ) : BlockNo := BitVec.ofNat 32 (L.start+tail+1)

def Contains (L : LogArea) (b : BlockNo) : Prop := L.start ≤ b.toNat ∧ b.toNat < L.start+L.size

instance (L : LogArea) (b : BlockNo) : Decidable (L.Contains b) := inferInstanceAs (Decidable (_ ∧ _))

end LogArea

/-- `struct logheader`: n is the length. -/
@[ext] structure LogHeader where
  block : List BlockNo
  le : block.length ≤ LOGSIZE

def LogHeader.empty : LogHeader := ⟨[], by simp⟩

/-- The header as `write_head` leaves it in a buffer that held old. -/
def LogHeader.encode (lh : LogHeader) (old : Block) : Block := fun j =>
  if j.val = 0 then BitVec.ofNat 32 lh.block.length
  else match lh.block[j.val-1]? with
    | some b => b
    | none => old j

/-- The header as `read_head` reads it. More than LOGSIZE entries overrun the
in-memory array; a negative n reads nothing. -/
def LogHeader.decode (b : Block) : Option LogHeader :=
  let n := (b ⟨0, by decide⟩).toInt
  if h : n ≤ LOGSIZE then
    some ⟨List.ofFn (n := n.toNat) fun i => b ⟨i+1, by
      have hi := i.isLt
      simp only [LOGSIZE, BSIZE] at h ⊢
      omega⟩, by simpa using h⟩
  else none

structure Buf where
  blockno : BlockNo
  data : Block

/-- `struct log`, without the lock, together with the blocks that B_DIRTY pins in
the buffer cache. -/
structure LogState where
  outstanding : ℤ
  lh : LogHeader
  pinned : BlockNo → Option Block

namespace LogState

/-- What `bread` returns: a cached block that is not pinned is the one on disk. -/
def bread (s : LogState) (d : Disk) (b : BlockNo) : Block := (s.pinned b).getD (d b)

/-- `log_write`; none is a panic. -/
def logWrite (L : LogArea) (s : LogState) (b : Buf) : Option LogState :=
  if h : s.lh.block.length ≥ LOGSIZE ∨ (s.lh.block.length:ℤ) ≥ L.size-1 then none
  else if s.outstanding < 1 then none
  else
    -- log absorption: a block that is already in the header keeps its entry
    let lh := if b.blockno ∈ s.lh.block then s.lh
      else ⟨s.lh.block ++ [b.blockno], by
        push Not at h
        have := h.1
        simp only [List.length_append, List.length_singleton]
        omega⟩
    some { s with lh := lh, pinned := Function.update s.pinned b.blockno (some b.data) }

end LogState

/-- An entry of the header array that was set. -/
def withEntry (lh : LogHeader) (tail : ℕ) (p : BlockNo → Prog BlockNo Block) : Prog BlockNo Block :=
  match lh.block[tail]? with
  | some b => p b
  | none => fun _ => none

def writeLog (L : LogArea) (s : LogState) : Prog BlockNo Block :=
  loop s.lh.block.length fun tail =>
    withEntry s.lh tail fun b => write (L.slot tail) (s.bread · b)

def writeHead (L : LogArea) (lh : LogHeader) : Prog BlockNo Block :=
  write L.header fun d => lh.encode (d L.header)

def installTrans (L : LogArea) (lh : LogHeader) : Prog BlockNo Block :=
  loop lh.block.length fun tail =>
    withEntry lh tail fun b => write b fun d => d (L.slot tail)

def commit (L : LogArea) (s : LogState) : Prog BlockNo Block :=
  if 0 < s.lh.block.length then
    seq (writeLog L s) (seq (writeHead L s.lh) (seq (installTrans L s.lh) (writeHead L .empty)))
  else skip

def recoverFromLog (L : LogArea) : Prog BlockNo Block := fun d =>
  (LogHeader.decode (d L.header)).bind fun lh =>
    seq (installTrans L lh) (writeHead L .empty) d

end ProvenXv6.Log
