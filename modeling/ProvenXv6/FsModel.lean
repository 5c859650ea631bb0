import Mathlib.Data.List.FinRange
import Mathlib.Logic.Function.Basic
import ProvenXv6.LittleEndian
import ProvenXv6.WeakestPre

/-! The file system of xv6-public/fs.c and the create and unlink of sysfile.c, as
one process after another runs them. The disk is what `bread` returns; a lock
that its holder takes again is a deadlock. -/
namespace ProvenXv6.Fs
open LittleEndian WeakestPre

def BSIZE : ℕ := 512

def NDIRECT : ℕ := 12

def NINDIRECT : ℕ := BSIZE/4

def MAXFILE : ℕ := NDIRECT+NINDIRECT

def IPB : ℕ := BSIZE/64

def BPB : ℕ := BSIZE*8

def DIRSIZ : ℕ := 14

def NINODE : ℕ := 50

def NDEV : ℕ := 10

def ROOTINO : ℕ := 1

abbrev Byte := BitVec 8

/-- `uchar data[BSIZE]`; what lies behind is never read. -/
abbrev Block := ℕ → Byte

abbrev Disk := ℕ → Block

def T_DIR : BitVec 16 := 1

def T_FILE : BitVec 16 := 2

def T_DEV : BitVec 16 := 3

/-- `struct dinode`, and the part of `struct inode` that is a copy of it. -/
structure Dinode where
  type : BitVec 16
  major : BitVec 16
  minor : BitVec 16
  nlink : BitVec 16
  size : BitVec 32
  addrs : Fin (NDIRECT+1) → BitVec 32

/-- The index of the indirect block in addrs. -/
def indirect : Fin (NDIRECT+1) := ⟨NDIRECT, by decide⟩

/-- The superblock with the layout of fs.h: inode blocks, bitmap and data blocks
lie one behind the other. -/
structure Superblock where
  size : ℕ
  nblocks : ℕ
  ninodes : ℕ
  inodestart : ℕ
  bmapstart : ℕ
  inodes_lt : ∀ i, i < ninodes → i/IPB+inodestart < bmapstart
  bitmap_lt : ∀ b, b < size → b/BPB+bmapstart < size-nblocks
  nonempty : 0 < size-nblocks
  fits : size < 2^32

namespace Superblock

/-- The first data block. -/
def datastart (sb : Superblock) : ℕ := sb.size-sb.nblocks

def IBLOCK (sb : Superblock) (i : ℕ) : ℕ := i/IPB+sb.inodestart

def BBLOCK (sb : Superblock) (b : ℕ) : ℕ := b/BPB+sb.bmapstart

end Superblock

def getBit (x : Block) (bi : ℕ) : Bool := (x (bi/8)).getLsbD (bi%8)

def markBit (x : Block) (bi : ℕ) : Block := Function.update x (bi/8) (x (bi/8) ||| 1#8 <<< (bi%8))

def clearBit (x : Block) (bi : ℕ) : Block :=
  Function.update x (bi/8) (x (bi/8) &&& ~~~(1#8 <<< (bi%8)))

/-- `((uint*)data)[j]`. -/
def getWord (x : Block) (j : ℕ) : BitVec 32 := BitVec.ofNat 32 (readLE x (4*j) 4)

/-- `memmove(x + off, src, m)`. -/
def copyIn (x : Block) (off m : ℕ) (src : ℕ → Byte) : Block := fun j =>
  if off ≤ j ∧ j < off+m then src (j-off) else x j

def setWord (x : Block) (j : ℕ) (v : BitVec 32) : Block := copyIn x (4*j) 4 (byteLE v.toNat)

namespace Dinode

def decode (x : Block) (off : ℕ) : Dinode where
  type := BitVec.ofNat 16 (readLE x off 2)
  major := BitVec.ofNat 16 (readLE x (off+2) 2)
  minor := BitVec.ofNat 16 (readLE x (off+4) 2)
  nlink := BitVec.ofNat 16 (readLE x (off+6) 2)
  size := BitVec.ofNat 32 (readLE x (off+8) 4)
  addrs := fun k => BitVec.ofNat 32 (readLE x (off+12+4*k) 4)

/-- The 64 bytes of a dinode. -/
def encode (v : Dinode) (j : ℕ) : Byte :=
  if j < 2 then byteLE v.type.toNat j
  else if j < 4 then byteLE v.major.toNat (j-2)
  else if j < 6 then byteLE v.minor.toNat (j-4)
  else if j < 8 then byteLE v.nlink.toNat (j-6)
  else if j < 12 then byteLE v.size.toNat (j-8)
  else if h : (j-12)/4 < NDIRECT+1 then byteLE (v.addrs ⟨(j-12)/4, h⟩).toNat ((j-12)%4)
  else 0

def zero : Dinode := ⟨0, 0, 0, 0, 0, fun _ => 0⟩

end Dinode

namespace Superblock
variable (sb : Superblock)

/-- The bitmap bit of block b. -/
def bit (d : Disk) (b : ℕ) : Bool := getBit (d (sb.BBLOCK b)) (b%BPB)

/-- The on-disk inode i. -/
def dinode (d : Disk) (i : ℕ) : Dinode := .decode (d (sb.IBLOCK i)) (64*(i%IPB))

end Superblock

/-- An entry of the inode cache. -/
structure Inode where
  inum : ℕ
  ref : ℤ
  valid : Bool
  locked : Bool
  din : Dinode

abbrev Ip := Fin NINODE

structure FS where
  disk : Disk
  inode : Ip → Inode

inductive Fault
  | panic (msg : String)
  | deadlock
  /-- the model's bound on the path length is used up -/
  | fuel
  deriving DecidableEq

abbrev FsM (α : Type) := Comp FS Fault α

/-- The device switch: what the read and write functions of a major number return. -/
structure Devsw where
  read : Fin NDEV → Option (ℕ → ℤ × List Byte)
  write : Fin NDEV → Option (ℕ → ℤ)

def panic {α : Type} (msg : String) : FsM α := throw (.panic msg)

def bread (b : ℕ) : FsM Block := do
  let s ← get
  pure (s.disk b)

def logWrite (b : ℕ) (x : Block) : FsM Unit :=
  modify fun s => { s with disk := Function.update s.disk b x }

def getInode (ip : Ip) : FsM Inode := do
  let s ← get
  pure (s.inode ip)

def setInode (ip : Ip) (f : Inode → Inode) : FsM Unit :=
  modify fun s => { s with inode := Function.update s.inode ip (f (s.inode ip)) }

def setDin (ip : Ip) (f : Dinode → Dinode) : FsM Unit :=
  setInode ip fun e => { e with din := f e.din }

def bzero (b : ℕ) : FsM Unit := logWrite b fun _ => 0

section
variable (sb : Superblock) (dev : Devsw)

/-- The two loops of `balloc` visit the blocks in order. -/
def balloc : FsM (BitVec 32) := do
  let s ← get
  match (List.range sb.size).find? (fun b => !sb.bit s.disk b) with
  | none => panic "balloc: out of blocks"
  | some b => do
    logWrite (sb.BBLOCK b) (markBit (s.disk (sb.BBLOCK b)) (b%BPB))
    bzero b
    pure (BitVec.ofNat 32 b)

def bfree (b : BitVec 32) : FsM Unit := do
  let x ← bread (sb.BBLOCK b.toNat)
  if getBit x (b.toNat%BPB) = false then panic "freeing free block"
  else logWrite (sb.BBLOCK b.toNat) (clearBit x (b.toNat%BPB))

/-- The write of inode i by `iupdate` and `ialloc`. -/
def writeDinode (i : ℕ) (v : Dinode) : FsM Unit := do
  let x ← bread (sb.IBLOCK i)
  logWrite (sb.IBLOCK i) (copyIn x (64*(i%IPB)) 64 v.encode)

def iupdate (ip : Ip) : FsM Unit := do
  let e ← getInode ip
  writeDinode sb e.inum e.din

def iget (inum : ℕ) : FsM Ip := do
  let s ← get
  match (List.finRange NINODE).find? (fun ip => (s.inode ip).ref > 0 ∧ (s.inode ip).inum = inum) with
  | some ip => do
    setInode ip fun e => { e with ref := e.ref+1 }
    pure ip
  | none =>
    match (List.finRange NINODE).find? (fun ip => (s.inode ip).ref = 0) with
    | none => panic "iget: no inodes"
    | some ip => do
      setInode ip fun e => { e with inum := inum, ref := 1, valid := false }
      pure ip

def idup (ip : Ip) : FsM Ip := do
  setInode ip fun e => { e with ref := e.ref+1 }
  pure ip

def ialloc (type : BitVec 16) : FsM Ip := do
  let s ← get
  match (List.range' 1 (sb.ninodes-1)).find? (fun i => (sb.dinode s.disk i).type = 0) with
  | none => panic "ialloc: no inodes"
  | some inum => do
    writeDinode sb inum { Dinode.zero with type := type }
    iget inum

def ilock (ip : Ip) : FsM Unit := do
  let s ← get
  if (s.inode ip).ref < 1 then panic "ilock"
  else if (s.inode ip).locked then throw .deadlock
  else if (s.inode ip).valid then setInode ip fun e => { e with locked := true }
  else do
    let din := sb.dinode s.disk (s.inode ip).inum
    setInode ip fun e => { e with locked := true, din := din, valid := true }
    if din.type = 0 then panic "ilock: no type" else pure ()

def iunlock (ip : Ip) : FsM Unit := do
  let e ← getInode ip
  if e.locked = false ∨ e.ref < 1 then panic "iunlock"
  else setInode ip fun e => { e with locked := false }

/-- `if((addr = ip->addrs[k]) == 0) ip->addrs[k] = addr = balloc(ip->dev)`. -/
def loadAddr (ip : Ip) (k : Fin (NDIRECT+1)) : FsM (BitVec 32) := do
  let e ← getInode ip
  if e.din.addrs k = 0 then do
    let addr ← balloc sb
    setDin ip fun v => { v with addrs := Function.update v.addrs k addr }
    pure addr
  else pure (e.din.addrs k)

def bmap (ip : Ip) (bn : ℕ) : FsM (BitVec 32) :=
  if h : bn < NDIRECT then loadAddr sb ip ⟨bn, by omega⟩
  else if bn-NDIRECT < NINDIRECT then do
    let addr ← loadAddr sb ip indirect
    let bp ← bread addr.toNat
    if getWord bp (bn-NDIRECT) = 0 then do
      let a ← balloc sb
      logWrite addr.toNat (setWord bp (bn-NDIRECT) a)
      pure a
    else pure (getWord bp (bn-NDIRECT))
  else panic "bmap: out of range"

/-- The loop of `itrunc` over the direct blocks. -/
def truncDirect (ip : Ip) : FsM Unit :=
  forM (List.finRange NDIRECT) fun k => do
    let e ← getInode ip
    if e.din.addrs k.castSucc = 0 then pure ()
    else do
      bfree sb (e.din.addrs k.castSucc)
      setDin ip fun v => { v with addrs := Function.update v.addrs k.castSucc 0 }

/-- `if(ip->addrs[NDIRECT])` and its body in `itrunc`. -/
def truncIndirect (ip : Ip) : FsM Unit := do
  let e ← getInode ip
  if e.din.addrs indirect = 0 then pure ()
  else do
    let bp ← bread (e.din.addrs indirect).toNat
    forM (List.range NINDIRECT) fun j =>
      if getWord bp j = 0 then pure () else bfree sb (getWord bp j)
    bfree sb (e.din.addrs indirect)
    setDin ip fun v => { v with addrs := Function.update v.addrs indirect 0 }

def itrunc (ip : Ip) : FsM Unit := do
  truncDirect sb ip
  truncIndirect sb ip
  setDin ip fun v => { v with size := 0 }
  iupdate sb ip

/-- No links and no other references: truncate and free. -/
def ifree (ip : Ip) : FsM Unit := do
  itrunc sb ip
  setDin ip fun v => { v with type := 0 }
  iupdate sb ip
  setInode ip fun e => { e with valid := false }

def iput (ip : Ip) : FsM Unit := do
  let e ← getInode ip
  if e.locked then throw .deadlock
  else if e.valid ∧ e.din.nlink = 0 ∧ e.ref = 1 then do
    ifree sb ip
    setInode ip fun e => { e with ref := e.ref-1 }
  else setInode ip fun e => { e with ref := e.ref-1 }

def iunlockput (ip : Ip) : FsM Unit := do
  iunlock ip
  iput sb ip

/-- The loop of `readi` over the blocks, rem bytes from off on. -/
def readLoop (ip : Ip) : ℕ → ℕ → ℕ → FsM (List Byte)
  | 0, _, _ => pure []
  | fuel+1, off, rem =>
    if rem = 0 then pure []
    else do
      let addr ← bmap sb ip (off/BSIZE)
      let bp ← bread addr.toNat
      let m := min rem (BSIZE-off%BSIZE)
      let rest ← readLoop ip fuel (off+m) (rem-m)
      pure ((List.range m).map (fun j => bp (off%BSIZE+j)) ++ rest)

/-- `devsw[major]`, when there is one. -/
def devEntry {α : Type} (table : Fin NDEV → Option α) (major : BitVec 16) : Option α :=
  if h : 0 ≤ major.toInt ∧ major.toInt < NDEV then table ⟨major.toInt.toNat, by omega⟩ else none

def readi (ip : Ip) (off n : BitVec 32) : FsM (ℤ × List Byte) := do
  let e ← getInode ip
  if e.din.type = T_DEV then
    match devEntry dev.read e.din.major with
    | none => pure (-1, [])
    | some f => pure (f n.toNat)
  else if off > e.din.size ∨ off+n < off then pure (-1, [])
  else do
    let n := if off+n > e.din.size then e.din.size-off else n
    let bytes ← readLoop sb ip n.toNat off.toNat n.toNat
    pure (n.toNat, bytes)

/-- The loop of `writei`: rem bytes of src from tot on go to off. -/
def writeLoop (ip : Ip) (src : ℕ → Byte) : ℕ → ℕ → ℕ → ℕ → FsM Unit
  | 0, _, _, _ => pure ()
  | fuel+1, tot, off, rem =>
    if rem = 0 then pure ()
    else do
      let addr ← bmap sb ip (off/BSIZE)
      let bp ← bread addr.toNat
      let m := min rem (BSIZE-off%BSIZE)
      logWrite addr.toNat (copyIn bp (off%BSIZE) m fun j => src (tot+j))
      writeLoop ip src fuel (tot+m) (off+m) (rem-m)

def writei (ip : Ip) (src : ℕ → Byte) (off n : BitVec 32) : FsM ℤ := do
  let e ← getInode ip
  if e.din.type = T_DEV then
    match devEntry dev.write e.din.major with
    | none => pure (-1)
    | some f => pure (f n.toNat)
  else if off > e.din.size ∨ off+n < off then pure (-1)
  else if (off+n).toNat > MAXFILE*BSIZE then pure (-1)
  else do
    writeLoop sb ip src n.toNat 0 off.toNat n.toNat
    let e ← getInode ip
    if n > 0 ∧ off+n > e.din.size then do
      setDin ip fun v => { v with size := off+n }
      iupdate sb ip
    else pure ()
    pure n.toNat

end

end ProvenXv6.Fs
