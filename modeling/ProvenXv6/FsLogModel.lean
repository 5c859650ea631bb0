import ProvenXv6.FsModel
import ProvenXv6.Recording

/-! The functions of fs.c below `writei` once more, with a record of the blocks that they call
`log_write` on. Without the record they are those of FsModel. -/
namespace ProvenXv6.Fs.Logged
open Recording WeakestPre

abbrev LogM (α : Type) := Comp (Recorded FS ℕ) Fault α

def logWrite (b : ℕ) (x : Block) : LogM Unit := do
  silent (Fs.logWrite b x)
  note b

section
variable (sb : Superblock) (dev : Devsw)

def balloc : LogM (BitVec 32) := do
  let s ← silent get
  match (List.range sb.size).find? (fun b => !sb.bit s.disk b) with
  | none => throw (.panic "balloc: out of blocks")
  | some b => do
    logWrite (sb.BBLOCK b) (markBit (s.disk (sb.BBLOCK b)) (b%BPB))
    -- bzero
    logWrite b fun _ => 0
    pure (BitVec.ofNat 32 b)

def iupdate (ip : Ip) : LogM Unit := do
  let e ← silent (getInode ip)
  let x ← silent (bread (sb.IBLOCK e.inum))
  logWrite (sb.IBLOCK e.inum) (copyIn x (64*(e.inum%IPB)) 64 e.din.encode)

def loadAddr (ip : Ip) (k : Fin (NDIRECT+1)) : LogM (BitVec 32) := do
  let e ← silent (getInode ip)
  if e.din.addrs k = 0 then do
    let addr ← balloc sb
    silent (setDin ip fun v => { v with addrs := Function.update v.addrs k addr })
    pure addr
  else pure (e.din.addrs k)

def bmap (ip : Ip) (bn : ℕ) : LogM (BitVec 32) :=
  if h : bn < NDIRECT then loadAddr sb ip ⟨bn, Nat.lt_succ_of_lt h⟩
  else if bn-NDIRECT < NINDIRECT then do
    let addr ← loadAddr sb ip indirect
    let bp ← silent (bread addr.toNat)
    if getWord bp (bn-NDIRECT) = 0 then do
      let a ← balloc sb
      logWrite addr.toNat (setWord bp (bn-NDIRECT) a)
      pure a
    else pure (getWord bp (bn-NDIRECT))
  else throw (.panic "bmap: out of range")

def writeLoop (ip : Ip) (src : ℕ → Byte) : ℕ → ℕ → ℕ → ℕ → LogM Unit
  | 0, _, _, _ => pure ()
  | fuel+1, tot, off, rem =>
    if rem = 0 then pure ()
    else do
      let addr ← bmap sb ip (off/BSIZE)
      let bp ← silent (bread addr.toNat)
      let m := min rem (BSIZE-off%BSIZE)
      logWrite addr.toNat (copyIn bp (off%BSIZE) m fun j => src (tot+j))
      writeLoop ip src fuel (tot+m) (off+m) (rem-m)

def writei (ip : Ip) (src : ℕ → Byte) (off n : BitVec 32) : LogM ℤ := do
  let e ← silent (getInode ip)
  if e.din.type = T_DEV then
    match devEntry dev.write e.din.major with
    | none => pure (-1)
    | some f => pure (f n.toNat)
  else if off > e.din.size ∨ off+n < off then pure (-1)
  else if (off+n).toNat > MAXFILE*BSIZE then pure (-1)
  else do
    writeLoop sb ip src n.toNat 0 off.toNat n.toNat
    let e ← silent (getInode ip)
    if n > 0 ∧ off+n > e.din.size then do
      silent (setDin ip fun v => { v with size := off+n })
      iupdate sb ip
    else pure ()
    pure n.toNat

end

section
variable {sb : Superblock} {dev : Devsw} {ip : Ip}

theorem logWrite_erases (b : ℕ) (x : Block) : Erases (logWrite b x) (Fs.logWrite b x) := erases_noted _ _

theorem balloc_erases : Erases (balloc sb) (Fs.balloc sb) := by
  refine (erases_silent _).bind fun s => ?_
  cases (List.range sb.size).find? fun b => !sb.bit s.disk b with
  | none => exact erases_throw _
  | some b =>
    refine (logWrite_erases _ _).bind fun _ => ?_
    exact (logWrite_erases _ _).bind fun _ => erases_pure _

theorem iupdate_erases : Erases (iupdate sb ip) (Fs.iupdate sb ip) := by
  refine (erases_silent _).bind fun e => ?_
  exact (erases_silent _).bind fun x => logWrite_erases _ _

theorem loadAddr_erases (k : Fin (NDIRECT+1)) : Erases (loadAddr sb ip k) (Fs.loadAddr sb ip k) := by
  refine (erases_silent _).bind fun e => Erases.ite (fun _ => ?_) fun _ => erases_pure _
  refine balloc_erases.bind fun a => ?_
  exact (erases_silent _).bind fun _ => erases_pure _

theorem bmap_erases (bn : ℕ) : Erases (bmap sb ip bn) (Fs.bmap sb ip bn) := by
  unfold bmap Fs.bmap
  split_ifs
  · exact loadAddr_erases _
  · refine (loadAddr_erases _).bind fun addr => ?_
    refine (erases_silent _).bind fun bp => Erases.ite (fun _ => ?_) fun _ => erases_pure _
    refine balloc_erases.bind fun a => ?_
    exact (logWrite_erases _ _).bind fun _ => erases_pure _
  · exact erases_throw _

theorem writeLoop_erases (src : ℕ → Byte) (fuel tot off rem : ℕ) :
    Erases (writeLoop sb ip src fuel tot off rem) (Fs.writeLoop sb ip src fuel tot off rem) := by
  induction fuel generalizing tot off rem with
  | zero => exact erases_pure _
  | succ fuel ih =>
    refine Erases.ite (fun _ => erases_pure _) fun _ => ?_
    refine (bmap_erases _).bind fun addr => ?_
    refine (erases_silent _).bind fun bp => ?_
    exact (logWrite_erases _ _).bind fun _ => ih _ _ _

theorem writei_erases (src : ℕ → Byte) (off n : BitVec 32) :
    Erases (writei sb dev ip src off n) (Fs.writei sb dev ip src off n) := by
  refine (erases_silent _).bind fun e => Erases.ite (fun _ => ?_) fun _ => ?_
  · cases devEntry dev.write e.din.major <;> exact erases_pure _
  refine Erases.ite (fun _ => erases_pure _) fun _ => Erases.ite (fun _ => erases_pure _) fun _ => ?_
  refine (writeLoop_erases src _ _ _ _).bind fun _ => ?_
  refine (erases_silent _).bind fun e => ?_
  dsimp only
  refine Erases.ite (fun _ => ?_) fun _ => erases_pure _
  exact (erases_silent _).bind fun _ => iupdate_erases.bind fun _ => erases_pure _

end

end ProvenXv6.Fs.Logged
