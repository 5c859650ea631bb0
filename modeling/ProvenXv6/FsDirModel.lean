import ProvenXv6.FsModel

/-! Directories and path names of fs.c, and the system calls of sysfile.c that
change them. A string is the list of its bytes before the NUL. -/
namespace ProvenXv6.Fs
open LittleEndian WeakestPre

def slash : Byte := 47

/-- `strncmp`; a list is followed by NULs. -/
def strncmp : ℕ → List Byte → List Byte → ℤ
  | 0, _, _ => 0
  | n+1, p, q =>
    if p.headD 0 ≠ 0 ∧ p.headD 0 = q.headD 0 then strncmp n p.tail q.tail
    else (p.headD 0).toNat-(q.headD 0).toNat

def namecmp (s t : List Byte) : ℤ := strncmp DIRSIZ s t

/-- The 16 bytes of a `struct dirent` filled in by `dirlink`. -/
def direntBytes (inum : ℕ) (name : List Byte) (j : ℕ) : Byte :=
  if j < 2 then byteLE inum j else (name.takeWhile (· ≠ 0)).getD (j-2) 0

/-- `skipelem`: the next element, cut to DIRSIZ, and the path behind it. -/
def skipelem (path : List Byte) : Option (List Byte × List Byte) :=
  match path.dropWhile (· = slash) with
  | [] => none
  | c :: path =>
    let s := (c :: path).takeWhile (· ≠ slash)
    some (s.take DIRSIZ, ((c :: path).dropWhile (· ≠ slash)).dropWhile (· = slash))

section
variable (sb : Superblock) (dev : Devsw)

/-- `readi` of the entry at off, with the panic of its caller. -/
def readDirent (dp : Ip) (off : ℕ) (msg : String) : FsM (ℕ × List Byte) := do
  let (n, bytes) ← readi sb dev dp (BitVec.ofNat 32 off) 16
  if n ≠ 16 then panic msg
  else pure ((bytes.getD 0 0).toNat+256*(bytes.getD 1 0).toNat, bytes.drop 2)

def dirlookupLoop (dp : Ip) (name : List Byte) : ℕ → ℕ → FsM (Option (Ip × ℕ))
  | 0, _ => pure none
  | fuel+1, off => do
    let e ← getInode dp
    if off < e.din.size.toNat then do
      let (inum, dname) ← readDirent sb dev dp off "dirlookup read"
      if inum = 0 then dirlookupLoop dp name fuel (off+16)
      else if namecmp name dname = 0 then do
        let ip ← iget inum
        pure (some (ip, off))
      else dirlookupLoop dp name fuel (off+16)
    else pure none

def dirlookup (dp : Ip) (name : List Byte) : FsM (Option (Ip × ℕ)) := do
  let e ← getInode dp
  if e.din.type ≠ T_DIR then panic "dirlookup not DIR"
  else dirlookupLoop sb dev dp name (e.din.size.toNat/16+1) 0

/-- The offset of the first empty entry, or the end of the directory. -/
def emptyDirent (dp : Ip) : ℕ → ℕ → FsM ℕ
  | 0, off => pure off
  | fuel+1, off => do
    let e ← getInode dp
    if off < e.din.size.toNat then do
      let (inum, _) ← readDirent sb dev dp off "dirlink read"
      if inum = 0 then pure off else emptyDirent dp fuel (off+16)
    else pure off

def dirlink (dp : Ip) (name : List Byte) (inum : ℕ) : FsM ℤ := do
  match ← dirlookup sb dev dp name with
  | some (ip, _) => do
    iput sb ip
    pure (-1)
  | none => do
    let e ← getInode dp
    let off ← emptyDirent sb dev dp (e.din.size.toNat/16+1) 0
    let r ← writei sb dev dp (direntBytes inum name) (BitVec.ofNat 32 off) 16
    if r ≠ 16 then panic "dirlink" else pure 0

/-- The loop of `namex`, at ip with path left and name the element before it. -/
def namexLoop (parent : Bool) : ℕ → Ip → List Byte → List Byte → FsM (Option (Ip × List Byte))
  | 0, _, _, _ => throw .fuel
  | fuel+1, ip, path, name =>
    match skipelem path with
    | none =>
      if parent then do
        iput sb ip
        pure none
      else pure (some (ip, name))
    | some (name, path) => do
      ilock sb ip
      let e ← getInode ip
      if e.din.type ≠ T_DIR then do
        iunlockput sb ip
        pure none
      else if parent ∧ path = [] then do
        -- stop one level early
        iunlock ip
        pure (some (ip, name))
      else do
        match ← dirlookup sb dev ip name with
        | none => do
          iunlockput sb ip
          pure none
        | some (next, _) => do
          iunlockput sb ip
          namexLoop parent fuel next path name

def namex (cwd : Ip) (path : List Byte) (parent : Bool) : FsM (Option (Ip × List Byte)) := do
  let ip ← if path.head? = some slash then iget ROOTINO else idup cwd
  namexLoop sb dev parent (path.length+1) ip path []

def namei (cwd : Ip) (path : List Byte) : FsM (Option Ip) := do
  let r ← namex sb dev cwd path false
  pure (r.map Prod.fst)

def nameiparent (cwd : Ip) (path : List Byte) : FsM (Option (Ip × List Byte)) :=
  namex sb dev cwd path true

/-- "." -/
def dot : List Byte := [46]

/-- ".." -/
def dotdot : List Byte := [46, 46]

/-- `if(type == T_DIR)` and its body in `create`: the entries "." and "..". -/
def createDots (type : BitVec 16) (dp ip : Ip) : FsM Unit :=
  if type = T_DIR then do
    setDin dp fun v => { v with nlink := v.nlink+1 }
    iupdate sb dp
    let e ← getInode ip
    let r ← dirlink sb dev ip dot e.inum
    if r < 0 then panic "create dots"
    else do
      let p ← getInode dp
      let r ← dirlink sb dev ip dotdot p.inum
      if r < 0 then panic "create dots" else pure ()
  else pure ()

/-- `create`; the inode comes back locked. -/
def create (cwd : Ip) (path : List Byte) (type major minor : BitVec 16) : FsM (Option Ip) := do
  match ← nameiparent sb dev cwd path with
  | none => pure none
  | some (dp, name) => do
    ilock sb dp
    match ← dirlookup sb dev dp name with
    | some (ip, _) => do
      iunlockput sb dp
      ilock sb ip
      let e ← getInode ip
      if type = T_FILE ∧ e.din.type = T_FILE then pure (some ip)
      else do
        iunlockput sb ip
        pure none
    | none => do
      let ip ← ialloc sb type
      ilock sb ip
      setDin ip fun v => { v with major := major, minor := minor, nlink := 1 }
      iupdate sb ip
      createDots sb dev type dp ip
      let e ← getInode ip
      let r ← dirlink sb dev dp name e.inum
      if r < 0 then panic "create: dirlink"
      else do
        iunlockput sb dp
        pure (some ip)

/-- Whether the entries from off on are all empty. -/
def isdirempty (dp : Ip) : ℕ → ℕ → FsM Bool
  | 0, _ => pure true
  | fuel+1, off => do
    let e ← getInode dp
    if off < e.din.size.toNat then do
      let (inum, _) ← readDirent sb dev dp off "isdirempty: readi"
      if inum ≠ 0 then pure false else isdirempty dp fuel (off+16)
    else pure true

/-- `ip->type == T_DIR && !isdirempty(ip)`. -/
def isFullDir (ip : Ip) : FsM Bool := do
  let e ← getInode ip
  if e.din.type = T_DIR then do
    let empty ← isdirempty sb dev ip (e.din.size.toNat/16+1) 32
    pure !empty
  else pure false

/-- The part of `sys_unlink` that removes the entry of ip at off from dp. -/
def removeDirent (dp ip : Ip) (off : ℕ) : FsM Unit := do
  let r ← writei sb dev dp (fun _ => 0) (BitVec.ofNat 32 off) 16
  if r ≠ 16 then panic "unlink: writei"
  else do
    let e ← getInode ip
    if e.din.type = T_DIR then do
      setDin dp fun v => { v with nlink := v.nlink-1 }
      iupdate sb dp
    else pure ()

/-- `sys_unlink`, behind `argstr` and between `begin_op` and `end_op`. -/
def unlink (cwd : Ip) (path : List Byte) : FsM ℤ := do
  match ← nameiparent sb dev cwd path with
  | none => pure (-1)
  | some (dp, name) => do
    ilock sb dp
    if namecmp name dot = 0 ∨ namecmp name dotdot = 0 then do
      iunlockput sb dp
      pure (-1)
    else do
      match ← dirlookup sb dev dp name with
      | none => do
        iunlockput sb dp
        pure (-1)
      | some (ip, off) => do
        ilock sb ip
        let e ← getInode ip
        if e.din.nlink.toInt < 1 then panic "unlink: nlink < 1"
        else do
          let full ← isFullDir sb dev ip
          if full then do
            iunlockput sb ip
            iunlockput sb dp
            pure (-1)
          else do
            removeDirent sb dev dp ip off
            iunlockput sb dp
            setDin ip fun v => { v with nlink := v.nlink-1 }
            iupdate sb ip
            iunlockput sb ip
            pure 0

/-- What `sys_link` does at its label bad. -/
def linkBad (ip : Ip) : FsM ℤ := do
  ilock sb ip
  setDin ip fun v => { v with nlink := v.nlink-1 }
  iupdate sb ip
  iunlockput sb ip
  pure (-1)

/-- `sys_link`, behind `argstr` and between `begin_op` and `end_op`. -/
def link (cwd : Ip) (old new : List Byte) : FsM ℤ := do
  match ← namei sb dev cwd old with
  | none => pure (-1)
  | some ip => do
    ilock sb ip
    let e ← getInode ip
    if e.din.type = T_DIR then do
      iunlockput sb ip
      pure (-1)
    else do
      setDin ip fun v => { v with nlink := v.nlink+1 }
      iupdate sb ip
      iunlock ip
      match ← nameiparent sb dev cwd new with
      | none => linkBad sb ip
      | some (dp, name) => do
        ilock sb dp
        let e ← getInode ip
        let r ← dirlink sb dev dp name e.inum
        if r < 0 then do
          iunlockput sb dp
          linkBad sb ip
        else do
          iunlockput sb dp
          iput sb ip
          pure 0

/-- `sys_chdir`, behind `argstr` and up to `end_op`: the new directory. -/
def chdir (cwd : Ip) (path : List Byte) : FsM (Option Ip) := do
  match ← namei sb dev cwd path with
  | none => pure none
  | some ip => do
    ilock sb ip
    let e ← getInode ip
    if e.din.type ≠ T_DIR then do
      iunlockput sb ip
      pure none
    else do
      iunlock ip
      iput sb cwd
      pure (some ip)

end

end ProvenXv6.Fs
