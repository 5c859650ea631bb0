import ProvenXv6.FsDirModel
import ProvenXv6.ProcModel
import ProvenXv6.VmModel

/-! The system calls of xv6-public on processes, open files and pipes (proc.c,
exec.c, sysfile.c, file.c and pipe.c) over the file system and the page tables,
each call run to its end before the next one starts. `ptable`, `ftable` and every
`struct pipe` stand beside the pages of memory here, out of reach of a store to a
page; `KernTable` puts the sizes of the processes, and nothing else of them, into memory. -/
namespace ProvenXv6.Kern
open WeakestPre LittleEndian
open Fs (Byte Block FS FsM Fault Ip Superblock Devsw ROOTINO)
open Vm (Mem VmM Image PGSIZE KERNBASE PGROUNDUP PTE_ADDR PTX uint)
open Ptable (NPROC Slot ProcState)

def NOFILE : ℕ := 16

def NFILE : ℕ := 100

def MAXARG : ℕ := 32

inductive FdType
  | FD_NONE | FD_PIPE | FD_INODE
  deriving DecidableEq

/-- `struct file`. A pipe goes by the page it lies in. -/
structure File where
  type : FdType
  ref : ℤ
  readable : Bool
  writable : Bool
  pipe : ℕ
  ip : Ip
  off : ℕ

abbrev Fd := Fin NOFILE

abbrev FilePtr := Fin NFILE

structure Pipe where
  readopen : Bool
  writeopen : Bool

/-- `struct proc`; kstack and pgdir are pages. -/
structure Proc where
  state : ProcState
  pid : ℕ
  parent : Option Slot
  killed : Bool
  sz : ℕ
  pgdir : ℕ
  kstack : ℕ
  ofile : Fd → Option FilePtr
  cwd : Option Ip

/-- A call of `begin_op` or of `end_op`. -/
inductive Txn
  | begin_op | end_op
  deriving DecidableEq

/-- The state of the kernel; `ops` records the transactions. A page without a
`struct pipe` in it is none. -/
structure Kernel where
  fs : FS
  mem : Mem
  file : FilePtr → File
  pipe : ℕ → Option Pipe
  proc : Slot → Proc
  initproc : Slot
  nextpid : ℕ
  ops : List Txn

/-- How a call ends without returning: a fault in the file system or in the memory
management, a panic, a use of a pipe that has been freed, or a call that sleeps. -/
inductive Stop
  | fs (e : Fault)
  | mem (e : Fault)
  | panic (msg : String)
  | dangling
  | sleep

abbrev KernM (α : Type) := Comp Kernel Stop α

def onFs {α : Type} (m : FsM α) : KernM α := fun k =>
  match m k.fs with
  | .ok (a, fs) => .ok (a, { k with fs := fs })
  | .error e => .error (.fs e)

def onMem {α : Type} (m : VmM α) : KernM α := fun k =>
  match m k.mem with
  | .ok (a, mem) => .ok (a, { k with mem := mem })
  | .error e => .error (.mem e)

def panic {α : Type} (msg : String) : KernM α := throw (.panic msg)

def begin_op : KernM Unit := modify fun k => { k with ops := k.ops ++ [.begin_op] }

def end_op : KernM Unit := modify fun k => { k with ops := k.ops ++ [.end_op] }

def getProc (p : Slot) : KernM Proc := do
  let k ← get
  pure (k.proc p)

def setProc (p : Slot) (f : Proc → Proc) : KernM Unit :=
  modify fun k => { k with proc := Function.update k.proc p (f (k.proc p)) }

def getFile (f : FilePtr) : KernM File := do
  let k ← get
  pure (k.file f)

def setFile (f : FilePtr) (g : File → File) : KernM Unit :=
  modify fun k => { k with file := Function.update k.file f (g (k.file f)) }

def setFd (p : Slot) (fd : Fd) (f : Option FilePtr) : KernM Unit :=
  setProc p fun e => { e with ofile := Function.update e.ofile fd f }

/-- `curproc->cwd`; a null pointer is a page fault. -/
def getCwd (p : Slot) : KernM Ip := do
  let e ← getProc p
  match e.cwd with
  | none => panic "trap"
  | some ip => pure ip

def filealloc : KernM (Option FilePtr) := do
  let k ← get
  match (List.finRange NFILE).find? (fun f => (k.file f).ref = 0) with
  | none => pure none
  | some f => do
    setFile f fun e => { e with ref := 1 }
    pure (some f)

def filedup (f : FilePtr) : KernM Unit := do
  let e ← getFile f
  if e.ref < 1 then panic "filedup" else setFile f fun e => { e with ref := e.ref+1 }

section
variable (sb : Superblock) (dev : Devsw) (img : Image)

def pipeclose (q : ℕ) (writable : Bool) : KernM Unit := do
  let k ← get
  match k.pipe q with
  | none => throw .dangling
  | some e => do
    let e := if writable then { e with writeopen := false } else { e with readopen := false }
    if e.readopen = false ∧ e.writeopen = false then do
      modify fun k => { k with pipe := Function.update k.pipe q none }
      onMem (Vm.kfree img q)
    else modify fun k => { k with pipe := Function.update k.pipe q (some e) }

/-- What `fileclose` does for the last reference, with the copy ff of the entry. -/
def closeLast (ff : File) : KernM Unit :=
  match ff.type with
  | .FD_PIPE => pipeclose img ff.pipe ff.writable
  | .FD_INODE => do
    begin_op
    onFs (Fs.iput sb ff.ip)
    end_op
  | .FD_NONE => pure ()

def fileclose (f : FilePtr) : KernM Unit := do
  let ff ← getFile f
  if ff.ref < 1 then panic "fileclose"
  else if ff.ref-1 > 0 then setFile f fun e => { e with ref := e.ref-1 }
  else do
    setFile f fun e => { e with ref := 0, type := .FD_NONE }
    closeLast sb img ff

def pipealloc : KernM (Option (FilePtr × FilePtr)) := do
  match ← filealloc with
  | none => pure none
  | some f0 => do
    match ← filealloc with
    | none => do
      fileclose sb img f0
      pure none
    | some f1 => do
      match ← onMem Vm.kalloc with
      | none => do
        fileclose sb img f0
        fileclose sb img f1
        pure none
      | some q => do
        modify fun k => { k with pipe := Function.update k.pipe q (some ⟨true, true⟩) }
        setFile f0 fun e => { e with type := .FD_PIPE, readable := true, writable := false, pipe := q }
        setFile f1 fun e => { e with type := .FD_PIPE, readable := false, writable := true, pipe := q }
        pure (some (f0, f1))

def argfd (p : Slot) (fd : ℤ) : KernM (Option (Fd × FilePtr)) := do
  let e ← getProc p
  if h : 0 ≤ fd ∧ fd < NOFILE then
    let fd : Fd := ⟨fd.toNat, by omega⟩
    pure ((e.ofile fd).map fun f => (fd, f))
  else pure none

def fdalloc (p : Slot) (f : FilePtr) : KernM (Option Fd) := do
  let e ← getProc p
  match (List.finRange NOFILE).find? (fun fd => e.ofile fd = none) with
  | none => pure none
  | some fd => do
    setFd p fd (some f)
    pure (some fd)

def sys_dup (p : Slot) (fd : ℤ) : KernM ℤ := do
  match ← argfd p fd with
  | none => pure (-1)
  | some (_, f) => do
    match ← fdalloc p f with
    | none => pure (-1)
    | some fd => do
      filedup f
      pure fd

def sys_close (p : Slot) (fd : ℤ) : KernM ℤ := do
  match ← argfd p fd with
  | none => pure (-1)
  | some (fd, f) => do
    setFd p fd none
    fileclose sb img f
    pure 0

/-- `sys_pipe`; the two descriptors are the result. -/
def sys_pipe (p : Slot) : KernM (Option (Fd × Fd)) := do
  match ← pipealloc sb img with
  | none => pure none
  | some (rf, wf) => do
    match ← fdalloc p rf with
    | none => do
      fileclose sb img rf
      fileclose sb img wf
      pure none
    | some fd0 => do
      match ← fdalloc p wf with
      | none => do
        setFd p fd0 none
        fileclose sb img rf
        fileclose sb img wf
        pure none
      | some fd1 => pure (some (fd0, fd1))

def O_WRONLY : BitVec 32 := 1

def O_RDWR : BitVec 32 := 2

def O_CREATE : BitVec 32 := 0x200

/-- The inode that `sys_open` opens, locked. -/
def openInode (cwd : Ip) (path : List Byte) (omode : BitVec 32) : FsM (Option Ip) :=
  if omode &&& O_CREATE ≠ 0 then Fs.create sb dev cwd path Fs.T_FILE 0 0
  else do
    match ← Fs.namei sb dev cwd path with
    | none => pure none
    | some ip => do
      Fs.ilock sb ip
      let e ← Fs.getInode ip
      if e.din.type = Fs.T_DIR ∧ omode ≠ 0 then do
        Fs.iunlockput sb ip
        pure none
      else pure (some ip)

/-- `(f = filealloc()) == 0 || (fd = fdalloc(f)) < 0` and the closing of f. -/
def openFile (p : Slot) : KernM (Option (FilePtr × Fd)) := do
  match ← filealloc with
  | none => pure none
  | some f => do
    match ← fdalloc p f with
    | none => do
      fileclose sb img f
      pure none
    | some fd => pure (some (f, fd))

def sys_open (p : Slot) (path : List Byte) (omode : BitVec 32) : KernM ℤ := do
  begin_op
  let cwd ← getCwd p
  match ← onFs (openInode sb dev cwd path omode) with
  | none => do
    end_op
    pure (-1)
  | some ip => do
    match ← openFile sb img p with
    | none => do
      onFs (Fs.iunlockput sb ip)
      end_op
      pure (-1)
    | some (f, fd) => do
      onFs (Fs.iunlock ip)
      end_op
      setFile f fun e => { e with
        type := .FD_INODE, ip := ip, off := 0
        readable := decide (omode &&& O_WRONLY = 0)
        writable := decide (omode &&& O_WRONLY ≠ 0 ∨ omode &&& O_RDWR ≠ 0) }
      pure fd

def sys_link (p : Slot) (old new : List Byte) : KernM ℤ := do
  begin_op
  let cwd ← getCwd p
  let r ← onFs (Fs.link sb dev cwd old new)
  end_op
  pure r

def sys_unlink (p : Slot) (path : List Byte) : KernM ℤ := do
  begin_op
  let cwd ← getCwd p
  let r ← onFs (Fs.unlink sb dev cwd path)
  end_op
  pure r

/-- `create` and the release of its inode, in `sys_mkdir` and `sys_mknod`. -/
def createPut (cwd : Ip) (path : List Byte) (type major minor : BitVec 16) : FsM ℤ := do
  match ← Fs.create sb dev cwd path type major minor with
  | none => pure (-1)
  | some ip => do
    Fs.iunlockput sb ip
    pure 0

def sys_mkdir (p : Slot) (path : List Byte) : KernM ℤ := do
  begin_op
  let cwd ← getCwd p
  let r ← onFs (createPut sb dev cwd path Fs.T_DIR 0 0)
  end_op
  pure r

def sys_mknod (p : Slot) (path : List Byte) (major minor : BitVec 16) : KernM ℤ := do
  begin_op
  let cwd ← getCwd p
  let r ← onFs (createPut sb dev cwd path Fs.T_DEV major minor)
  end_op
  pure r

def sys_chdir (p : Slot) (path : List Byte) : KernM ℤ := do
  begin_op
  let cwd ← getCwd p
  match ← onFs (Fs.chdir sb dev cwd path) with
  | none => do
    end_op
    pure (-1)
  | some ip => do
    end_op
    setProc p fun e => { e with cwd := some ip }
    pure 0

def allocproc : KernM (Option Slot) := do
  let k ← get
  match (List.finRange NPROC).find? (fun p => (k.proc p).state = .unused) with
  | none => pure none
  | some np => do
    setProc np fun e => { e with state := .embryo, pid := k.nextpid }
    modify fun k => { k with nextpid := k.nextpid+1 }
    match ← onMem Vm.kalloc with
    | none => do
      setProc np fun e => { e with state := .unused, kstack := 0 }
      pure none
    | some q => do
      setProc np fun e => { e with kstack := q }
      pure (some np)

/-- The body of the loop of `fork` over the open files. -/
def dupFile (p np : Slot) (fd : Fd) : KernM Unit := do
  let e ← getProc p
  match e.ofile fd with
  | none => pure ()
  | some f => do
    filedup f
    setFd np fd (some f)

def dupFiles (p np : Slot) : KernM Unit := forM (List.finRange NOFILE) (dupFile p np)

def fork (p : Slot) : KernM ℤ := do
  match ← allocproc with
  | none => pure (-1)
  | some np => do
    let e ← getProc p
    match ← onMem (Vm.copyuvm img e.pgdir e.sz) with
    | none => do
      let c ← getProc np
      onMem (Vm.kfree img c.kstack)
      setProc np fun c => { c with kstack := 0, state := .unused }
      pure (-1)
    | some d => do
      setProc np fun c => { c with pgdir := d, sz := e.sz, parent := some p }
      dupFiles p np
      let cwd ← getCwd p
      let cwd ← onFs (Fs.idup cwd)
      setProc np fun c => { c with cwd := some cwd }
      setProc np fun c => { c with state := .runnable }
      let c ← getProc np
      pure c.pid

/-- The body of the loop of `exit` over the open files. -/
def closeFile (p : Slot) (fd : Fd) : KernM Unit := do
  let e ← getProc p
  match e.ofile fd with
  | none => pure ()
  | some f => do
    fileclose sb img f
    setFd p fd none

def closeFiles (p : Slot) : KernM Unit := forM (List.finRange NOFILE) (closeFile sb img p)

/-- "Pass abandoned children to init." -/
def abandon (p : Slot) : KernM Unit := do
  let k ← get
  forM (List.finRange NPROC) fun q =>
    setProc q fun e => if e.parent = some p then { e with parent := some k.initproc } else e

def exit (p : Slot) : KernM Unit := do
  let k ← get
  if p = k.initproc then panic "init exiting"
  else do
    closeFiles sb img p
    begin_op
    let cwd ← getCwd p
    onFs (Fs.iput sb cwd)
    end_op
    setProc p fun e => { e with cwd := none }
    abandon p
    setProc p fun e => { e with state := .zombie }

/-- `wait`; a process that still has to wait sleeps. -/
def wait (p : Slot) : KernM ℤ := do
  let k ← get
  match (List.finRange NPROC).find? (fun q => (k.proc q).parent = some p ∧ (k.proc q).state = .zombie) with
  | some q => do
    let e ← getProc q
    onMem (Vm.kfree img e.kstack)
    setProc q fun e => { e with kstack := 0 }
    onMem (Vm.freevm img e.pgdir)
    setProc q fun e => { e with pid := 0, parent := none, killed := false, state := .unused }
    pure e.pid
  | none =>
    if (List.finRange NPROC).any (fun q => (k.proc q).parent = some p) = false ∨ (k.proc p).killed then
      pure (-1)
    else throw .sleep

def sys_sbrk (p : Slot) (n : ℤ) : KernM ℤ := do
  let e ← getProc p
  let (r, sz) ← onMem (Vm.growproc img e.pgdir e.sz n)
  setProc p fun e => { e with sz := sz }
  if r < 0 then pure (-1) else pure e.sz

end

/-- `((uint*)p)[...]` at byte off of what was read. -/
def field (bytes : List Byte) (off len : ℕ) : ℕ := readLE (fun j => bytes.getD j 0) off len

def ELF_MAGIC : ℕ := 0x464C457F

section
variable (sb : Superblock) (dev : Devsw) (img : Image)

/-- `readi(ip, P2V(pa), …, n)`: what is read goes to the page. -/
def readPage (ip : Ip) (pa off n : ℕ) : KernM ℤ := do
  let (r, bytes) ← onFs (Fs.readi sb dev ip (BitVec.ofNat 32 off) (BitVec.ofNat 32 n))
  let k ← get
  onMem (Vm.setPage pa (Fs.copyIn (k.mem.page pa) 0 (min n bytes.length) fun j => bytes.getD j 0))
  pure r

/-- The loop of `loaduvm`. -/
def loadLoop (ip : Ip) (pgdir addr offset sz : ℕ) : ℕ → ℕ → KernM Bool
  | 0, _ => throw (.mem .fuel)
  | fuel+1, i =>
    if i < sz then do
      match ← onMem (Vm.walkpgdir pgdir (uint (addr+i)) false) with
      | none => panic "loaduvm: address should exist"
      | some tab => do
        let pte ← onMem (Vm.getPte tab (PTX (uint (addr+i))))
        let n := min (sz-i) PGSIZE
        let r ← readPage sb dev ip (PTE_ADDR pte) (uint (offset+i)) n
        if r ≠ n then pure false else loadLoop ip pgdir addr offset sz fuel (uint (i+PGSIZE))
    else pure true

def loaduvm (pgdir addr : ℕ) (ip : Ip) (offset sz : ℕ) : KernM Bool :=
  if addr%PGSIZE ≠ 0 then panic "loaduvm: addr must be page aligned"
  else loadLoop sb dev ip pgdir addr offset sz (sz/PGSIZE+2) 0

/-- The loop of `exec` over the program headers; none is the label bad. -/
def loadProgram (ip : Ip) (pgdir : ℕ) : ℕ → ℕ → ℕ → KernM (Option ℕ)
  | 0, _, sz => pure (some sz)
  | n+1, off, sz => do
    let (r, ph) ← onFs (Fs.readi sb dev ip (BitVec.ofNat 32 off) 32)
    let vaddr := field ph 8 4
    let filesz := field ph 16 4
    let memsz := field ph 20 4
    if r ≠ 32 then pure none
    else if field ph 0 4 ≠ 1 then loadProgram ip pgdir n (uint (off+32)) sz
    else if memsz < filesz then pure none
    else if uint (vaddr+memsz) < vaddr then pure none
    else do
      let sz ← onMem (Vm.allocuvm img pgdir sz (uint (vaddr+memsz)))
      if sz = 0 then pure none
      else if vaddr%PGSIZE ≠ 0 then pure none
      else do
        if ← loaduvm sb dev pgdir vaddr ip (field ph 4 4) filesz then
          loadProgram ip pgdir n (uint (off+32)) sz
        else pure none

/-- The program of ip in a new page directory, with its size; none is the label
bad, with the directory there may be. -/
def loadImage (ip : Ip) : KernM (Option ℕ × Option ℕ) := do
  let (r, elf) ← onFs (Fs.readi sb dev ip 0 52)
  if r ≠ 52 then pure (none, none)
  else if field elf 0 4 ≠ ELF_MAGIC then pure (none, none)
  else do
    match ← onMem (Vm.setupkvm img) with
    | none => pure (none, none)
    | some pgdir => do
      let sz ← loadProgram sb dev img ip pgdir (field elf 44 2) (field elf 28 4) 0
      pure (some pgdir, sz)

/-- The words of ustack in memory order. -/
def wordBytes (words : List ℕ) : List Byte := words.flatMap fun w => (List.range 4).map (byteLE w)

/-- The loop of `exec` over the argument strings; the addresses of the strings
gather in ustack. -/
def pushArgs (cr3 pgdir : ℕ) : List (List Byte) → ℕ → List ℕ → VmM (Option (ℕ × List ℕ))
  | [], sp, ustack => pure (some (sp, ustack))
  | arg :: argv, sp, ustack =>
    if ustack.length ≥ MAXARG then pure none
    else do
      let sp := uint (0x100000000+sp-(arg.length+1))/4*4
      if ← Vm.copyout cr3 pgdir (arg.length+2) sp (arg ++ [0]) then
        pushArgs cr3 pgdir argv sp (ustack ++ [sp])
      else pure none

/-- The user stack of a new program of size sz: its two pages, the argument strings
and ustack. The new size comes back. -/
@[irreducible] def userStack (cr3 pgdir sz : ℕ) (argv : List (List Byte)) : VmM (Option ℕ) := do
  let sz := PGROUNDUP sz
  let sz ← Vm.allocuvm img pgdir sz (uint (sz+2*PGSIZE))
  if sz = 0 then pure none
  else do
    Vm.clearpteu pgdir (sz-2*PGSIZE)
    match ← pushArgs cr3 pgdir argv sz [] with
    | none => pure none
    | some (sp, ustack) => do
      let argc := ustack.length
      let words := [0xFFFFFFFF, argc, uint (0x100000000+sp-(argc+1)*4)] ++ ustack ++ [0]
      let sp := uint (0x100000000+sp-(3+argc+1)*4)
      if ← Vm.copyout cr3 pgdir ((3+argc+1)*4+1) sp (wordBytes words) then pure (some sz)
      else pure none

def freeImage : Option ℕ → KernM Unit
  | none => pure ()
  | some pgdir => onMem (Vm.freevm img pgdir)

def exec (p : Slot) (path : List Byte) (argv : List (List Byte)) : KernM ℤ := do
  begin_op
  let cwd ← getCwd p
  match ← onFs (Fs.namei sb dev cwd path) with
  | none => do
    end_op
    pure (-1)
  | some ip => do
    onFs (Fs.ilock sb ip)
    match ← loadImage sb dev img ip with
    | (some pgdir, some sz) => do
      onFs (Fs.iunlockput sb ip)
      end_op
      let e ← getProc p
      match ← onMem (userStack img e.pgdir pgdir sz argv) with
      | none => do
        onMem (Vm.freevm img pgdir)
        pure (-1)
      | some sz => do
        setProc p fun e => { e with pgdir := pgdir, sz := sz }
        onMem (Vm.freevm img e.pgdir)
        pure 0
    | (pgdir, _) => do
      freeImage img pgdir
      onFs (Fs.iunlockput sb ip)
      end_op
      pure (-1)

/-- `sys_exec`: the argument strings lie in the memory of the caller. -/
def sys_exec (p : Slot) (path : List Byte) (argv : List (List Byte)) : KernM ℤ := do
  let e ← getProc p
  if argv.length ≥ MAXARG ∨ argv.any (fun s => decide (s.length ≥ e.sz)) then pure (-1)
  else exec sb dev img p path argv

/-- What a process does: a system call, or a store to its memory. -/
inductive Call
  | fork | exit | wait
  | sbrk (n : ℤ)
  | exec (path : List Byte) (argv : List (List Byte))
  | open (path : List Byte) (omode : BitVec 32)
  | dup (fd : ℤ)
  | close (fd : ℤ)
  | pipe
  | link (old new : List Byte)
  | unlink (path : List Byte)
  | mkdir (path : List Byte)
  | mknod (path : List Byte) (major minor : BitVec 16)
  | chdir (path : List Byte)
  | store (va : ℕ) (b : Byte)

/-- A store by the program of process p; without a user page there the process traps. -/
def userStore (p : Slot) (va : ℕ) (b : Byte) : KernM Unit := do
  let e ← getProc p
  if va ≥ KERNBASE then throw .sleep
  else do
    match ← onMem (Vm.walkpgdir e.pgdir va false) with
    | none => throw .sleep
    | some tab => do
      let pte ← onMem (Vm.getPte tab (PTX va))
      if pte &&& Vm.PTE_P = 0 ∨ pte &&& Vm.PTE_U = 0 then throw .sleep
      else do
        let k ← get
        onMem (Vm.setPage (PTE_ADDR pte)
          (Function.update (k.mem.page (PTE_ADDR pte)) (va%PGSIZE) b))

def perform (p : Slot) : Call → KernM Unit
  | .fork => discard (fork img p)
  | .exit => exit sb img p
  | .wait => discard (wait img p)
  | .sbrk n => discard (sys_sbrk img p n)
  | .exec path argv => discard (sys_exec sb dev img p path argv)
  | .open path omode => discard (sys_open sb dev img p path omode)
  | .dup fd => discard (sys_dup p fd)
  | .close fd => discard (sys_close sb img p fd)
  | .pipe => discard (sys_pipe sb img p)
  | .link old new => discard (sys_link sb dev p old new)
  | .unlink path => discard (sys_unlink sb dev p path)
  | .mkdir path => discard (sys_mkdir sb dev p path)
  | .mknod path major minor => discard (sys_mknod sb dev p path major minor)
  | .chdir path => discard (sys_chdir sb dev p path)
  | .store va b => userStore p va b

theorem ninode_pos : 0 < Fs.NINODE := by decide

theorem nproc_pos : 0 < NPROC := by decide

/-- The kernel before `userinit`. -/
def bareKernel (fs : FS) (mem : Mem) : Kernel where
  fs := fs
  mem := mem
  file _ := ⟨.FD_NONE, 0, false, false, 0, ⟨0, ninode_pos⟩, 0⟩
  pipe _ := none
  proc _ := ⟨.unused, 0, none, false, 0, 0, 0, fun _ => none, none⟩
  initproc := ⟨0, nproc_pos⟩
  nextpid := 1
  ops := []

/-- `userinit`, with the code of the first process. -/
def userinit (initcode : List Byte) : KernM Unit := do
  match ← allocproc with
  | none => panic "trap"
  | some p => do
    modify fun k => { k with initproc := p }
    match ← onMem (Vm.setupkvm img) with
    | none => panic "userinit: out of memory?"
    | some d => do
      setProc p fun e => { e with pgdir := d }
      onMem (Vm.inituvm d initcode)
      setProc p fun e => { e with sz := PGSIZE }
      -- the path is absolute: there is no current directory yet
      let cwd ← onFs (Fs.namei sb dev ⟨0, ninode_pos⟩ [Fs.slash])
      setProc p fun e => { e with cwd := cwd }
      setProc p fun e => { e with state := .runnable }

/-- A call by a process that is there and has not exited. -/
def step (k : Kernel) (e : Slot × Call) : Option Kernel :=
  if (k.proc e.1).state = .runnable then
    match perform sb dev img e.1 e.2 k with
    | .ok (_, k) => some k
    | .error _ => none
  else none

end

end ProvenXv6.Kern
