import ProvenXv6.FsModel

/-! The page allocator of xv6-public/kalloc.c and the page tables of vm.c.
A physical page goes by its number; addresses and sizes are `uint` values, and
page directories and page tables are words in the pages of physical memory. -/
namespace ProvenXv6.Vm
open WeakestPre
open Fs (Byte Block Fault getWord setWord copyIn)

def PGSIZE : ℕ := 4096

def NPDENTRIES : ℕ := 1024

def NPTENTRIES : ℕ := 1024

def EXTMEM : ℕ := 0x100000

def PHYSTOP : ℕ := 0xE000000

def DEVSPACE : ℕ := 0xFE000000

def KERNBASE : ℕ := 0x80000000

def KERNLINK : ℕ := KERNBASE+EXTMEM

def PTE_P : BitVec 32 := 1

def PTE_W : BitVec 32 := 2

def PTE_U : BitVec 32 := 4

/-- The value of a `uint` expression. -/
def uint (x : ℕ) : ℕ := x%0x100000000

def PDX (va : ℕ) : ℕ := va/0x400000

def PTX (va : ℕ) : ℕ := va/PGSIZE%NPTENTRIES

def PGROUNDUP (sz : ℕ) : ℕ := uint (sz+PGSIZE-1)/PGSIZE*PGSIZE

def PGROUNDDOWN (a : ℕ) : ℕ := a/PGSIZE*PGSIZE

/-- The page that an entry refers to. -/
def PTE_ADDR (pte : BitVec 32) : ℕ := (pte >>> 12).toNat

def PTE_FLAGS (pte : BitVec 32) : BitVec 32 := pte &&& 0xFFF

/-- What the linker decides: the first page of the kernel's data and the first page
behind the kernel. The pages up to 4 MB have room for the first page table. -/
structure Image where
  data : ℕ
  kend : ℕ
  text : EXTMEM/PGSIZE < data
  data_le : data ≤ kend
  room : kend+65 ≤ 0x400000/PGSIZE

/-- `kmem.freelist` and physical memory. The calls of `kalloc` that deny marks fail
although there are free pages. -/
structure Mem where
  free : List ℕ
  deny : List Bool
  page : ℕ → Block

abbrev VmM (α : Type) := Comp Mem Fault α

def panic {α : Type} (msg : String) : VmM α := throw (.panic msg)

def setPage (p : ℕ) (x : Block) : VmM Unit :=
  modify fun s => { s with page := Function.update s.page p x }

def memset (p : ℕ) (b : Byte) : VmM Unit := setPage p fun _ => b

def getPte (tab i : ℕ) : VmM (BitVec 32) := do
  let s ← get
  pure (getWord (s.page tab) i)

def setPte (tab i : ℕ) (pte : BitVec 32) : VmM Unit :=
  modify fun s => { s with page := Function.update s.page tab (setWord (s.page tab) i pte) }

def kalloc : VmM (Option ℕ) := do
  let s ← get
  modify fun s => { s with deny := s.deny.tail }
  match s.free with
  | [] => pure none
  | p :: rest =>
    if s.deny.headD false then pure none
    else do
      modify fun s => { s with free := rest }
      pure (some p)

/-- The page table for va; the entry in it is the one of index `PTX va`. -/
def walkpgdir (pgdir va : ℕ) (alloc : Bool) : VmM (Option ℕ) := do
  let pde ← getPte pgdir (PDX va)
  if pde &&& PTE_P ≠ 0 then pure (some (PTE_ADDR pde))
  else if alloc = false then pure none
  else do
    match ← kalloc with
    | none => pure none
    | some pgtab => do
      memset pgtab 0
      setPte pgdir (PDX va) (BitVec.ofNat 32 (pgtab*PGSIZE) ||| PTE_P ||| PTE_W ||| PTE_U)
      pure (some pgtab)

/-- The loop of `mappages`, with n more pages behind the one at a. -/
def mapLoop (pgdir : ℕ) (perm : BitVec 32) : ℕ → ℕ → ℕ → VmM Bool
  | n, a, pa => do
    match ← walkpgdir pgdir a true with
    | none => pure false
    | some tab => do
      let pte ← getPte tab (PTX a)
      if pte &&& PTE_P ≠ 0 then panic "remap"
      else do
        setPte tab (PTX a) (BitVec.ofNat 32 pa ||| perm ||| PTE_P)
        match n with
        | 0 => pure true
        | n+1 => mapLoop pgdir perm n (a+PGSIZE) (pa+PGSIZE)

/-- Whether all pages could be mapped. -/
def mappages (pgdir va size pa : ℕ) (perm : BitVec 32) : VmM Bool :=
  let a := PGROUNDDOWN va
  let last := PGROUNDDOWN (uint (va+size-1))
  mapLoop pgdir perm ((last-a)/PGSIZE) a pa

structure Kmap where
  virt : ℕ
  phys_start : ℕ
  phys_end : ℕ
  perm : BitVec 32

section
variable (img : Image)

def kfree (p : ℕ) : VmM Unit :=
  if p < img.kend ∨ p*PGSIZE ≥ PHYSTOP then panic "kfree"
  else do
    memset p 1
    modify fun s => { s with free := p :: s.free }

/-- The page behind an entry is freed, if there is one. -/
def freePte (tab i : ℕ) : VmM Unit := do
  let pte ← getPte tab i
  if pte &&& PTE_P ≠ 0 then
    if PTE_ADDR pte = 0 then panic "kfree"
    else do
      kfree img (PTE_ADDR pte)
      setPte tab i 0
  else pure ()

/-- The loop of `deallocuvm`; without a page table it goes on at the next one. -/
def deallocLoop (pgdir oldsz : ℕ) : ℕ → ℕ → VmM Unit
  | 0, _ => throw .fuel
  | fuel+1, a =>
    if a < oldsz then do
      match ← walkpgdir pgdir a false with
      | none => deallocLoop pgdir oldsz fuel (uint ((PDX a+1)*0x400000))
      | some tab => do
        freePte img tab (PTX a)
        deallocLoop pgdir oldsz fuel (uint (a+PGSIZE))
    else pure ()

def deallocuvm (pgdir oldsz newsz : ℕ) : VmM ℕ :=
  if newsz ≥ oldsz then pure oldsz
  else do
    deallocLoop img pgdir oldsz (oldsz/PGSIZE+2) (PGROUNDUP newsz)
    pure newsz

def allocLoop (pgdir oldsz newsz : ℕ) : ℕ → ℕ → VmM ℕ
  | 0, _ => throw .fuel
  | fuel+1, a =>
    if a < newsz then do
      match ← kalloc with
      | none => do
        let _ ← deallocuvm img pgdir newsz oldsz
        pure 0
      | some mem => do
        memset mem 0
        if ← mappages pgdir a PGSIZE (mem*PGSIZE) (PTE_W ||| PTE_U) then
          allocLoop pgdir oldsz newsz fuel (uint (a+PGSIZE))
        else do
          let _ ← deallocuvm img pgdir newsz oldsz
          kfree img mem
          pure 0
    else pure newsz

/-- The new size, or 0 on an error. -/
def allocuvm (pgdir oldsz newsz : ℕ) : VmM ℕ :=
  if newsz ≥ KERNBASE then pure 0
  else if newsz < oldsz then pure oldsz
  else allocLoop img pgdir oldsz newsz (newsz/PGSIZE+2) (PGROUNDUP oldsz)

def freevm (pgdir : ℕ) : VmM Unit :=
  if pgdir = 0 then panic "freevm: no pgdir"
  else do
    let _ ← deallocuvm img pgdir KERNBASE 0
    forM (List.range NPDENTRIES) fun i => do
      let pde ← getPte pgdir i
      if pde &&& PTE_P ≠ 0 then kfree img (PTE_ADDR pde) else pure ()
    kfree img pgdir

def kmap : List Kmap :=
  [⟨KERNBASE, 0, EXTMEM, PTE_W⟩,
   ⟨KERNLINK, EXTMEM, img.data*PGSIZE, 0⟩,
   ⟨KERNBASE+img.data*PGSIZE, img.data*PGSIZE, PHYSTOP, PTE_W⟩,
   ⟨DEVSPACE, DEVSPACE, 0, PTE_W⟩]

def setupLoop (pgdir : ℕ) : List Kmap → VmM (Option ℕ)
  | [] => pure (some pgdir)
  | k :: rest => do
    if ← mappages pgdir k.virt (uint (0x100000000+k.phys_end-k.phys_start)) k.phys_start k.perm then
      setupLoop pgdir rest
    else do
      freevm img pgdir
      pure none

def setupkvm : VmM (Option ℕ) := do
  match ← kalloc with
  | none => pure none
  | some pgdir => do
    memset pgdir 0
    setupLoop img pgdir (kmap img)

/-- The code of the first process; a page fault in the kernel is a panic. -/
def inituvm (pgdir : ℕ) (init : List Byte) : VmM Unit :=
  if init.length ≥ PGSIZE then panic "inituvm: more than a page"
  else do
    match ← kalloc with
    | none => panic "trap"
    | some mem => do
      memset mem 0
      let _ ← mappages pgdir 0 PGSIZE (mem*PGSIZE) (PTE_W ||| PTE_U)
      let s ← get
      setPage mem (copyIn (s.page mem) 0 init.length fun j => init.getD j 0)

def clearpteu (pgdir uva : ℕ) : VmM Unit := do
  match ← walkpgdir pgdir uva false with
  | none => panic "clearpteu"
  | some tab => do
    let pte ← getPte tab (PTX uva)
    setPte tab (PTX uva) (pte &&& ~~~PTE_U)

def copyLoop (pgdir sz d : ℕ) : ℕ → ℕ → VmM (Option ℕ)
  | 0, _ => throw .fuel
  | fuel+1, i =>
    if i < sz then do
      match ← walkpgdir pgdir i false with
      | none => panic "copyuvm: pte should exist"
      | some tab => do
        let pte ← getPte tab (PTX i)
        if pte &&& PTE_P = 0 then panic "copyuvm: page not present"
        else do
          match ← kalloc with
          | none => do
            freevm img d
            pure none
          | some mem => do
            let s ← get
            setPage mem (s.page (PTE_ADDR pte))
            if ← mappages d i PGSIZE (mem*PGSIZE) (PTE_FLAGS pte) then
              copyLoop pgdir sz d fuel (uint (i+PGSIZE))
            else do
              kfree img mem
              freevm img d
              pure none
    else pure (some d)

def copyuvm (pgdir sz : ℕ) : VmM (Option ℕ) := do
  match ← setupkvm img with
  | none => pure none
  | some d => copyLoop img pgdir sz d (sz/PGSIZE+2) 0

/-- `growproc(n)` of a process with page directory pgdir and size sz: the result,
and the size of the process afterwards. -/
def growproc (pgdir sz : ℕ) (n : ℤ) : VmM (ℤ × ℕ) := do
  let newsz := (((sz : ℤ)+n)%0x100000000).toNat
  if n > 0 then do
    let r ← allocuvm img pgdir sz newsz
    if r = 0 then pure (-1, sz) else pure (0, r)
  else if n < 0 then do
    let r ← deallocuvm img pgdir sz newsz
    if r = 0 then pure (-1, sz) else pure (0, r)
  else pure (0, sz)

end

/-- The word at address 0, which `*pte` reads when pte is 0: the one of the process
whose directory is loaded. -/
def readNull (cr3 : ℕ) : VmM (BitVec 32) := do
  match ← walkpgdir cr3 0 false with
  | none => panic "trap"
  | some tab => do
    let pte ← getPte tab 0
    if pte &&& PTE_P = 0 then panic "trap" else getPte (PTE_ADDR pte) 0

def uva2ka (cr3 pgdir uva : ℕ) : VmM (Option ℕ) := do
  let tab ← walkpgdir pgdir uva false
  let pte ← match tab with
    | some tab => getPte tab (PTX uva)
    | none => readNull cr3
  if pte &&& PTE_P = 0 then pure none
  else if pte &&& PTE_U = 0 then pure none
  else pure (some (PTE_ADDR pte))

/-- The loop of `copyout`: the bytes p go to va. -/
def copyout (cr3 pgdir : ℕ) : ℕ → ℕ → List Byte → VmM Bool
  | 0, _, _ => throw .fuel
  | fuel+1, va, p =>
    if p = [] then pure true
    else do
      let va0 := PGROUNDDOWN va
      match ← uva2ka cr3 pgdir va0 with
      | none => pure false
      | some pa0 => do
        let n := min (PGSIZE-(va-va0)) p.length
        let s ← get
        setPage pa0 (copyIn (s.page pa0) (va-va0) n fun j => p.getD j 0)
        copyout cr3 pgdir fuel (uint (va0+PGSIZE)) (p.drop n)

end ProvenXv6.Vm
