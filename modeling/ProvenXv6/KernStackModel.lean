import ProvenXv6.KernModel

/-! `exec` once more, with two things left open or added: how `copyout` gets from an
address to a page, and the stack pointer that the new program starts with. With
`uva2ka` it is `exec`; with `checkedUva2ka` it stops where `walkpgdir` finds no page
table, which is where `uva2ka` reads an entry through a null pointer. -/
namespace ProvenXv6.Vm
open WeakestPre
open Fs (Byte Fault copyIn)

/-- `*pte` is read although pte is 0. -/
def nullPte : Fault := .panic "null pte"

def checkedUva2ka (pgdir uva : ℕ) : VmM (Option ℕ) := do
  match ← walkpgdir pgdir uva false with
  | none => throw nullPte
  | some tab => do
    let pte ← getPte tab (PTX uva)
    if pte &&& PTE_P = 0 then pure none
    else if pte &&& PTE_U = 0 then pure none
    else pure (some (PTE_ADDR pte))

/-- The loop of `copyout`, with ka for `uva2ka`. -/
def copyoutBy (ka : ℕ → VmM (Option ℕ)) : ℕ → ℕ → List Byte → VmM Bool
  | 0, _, _ => throw .fuel
  | fuel+1, va, p =>
    if p = [] then pure true
    else do
      let va0 := PGROUNDDOWN va
      match ← ka va0 with
      | none => pure false
      | some pa0 => do
        let n := min (PGSIZE-(va-va0)) p.length
        let s ← get
        setPage pa0 (copyIn (s.page pa0) (va-va0) n fun j => p.getD j 0)
        copyoutBy ka fuel (uint (va0+PGSIZE)) (p.drop n)

theorem copyout_eq (cr3 pgdir fuel va : ℕ) (p : List Byte) :
    copyout cr3 pgdir fuel va p = copyoutBy (uva2ka cr3 pgdir) fuel va p := by
  induction fuel generalizing va p with
  | zero => rfl
  | succ fuel ih =>
    unfold copyout copyoutBy
    split_ifs
    · rfl
    · refine bind_congr fun pa0 => ?_
      cases pa0 with
      | none => rfl
      | some pa0 => exact bind_congr fun s => bind_congr fun _ => ih _ _

end ProvenXv6.Vm

namespace ProvenXv6.Kern
open WeakestPre
open Fs (Byte Ip Superblock Devsw)
open Vm (VmM Image PGSIZE PGROUNDUP uint)
open Ptable (Slot)

/-- The loop of `exec` over the argument strings, with copy for `copyout`. -/
def pushArgsBy (copy : ℕ → ℕ → List Byte → VmM Bool) : List (List Byte) → ℕ → List ℕ →
    VmM (Option (ℕ × List ℕ))
  | [], sp, ustack => pure (some (sp, ustack))
  | arg :: argv, sp, ustack =>
    if ustack.length ≥ MAXARG then pure none
    else do
      let sp := uint (0x100000000+sp-(arg.length+1))/4*4
      if ← copy (arg.length+2) sp (arg ++ [0]) then pushArgsBy copy argv sp (ustack ++ [sp])
      else pure none

section
variable (sb : Superblock) (dev : Devsw) (img : Image)

/-- The user stack of a new program; its size and its stack pointer come back. -/
@[irreducible] def userStackBy (copy : ℕ → ℕ → List Byte → VmM Bool) (pgdir sz : ℕ) (argv : List (List Byte)) :
    VmM (Option (ℕ × ℕ)) := do
  let sz := PGROUNDUP sz
  let sz ← Vm.allocuvm img pgdir sz (uint (sz+2*PGSIZE))
  if sz = 0 then pure none
  else do
    Vm.clearpteu pgdir (sz-2*PGSIZE)
    match ← pushArgsBy copy argv sz [] with
    | none => pure none
    | some (sp, ustack) => do
      let argc := ustack.length
      let words := [0xFFFFFFFF, argc, uint (0x100000000+sp-(argc+1)*4)] ++ ustack ++ [0]
      let sp := uint (0x100000000+sp-(3+argc+1)*4)
      if ← copy ((3+argc+1)*4+1) sp (wordBytes words) then pure (some (sz, sp))
      else pure none

/-- The part of `exec` before the user stack: the program of the path is in a new
page directory, with its size. -/
def openImage (p : Slot) (path : List Byte) : KernM (Option (ℕ × ℕ)) := do
  begin_op
  let cwd ← getCwd p
  match ← onFs (Fs.namei sb dev cwd path) with
  | none => do
    end_op
    pure none
  | some ip => do
    onFs (Fs.ilock sb ip)
    match ← loadImage sb dev img ip with
    | (some pgdir, some sz) => do
      onFs (Fs.iunlockput sb ip)
      end_op
      pure (some (pgdir, sz))
    | (pgdir, _) => do
      freeImage img pgdir
      onFs (Fs.iunlockput sb ip)
      end_op
      pure none

/-- `exec`, with ka for `uva2ka`. The stack pointer comes back where `exec` returns 0. -/
def execBy (ka : ℕ → ℕ → ℕ → VmM (Option ℕ)) (p : Slot) (path : List Byte) (argv : List (List Byte)) :
    KernM (Option ℕ) := do
  match ← openImage sb dev img p path with
  | none => pure none
  | some (pgdir, sz) => do
    let e ← getProc p
    match ← onMem (userStackBy img (Vm.copyoutBy (ka e.pgdir pgdir)) pgdir sz argv) with
    | none => do
      onMem (Vm.freevm img pgdir)
      pure none
    | some (sz, sp) => do
      setProc p fun e => { e with pgdir := pgdir, sz := sz }
      onMem (Vm.freevm img e.pgdir)
      pure (some sp)

theorem pushArgs_eq (cr3 pgdir : ℕ) (argv : List (List Byte)) (sp : ℕ) (ustack : List ℕ) :
    pushArgs cr3 pgdir argv sp ustack = pushArgsBy (Vm.copyoutBy (Vm.uva2ka cr3 pgdir)) argv sp ustack := by
  induction argv generalizing sp ustack with
  | nil => rfl
  | cons arg argv ih =>
    unfold pushArgs pushArgsBy
    split_ifs
    · rfl
    · dsimp only
      rw [Vm.copyout_eq]
      refine bind_congr fun r => ?_
      rw [ih]

theorem userStack_eq (cr3 pgdir sz : ℕ) (argv : List (List Byte)) :
    userStack img cr3 pgdir sz argv =
      Option.map Prod.fst <$> userStackBy img (Vm.copyoutBy (Vm.uva2ka cr3 pgdir)) pgdir sz argv := by
  unfold userStack userStackBy
  dsimp only
  rw [map_bind]
  refine bind_congr fun r => ?_
  split_ifs
  · rfl
  · rw [map_bind]
    refine bind_congr fun _ => ?_
    rw [map_bind, pushArgs_eq]
    refine bind_congr fun r => ?_
    rcases r with _ | ⟨sp, ustack⟩
    · rfl
    · dsimp only
      rw [map_bind, Vm.copyout_eq]
      refine bind_congr fun r => ?_
      split_ifs <;> rfl

theorem onMem_map {α β : Type} (f : α → β) (m : VmM α) : onMem (f <$> m) = f <$> onMem m := by
  funext k
  rw [map_eq_pure_bind, map_eq_pure_bind]
  have hbind : (m >>= fun a => pure (f a)) k.mem = (m k.mem).bind fun r => .ok (f r.1, r.2) := rfl
  have hbind' : (onMem m >>= fun a => pure (f a)) k = (onMem m k).bind fun r => .ok (f r.1, r.2) := rfl
  rw [hbind']
  unfold onMem
  rw [hbind]
  cases m k.mem <;> rfl

/-- `exec` is the one with `uva2ka`. -/
theorem exec_eq (p : Slot) (path : List Byte) (argv : List (List Byte)) :
    exec sb dev img p path argv =
      (fun esp => if esp.isSome then 0 else -1) <$> execBy sb dev img Vm.uva2ka p path argv := by
  unfold exec execBy openImage
  simp only [map_bind, bind_assoc]
  refine bind_congr fun _ => bind_congr fun cwd => bind_congr fun ip => ?_
  rcases ip with _ | ip
  · rfl
  · rw [bind_assoc]
    refine bind_congr fun _ => ?_
    rw [bind_assoc]
    refine bind_congr fun r => ?_
    rcases r with ⟨_ | pgdir, _ | sz⟩
    · simp only [bind_assoc, pure_bind, map_pure]
      rfl
    · simp only [bind_assoc, pure_bind, map_pure]
      rfl
    · simp only [bind_assoc, pure_bind, map_pure]
      rfl
    · simp only [bind_assoc, pure_bind, map_bind]
      refine bind_congr fun _ => bind_congr fun _ => bind_congr fun e => ?_
      rw [userStack_eq, onMem_map, bind_map_left]
      refine bind_congr fun r => ?_
      rcases r with _ | ⟨sz, sp⟩
      · simp only [Option.map_none, map_bind, map_pure]
        rfl
      · simp only [Option.map_some, map_bind, map_pure]
        rfl

end

end ProvenXv6.Kern
