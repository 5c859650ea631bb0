import ProvenXv6.MallocHeap
import ProvenXv6.VmModel

/-! malloc with the `sbrk` of the kernel, for every `uint`: the number of units goes back to bytes
and `growproc` takes the bytes as an `int`. -/
namespace ProvenXv6.Malloc
open Chains Extents StepSystem
open Vm (KERNBASE PGROUNDUP)

/-- `growproc` on a process of size sz for the `int` with the bits n: whether it succeeds, and
the size afterwards. With ok there is memory for a larger process. -/
def growproc (ok : Bool) (sz n : ℕ) : Bool × ℕ :=
  let newsz := wrap (sz+n)
  if n = 0 then (true, sz)
  else if n < 0x80000000 then
    -- allocuvm
    if newsz ≥ KERNBASE then (false, sz)
    else if newsz < sz then (true, sz)
    else if ok then (true, newsz)
    else (false, sz)
  else
    -- deallocuvm
    let sz' := min sz newsz
    if sz' = 0 then (false, sz) else (true, sz')

/-- `deallocuvm` is left with less than there was. -/
def shrinks (sz n : ℕ) : Bool := 0x80000000 ≤ n ∧ wrap (sz+n) < sz

/-- The heap, whose brk is the size of the process, and whether memory was ever taken away. -/
structure Process where
  heap : Heap
  shrunk : Bool

/-- Whether `growproc` gives the process n more bytes. -/
def Process.grows (s : Process) (n : ℕ) : Bool :=
  (growproc (s.heap.answers.headD none).isSome s.heap.brk n).1

namespace OnKernel

/-- The answers say whether there is memory; the region starts at brk. -/
def sbrk (n : ℕ) (s : Process) : Process × Option ℕ :=
  let sz := s.heap.brk
  let rest := s.heap.answers.tail
  let (done, sz') := growproc (s.heap.answers.headD none).isSome sz n
  let heap := if sz < sz' then s.heap.grow sz (sz'-sz) rest
    else { s.heap with brk := sz', answers := rest }
  (⟨heap, s.shrunk || shrinks sz n⟩, if done then some sz else none)

def morecore (nu : ℕ) (s : Process) : Option (Process × ℕ) :=
  let nu := if nu < 4096 then 4096 else nu
  match sbrk (wrap (nu*8)) s with
  | (s, none) => some (s, 0)
  | (s, some hp) =>
    -- a header behind the last page of the process is a page fault
    if PGROUNDUP s.heap.brk < hp+8 then none
    else do
      let heap ← free (plus hp 1) (s.heap.setSize hp nu)
      some (⟨heap, s.shrunk⟩, heap.freep)

def mallocLoop (nunits : ℕ) : ℕ → ℕ → ℕ → Process → Option (Process × ℕ)
  | 0, _, _, _ => none
  | n+1, prevp, p, s =>
    if nunits ≤ s.heap.size p then
      let (heap, q) := carve nunits prevp p s.heap
      some (⟨heap, s.shrunk⟩, q)
    else if p = s.heap.freep then do
      let (s, p) ← morecore nunits s
      if p = 0 then some (s, 0) else mallocLoop nunits n p (s.heap.ptr p) s
    else mallocLoop nunits n p (s.heap.ptr p) s

def ready (base : ℕ) (s : Heap) : Heap :=
  if s.freep = 0 then { s with hdr := Function.update s.hdr base ⟨base, 0⟩, freep := base } else s

def malloc (base nbytes : ℕ) (s : Process) : Option (Process × ℕ) :=
  let heap := ready base s.heap
  mallocLoop (units nbytes) rounds heap.freep (heap.ptr heap.freep) ⟨heap, s.shrunk⟩

/-- A program with its live blocks, as in `Malloc.step`. -/
structure Program where
  sys : Sys
  shrunk : Bool

def Program.process (s : Program) : Process := ⟨s.sys.heap, s.shrunk⟩

def step (base : ℕ) (s : Program) : Event → Option Program
  | .malloc n => do
    let (t, p) ← malloc base n s.process
    if p = 0 then some ⟨{ s.sys with heap := t.heap }, t.shrunk⟩
    else some ⟨⟨t.heap, ⟨⟨p-8, 8*t.heap.size (p-8)⟩, n⟩ :: s.sys.live⟩, t.shrunk⟩
  | e => do
    let sys ← Malloc.step base s.sys e
    some { s with sys := sys }

def start (hdr : ℕ → Header) (brk : ℕ) (answers : List (Option ℕ)) : Program :=
  ⟨Malloc.start hdr brk answers, false⟩

/-- What a call of malloc owes: it returns without taking memory away, and a pointer that it
returns has n bytes in one block, all of them memory that sbrk has added. -/
def Honours (base n : ℕ) (s : Program) : Prop :=
  ∃ t p, malloc base n s.process = some (t, p) ∧ t.shrunk = false ∧ s.sys.heap.brk ≤ t.heap.brk ∧
    (p = 0 ∨ ∃ b : Extent, b.addr+8 = p ∧ b.size = 8*t.heap.size b.addr ∧
      ∀ x, p ≤ x → x < p+n → b.Has x ∧ 0 < cover t.heap.regions x)

/-- Before a call: the free list has no block but the empty one, and `growproc` fails for the
4096 units that morecore asks for at least. -/
def Exhausted (base : ℕ) (s : Program) : Prop :=
  (s.sys.heap.freep = 0 ∨ s.sys.heap.ptr base = base) ∧ s.process.grows (8*4096) = false

/-- The sizes for which malloc keeps its contract. -/
def Fits (base n : ℕ) (s : Program) : Prop := n ≤ 0x7ffffff0 ∨ 0xfffffff9 ≤ n ∧ Exhausted base s

end OnKernel

end ProvenXv6.Malloc
