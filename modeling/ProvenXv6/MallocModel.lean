import ProvenXv6.Chains
import ProvenXv6.Extents
import ProvenXv6.StepSystem

/-! umalloc.c. Addresses are numbers of 32 bits; a header is 8 bytes, and its cell is kept under
its address. The loops are given more rounds than there can be blocks. -/
namespace ProvenXv6.Malloc
open Chains Extents StepSystem

structure Header where
  ptr : ℕ
  size : ℕ
  deriving DecidableEq, Repr

/-- The memory and freep, and what `sbrk` has to answer: -1 (none) or a region above brk, with
some bytes left out. -/
structure Heap where
  hdr : ℕ → Header
  freep : ℕ
  brk : ℕ
  answers : List (Option ℕ)
  regions : List Extent

def wrap (x : ℕ) : ℕ := x%0x100000000

/-- Pointer arithmetic on headers: p+n. -/
def plus (p n : ℕ) : ℕ := wrap (p+8*n)

def Heap.ptr (s : Heap) (p : ℕ) : ℕ := (s.hdr p).ptr

def Heap.size (s : Heap) (p : ℕ) : ℕ := (s.hdr p).size

def Heap.setPtr (s : Heap) (p x : ℕ) : Heap :=
  { s with hdr := Function.update s.hdr p ⟨x, s.size p⟩ }

def Heap.setSize (s : Heap) (p n : ℕ) : Heap :=
  { s with hdr := Function.update s.hdr p ⟨s.ptr p, n⟩ }

def rounds : ℕ := 0x400000000

/-- Where the search for the place of bp stops: its condition and the `break`. -/
def Heap.place (s : Heap) (bp p : ℕ) : Bool :=
  p < bp ∧ bp < s.ptr p ∨ s.ptr p ≤ p ∧ (p < bp ∨ bp < s.ptr p)

/-- x takes q as its successor, or takes it in if x ends at q: first bp with p->s.ptr, then p
with bp. -/
def Heap.attach (s : Heap) (x q : ℕ) : Heap :=
  if plus x (s.size x) = q then
    let s := s.setSize x (wrap (s.size x+s.size q))
    s.setPtr x (s.ptr q)
  else s.setPtr x q

def free (ap : ℕ) (s : Heap) : Option Heap := do
  let bp := ap-8
  let p ← walk s.ptr (s.place bp) rounds s.freep
  let s := s.attach bp (s.ptr p)
  let s := s.attach p bp
  some { s with freep := p }

/-- The region of n bytes at p is given. -/
def Heap.grow (s : Heap) (p n : ℕ) (rest : List (Option ℕ)) : Heap :=
  { s with brk := p+n, answers := rest, regions := ⟨p, n⟩ :: s.regions }

def sbrk (n : ℕ) (s : Heap) : Heap × Option ℕ :=
  match s.answers with
  | [] => (s, none)
  | none :: rest => ({ s with answers := rest }, none)
  | some skip :: rest =>
    let p := s.brk+skip
    if p+n < 0x100000000 then (s.grow p n rest, some p)
    else ({ s with answers := rest }, none)

/-- The result is 0 or freep. -/
def morecore (nu : ℕ) (s : Heap) : Option (Heap × ℕ) :=
  let nu := if nu < 4096 then 4096 else nu
  match sbrk (wrap (nu*8)) s with
  | (s, none) => some (s, 0)
  | (s, some hp) => do
    let s := s.setSize hp nu
    let s ← free (plus hp 1) s
    some (s, s.freep)

/-- The block p with prevp in front of it is large enough: take it, or cut off its end. -/
def carve (nunits prevp p : ℕ) (s : Heap) : Heap × ℕ :=
  if s.size p = nunits then
    let s := s.setPtr prevp (s.ptr p)
    ({ s with freep := prevp }, plus p 1)
  else
    let s := s.setSize p (s.size p-nunits)
    let p := plus p (s.size p)
    let s := s.setSize p nunits
    ({ s with freep := prevp }, plus p 1)

def mallocLoop (nunits : ℕ) : ℕ → ℕ → ℕ → Heap → Option (Heap × ℕ)
  | 0, _, _, _ => none
  | n+1, prevp, p, s =>
    if nunits ≤ s.size p then some (carve nunits prevp p s)
    else if p = s.freep then do
      let (s, p) ← morecore nunits s
      if p = 0 then some (s, 0) else mallocLoop nunits n p (s.ptr p) s
    else mallocLoop nunits n p (s.ptr p) s

def units (nbytes : ℕ) : ℕ := wrap (nbytes+8-1)/8+1

/-- base is the address of the static header. -/
def malloc (base nbytes : ℕ) (s : Heap) : Option (Heap × ℕ) :=
  let s := if s.freep = 0 then
      { s with hdr := Function.update s.hdr base ⟨base, 0⟩, freep := base }
    else s
  mallocLoop (units nbytes) rounds s.freep (s.ptr s.freep) s

/-- An allocated block with its header, and the number of bytes asked for. -/
structure Live where
  block : Extent
  n : ℕ
  deriving DecidableEq, Repr

structure Sys where
  heap : Heap
  live : List Live

/-- The program may also write into its blocks: a cell it changes has some of the bytes that it
asked for. -/
inductive Event
  | malloc (n : ℕ)
  | free (p : ℕ)
  | write (a : ℕ) (h : Header)

/-- What the program may do: free what it got from malloc and did not free yet. -/
def Allowed (s : Sys) : Event → Prop
  | .malloc n => n < 0x40000000
  | .free p => ∃ l ∈ s.live, l.block.addr+8 = p
  | .write a _ => ∃ l ∈ s.live, l.block.addr < a ∧ a < l.block.addr+8+l.n

def step (base : ℕ) (s : Sys) : Event → Option Sys
  | .malloc n => do
    let (heap, p) ← malloc base n s.heap
    if p = 0 then some { s with heap := heap }
    else some ⟨heap, ⟨⟨p-8, 8*heap.size (p-8)⟩, n⟩ :: s.live⟩
  | .free p => do
    let heap ← free p s.heap
    some ⟨heap, s.live.eraseP fun l => l.block.addr+8 = p⟩
  | .write a h => some { s with heap := { s.heap with hdr := Function.update s.heap.hdr a h } }

/-- Before the first call: freep is zero, and nothing is known of the memory. -/
def start (hdr : ℕ → Header) (brk : ℕ) (answers : List (Option ℕ)) : Sys :=
  ⟨⟨hdr, 0, brk, answers, []⟩, []⟩

end ProvenXv6.Malloc
