import Mathlib.Data.Int.Basic
import Mathlib.Logic.Function.Basic
import ProvenXv6.ScanMin

/-! The page replacement simulators of main.c. One loop body serves all of
them; each simulator supplies its own bookkeeping and its choice of the frame to
replace. A read of an unassigned array cell, an index outside an array and a
loop that does not end are modelled as failure. Output is left out, and with it
the 100 bytes in which `print_page_frame` puts a line together: n frames with pages
of L characters need n(L+1)+8, which fits for n up to 7 or L up to 8. -/
namespace ProvenXv6.Paging
open ScanMin

/-- `struct psr`: a page number and its access, 0 for a read and 1 for a write. -/
structure Psr where
  data : ℤ
  rw : ℤ
  deriving DecidableEq, Repr

/-- The locals of a simulator: the frames and counts they all have, and its own. -/
structure Sim (pfNum : ℕ) (Aux : Type) where
  pageFrame : Fin pfNum → ℤ
  pageFault : ℕ
  occupied : ℕ
  occupied_le : occupied ≤ pfNum
  aux : Aux

/-- What distinguishes one simulator from another. -/
structure Policy (pfNum : ℕ) where
  Aux : Type
  init : Aux
  /-- run at the head of the loop body, before the lookup -/
  tick : Aux → Aux
  hit : Aux → Fin pfNum → Aux
  cold : Aux → Fin pfNum → Psr → Aux
  /-- the frame to replace when all are occupied -/
  replace : List Psr → ℕ → Psr → Sim pfNum Aux → Option (Fin pfNum × Aux)

def frameIdx (pfNum k : ℕ) : Option (Fin pfNum) :=
  if h : k < pfNum then some ⟨k, h⟩ else none

/-- The scan stops one frame past the occupied ones while a frame is free. -/
def checkHit {pfNum : ℕ} (key : ℤ) (pageFrame : Fin pfNum → ℤ) (occupied : ℕ) :
    Option (Fin pfNum) :=
  let occupied := if occupied < pfNum then occupied+1 else occupied
  ((List.finRange pfNum).take occupied).find? (fun i => key = pageFrame i)

namespace Policy
variable {pfNum : ℕ} (P : Policy pfNum)

def start : Sim pfNum P.Aux where
  pageFrame := fun _ => -1
  pageFault := 0
  occupied := 0
  occupied_le := Nat.zero_le _
  aux := P.init

/-- One iteration of the loop over the references. -/
def step (refs : List Psr) (i : ℕ) (r : Psr) (s : Sim pfNum P.Aux) : Option (Sim pfNum P.Aux) :=
  let s := { s with aux := P.tick s.aux }
  match checkHit r.data s.pageFrame s.occupied with
  | some tmp => some { s with aux := P.hit s.aux tmp }
  | none =>
    let s := { s with pageFault := s.pageFault+1 }
    if h : s.occupied < pfNum then
      some { s with
        pageFrame := Function.update s.pageFrame ⟨s.occupied, h⟩ r.data
        occupied := s.occupied+1
        occupied_le := h
        aux := P.cold s.aux ⟨s.occupied, h⟩ r }
    else
      (P.replace refs i r s).map fun (index, aux) =>
        { s with pageFrame := Function.update s.pageFrame index r.data, aux := aux }

/-- The state after the first k references. -/
def stateAt (refs : List Psr) : ℕ → Option (Sim pfNum P.Aux)
  | 0 => some P.start
  | k+1 => do
    let s ← stateAt refs k
    let r ← refs[k]?
    P.step refs k r s

def run (refs : List Psr) : Option (Sim pfNum P.Aux) := P.stateAt refs refs.length

end Policy

/-- The last position before n at which the page is referenced. -/
def searchBack (refs : List Psr) (page : ℤ) (n : ℕ) : Option ℕ :=
  (List.range n).reverse.find? (fun j => (refs[j]?).map Psr.data = some page)

/-- The first position from start on at which the page is referenced. -/
def searchAft (refs : List Psr) (page : ℤ) (start : ℕ) : Option ℕ :=
  (List.range' start (refs.length-start)).find? (fun j => (refs[j]?).map Psr.data = some page)

/-- `distance[i]` stays unassigned when the page of frame i was never referenced. -/
def findFarthestIdx {pfNum : ℕ} (refs : List Psr) (n : ℕ) (pageFrame : Fin pfNum → ℤ) :
    Option (Fin pfNum) := do
  let farthestIdx ← frameIdx pfNum 0
  scanMin? (fun i => searchBack refs (pageFrame i) n) farthestIdx

/-- The loop over the frames, with its early return for a page not used again. -/
def findFarthestAftLoop {pfNum : ℕ} (refs : List Psr) (start : ℕ) (pageFrame : Fin pfNum → ℤ) :
    List (Fin pfNum) → ℕ → Option (Fin pfNum) → Option (Fin pfNum)
  | [], _, maxIdx => maxIdx.or (frameIdx pfNum 0)
  | i :: is, max, maxIdx =>
    match searchAft refs (pageFrame i) start with
    | some j =>
      if j > max then findFarthestAftLoop refs start pageFrame is j (some i)
      else findFarthestAftLoop refs start pageFrame is max maxIdx
    | none =>
      -- the inner loop ended at ref_num, or at once when start is past it
      if start ≤ refs.length then some i
      else findFarthestAftLoop refs start pageFrame is max maxIdx

def findFarthestAftIdx {pfNum : ℕ} (refs : List Psr) (start : ℕ) (pageFrame : Fin pfNum → ℤ) :
    Option (Fin pfNum) :=
  findFarthestAftLoop refs start pageFrame (List.finRange pfNum) start none

def optimal (pfNum : ℕ) : Policy pfNum where
  Aux := Unit
  init := ()
  tick := id
  hit := fun a _ => a
  cold := fun a _ _ => a
  replace := fun refs i _ s => do
    let tmp ← findFarthestAftIdx refs (i+1) s.pageFrame
    some (tmp, ())

def fifo (pfNum : ℕ) : Policy pfNum where
  Aux := Unit
  init := ()
  tick := id
  hit := fun a _ => a
  cold := fun a _ _ => a
  replace := fun _ _ _ s => do
    let index ← frameIdx pfNum ((s.pageFault-1)%pfNum)
    some (index, ())

def lifo (pfNum : ℕ) : Policy pfNum where
  Aux := Unit
  init := ()
  tick := id
  hit := fun a _ => a
  cold := fun a _ _ => a
  replace := fun _ _ _ s => do
    let index ← frameIdx pfNum (s.occupied-1)
    some (index, ())

def lru (pfNum : ℕ) : Policy pfNum where
  Aux := Unit
  init := ()
  tick := id
  hit := fun a _ => a
  cold := fun a _ _ => a
  -- find_farthest_idx(i-1, ..) counts down from i-1: the positions before i
  replace := fun refs i _ s => do
    let index ← findFarthestIdx refs i s.pageFrame
    some (index, ())

/-- Locals of `lru2` and, with the two bits, of `esc`. -/
structure Lru2Aux (pfNum : ℕ) where
  counter : Fin pfNum → ℕ
  cnt : ℕ

def lru2 (pfNum : ℕ) : Policy pfNum where
  Aux := Lru2Aux pfNum
  init := ⟨fun _ => 0, 0⟩
  tick := fun a => { a with cnt := a.cnt+1 }
  hit := fun a tmp => { a with counter := Function.update a.counter tmp a.cnt }
  cold := fun a occupied _ => { a with counter := Function.update a.counter occupied a.cnt }
  replace := fun _ _ _ s => do
    let minIdx ← frameIdx pfNum 0
    let minIdx := scanMin s.aux.counter minIdx
    some (minIdx, { s.aux with counter := Function.update s.aux.counter minIdx s.aux.cnt })

def lfu (pfNum : ℕ) : Policy pfNum where
  Aux := Fin pfNum → ℕ
  init := fun _ => 0
  tick := id
  hit := fun counter tmp => Function.update counter tmp (counter tmp+1)
  cold := fun counter occupied _ => Function.update counter occupied (counter occupied+1)
  replace := fun _ _ _ s => do
    let minIdx ← frameIdx pfNum 0
    let minIdx := scanMin s.aux minIdx
    some (minIdx, Function.update s.aux minIdx (s.aux minIdx+1))

structure ScAux (pfNum : ℕ) where
  head : ℕ
  rbit : Fin pfNum → ℕ

/-- `while (rbit[head]) { rbit[head]=0; head=(head+1)%pf_num; }`, with a bound
on the iterations. -/
def sweep {pfNum : ℕ} : ℕ → (Fin pfNum → ℕ) → ℕ → Option (Fin pfNum × (Fin pfNum → ℕ))
  | 0, _, _ => none
  | fuel+1, rbit, head => do
    let i ← frameIdx pfNum head
    if rbit i ≠ 0 then sweep fuel (Function.update rbit i 0) ((head+1)%pfNum)
    else some (i, rbit)

def sc (pfNum : ℕ) : Policy pfNum where
  Aux := ScAux pfNum
  init := ⟨0, fun _ => 0⟩
  tick := id
  hit := fun a tmp => { head := (a.head+1)%pfNum, rbit := Function.update a.rbit tmp 1 }
  cold := fun a occupied _ => { a with rbit := Function.update a.rbit occupied 1 }
  replace := fun _ _ _ s => do
    -- one iteration for each frame and the last test of the condition
    let (head, rbit) ← sweep (pfNum+1) s.aux.rbit s.aux.head
    some (head, { head := head, rbit := Function.update rbit head 1 })

structure EscAux (pfNum : ℕ) extends Lru2Aux pfNum where
  rbit : Fin pfNum → ℕ
  wbit : Fin pfNum → ℕ

/-- `tmp[i]` stays unassigned when a bit is neither 0 nor 1. -/
def escClass (rbit wbit : ℕ) : Option ℕ :=
  if rbit = 0 ∧ wbit = 0 then some 0
  else if rbit = 0 ∧ wbit = 1 then some 1
  else if rbit = 1 ∧ wbit = 0 then some 2
  else if rbit = 1 ∧ wbit = 1 then some 3
  else none

def getHighPriorityIdx {pfNum : ℕ} (head : Fin pfNum) (rbit wbit : Fin pfNum → ℕ) :
    Option (Fin pfNum) :=
  if rbit head = 0 ∧ wbit head = 0 then some head
  else scanMin? (fun i => escClass (rbit i) (wbit i)) head

/-- The bits and the counter of a frame just loaded. -/
def EscAux.load {pfNum : ℕ} (a : EscAux pfNum) (index : Fin pfNum) (r : Psr) : EscAux pfNum :=
  { a with
    rbit := Function.update a.rbit index (if r.rw = 0 then 1 else 0)
    wbit := Function.update a.wbit index (if r.rw = 0 then 0 else 1)
    counter := Function.update a.counter index a.cnt }

def esc (pfNum : ℕ) : Policy pfNum where
  Aux := EscAux pfNum
  init := { counter := fun _ => 0, cnt := 0, rbit := fun _ => 0, wbit := fun _ => 0 }
  tick := fun a => { a with cnt := a.cnt+1 }
  hit := fun a tmp =>
    { a with wbit := Function.update a.wbit tmp 1, counter := Function.update a.counter tmp a.cnt }
  cold := EscAux.load
  replace := fun _ _ r s => do
    let minIdx ← frameIdx pfNum 0
    let minIdx := scanMin s.aux.counter minIdx
    let index ← getHighPriorityIdx minIdx s.aux.rbit s.aux.wbit
    some (index, s.aux.load index r)

/-- The simulators in the order in which `simulate` runs all of them. -/
def simulators (pfNum : ℕ) : List (Policy pfNum) :=
  [optimal pfNum, fifo pfNum, lifo pfNum, lru pfNum, lfu pfNum, sc pfNum, esc pfNum]

end ProvenXv6.Paging
