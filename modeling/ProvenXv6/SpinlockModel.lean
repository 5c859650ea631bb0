import Mathlib.Data.Int.Notation
import Mathlib.Logic.Function.Basic
import ProvenXv6.StepSystem

/-! spinlock.c on several CPUs with interrupts, and what `sched` and `scheduler` do to the interrupt
flag. A step of a CPU accesses the lock once; what it does to its own struct cpu goes with it. -/
namespace ProvenXv6.Spinlock
open StepSystem

/-- ncli and intena of a struct cpu, and FL_IF. -/
structure Irq where
  ncli : ℤ
  intena : Bool
  flag : Bool
  deriving DecidableEq

-- an interrupt between the readeflags and the cli leaves the flag as it was
def Irq.pushcli (i : Irq) : Irq := ⟨i.ncli+1, if i.ncli = 0 then i.flag else i.intena, false⟩

def Irq.popcli (i : Irq) : Except String Irq :=
  if i.flag then .error "popcli - interruptible"
  else if i.ncli-1 < 0 then .error "popcli"
  else .ok { i with ncli := i.ncli-1, flag := i.ncli-1 = 0 ∧ i.intena }

/-- Where a CPU is in `acquire` or `release`. -/
inductive Pc (L : Type)
  | run
  /-- in `holding`, which has read locked -/
  | test (l : L) (acquire : Bool) (locked : Bool)
  /-- at the xchg -/
  | spin (l : L)
  /-- at the store of lk->cpu in `acquire` -/
  | record (l : L)
  /-- at the store of lk->cpu in `release` -/
  | clear (l : L)
  /-- at the store of lk->locked in `release` -/
  | unlock (l : L)
  deriving DecidableEq

/-- A CPU, with the interrupted code, the process (none in `scheduler`) and the locks that its code
has acquired and not released. -/
structure Core (L τ : Type) where
  irq : Irq
  pc : Pc L
  frames : List (Pc L)
  thread : Option τ
  held : List L

/-- A process off the CPU: what it has interrupted, and intena as `sched` has saved it. -/
structure Saved (L : Type) where
  frames : List (Pc L)
  intena : Option Bool

structure Sys (κ L τ : Type) where
  core : κ → Core L τ
  locked : L → Bool
  cpu : L → Option κ
  saved : τ → Option (Saved L)
  panic : Option String

inductive Event (κ L τ : Type)
  | acquire (c : κ) (l : L)
  | release (c : κ) (l : L)
  | run (c : κ)
  | interrupt (c : κ)
  | iret (c : κ)
  | sti (c : κ)
  | newproc (t : τ)
  | sched (c : κ)
  | dispatch (c : κ) (t : τ)

section
variable {κ L τ : Type} [DecidableEq κ] [DecidableEq L] [DecidableEq τ] (ptable : L)

def Sys.put (s : Sys κ L τ) (c : κ) (x : Core L τ) : Sys κ L τ := { s with core := Function.update s.core c x }

def Sys.stop (s : Sys κ L τ) (msg : String) : Sys κ L τ := { s with panic := some msg }

/-- `popcli` and then next. -/
def Sys.popcli (s : Sys κ L τ) (c : κ) (next : Irq → Sys κ L τ) : Sys κ L τ :=
  match (s.core c).irq.popcli with
  | .error msg => s.stop msg
  | .ok i => next i

/-- The next step of `acquire` or `release`. -/
def Sys.exec (s : Sys κ L τ) (c : κ) : Pc L → Option (Sys κ L τ)
  | .run => none
  | .test l acquire locked => some (s.popcli c fun i =>
      let r := locked && s.cpu l = some c
      if acquire then if r then s.stop "acquire" else s.put c { s.core c with irq := i, pc := .spin l }
      else if r then s.put c { s.core c with irq := i, pc := .clear l } else s.stop "release")
  | .spin l =>
    if s.locked l then some s
    else some ({ s with locked := Function.update s.locked l true }.put c { s.core c with pc := .record l })
  | .record l => some ({ s with cpu := Function.update s.cpu l (some c) }.put c
      { s.core c with pc := .run, held := l :: (s.core c).held })
  | .clear l => some ({ s with cpu := Function.update s.cpu l none }.put c { s.core c with pc := .unlock l })
  | .unlock l => some (s.popcli c fun i => { s with locked := Function.update s.locked l false }.put c
      { s.core c with irq := i, pc := .run, held := (s.core c).held.erase l })

/-- `sched` up to the swtch; the test of p->state is left out. -/
def Sys.sched (s : Sys κ L τ) (c : κ) (t : τ) : Sys κ L τ :=
  if ¬(s.locked ptable ∧ s.cpu ptable = some c) then s.stop "sched ptable.lock"
  else if (s.core c).irq.ncli ≠ 1 then s.stop "sched locks"
  else if (s.core c).irq.flag then s.stop "sched interruptible"
  else { s with saved := Function.update s.saved t (some ⟨(s.core c).frames, some (s.core c).irq.intena⟩) }.put c
    { s.core c with thread := none, frames := [] }

/-- `scheduler` switches to a process; in an old one `sched` goes on. -/
def Sys.dispatch (s : Sys κ L τ) (c : κ) (t : τ) (v : Saved L) : Sys κ L τ :=
  { s with saved := Function.update s.saved t none }.put c { s.core c with
    irq := { (s.core c).irq with intena := v.intena.getD (s.core c).irq.intena }
    thread := some t, frames := v.frames }

def step (s : Sys κ L τ) (e : Event κ L τ) : Option (Sys κ L τ) :=
  if s.panic ≠ none then none
  else match e with
  | .acquire c l => if (s.core c).pc = .run then some (s.put c { s.core c with
      irq := (s.core c).irq.pushcli.pushcli, pc := .test l true (s.locked l) }) else none
  | .release c l => if (s.core c).pc = .run then some (s.put c { s.core c with
      irq := (s.core c).irq.pushcli, pc := .test l false (s.locked l) }) else none
  | .run c => s.exec c (s.core c).pc
  -- an interrupt gate clears the flag, and iret restores it
  | .interrupt c => if (s.core c).irq.flag then some (s.put c { s.core c with
      irq := { (s.core c).irq with flag := false }, pc := .run, frames := (s.core c).pc :: (s.core c).frames }) else none
  | .iret c =>
    match (s.core c).pc, (s.core c).frames with
    | .run, f :: fs => some (s.put c { s.core c with
        irq := { (s.core c).irq with flag := true }, pc := f, frames := fs })
    | _, _ => none
  | .sti c => if (s.core c).pc = .run ∧ (s.core c).thread = none then
      some (s.put c { s.core c with irq := { (s.core c).irq with flag := true } }) else none
  -- a new process goes by `forkret` to user mode
  | .newproc t => some { s with saved := Function.update s.saved t (some ⟨[.run], none⟩) }
  | .sched c =>
    match (s.core c).pc, (s.core c).thread with
    | .run, some t => some (s.sched ptable c t)
    | _, _ => none
  | .dispatch c t =>
    match (s.core c).pc, (s.core c).thread, (s.core c).frames, s.saved t with
    | .run, none, [], some v => some (s.dispatch c t v)
    | _, _, _, _ => none

/-- How the kernel uses its locks: it releases what it has acquired, acquires no lock twice, holds
nothing when it returns from an interrupt and at the top of `scheduler`, and only ptable.lock
when it switches. -/
def Proper (s : Sys κ L τ) (e : Event κ L τ) (_ : Sys κ L τ) : Prop :=
  match e with
  | .acquire c l => l ∉ (s.core c).held
  | .release c l => l ∈ (s.core c).held
  | .iret c => (s.core c).held = []
  | .sti c => (s.core c).held = []
  | .sched c => (s.core c).held = [ptable]
  | .dispatch c _ => (s.core c).held = [ptable]
  | _ => True

/-- All CPUs are in `scheduler`. -/
def start : Sys κ L τ where
  core _ := ⟨⟨0, false, false⟩, .run, [], none, []⟩
  locked _ := false
  cpu _ := none
  saved _ := none
  panic := none

end

end ProvenXv6.Spinlock
