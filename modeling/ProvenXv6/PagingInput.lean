import ProvenXv6.PagingEntry
import ProvenXv6.Stdio

/-! The input side of main.c: `choose_option` with its prompts, `get_data_entry` and the choice
of the simulators in `simulate`. Output is left out. A run that ends early is a `Stop`; an access
outside argv or algorithm is one too, while a store outside references goes on. -/
namespace ProvenXv6.Paging
open Stdio

inductive Table
  | argv
  | algorithm
  deriving DecidableEq, Repr

/-- `exit` with its status, or an access outside an array. -/
inductive Stop
  | exit (status : ℕ)
  | outside (table : Table) (i : ℕ)
  deriving DecidableEq, Repr

/-- The loop of `tokenize`, with a bound on its rounds; argv has four cells. -/
def tokenizeLoop : ℕ → List Byte → List (List Byte) → Except Stop (List (List Byte))
  | 0, _, argv => .ok argv
  | n+1, input, argv =>
    match strtok 32 input with
    | none => .ok argv
    | some (ptr, rest) =>
      if argv.length < 4 then tokenizeLoop n rest (argv ++ [ptr])
      else .error (.outside .argv argv.length)

def tokenize (input : List Byte) : Except Stop (List (List Byte)) :=
  tokenizeLoop (input.length+1) input []

/-- A read of `algorithm[i]`. -/
def readAlgorithm (algorithm : Fin 3 → ℤ) (i : ℕ) : Except Stop ℤ :=
  if h : i < 3 then .ok (algorithm ⟨i, h⟩) else .error (.outside .algorithm i)

def storeAlgorithm (algorithm : Fin 3 → ℤ) (i : ℕ) (v : ℤ) : Except Stop (Fin 3 → ℤ) :=
  if h : i < 3 then .ok (Function.update algorithm ⟨i, h⟩ v) else .error (.outside .algorithm i)

/-- The loop over the arguments, from the i-th on. -/
def parseArgs (conv : Conv) : ℕ → List (List Byte) → (Fin 3 → ℤ) → Except Stop (Fin 3 → ℤ)
  | _, [], algorithm => .ok algorithm
  | i, arg :: args, algorithm =>
    match (scanInt conv arg).1 with
    | none => .error (.exit 1)
    | some v => do
      let algorithm ← storeAlgorithm algorithm i v
      if v < 1 ∨ v > 8 then .error (.exit 0) else parseArgs conv (i+1) args algorithm

/-- 8 stands for all simulators and must be alone. -/
def refuseAll (argc : ℕ) (algorithm : Fin 3 → ℤ) : Except Stop (Fin 3 → ℤ) :=
  let all i := readAlgorithm algorithm i = .ok 8
  if argc = 2 ∧ (all 0 ∨ all 1) then .error (.exit 0)
  else if argc = 3 ∧ (all 0 ∨ all 1 ∨ all 2) then .error (.exit 0)
  else .ok algorithm

/-- After `tokenize`; algorithm starts with zeros. -/
def acceptArgs (conv : Conv) (argv : List (List Byte)) : Except Stop (Fin 3 → ℤ) :=
  let argc := argv.length
  -- argv[argc] = 0
  if ¬argc < 4 then .error (.outside .argv argc)
  else if argc = 0 then .error (.exit 0)
  else if argc > 3 ∨ argc < 1 then .error (.exit 0)
  else parseArgs conv 0 argv (fun _ => 0) >>= refuseAll argc

/-- From the line in input to the end of the tests on it. -/
def chooseAlgorithms (conv : Conv) (input : List Byte) : Except Stop (Fin 3 → ℤ) :=
  tokenize input.dropLast >>= acceptArgs conv

inductive Simulator
  | optimal | fifo | lifo | lru | lfu | sc | esc
  deriving DecidableEq, Repr

def Simulator.policy (pfNum : ℕ) : Simulator → Policy pfNum
  | .optimal => Paging.optimal pfNum
  | .fifo => Paging.fifo pfNum
  | .lifo => Paging.lifo pfNum
  | .lru => Paging.lru pfNum
  | .lfu => Paging.lfu pfNum
  | .sc => Paging.sc pfNum
  | .esc => Paging.esc pfNum

/-- The switch of `simulate`. -/
def Simulator.ofNumber (n : ℤ) : Option Simulator :=
  if n = 1 then some .optimal else if n = 2 then some .fifo else if n = 3 then some .lifo
  else if n = 4 then some .lru else if n = 5 then some .lfu else if n = 6 then some .sc
  else if n = 7 then some .esc else none

def Simulator.all : List Simulator := [.optimal, .fifo, .lifo, .lru, .lfu, .sc, .esc]

theorem Simulator.all_policy (pfNum : ℕ) : all.map (policy pfNum) = simulators pfNum := rfl

/-- The loop of `simulate` from i on; it ends at a 0 or outside the array. -/
def simulateLoop (algorithm : Fin 3 → ℤ) : ℕ → ℕ → Except Stop (List Simulator)
  | 0, _ => .ok []
  | n+1, i => do
    let a ← readAlgorithm algorithm i
    if a = 0 then .ok []
    else
      let rest ← simulateLoop algorithm n (i+1)
      .ok ((Simulator.ofNumber a).toList ++ rest)

/-- The simulators that `simulate` runs. -/
def simulate (algorithm : Fin 3 → ℤ) : Except Stop (List Simulator) :=
  if readAlgorithm algorithm 0 = .ok 8 then .ok Simulator.all else simulateLoop algorithm 4 0

structure Options where
  algorithm : Fin 3 → ℤ
  pfNum : ℤ
  rd : Bool
  refNum : ℤ
  save : Bool

def isMethod (i : ℤ) : Bool := i = 1 ∨ i = 2

/-- Y, y, N or n. -/
def isAnswer (c : Byte) : Bool := c.toNat = 89 ∨ c.toNat = 121 ∨ c.toNat = 78 ∨ c.toNat = 110

def isYes (c : Byte) : Bool := c.toNat = 121 ∨ c.toNat = 89

/-- Whether to exit now; c is the last answer. None: the loop has used up its rounds. -/
def askExit (rounds : ℕ) (o : Options) (c : Byte) (s : List Byte) : Option (Except Stop Options) :=
  (ask scanChar isAnswer rounds c s).map fun (c, _) => if isYes c then .error (.exit 0) else .ok o

/-- Whether to save; opens says whether output.txt can be opened. -/
def askSave (rounds : ℕ) (opens : Bool) (o : Options) (s : List Byte) : Option (Except Stop Options) :=
  (ask scanChar isAnswer rounds 121 s).bind fun (c, s) =>
    if isYes c ∧ ¬opens then some (.error (.exit 1)) else askExit rounds { o with save := isYes c } c s

/-- C. How to get the data; i is not initialized. -/
def askMethod (conv : Conv) (rounds : ℕ) (opens : Bool) (o : Options) (i : ℤ) (s : List Byte) :
    Option (Except Stop Options) :=
  (ask (scanInt conv) isMethod rounds i s).bind fun (i, s) =>
    if i = 2 then askSave rounds opens { o with rd := false } s
    else
      let refNum := (scanInt conv s).1.getD o.refNum
      if refNum < 500 then some (.error (.exit 0))
      else askSave rounds opens { o with rd := true, refNum := refNum } (scanInt conv s).2

/-- `fgets(input, 10, stdin)`: at the end of the file input keeps what was in it. -/
def readLine (old stdin : List Byte) : List Byte × List Byte :=
  if stdin = [] then (old, []) else (cstring (fgets 9 stdin).1, (fgets 9 stdin).2)

def chooseOption (conv : Conv) (rounds : ℕ) (opens : Bool) (old : List Byte) (i : ℤ)
    (stdin : List Byte) : Option (Except Stop Options) :=
  let (input, s) := readLine old stdin
  match chooseAlgorithms conv input with
  | .error e => some (.error e)
  | .ok algorithm =>
    -- B. pf_num is a global, 0 at first
    let pfNum := (scanInt conv s).1.getD 0
    if pfNum < 3 ∨ pfNum > 10 then some (.error (.exit 0))
    else askMethod conv rounds opens ⟨algorithm, pfNum, true, 0, true⟩ i (scanInt conv s).2

/-- references and the indices stored to, the last first. -/
structure Refs where
  cell : ℕ → Psr
  stores : List ℕ

def Refs.store (refs : Refs) (i : ℕ) (p : Psr) : Refs :=
  ⟨Function.update refs.cell i p, i :: refs.stores⟩

/-- The loop that fills references from `rand`; the two numbers of a reference are p and q of
its round. -/
def fillRandom (rand : ℕ → ℤ × ℤ) : ℕ → Refs → Refs
  | 0, refs => refs
  | n+1, refs => (fillRandom rand n refs).store n ⟨(rand n).1%29+1, (rand n).2%2⟩

/-- The loop that fills references from a file, with a bound on its rounds: i and references
after it. torn is what a short `fread` leaves in p. -/
def fillFile (torn : List Byte → Psr → Psr) : ℕ → List Byte → ℕ → Psr → Refs → Option (ℕ × Refs)
  | 0, _, _, _, _ => none
  | n+1, file, i, p, refs =>
    match fread file with
    | some (p, rest) => fillFile torn n rest (i+1) p (refs.store i p)
    | none => some (i+1, refs.store i (torn file p))

/-- What is left when get_data_entry ends: ref_num if main goes on to simulate, and references. -/
structure Entry where
  refNum : Option ℤ
  refs : Refs

/-- Random mode, for the number typed at the prompt: choose_option has refused numbers below 500. -/
def randomEntry (rand : ℕ → ℤ × ℤ) (refs : Refs) (refNum : ℤ) : Entry :=
  if refNum < 500 then ⟨none, refs⟩ else ⟨some refNum, fillRandom rand refNum.toNat refs⟩

/-- File mode. -/
def fileEntry (torn : List Byte → Psr → Psr) (p : Psr) (refs : Refs) (file : List Byte) : Option Entry :=
  (fillFile torn (file.length+1) file 0 p refs).map fun (i, refs) =>
    ⟨if i < 500 then none else some ((i : ℤ)-1), refs⟩

end ProvenXv6.Paging
