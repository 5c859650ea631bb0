import Mathlib.Data.Nat.Notation
import ProvenXv6.WeakestPre

/-! The parser of sh.c. Pointers into the line are numbers; the state of a parse function is the
position ps points to. Calls and loops take a number of rounds that `parsecmd` sets. -/
namespace ProvenXv6.Shell
open WeakestPre

abbrev Byte := BitVec 8

/-- " \t\r\n\v" -/
def whitespace : List Byte := [32, 9, 13, 10, 11]

/-- "<|>&;()" -/
def symbols : List Byte := [60, 124, 62, 38, 59, 40, 41]

def MAXARGS : ℕ := 10
def O_RDONLY : ℕ := 0
def O_WRONLY : ℕ := 1
def O_CREATE : ℕ := 0x200

/-- A word of the line: its start, and the position behind it. -/
structure Word where
  q : ℕ
  eq : ℕ
  deriving DecidableEq, Repr

structure Redir where
  file : Word
  mode : ℕ
  fd : ℕ
  deriving DecidableEq, Repr

inductive Cmd
  | exec (args : List Word)
  | redir (cmd : Cmd) (r : Redir)
  | pipe (left right : Cmd)
  | list (left right : Cmd)
  | back (cmd : Cmd)
  deriving DecidableEq, Repr

/-- `panic`, the leftovers that `parsecmd` prints before it, or no rounds left. -/
inductive Stop
  | panic (message : String)
  | leftovers (s : List Byte)
  | rounds
  deriving DecidableEq, Repr

abbrev Parse := Comp ℕ Stop

def strchr (s : List Byte) (c : Byte) : Bool := s.contains c

def strlen (buf : List Byte) : ℕ := (buf.takeWhile (· ≠ 0)).length

section
variable (buf : List Byte) (es : ℕ)

def char (s : ℕ) : Byte := buf.getD s 0

/-- The loop while(s < es && p(*s)) s++, with es-s characters left. -/
def advance (p : Byte → Bool) : ℕ → ℕ → ℕ
  | 0, s => s
  | n+1, s => if p (char buf s) then advance p n (s+1) else s

def skip (p : Byte → Bool) (s : ℕ) : ℕ := advance buf p (es-s) s

def wordChar (c : Byte) : Bool := !strchr whitespace c && !strchr symbols c

/-- The switch of `gettoken` at s: the value it returns, and the end of the token. -/
def token (s : ℕ) : Byte × ℕ :=
  let c := char buf s
  if c = 0 then (0, s)
  else if strchr [124, 40, 41, 59, 38, 60] c then (c, s+1)
  else if c = 62 then
    if char buf (s+1) = 62 then (43, s+2) else (62, s+1)
  else (97, skip buf es wordChar s)

/-- The value, and q and eq. -/
def gettoken : Parse (Byte × Word) := do
  let q := skip buf es (strchr whitespace) (← get)
  let (ret, eq) := token buf es q
  set (skip buf es (strchr whitespace) eq)
  return (ret, ⟨q, eq⟩)

def peek (toks : List Byte) : Parse Bool := do
  let s := skip buf es (strchr whitespace) (← get)
  set s
  return char buf s ≠ 0 && strchr toks (char buf s)

/-- The switch of `parseredirs`. -/
def redirFor (tok : Byte) (w : Word) : List Redir :=
  if tok = 60 then [⟨w, O_RDONLY, 0⟩]
  else if tok = 62 then [⟨w, O_WRONLY ||| O_CREATE, 1⟩]
  else if tok = 43 then [⟨w, O_WRONLY ||| O_CREATE, 1⟩]
  else []

/-- Redirections around a command, the last one outermost. -/
def Cmd.wrap (rs : List Redir) (cmd : Cmd) : Cmd := rs.foldl Cmd.redir cmd

/-- The redirections that `parseredirs` puts around its command. The command that `parseexec`
gives it gets more arguments later, so they are put around it at the end. -/
def parseredirs : ℕ → Parse (List Redir)
  | 0 => throw .rounds
  | n+1 => do
    if ← peek buf es [60, 62] then
      let (tok, _) ← gettoken buf es
      let (t, w) ← gettoken buf es
      if t ≠ 97 then throw (.panic "missing file for redirection")
      else
        let rs ← parseredirs n
        return redirFor tok w ++ rs
    else return []

/-- The loop of `parseexec` with argc arguments so far: the further arguments, and the
redirections among them. -/
def parseargs : ℕ → ℕ → Parse (List Word × List Redir)
  | 0, _ => throw .rounds
  | n+1, argc => do
    if ← peek buf es [124, 41, 38, 59] then return ([], [])
    else
      let (tok, w) ← gettoken buf es
      if tok = 0 then return ([], [])
      else if tok ≠ 97 then throw (.panic "syntax")
      else if argc+1 ≥ MAXARGS then throw (.panic "too many args")
      else
        let rs ← parseredirs buf es n
        let (ws, rs') ← parseargs n (argc+1)
        return (w :: ws, rs ++ rs')

/-- The loop of `parseline` over &. -/
def parseback : ℕ → Cmd → Parse Cmd
  | 0, _ => throw .rounds
  | n+1, cmd => do
    if ← peek buf es [38] then
      let _ ← gettoken buf es
      parseback n (.back cmd)
    else return cmd

mutual

def parseline : ℕ → Parse Cmd
  | 0 => throw .rounds
  | n+1 => do
    let cmd ← parsepipe n
    let cmd ← parseback buf es n cmd
    if ← peek buf es [59] then
      let _ ← gettoken buf es
      let right ← parseline n
      return .list cmd right
    else return cmd

def parsepipe : ℕ → Parse Cmd
  | 0 => throw .rounds
  | n+1 => do
    let cmd ← parseexec n
    if ← peek buf es [124] then
      let _ ← gettoken buf es
      let right ← parsepipe n
      return .pipe cmd right
    else return cmd

def parseexec : ℕ → Parse Cmd
  | 0 => throw .rounds
  | n+1 => do
    if ← peek buf es [40] then parseblock n
    else
      let rs ← parseredirs buf es n
      let (ws, rs') ← parseargs buf es n 0
      return (Cmd.exec ws).wrap (rs ++ rs')

def parseblock : ℕ → Parse Cmd
  | 0 => throw .rounds
  | n+1 => do
    if ← peek buf es [40] then
      let _ ← gettoken buf es
      let cmd ← parseline n
      if ← peek buf es [41] then
        let _ ← gettoken buf es
        let rs ← parseredirs buf es n
        return cmd.wrap rs
      else throw (.panic "syntax - missing )")
    else throw (.panic "parseblock")

end

end

/-- A NUL behind every word of the command, in place. -/
def nulterminate : Cmd → List Byte → List Byte
  | .exec args, buf => args.foldl (fun buf w => buf.set w.eq 0) buf
  | .redir cmd r, buf => (nulterminate cmd buf).set r.file.eq 0
  | .pipe left right, buf => nulterminate right (nulterminate left buf)
  | .list left right, buf => nulterminate right (nulterminate left buf)
  | .back cmd, buf => nulterminate cmd buf

/-- The command and the line as `parsecmd` leaves it. -/
def parsecmd (buf : List Byte) : Except Stop (Cmd × List Byte) := do
  let es := strlen buf
  let (cmd, s) ← parseline buf es (4*es+4) 0
  let (_, s) ← peek buf es [] s
  if s ≠ es then throw (.leftovers ((buf.take es).drop s))
  else return (cmd, nulterminate cmd buf)

end ProvenXv6.Shell
