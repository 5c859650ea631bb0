import Mathlib.Data.Int.Notation
import Mathlib.Data.Nat.Notation
import Mathlib.Logic.Function.Basic

/-! ssu_login.c: the table of users read from list.txt, and the check of one typed name and
password, with `gets` and `strcmp` of ulib.c. A byte outside its array ends a computation. -/
namespace ProvenXv6.Login

abbrev Byte := BitVec 8

def newline : Byte := 10
def carriageReturn : Byte := 13
def space : Byte := 32

/-- How a computation ends early: `exit` after its message, or an access outside an array. -/
inductive Stop
  | exit (message : String)
  | outOfBounds
  deriving DecidableEq, Repr

structure Users where
  userID : ℕ → ℕ → Byte
  pwdID : ℕ → ℕ → Byte
  flag : Bool
  a : ℕ
  b : ℕ

/-- Globals are zero before `main`. -/
def Users.start : Users := ⟨fun _ _ => 0, fun _ _ => 0, true, 0, 0⟩

def store (t : ℕ → ℕ → Byte) (a b : ℕ) (c : Byte) : ℕ → ℕ → Byte :=
  Function.update t a (Function.update (t a) b c)

/-- The body of the inner loop, for a byte that is not NUL. -/
def Users.take (u : Users) (c : Byte) : Except Stop Users :=
  if c = space then .ok { u with flag := false, b := 0 }
  else if c = newline then .ok { u with flag := true, a := u.a+1, b := 0 }
  else if ¬(u.a < 16 ∧ u.b < 32) then .error .outOfBounds
  else if u.flag then .ok { u with userID := store u.userID u.a u.b c, b := u.b+1 }
  else .ok { u with pwdID := store u.pwdID u.a u.b c, b := u.b+1 }

/-- The inner loop: it runs along buf to a NUL byte, not to the number of bytes read. -/
def walk : List Byte → Users → Except Stop Users
  | [], _ => .error .outOfBounds
  | c :: cs, u => if c = 0 then .ok u else u.take c >>= walk cs

/-- What `read` leaves in a buffer. -/
def overwrite (buf chunk : List Byte) : List Byte := chunk ++ buf.drop chunk.length

/-- The outer loop. Each read yields -1 (none) or some bytes; no bytes is the end of the
file. -/
def readAll : ℕ → List (Option (List Byte)) → List Byte → Users → Except Stop Users
  | 0, _, _, u => .ok u
  | _+1, [], _, u => .ok u
  | _+1, none :: _, _, _ => .error (.exit "ssu_login: get_user_list() failed.\n")
  | _+1, some [] :: _, _, u => .ok u
  | n+1, some (c :: cs) :: rs, buf, u =>
    walk (overwrite buf (c :: cs)) u >>= readAll n rs (overwrite buf (c :: cs))

/-- `open` of list.txt fails, or the reads of the file yield what `list` has. -/
def get_user_list (list : Option (List (Option (List Byte)))) (buf : List Byte) :
    Except Stop Users :=
  match list with
  | none => .error (.exit "ssu_login: open \"list.txt\" failed.\n")
  | some reads => readAll 30 reads buf Users.start

/-- The loop of `gets` with room for n more bytes: the bytes it takes and the bytes left. -/
def getLine : ℕ → List Byte → List Byte × List Byte
  | 0, input => ([], input)
  | _+1, [] => ([], [])
  | n+1, c :: input =>
    if c = newline ∨ c = carriageReturn then ([c], input)
    else (c :: (getLine n input).1, (getLine n input).2)

/-- A string with its NUL at the start of an array. -/
def putString (dst s : List Byte) : List Byte := overwrite dst (s ++ [0])

def gets (buf : List Byte) (max : ℕ) (input : List Byte) : List Byte × List Byte :=
  (putString buf (getLine (max-1) input).1, (getLine (max-1) input).2)

def strcmp : List Byte → List Byte → Except Stop ℤ
  | p :: ps, q :: qs =>
    if p ≠ 0 ∧ p = q then strcmp ps qs else .ok ((p.toNat : ℤ)-q.toNat)
  | _, _ => .error .outOfBounds

/-- The bytes of buf before its first newline or NUL. -/
def stripped : List Byte → Except Stop (List Byte)
  | [] => .error .outOfBounds
  | c :: cs => if c ≠ newline ∧ c ≠ 0 then (c :: ·) <$> stripped cs else .ok []

def func (buf idpwd : List Byte) : Except Stop (List Byte) := do
  let s ← stripped buf
  if s.length < idpwd.length then .ok (putString idpwd s) else .error .outOfBounds

def row (t : ℕ → ℕ → Byte) (i : ℕ) : List Byte := (List.range 32).map (t i)

/-- The loop over the users from row i on, of which n are left in the tables. -/
def search (u : Users) (ID pwd : List Byte) : ℕ → ℕ → Except Stop ℕ
  | 0, _ => .error .outOfBounds
  | n+1, i =>
    if u.userID i 0 = 0 then .ok 0
    else do
      let x ← strcmp (row u.userID i) ID
      if x ≠ 0 then search u ID pwd n (i+1)
      else
        let y ← strcmp (row u.pwdID i) pwd
        if y ≠ 0 then search u ID pwd n (i+1) else .ok 1

/-- The arrays of `check_idpw`, with whatever they hold at its start. -/
structure Locals where
  buf : List Byte
  ID : List Byte
  pwd : List Byte

/-- What `check_idpw` returns and prints, and the input it leaves. -/
structure Checked where
  value : ℕ
  printed : List String
  input : List Byte
  deriving DecidableEq, Repr

def check_idpw (u : Users) (l : Locals) (input : List Byte) : Except Stop Checked := do
  let (buf, input) := gets l.buf 32 input
  let ID ← func buf l.ID
  let (buf, input) := gets buf 32 input
  let pwd ← func buf l.pwd
  let found ← search u ID pwd 16 0
  if found = 1 then .ok ⟨1, ["Username: ", "Password: "], input⟩
  else .ok ⟨0, ["Username: ", "Password: ", "wrong id/password\n"], input⟩

/-- `main` up to the first result of `check_idpw`. -/
def login (list : Option (List (Option (List Byte)))) (buf : List Byte) (l : Locals)
    (input : List Byte) : Except Stop Checked := do
  let u ← get_user_list list buf
  check_idpw u l input

end ProvenXv6.Login
