import Mathlib.Data.Int.Notation
import Mathlib.Data.List.TakeWhile
import Mathlib.Data.Nat.Notation
import Mathlib.Order.Lattice
import Mathlib.Tactic.Common

namespace ProvenXv6.Stdio

abbrev Byte := BitVec 8

def isspace (c : Byte) : Bool := c.toNat = 32 ∨ 9 ≤ c.toNat ∧ c.toNat ≤ 13

def isdigit (c : Byte) : Bool := 48 ≤ c.toNat ∧ c.toNat ≤ 57

def FitsInt (x : ℤ) : Prop := -0x80000000 ≤ x ∧ x < 0x80000000

/-- How the library makes an `int` of a decimal number. The standard says it for numbers in the
range of an `int` only. -/
structure Conv where
  toInt : ℤ → ℤ
  fits : ∀ x, FitsInt (toInt x)
  exact : ∀ x, FitsInt x → toInt x = x

/-- The lower 32 bits of the number. -/
def Conv.trunc : Conv where
  toInt x := Int.bmod x 0x100000000
  fits x := by
    have hlo : -(0x100000000/2 : ℤ) ≤ Int.bmod x 0x100000000 := Int.le_bmod (by decide)
    have hhi : Int.bmod x 0x100000000 < (0x100000000+1)/2 := Int.bmod_lt (by decide)
    exact ⟨by omega, by omega⟩
  exact x hx := by
    obtain ⟨hlo, hhi⟩ := hx
    exact Int.bmod_eq_of_le (by omega) (by omega)

def decimal (digits : List Byte) : ℤ := digits.foldl (fun n c => 10*n+(c.toNat-48)) 0

def sign : List Byte → ℤ × List Byte
  | [] => (1, [])
  | c :: s => if c.toNat = 45 then (-1, s) else if c.toNat = 43 then (1, s) else (1, c :: s)

/-- %d: the number, if there is one, and the bytes that stay unread. -/
def scanInt (conv : Conv) (s : List Byte) : Option ℤ × List Byte :=
  let (one, s) := sign (s.dropWhile isspace)
  let digits := s.takeWhile isdigit
  (if digits = [] then none else some (conv.toInt (one*decimal digits)), s.dropWhile isdigit)

/-- %c behind a blank: the next byte that is no white space. -/
def scanChar (s : List Byte) : Option Byte × List Byte :=
  match s.dropWhile isspace with
  | [] => (none, [])
  | c :: s => (some c, s)

/-- `fgets` with room for that many bytes: a line with its newline, or a part of it. -/
def fgets : ℕ → List Byte → List Byte × List Byte
  | 0, s => ([], s)
  | _+1, [] => ([], [])
  | room+1, c :: s =>
    if c.toNat = 10 then ([c], s) else (c :: (fgets room s).1, (fgets room s).2)

def cstring (s : List Byte) : List Byte := s.takeWhile fun c => c.toNat ≠ 0

/-- `strtok`: the next token and what it leaves for the next call. -/
def strtok (delim : Byte) (s : List Byte) : Option (List Byte × List Byte) :=
  let s := s.dropWhile (· = delim)
  if s = [] then none else some (s.takeWhile (· ≠ delim), (s.dropWhile (· ≠ delim)).tail)

theorem sign_suffix (s : List Byte) : (sign s).2 <:+ s := by
  cases s with
  | nil => exact List.suffix_rfl
  | cons c s =>
    simp only [sign]
    split_ifs
    · exact List.suffix_cons c s
    · exact List.suffix_cons c s
    · exact List.suffix_rfl

theorem scanInt_suffix (conv : Conv) (s : List Byte) : (scanInt conv s).2 <:+ s :=
  ((List.dropWhile_suffix _).trans (sign_suffix _)).trans (List.dropWhile_suffix _)

theorem scanInt_lt {conv : Conv} {s : List Byte} {v : ℤ} (h : (scanInt conv s).1 = some v) :
    (scanInt conv s).2.length < s.length := by
  have hle := ((sign_suffix (s.dropWhile isspace)).trans (List.dropWhile_suffix _)).length_le
  have hsplit := congrArg List.length
    (List.takeWhile_append_dropWhile (p := isdigit) (l := (sign (s.dropWhile isspace)).2))
  rw [List.length_append] at hsplit
  have hpos : 0 < ((sign (s.dropWhile isspace)).2.takeWhile isdigit).length := by
    rw [List.length_pos_iff]
    intro hnil
    simp only [scanInt, hnil] at h
    cases h
  show ((sign (s.dropWhile isspace)).2.dropWhile isdigit).length < s.length
  omega

section Ask
variable {α : Type} (read : List Byte → Option α × List Byte) (ok : α → Bool)

/-- `do { read x } while (!ok(x))`, with a bound on the rounds; a read that fails leaves x. -/
def ask : ℕ → α → List Byte → Option (α × List Byte)
  | 0, _, _ => none
  | n+1, x, s =>
    if ok ((read s).1.getD x) then some ((read s).1.getD x, (read s).2)
    else ask n ((read s).1.getD x) (read s).2

/-- The loop from x on the text s ends with y and leaves t. -/
inductive Asked : α → List Byte → α → List Byte → Prop
  | last {x : α} {s : List Byte} (h : ok ((read s).1.getD x) = true) :
      Asked x s ((read s).1.getD x) (read s).2
  | again {x y : α} {s t : List Byte} (h : ok ((read s).1.getD x) = false)
      (hnext : Asked ((read s).1.getD x) (read s).2 y t) : Asked x s y t

variable {read ok}

theorem ask_mono {n m : ℕ} {x : α} {s : List Byte} {r : α × List Byte} (h : ask read ok n x s = some r)
    (hnm : n ≤ m) : ask read ok m x s = some r := by
  induction n generalizing m x s with
  | zero => cases h
  | succ n ih =>
    obtain ⟨m, rfl⟩ := Nat.exists_eq_add_of_le' (show 1 ≤ m by omega)
    unfold ask at h ⊢
    split_ifs at h ⊢ with hok
    · exact h
    · exact ih h (by omega)

/-- A first read that succeeds makes the value before it irrelevant. -/
theorem Asked.of_read {x x' y v : α} {s t : List Byte} (hv : (read s).1 = some v)
    (h : Asked read ok x s y t) : Asked read ok x' s y t := by
  have hx : (read s).1.getD x = (read s).1.getD x' := by rw [hv, Option.getD_some, Option.getD_some]
  cases h with
  | last h =>
    rw [hx] at h ⊢
    exact .last h
  | again h hnext =>
    rw [hx] at h hnext
    exact .again h hnext

theorem asked_of_read_iff {x y v : α} {s t u : List Byte} (hv : read s = (some v, u)) :
    Asked read ok x s y t ↔ if ok v then y = v ∧ t = u else Asked read ok v u y t := by
  have hx : (read s).1.getD x = v := by rw [hv, Option.getD_some]
  have hu : (read s).2 = u := by rw [hv]
  constructor
  · intro h
    cases h with
    | last h =>
      rw [hx] at h ⊢
      rw [if_pos h]
      exact ⟨rfl, hu⟩
    | again h hnext =>
      rw [hx] at h hnext
      rwa [h, if_neg Bool.false_ne_true, ← hu]
  · intro h
    split_ifs at h with hok
    · obtain ⟨rfl, rfl⟩ := h
      have hlast : Asked read ok x s ((read s).1.getD x) (read s).2 := .last (by rwa [hx])
      rwa [hx, hu] at hlast
    · refine .again (by rw [hx]; exact Bool.eq_false_iff.mpr hok) ?_
      rwa [hx, hu]

theorem asked_of_stuck_iff {x y : α} {s t u : List Byte} (hs : read s = (none, u)) (hu : read u = (none, u)) :
    Asked read ok x s y t ↔ ok x = true ∧ y = x ∧ t = u := by
  constructor
  · intro h
    induction h with
    | last h =>
      rw [hs] at h ⊢
      exact ⟨h, rfl, rfl⟩
    | again h _ ih =>
      rw [hs] at ih
      exact ih hu
  · rintro ⟨hx, rfl, rfl⟩
    have hlast : Asked read ok y s ((read s).1.getD y) (read s).2 := .last (by rwa [hs])
    rwa [hs] at hlast

theorem exists_ask_iff {x y : α} {s t : List Byte} :
    (∃ n, ask read ok n x s = some (y, t)) ↔ Asked read ok x s y t := by
  constructor
  · rintro ⟨n, h⟩
    induction n generalizing x s with
    | zero => cases h
    | succ n ih =>
      unfold ask at h
      split_ifs at h with hok
      · obtain ⟨rfl, rfl⟩ := Prod.mk.inj (Option.some.inj h)
        exact .last hok
      · exact .again (Bool.eq_false_iff.mpr hok) (ih h)
  · intro h
    induction h with
    | last h => exact ⟨1, by rw [ask, if_pos h]⟩
    | again h _ ih =>
      obtain ⟨n, hn⟩ := ih
      exact ⟨n+1, by rw [ask, if_neg (by rw [h]; exact Bool.false_ne_true), hn]⟩

theorem exists_ask_bind_iff {β : Type} {g : ℕ → α × List Byte → Option β}
    (hg : ∀ n m r, n ≤ m → (g n r).isSome → (g m r).isSome) (x : α) (s : List Byte) :
    (∃ n, ((ask read ok n x s).bind (g n)).isSome) ↔
      ∃ y t, Asked read ok x s y t ∧ ∃ n, (g n (y, t)).isSome := by
  constructor
  · rintro ⟨n, h⟩
    cases ha : ask read ok n x s with
    | none =>
      rw [ha] at h
      cases h
    | some r =>
      rw [ha] at h
      exact ⟨r.1, r.2, exists_ask_iff.mp ⟨n, ha⟩, n, h⟩
  · rintro ⟨y, t, h, m, hm⟩
    obtain ⟨n, hn⟩ := exists_ask_iff.mpr h
    refine ⟨max n m, ?_⟩
    rw [ask_mono hn (le_max_left n m)]
    exact hg m _ _ (le_max_right n m) hm

theorem ask_bind_mono {β : Type} {g : ℕ → α × List Byte → Option β}
    (hg : ∀ n m r, n ≤ m → (g n r).isSome → (g m r).isSome) {n m : ℕ} {x : α} {s : List Byte} (hnm : n ≤ m)
    (h : ((ask read ok n x s).bind (g n)).isSome) : ((ask read ok m x s).bind (g m)).isSome := by
  cases ha : ask read ok n x s with
  | none =>
    rw [ha] at h
    cases h
  | some r =>
    rw [ha] at h
    rw [ask_mono ha hnm]
    exact hg n m r hnm h

end Ask

theorem scanChar_cases (s : List Byte) :
    (∀ c ∈ s, isspace c = true) ∧ scanChar s = (none, []) ∨
      ∃ pre c t, s = pre ++ c :: t ∧ (∀ x ∈ pre, isspace x = true) ∧ isspace c = false ∧
        scanChar s = (some c, t) := by
  have hsplit := List.takeWhile_append_dropWhile (p := isspace) (l := s)
  have hpre : ∀ x ∈ s.takeWhile isspace, isspace x = true := fun x hx => List.mem_takeWhile_imp hx
  unfold scanChar
  cases hd : s.dropWhile isspace with
  | nil =>
    rw [hd, List.append_nil] at hsplit
    rw [hsplit] at hpre
    exact Or.inl ⟨hpre, rfl⟩
  | cons c t =>
    rw [hd] at hsplit
    refine Or.inr ⟨_, c, t, hsplit.symm, hpre, ?_, rfl⟩
    have hhead := List.head?_dropWhile_not isspace s
    rw [hd] at hhead
    simpa using hhead

end ProvenXv6.Stdio
