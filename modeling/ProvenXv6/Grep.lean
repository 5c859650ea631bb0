import Mathlib.Computability.Language
import ProvenXv6.Hcat

/-! grep.c: the matcher, against the language of its pattern, and the loop that reads a file
through a buffer of 1024 bytes. A string is the list of its bytes before the NUL. -/
namespace ProvenXv6.Grep
open Stdio Computability
open Hcat (newline)

def star : Byte := 42

def dot : Byte := 46

def dollar : Byte := 36

def caret : Byte := 94

/-- `matchstar`; here is `matchhere` for the pattern behind the star. -/
def matchstar (c : Byte) (here : List Byte → Bool) : List Byte → Bool
  | [] => here []
  | t :: text => here (t :: text) || ((t = c || c = dot) && matchstar c here text)

/-- The last test of `matchhere`, for a letter c and the pattern behind it. -/
def matchletter (c : Byte) (here : List Byte → Bool) : List Byte → Bool
  | [] => false
  | t :: text => (c = dot || c = t) && here text

def matchhere : List Byte → List Byte → Bool
  | [], _ => true
  | [c], text => if c = dollar then text.isEmpty else matchletter c (matchhere []) text
  | c :: d :: re, text =>
    if d = star then matchstar c (matchhere re) text else matchletter c (matchhere (d :: re)) text

/-- The loop of `match`: the pattern at every place of the text, its end included. -/
def matchLoop (re : List Byte) : List Byte → Bool
  | [] => matchhere re []
  | t :: text => matchhere re (t :: text) || matchLoop re text

def matchLine (re text : List Byte) : Bool :=
  match re with
  | [] => matchLoop [] text
  | c :: re => if c = caret then matchhere re text else matchLoop (c :: re) text

/-- `strchr`: the string before the first c, and what follows the c. -/
def strchr (c : Byte) : List Byte → Option (List Byte × List Byte)
  | [] => none
  | x :: s =>
    if x = 0 then none
    else if x = c then some ([], s)
    else (strchr c s).map fun (line, rest) => (x :: line, rest)

theorem strchr_length {c : Byte} {s line rest : List Byte} (h : strchr c s = some (line, rest)) :
    rest.length < s.length := by
  induction s generalizing line with
  | nil => cases h
  | cons x s ih =>
    rw [strchr] at h
    split_ifs at h
    · cases h
      exact Nat.lt_succ_self _
    · obtain ⟨y, hy, hrest⟩ := Option.map_eq_some_iff.mp h
      cases hrest
      exact (ih hy).trans (Nat.lt_succ_self _)

/-- The loop over the lines in the buffer: the bytes written, and the rest of the buffer from p
on. -/
def lineLoop (pattern p : List Byte) : List Byte × List Byte :=
  match _h : strchr newline p with
  | none => ([], p)
  | some (line, rest) =>
    let (out, p) := lineLoop pattern rest
    ((if matchLine pattern line then line ++ [newline] else []) ++ out, p)
termination_by p.length
decreasing_by exact strchr_length (by assumption)

/-- The loop of `grep` on a file of which rest has not been read yet, with the first bytes of a
line in buf: the bytes written. -/
def grepLoop (pattern buf rest : List Byte) : List Byte :=
  if _h : rest.take (1024-buf.length-1) = [] then []
  else
    let (out, p) := lineLoop pattern (buf ++ rest.take (1024-buf.length-1))
    -- p == buf: no line ends in the buffer
    let buf' := if p.length = (buf ++ rest.take (1024-buf.length-1)).length then [] else p
    out ++ grepLoop pattern buf' (rest.drop (1024-buf.length-1))
termination_by rest.length
decreasing_by
  have hne := List.take_eq_nil_iff.not.mp (by assumption)
  have := List.length_pos_of_ne_nil (not_or.mp hne).2
  rw [List.length_drop]
  omega

def grep (pattern content : List Byte) : List Byte := grepLoop pattern [] content

/-- The texts of one byte that the byte c of a pattern stands for. -/
def letter (c : Byte) : Language Byte := { w | ∃ t, (t = c ∨ c = dot) ∧ w = [t] }

/-- The texts that begin with the pattern. -/
def denote : List Byte → Language Byte
  | [] => ⊤
  | [c] => if c = dollar then 1 else letter c*⊤
  | c :: d :: re => if d = star then (letter c)∗*denote re else letter c*denote (d :: re)

/-- The texts in which the pattern occurs; after a caret, at the beginning. -/
def found (re : List Byte) : Language Byte :=
  match re with
  | [] => ⊤*denote []
  | c :: re => if c = caret then denote re else ⊤*denote (c :: re)

theorem mem_letter_mul {c : Byte} {M : Language Byte} {text : List Byte} :
    text ∈ letter c*M ↔ ∃ t rest, text = t :: rest ∧ (t = c ∨ c = dot) ∧ rest ∈ M := by
  rw [Language.mem_mul]
  constructor
  · rintro ⟨_, ⟨t, ht, rfl⟩, rest, hrest, rfl⟩
    exact ⟨t, rest, rfl, ht, hrest⟩
  · rintro ⟨t, rest, rfl, ht, hrest⟩
    exact ⟨[t], ⟨t, ht, rfl⟩, rest, hrest, rfl⟩

theorem mem_star_mul {c : Byte} {M : Language Byte} {text : List Byte} :
    text ∈ (letter c)∗*M ↔ text ∈ M ∨ text ∈ letter c*((letter c)∗*M) := by
  have hunfold : (letter c)∗*M = M+letter c*((letter c)∗*M) := by
    conv_lhs => rw [← Language.one_add_self_mul_kstar_eq_kstar]
    rw [add_mul, one_mul, mul_assoc]
  rw [hunfold, Language.mem_add, ← hunfold]

theorem matchstar_iff {c : Byte} {here : List Byte → Bool} {M : Language Byte}
    (h : ∀ text, here text = true ↔ text ∈ M) (text : List Byte) :
    matchstar c here text = true ↔ text ∈ (letter c)∗*M := by
  induction text with
  | nil =>
    rw [matchstar, h, mem_star_mul, mem_letter_mul]
    simp
  | cons t text ih =>
    rw [matchstar, mem_star_mul, mem_letter_mul, ← h]
    simp [ih]

theorem matchletter_iff {c : Byte} {here : List Byte → Bool} {M : Language Byte}
    (h : ∀ text, here text = true ↔ text ∈ M) (text : List Byte) :
    matchletter c here text = true ↔ text ∈ letter c*M := by
  rw [mem_letter_mul]
  cases text with
  | nil => simp [matchletter]
  | cons t text =>
    have hswap : c = dot ∨ c = t ↔ t = c ∨ c = dot := by rw [or_comm, eq_comm]
    simp [matchletter, h, hswap]

theorem matchhere_iff (re text : List Byte) : matchhere re text = true ↔ text ∈ denote re := by
  have hnil (text : List Byte) : matchhere [] text = true ↔ text ∈ (⊤ : Language Byte) :=
    iff_of_true (by rw [matchhere]) trivial
  induction re using denote.induct generalizing text with
  | case1 => exact hnil text
  | case2 => rw [matchhere, denote, if_pos rfl, if_pos rfl, List.isEmpty_iff, Language.mem_one]
  | case3 c hc =>
    rw [matchhere, denote, if_neg hc, if_neg hc]
    exact matchletter_iff hnil text
  | case4 c re ih =>
    rw [matchhere, denote, if_pos rfl, if_pos rfl]
    exact matchstar_iff ih text
  | case5 c d re hd ih =>
    rw [matchhere, denote, if_neg hd, if_neg hd]
    exact matchletter_iff ih text

/-- Looking everywhere is looking behind any number of bytes. -/
theorem matchLoop_iff (re text : List Byte) : matchLoop re text = true ↔ text ∈ ⊤*denote re := by
  have hloop : matchLoop re text = matchstar dot (matchhere re) text := by
    induction text with
    | nil => rfl
    | cons t text ih => simp [matchLoop, matchstar, ih]
  have htop : (letter dot)∗ = ⊤ := by
    refine Language.ext fun w => iff_of_true ?_ trivial
    refine Language.mem_kstar.mpr ⟨w.map ([·]), (List.flatMap_singleton' w).symm, ?_⟩
    rintro _ hx
    obtain ⟨t, -, rfl⟩ := List.mem_map.mp hx
    exact ⟨t, Or.inr rfl, rfl⟩
  rw [hloop, matchstar_iff (matchhere_iff re), htop]

/-- The matcher finds a pattern in exactly the texts in which it occurs. -/
theorem matchLine_iff_found (re text : List Byte) : matchLine re text = true ↔ text ∈ found re := by
  unfold matchLine found
  cases re with
  | nil => exact matchLoop_iff [] text
  | cons c re =>
    dsimp only
    split_ifs
    · exact matchhere_iff re text
    · exact matchLoop_iff (c :: re) text

/-- Lines as a file holds them. -/
def joined (lines : List (List Byte)) : List Byte := lines.flatMap (· ++ [newline])

/-- A line or a part of one: no newline in it, and no NUL. -/
def Plain (s : List Byte) : Prop := ∀ x ∈ s, x ≠ 0 ∧ x ≠ newline

theorem strchr_line {l s : List Byte} (h : Plain l) : strchr newline (l ++ newline :: s) = some (l, s) := by
  induction l with
  | nil => rfl
  | cons x l ih =>
    obtain ⟨h0, hn⟩ := h x List.mem_cons_self
    rw [List.cons_append, strchr, if_neg h0, if_neg hn, ih fun y hy => h y (List.mem_cons_of_mem x hy)]
    rfl

theorem strchr_plain {s : List Byte} (h : Plain s) : strchr newline s = none := by
  induction s with
  | nil => rfl
  | cons x s ih =>
    obtain ⟨h0, hn⟩ := h x List.mem_cons_self
    rw [strchr, if_neg h0, if_neg hn, ih fun y hy => h y (List.mem_cons_of_mem x hy)]
    rfl

theorem joined_cons (l : List Byte) (lines : List (List Byte)) (s : List Byte) :
    joined (l :: lines) ++ s = l ++ newline :: (joined lines ++ s) := by
  simp [joined]

theorem joined_length_pos (l : List Byte) (lines : List (List Byte)) :
    0 < (joined (l :: lines)).length := by
  simp only [joined, List.flatMap_cons, List.length_append, List.length_singleton]
  omega

theorem lineLoop_joined (pattern : List Byte) {lines : List (List Byte)} {p : List Byte}
    (hl : ∀ l ∈ lines, Plain l) (hp : Plain p) :
    lineLoop pattern (joined lines ++ p) = (joined (lines.filter (matchLine pattern)), p) := by
  induction lines with
  | nil =>
    rw [lineLoop, strchr_plain (s := joined [] ++ p) hp]
    rfl
  | cons l lines ih =>
    have hrest := ih fun m hm => hl m (List.mem_cons_of_mem l hm)
    rw [lineLoop, joined_cons, strchr_line (hl l List.mem_cons_self)]
    dsimp only
    rw [hrest, List.filter_cons]
    split_ifs <;> simp [joined]

/-- What stands in the buffer: whole lines, then a part of the next one. -/
theorem split_joined {lines : List (List Byte)} {last m r : List Byte}
    (hl : ∀ l ∈ lines, Plain l) (hlast : Plain last) (h : m ++ r = joined lines ++ last) :
    ∃ done todo p, lines = done ++ todo ∧ m = joined done ++ p ∧ Plain p ∧
      p ++ r = joined todo ++ last := by
  induction lines generalizing m with
  | nil =>
    refine ⟨[], [], m, rfl, rfl, fun x hx => hlast x ?_, h⟩
    rw [show last = m ++ r from h.symm]
    exact List.mem_append_left r hx
  | cons l lines ih =>
    rw [joined_cons] at h
    rcases List.append_eq_append_iff.mp h with ⟨a, hm, ha⟩ | ⟨a, rfl, ha⟩
    · -- the buffer ends inside the line
      refine ⟨[], l :: lines, m, rfl, rfl, ?_, by rw [joined_cons, h]⟩
      intro x hx
      exact hl l List.mem_cons_self x (hm ▸ List.mem_append_left a hx)
    · cases a with
      | nil =>
        refine ⟨[], l :: lines, l, rfl, by simp [joined], hl l List.mem_cons_self, ?_⟩
        rw [joined_cons]
        simpa using ha.symm
      | cons x a =>
        rw [List.cons_append] at ha
        obtain ⟨rfl, hrest⟩ := List.cons.inj ha
        obtain ⟨done, todo, p, rfl, rfl, hp, hpr⟩ :=
          ih (fun k hk => hl k (List.mem_cons_of_mem l hk)) hrest.symm
        exact ⟨l :: done, todo, p, rfl, by rw [joined_cons], hp, hpr⟩

theorem grepLoop_step (pattern : List Byte) {buf rest p : List Byte} {done : List (List Byte)}
    (hread : rest.take (1024-buf.length-1) ≠ []) (hd : ∀ l ∈ done, Plain l) (hp : Plain p)
    (hm : buf ++ rest.take (1024-buf.length-1) = joined done ++ p) :
    grepLoop pattern buf rest = joined (done.filter (matchLine pattern)) ++
      grepLoop pattern (if done = [] then [] else p) (rest.drop (1024-buf.length-1)) := by
  have hiff : p.length = (joined done ++ p).length ↔ done = [] := by
    rw [List.length_append]
    cases done with
    | nil => simp [joined]
    | cons l done =>
      have := joined_length_pos l done
      exact iff_of_false (by omega) (List.cons_ne_nil l done)
  rw [grepLoop, dif_neg hread, hm, lineLoop_joined pattern hd hp]
  dsimp only
  rw [if_congr hiff rfl rfl]

/-- A full buffer holds the next line, so a buffer without a newline stands behind the last one. -/
theorem no_more_lines {lines : List (List Byte)} {last m r : List Byte} (hm : Plain m)
    (hl : ∀ l ∈ lines, l.length ≤ 1022) (hfull : r = [] ∨ m.length = 1023)
    (h : m ++ r = joined lines ++ last) : lines = [] := by
  cases lines with
  | nil => rfl
  | cons l lines =>
    have hlong := hl l List.mem_cons_self
    have hsize := congrArg List.length h
    have htake := congrArg (List.take m.length) h
    rw [List.take_left, joined_cons, List.take_append] at htake
    rw [joined_cons] at hsize
    simp only [List.length_append, List.length_cons] at hsize
    obtain ⟨k, hk⟩ : ∃ k, m.length-l.length = k+1 := by
      refine Nat.exists_eq_succ_of_ne_zero ?_
      rcases hfull with rfl | hfull
      · simp only [List.length_nil] at hsize
        omega
      · omega
    have hmem : newline ∈ m := by
      rw [htake, hk]
      simp
    exact absurd rfl (hm newline hmem).2

/-- The loop keeps the part of a line that it has read until the rest of the line has come. -/
theorem grepLoop_lines (pattern : List Byte) {lines : List (List Byte)} {last buf rest : List Byte}
    (hl : ∀ l ∈ lines, Plain l ∧ l.length ≤ 1022) (hlast : Plain last) (hbuf : Plain buf)
    (hlen : buf.length ≤ 1022) (h : buf ++ rest = joined lines ++ last) :
    grepLoop pattern buf rest = joined (lines.filter (matchLine pattern)) := by
  induction hn : rest.length using Nat.strong_induction_on generalizing lines last buf rest with
  | _ n ih =>
    by_cases hread : rest.take (1024-buf.length-1) = []
    · have hrest : rest = [] := (List.take_eq_nil_iff.mp hread).resolve_left (by omega)
      rw [no_more_lines hbuf (fun l hk => (hl l hk).2) (Or.inl hrest) h, grepLoop, dif_pos hread]
      rfl
    · have hdrop : (rest.drop (1024-buf.length-1)).length < n := by
        have hne := List.take_eq_nil_iff.not.mp hread
        have := List.length_pos_of_ne_nil (not_or.mp hne).2
        rw [List.length_drop]
        omega
      rw [← List.take_append_drop (1024-buf.length-1) rest, ← List.append_assoc] at h
      have hcount : (buf ++ rest.take (1024-buf.length-1)).length =
          min 1023 (buf.length+rest.length) := by
        rw [List.length_append, List.length_take]
        omega
      obtain ⟨done, todo, p, rfl, hm, hp, hpr⟩ := split_joined (fun l hk => (hl l hk).1) hlast h
      rw [grepLoop_step pattern hread (fun l hk => (hl l (List.mem_append_left _ hk)).1) hp hm]
      cases done with
      | nil =>
        have hfull : rest.drop (1024-buf.length-1) = [] ∨ p.length = 1023 := by
          rw [hm] at hcount
          rw [List.drop_eq_nil_iff]
          change p.length = _ at hcount
          omega
        have htodo := no_more_lines hp (fun l hk => (hl l hk).2) hfull hpr
        subst htodo
        have hplain : Plain (rest.drop (1024-buf.length-1)) := fun x hx =>
          hlast x (by rw [show last = _ from hpr.symm]; exact List.mem_append_right p hx)
        have hrest : [] ++ rest.drop (1024-buf.length-1) = joined [] ++ rest.drop (1024-buf.length-1) := rfl
        exact ih _ hdrop hl hplain (fun _ hx => absurd hx List.not_mem_nil) (Nat.zero_le _) hrest rfl
      | cons l done =>
        have := joined_length_pos l done
        rw [hm, List.length_append] at hcount
        rw [if_neg (List.cons_ne_nil l done), ih _ hdrop
          (fun k hk => hl k (List.mem_append_right _ hk)) hlast hp (by omega) hpr rfl,
          List.filter_append]
        exact List.flatMap_append.symm

/-- For every pattern and every file whose lines fit into the buffer: grep prints the lines in
which the pattern occurs, in their order, and nothing of what stands behind the last newline. -/
theorem grep_prints (pattern : List Byte) (lines : List (List Byte)) (last : List Byte)
    (hl : ∀ l ∈ lines, Plain l ∧ l.length ≤ 1022) (hlast : Plain last) :
    grep pattern (joined lines ++ last) = joined (lines.filter (matchLine pattern)) :=
  grepLoop_lines pattern hl hlast (fun _ h => absurd h List.not_mem_nil) (Nat.zero_le _) rfl

/-- grep b.$ on three lines and a half. -/
theorem grep_prints_two : grep [98, dot, dollar] (joined [[97, 98, 99], [98], [98, 98]] ++ [98, 99]) =
    [97, 98, 99, newline, 98, 98, newline] := by
  rw [grep_prints _ _ _ (by unfold Plain; decide) (by unfold Plain; decide)]
  decide

end ProvenXv6.Grep
