import Mathlib.Data.List.Basic
import Mathlib.Tactic.Common
import ProvenXv6.ShellModel

namespace ProvenXv6.Shell
open WeakestPre

inductive Tok
  | word (w : Word)
  | lt
  | gt
  | append
  | bar
  | amp
  | semi
  | lpar
  | rpar
  deriving DecidableEq, Repr

/-- The token that is a character on its own. -/
def Tok.ofChar (c : Byte) : Option Tok :=
  if c = 60 then some .lt
  else if c = 62 then some .gt
  else if c = 124 then some .bar
  else if c = 38 then some .amp
  else if c = 59 then some .semi
  else if c = 40 then some .lpar
  else if c = 41 then some .rpar
  else none

/-- The line from s to es is the tokens ts with whitespace between them: >> is one token, and a
word goes as far as it can. -/
inductive Lexes (buf : List Byte) (es : ℕ) : ℕ → List Tok → Prop
  | done : Lexes buf es es []
  | space {s ts} (hs : s < es) (hc : strchr whitespace (char buf s) = true)
      (h : Lexes buf es (s+1) ts) : Lexes buf es s ts
  | symbol {s t ts} (hs : s < es) (hc : Tok.ofChar (char buf s) = some t)
      (hgt : t = .gt → char buf (s+1) ≠ 62) (h : Lexes buf es (s+1) ts) : Lexes buf es s (t :: ts)
  | append {s ts} (hs : s+1 < es) (hc : char buf s = 62) (hc' : char buf (s+1) = 62)
      (h : Lexes buf es (s+2) ts) : Lexes buf es s (.append :: ts)
  | word {s e ts} (hs : s < e) (he : e ≤ es) (hw : ∀ i, s ≤ i → i < e → wordChar (char buf i) = true)
      (hend : e = es ∨ wordChar (char buf e) = false) (h : Lexes buf es e ts) :
      Lexes buf es s (.word ⟨s, e⟩ :: ts)

/-- What the tokens are where there is no whitespace. -/
inductive Ready (buf : List Byte) (es s : ℕ) : List Tok → Prop
  | done (hs : s = es) : Ready buf es s []
  | symbol {t ts} (hs : s < es) (hc : Tok.ofChar (char buf s) = some t)
      (hgt : t = .gt → char buf (s+1) ≠ 62) (h : Lexes buf es (s+1) ts) : Ready buf es s (t :: ts)
  | append {ts} (hs : s+1 < es) (hc : char buf s = 62) (hc' : char buf (s+1) = 62)
      (h : Lexes buf es (s+2) ts) : Ready buf es s (.append :: ts)
  | word {e ts} (hs : s < e) (he : e ≤ es) (hc : wordChar (char buf s) = true)
      (hskip : skip buf es wordChar s = e) (h : Lexes buf es e ts) :
      Ready buf es s (.word ⟨s, e⟩ :: ts)

/-- es is the first NUL of the line. -/
structure Ends (buf : List Byte) (es : ℕ) : Prop where
  nonzero : ∀ i < es, char buf i ≠ 0
  zero : char buf es = 0

variable {buf : List Byte} {es s : ℕ} {ts : List Tok} {t : Tok}

theorem advance_le (buf : List Byte) (p : Byte → Bool) (n s : ℕ) :
    s ≤ advance buf p n s ∧ advance buf p n s ≤ s+n := by
  induction n generalizing s with
  | zero => exact ⟨Nat.le_refl _, Nat.le_refl _⟩
  | succ n ih =>
    rw [advance]
    split_ifs
    · have := ih (s+1)
      omega
    · omega

theorem advance_spec (buf : List Byte) (p : Byte → Bool) (n s : ℕ) :
    (∀ i, s ≤ i → i < advance buf p n s → p (char buf i) = true) ∧
      (advance buf p n s = s+n ∨ p (char buf (advance buf p n s)) = false) := by
  induction n generalizing s with
  | zero =>
    refine ⟨fun i h1 h2 => ?_, Or.inl rfl⟩
    simp only [advance] at h2
    omega
  | succ n ih =>
    rw [advance]
    split_ifs with hp
    · obtain ⟨h1, h2⟩ := ih (s+1)
      refine ⟨fun i hi hlt => ?_, h2.imp (fun h => by omega) id⟩
      rcases Nat.eq_or_lt_of_le hi with rfl | hi
      · exact hp
      · exact h1 i hi hlt
    · exact ⟨fun i h1 h2 => by omega, Or.inr (by simpa using hp)⟩

theorem skip_of_not {p : Byte → Bool} (h : s < es → p (char buf s) = false) : skip buf es p s = s := by
  rw [skip]
  cases hn : es-s with
  | zero => rfl
  | succ n =>
    rw [advance, if_neg]
    simp [h (by omega)]

theorem skip_of_pos {p : Byte → Bool} (hs : s < es) (h : p (char buf s) = true) :
    skip buf es p s = skip buf es p (s+1) := by
  obtain ⟨n, hn⟩ : ∃ n, es-s = n+1 := ⟨es-s-1, by omega⟩
  rw [skip, hn, advance, if_pos h, skip]
  congr 1
  omega

theorem skip_eq {p : Byte → Bool} {e : ℕ} (hs : s ≤ e) (he : e ≤ es)
    (hp : ∀ i, s ≤ i → i < e → p (char buf i) = true) (hend : e = es ∨ p (char buf e) = false) :
    skip buf es p s = e := by
  induction hd : e-s generalizing s with
  | zero =>
    obtain rfl : s = e := by omega
    apply skip_of_not
    intro hlt
    exact hend.resolve_left (Nat.ne_of_lt hlt)
  | succ n ih =>
    rw [skip_of_pos (by omega) (hp s (Nat.le_refl _) (by omega))]
    exact ih (by omega) (fun i h1 h2 => hp i (by omega) h2) (by omega)

theorem ofChar_cases {c : Byte} (h : Tok.ofChar c = some t) :
    c = 60 ∧ t = .lt ∨ c = 62 ∧ t = .gt ∨ c = 124 ∧ t = .bar ∨ c = 38 ∧ t = .amp ∨
      c = 59 ∧ t = .semi ∨ c = 40 ∧ t = .lpar ∨ c = 41 ∧ t = .rpar := by
  unfold Tok.ofChar at h
  split_ifs at h <;> simp_all

theorem strchr_symbols {c : Byte} : strchr symbols c = true ↔ (Tok.ofChar c).isSome := by
  simp only [strchr, symbols, Tok.ofChar, List.contains_eq_mem, List.mem_cons, List.not_mem_nil,
    or_false, decide_eq_true_eq]
  split_ifs <;> simp_all

theorem not_white_of_ofChar {c : Byte} (h : Tok.ofChar c = some t) : strchr whitespace c = false := by
  rcases ofChar_cases h with ⟨rfl, -⟩ | ⟨rfl, -⟩ | ⟨rfl, -⟩ | ⟨rfl, -⟩ | ⟨rfl, -⟩ | ⟨rfl, -⟩ | ⟨rfl, -⟩ <;> rfl

theorem wordChar_iff {c : Byte} :
    wordChar c = true ↔ strchr whitespace c = false ∧ Tok.ofChar c = none := by
  have hs := strchr_symbols (c := c)
  rw [wordChar, Bool.and_eq_true, Bool.not_eq_true', Bool.not_eq_true', ← Option.not_isSome_iff_eq_none,
    ← hs, Bool.not_eq_true]

theorem exists_lexes (buf : List Byte) {es s : ℕ} (hends : Ends buf es) (hs : s ≤ es) :
    ∃ ts, Lexes buf es s ts := by
  -- by what is left of the line
  induction hn : es-s using Nat.strongRecOn generalizing s with
  | _ n ih =>
    rcases Nat.eq_or_lt_of_le hs with rfl | hlt
    · exact ⟨[], .done⟩
    cases hw : strchr whitespace (char buf s) with
    | true =>
      obtain ⟨ts, h⟩ := ih (es-(s+1)) (by omega) (by omega) rfl
      exact ⟨ts, .space hlt hw h⟩
    | false =>
      cases hc : Tok.ofChar (char buf s) with
      | none =>
        have hword : wordChar (char buf s) = true := wordChar_iff.mpr ⟨hw, hc⟩
        have hle := advance_le buf wordChar (es-(s+1)) (s+1)
        have hspec := advance_spec buf wordChar (es-(s+1)) (s+1)
        generalize advance buf wordChar (es-(s+1)) (s+1) = e at hle hspec
        obtain ⟨ts, h⟩ := ih (es-e) (by omega) (by omega) rfl
        refine ⟨_, .word (e := e) (by omega) (by omega) (fun i h1 h2 => ?_) ?_ h⟩
        · rcases Nat.eq_or_lt_of_le h1 with rfl | h1
          · exact hword
          · exact hspec.1 i h1 h2
        · exact hspec.2.imp (fun h => by omega) id
      | some t =>
        by_cases hgt : t = .gt ∧ char buf (s+1) = 62
        · -- the second > is before the end, where the NUL is
          obtain ⟨rfl, hc'⟩ := hgt
          have hc62 : char buf s = 62 := by
            rcases ofChar_cases hc with h | h | h | h | h | h | h <;> simp_all
          have hlt' : s+1 < es := by
            rcases Nat.lt_or_ge (s+1) es with h | h
            · exact h
            · have hes : s+1 = es := by omega
              rw [hes, hends.zero] at hc'
              exact absurd hc' (by decide)
          obtain ⟨ts, h⟩ := ih (es-(s+2)) (by omega) (by omega) rfl
          exact ⟨_, .append hlt' hc62 hc' h⟩
        · obtain ⟨ts, h⟩ := ih (es-(s+1)) (by omega) (by omega) rfl
          exact ⟨_, .symbol hlt hc (fun h1 h2 => hgt ⟨h1, h2⟩) h⟩

theorem Lexes.ready (h : Lexes buf es s ts) :
    Ready buf es (skip buf es (strchr whitespace) s) ts ∧
      Lexes buf es (skip buf es (strchr whitespace) s) ts := by
  induction h with
  | done =>
    rw [skip_of_not (fun h => absurd h (Nat.lt_irrefl _))]
    exact ⟨.done rfl, .done⟩
  | space hs hc h ih =>
    rw [skip_of_pos hs hc]
    exact ih
  | symbol hs hc hgt h ih =>
    rw [skip_of_not fun _ => not_white_of_ofChar hc]
    exact ⟨.symbol hs hc hgt h, .symbol hs hc hgt h⟩
  | append hs hc hc' h ih =>
    rw [skip_of_not fun _ => by rw [hc]; rfl]
    exact ⟨.append hs hc hc' h, .append hs hc hc' h⟩
  | word hs he hw hend h ih =>
    have hc := hw _ (Nat.le_refl _) hs
    rw [skip_of_not fun _ => (wordChar_iff.mp hc).1]
    exact ⟨.word hs he hc (skip_eq (Nat.le_of_lt hs) he hw hend) h, .word hs he hw hend h⟩

def Tok.first : Tok → Option Byte
  | .word _ => none
  | .lt => some 60
  | .gt => some 62
  | .append => some 62
  | .bar => some 124
  | .amp => some 38
  | .semi => some 59
  | .lpar => some 40
  | .rpar => some 41

/-- The value that `gettoken` returns for a token. -/
def Tok.code : Tok → Byte
  | .word _ => 97
  | .append => 43
  | .lt => 60
  | .gt => 62
  | .bar => 124
  | .amp => 38
  | .semi => 59
  | .lpar => 40
  | .rpar => 41

/-- Whether the first token is a symbol that starts with one of the characters. -/
def sees (toks : List Byte) : List Tok → Bool
  | [] => false
  | t :: _ => t.first.any (strchr toks)

def headCode : List Tok → Byte
  | [] => 0
  | t :: _ => t.code

theorem token_ofChar {c : Byte} (h : Tok.ofChar c = some t) :
    c ≠ 0 ∧ t.first = some c ∧ t.code = c ∧ (c ≠ 62 → strchr [124, 40, 41, 59, 38, 60] c = true) ∧
      (c = 62 → t = .gt) := by
  rcases ofChar_cases h with ⟨rfl, rfl⟩ | ⟨rfl, rfl⟩ | ⟨rfl, rfl⟩ | ⟨rfl, rfl⟩ | ⟨rfl, rfl⟩ |
    ⟨rfl, rfl⟩ | ⟨rfl, rfl⟩ <;> decide

theorem not_symbol {c : Byte} (h : Tok.ofChar c = none) {toks : List Byte}
    (htoks : toks.all (strchr symbols) = true) : strchr toks c = false := by
  have hns : ¬strchr symbols c = true := by
    rw [strchr_symbols, h]
    exact Bool.false_ne_true
  rw [strchr, List.contains_eq_mem, decide_eq_false_iff_not]
  exact fun hm => hns (List.all_eq_true.mp htoks c hm)

theorem token_single (h0 : char buf s ≠ 0)
    (h : strchr [124, 40, 41, 59, 38, 60] (char buf s) = true) :
    token buf es s = (char buf s, s+1) := by
  rw [token, if_neg h0, if_pos h]

theorem token_gt (h : char buf s = 62) :
    token buf es s = if char buf (s+1) = 62 then (43, s+2) else (62, s+1) := by
  have h0 : ¬char buf s = 0 := by
    rw [h]
    decide
  have hlist : ¬strchr [124, 40, 41, 59, 38, 60] (char buf s) = true := by
    rw [h]
    decide
  rw [token, if_neg h0, if_neg hlist, if_pos h]

theorem token_word (h0 : char buf s ≠ 0) (h : wordChar (char buf s) = true) :
    token buf es s = (97, skip buf es wordChar s) := by
  have hlist : strchr [124, 40, 41, 59, 38, 60] (char buf s) = false :=
    not_symbol (wordChar_iff.mp h).2 rfl
  have h62 : ¬char buf s = 62 := by
    intro hc
    rw [hc] at h
    exact absurd h (by decide)
  rw [token, if_neg h0, hlist, if_neg Bool.false_ne_true, if_neg h62]

theorem Ready.token (hends : Ends buf es) (h : Ready buf es s ts) :
    (token buf es s).1 = headCode ts ∧ Lexes buf es (token buf es s).2 ts.tail ∧
      ∀ w r, ts = .word w :: r → w = ⟨s, (token buf es s).2⟩ := by
  cases h with
  | done hs =>
    subst hs
    rw [Shell.token, if_pos hends.zero]
    exact ⟨rfl, .done, by simp⟩
  | @symbol t ts hs hc hgt h =>
    obtain ⟨h0, hfirst, hcode, hlist, h62⟩ := token_ofChar hc
    have htok : Shell.token buf es s = (t.code, s+1) := by
      rw [hcode]
      by_cases hc62 : char buf s = 62
      · rw [token_gt hc62, if_neg (hgt (h62 hc62)), hc62]
      · exact token_single h0 (hlist hc62)
    rw [htok]
    refine ⟨rfl, h, ?_⟩
    intro w r heq
    rw [(List.cons.inj heq).1] at hfirst
    exact absurd hfirst.symm (Option.some_ne_none _)
  | append hs hc hc' h =>
    rw [token_gt hc, if_pos hc']
    exact ⟨rfl, h, by simp⟩
  | @word e ts hs he hc hskip h =>
    rw [token_word (hends.nonzero s (by omega)) hc, hskip]
    refine ⟨rfl, h, ?_⟩
    intro w r heq
    exact (Tok.word.inj (List.cons.inj heq).1).symm

theorem Ready.sees (hends : Ends buf es) (h : Ready buf es s ts) {toks : List Byte}
    (htoks : toks.all (strchr symbols) = true) :
    (decide (char buf s ≠ 0) && strchr toks (char buf s)) = sees toks ts := by
  have hpos (h0 : char buf s ≠ 0) :
      (decide (char buf s ≠ 0) && strchr toks (char buf s)) = strchr toks (char buf s) := by
    rw [decide_eq_true h0, Bool.true_and]
  cases h with
  | done hs =>
    subst hs
    rw [hends.zero]
    rfl
  | symbol hs hc hgt h =>
    obtain ⟨h0, hfirst, -⟩ := token_ofChar hc
    rw [hpos h0, Shell.sees, hfirst, Option.any_some]
  | append hs hc hc' h =>
    rw [hpos (hends.nonzero s (by omega)), hc]
    rfl
  | word hs he hc hskip h =>
    rw [hpos (hends.nonzero s (by omega)), not_symbol (wordChar_iff.mp hc).2 htoks]
    rfl

variable {F : Stop → Prop}

theorem peek_spec (hends : Ends buf es) {toks : List Byte}
    (htoks : toks.all (strchr symbols) = true) (h : Lexes buf es s ts) :
    wp F (peek buf es toks) (fun b s' => b = sees toks ts ∧ Lexes buf es s' ts) s :=
  ⟨h.ready.1.sees hends htoks, h.ready.2⟩

theorem gettoken_spec (hends : Ends buf es) (h : Lexes buf es s ts) :
    wp F (gettoken buf es) (fun r s' => r.1 = headCode ts ∧ Lexes buf es s' ts.tail ∧
      ∀ w rest, ts = .word w :: rest → r.2 = w) s := by
  obtain ⟨hcode, hrest, hword⟩ := h.ready.1.token hends
  exact ⟨hcode, hrest.ready.2, fun w rest hts => (hword w rest hts).symm⟩

theorem code_ne_zero (t : Tok) : t.code ≠ 0 := by
  cases t <;> simp [Tok.code]

theorem eq_of_code_eq {t' : Tok} (h : t.code = t'.code) :
    t = t' ∨ ∃ w w', t = .word w ∧ t' = .word w' := by
  cases t <;> cases t' <;> simp [Tok.code] at h ⊢

/-- A position has one sequence of tokens: the one that the code reads. -/
theorem Lexes.unique (hends : Ends buf es) {ts' : List Tok} (h : Lexes buf es s ts)
    (h' : Lexes buf es s ts') : ts = ts' := by
  induction ts generalizing s ts' with
  | nil =>
    have hcode := (h.ready.1.token hends).1.symm.trans (h'.ready.1.token hends).1
    cases ts' with
    | nil => rfl
    | cons t' ts' => exact absurd hcode.symm (code_ne_zero t')
  | cons t ts ih =>
    obtain ⟨hcode, hrest, hword⟩ := h.ready.1.token hends
    obtain ⟨hcode', hrest', hword'⟩ := h'.ready.1.token hends
    cases ts' with
    | nil => exact absurd (hcode.symm.trans hcode') (code_ne_zero t)
    | cons t' ts' =>
      have htail : ts = ts' := ih hrest hrest'
      subst htail
      rcases eq_of_code_eq (hcode.symm.trans hcode') with rfl | ⟨w, w', rfl, rfl⟩
      · rfl
      · rw [hword w ts rfl, hword' w' ts rfl]

theorem Lexes.length_le (h : Lexes buf es s ts) : s+ts.length ≤ es := by
  induction h with
  | done => simp
  | space hs hc h ih => omega
  | symbol hs hc hgt h ih => simp only [List.length_cons]; omega
  | append hs hc hc' h ih => simp only [List.length_cons]; omega
  | word hs he hw hend h ih => simp only [List.length_cons]; omega

end ProvenXv6.Shell
