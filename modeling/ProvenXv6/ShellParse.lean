import Mathlib.Data.List.GetD
import ProvenXv6.ShellGrammar

namespace ProvenXv6.Shell
open WeakestPre

variable {buf : List Byte} {es s n : ℕ} {ts pre rest : List Tok} {t : Tok}

/-- The symbols that can stand behind a part of a line. -/
def follows : Sym → List Byte
  | .line => [41]
  | .pipe => [38, 59, 41]
  | .exec => [124, 38, 59, 41]

def Follow (x : Sym) (rest : List Tok) : Prop := rest = [] ∨ sees (follows x) rest = true

theorem sees_of_strchr {toks : List Byte} {c : Byte} (ht : t.first = some c)
    (hc : strchr toks c = true) : sees toks (t :: rest) = true := by
  rw [sees, ht, Option.any_some, hc]

theorem Follow.not_sees {x : Sym} {toks : List Byte} (h : Follow x rest)
    (hd : (follows x).all (!strchr toks ·) = true) : sees toks rest = false := by
  rcases h with rfl | h
  · rfl
  · obtain ⟨t, us, c, rfl, ht, hc⟩ := exists_of_sees h
    rw [sees, ht, Option.any_some, ← Bool.not_eq_true']
    exact List.all_eq_true.mp hd c hc

theorem Follow.mono {x y : Sym} (h : Follow x rest) (hxy : (follows x).all (strchr (follows y)) = true) :
    Follow y rest := by
  rcases h with rfl | h
  · exact Or.inl rfl
  · obtain ⟨t, us, c, rfl, ht, hc⟩ := exists_of_sees h
    exact Or.inr (sees_of_strchr ht (List.all_eq_true.mp hxy c hc))

theorem sees_of_redir {w : Word} {r : Redir} (h : t.redir w = some r) :
    sees [60, 62] (t :: rest) = true ∧ sees [40] (t :: rest) = false := by
  cases t <;> first
    | exact ⟨rfl, rfl⟩
    | exact absurd h.symm (Option.some_ne_none _)

theorem Args.not_sees {ws : List Word} {rs : List Redir} {toks : List Byte} (ha : Args pre ws rs)
    (hrest : Follow .exec rest) (hd : (follows .exec).all (!strchr toks ·) = true) :
    sees toks (pre ++ rest) = false := by
  cases ha with
  | nil => exact hrest.not_sees hd
  | cons hr ha => rfl

section Complete
variable (hends : Ends buf es)
include hends

theorem parseredirs_complete {rs : List Redir} (hr : Redirs pre rs)
    (h : Lexes buf es s (pre ++ rest)) (hn : (pre ++ rest).length < n)
    (hrest : sees [60, 62] rest = false) :
    wp (fun _ => False) (parseredirs buf es n) (fun rs' s' => rs' = rs ∧ Lexes buf es s' rest) s := by
  induction hr generalizing n s with
  | nil =>
    obtain ⟨n, rfl⟩ : ∃ m, n = m+1 := ⟨n-1, by omega⟩
    apply wp_peek hends rfl h
    · intro hsees
      rw [List.nil_append, hrest] at hsees
      exact absurd hsees Bool.false_ne_true
    · intro _ s₁ h₁
      exact ⟨rfl, h₁⟩
  | @cons t w r ts rs hr hrs ih =>
    obtain ⟨n, rfl⟩ : ∃ m, n = m+1 := ⟨n-1, by omega⟩
    apply wp_peek hends rfl h
    · intro hsees s₁ h₁
      obtain ⟨t', us, hts, hredir⟩ := sees_redir hsees
      obtain ⟨rfl, -⟩ := List.cons.inj hts
      apply wp_gettoken hends h₁
      intro _ s₂ h₂ _
      apply wp_gettoken hends h₂
      intro w' s₃ h₃ hw
      obtain rfl := hw w _ rfl
      show wp _ (if (97 : Byte) ≠ 97 then _ else _) _ _
      rw [if_neg (not_not.mpr rfl), wp_bind]
      simp only [List.cons_append, List.length_cons] at hn
      apply wp_mono (ih h₃ (by omega))
      rintro rs' s₄ ⟨rfl, h₄⟩
      refine ⟨?_, h₄⟩
      obtain ⟨r', hr', hfor⟩ := hredir w'
      rw [hr, Option.some.injEq] at hr'
      show redirFor t.code w' ++ rs' = r :: rs'
      rw [hfor, hr']
      rfl
    · intro hsees
      rw [List.cons_append, (sees_of_redir hr).1] at hsees
      exact absurd hsees.symm Bool.false_ne_true

theorem parseargs_complete {ws : List Word} {rs : List Redir} {argc : ℕ} (ha : Args pre ws rs)
    (h : Lexes buf es s (pre ++ rest)) (hn : (pre ++ rest).length < n)
    (hmax : argc+ws.length < MAXARGS) (hrest : Follow .exec rest) :
    wp (fun _ => False) (parseargs buf es n argc)
      (fun r s' => r = (ws, rs) ∧ Lexes buf es s' rest) s := by
  induction ha generalizing n s argc with
  | nil =>
    obtain ⟨n, rfl⟩ : ∃ m, n = m+1 := ⟨n-1, by omega⟩
    apply wp_peek hends rfl h
    · intro _ s₁ h₁
      exact ⟨rfl, h₁⟩
    · intro hsees s₁ h₁
      rcases hrest with rfl | hrest
      · apply wp_gettoken hends h₁
        intro w s₂ h₂ _
        exact ⟨rfl, h₂⟩
      · obtain ⟨t, us, c, rfl, ht, hc⟩ := exists_of_sees hrest
        have hall : (follows .exec).all (strchr [124, 41, 38, 59]) = true := rfl
        rw [List.nil_append, sees_of_strchr ht (List.all_eq_true.mp hall c hc)] at hsees
        exact absurd hsees.symm Bool.false_ne_true
  | @cons w ts rs us ws rs' hr ha ih =>
    obtain ⟨n, rfl⟩ : ∃ m, n = m+1 := ⟨n-1, by omega⟩
    simp only [List.cons_append, List.append_assoc, List.length_cons] at h hn hmax
    apply wp_peek hends rfl h
    · intro hsees
      exact absurd hsees Bool.false_ne_true
    · intro _ s₁ h₁
      apply wp_gettoken hends h₁
      intro w' s₂ h₂ hw
      obtain rfl := hw w _ rfl
      show wp _ (if (97 : Byte) = 0 then _ else if (97 : Byte) ≠ 97 then _ else
        if argc+1 ≥ MAXARGS then _ else _) _ _
      rw [if_neg (by decide), if_neg (not_not.mpr rfl), if_neg (by omega), wp_bind]
      -- behind the redirections of a word comes a word or the end
      have hstop : sees [60, 62] (us ++ rest) = false := ha.not_sees hrest rfl
      have hn₂ : (ts ++ (us ++ rest)).length < n := by omega
      apply wp_mono (parseredirs_complete hends hr h₂ hn₂ hstop)
      rintro rs₁ s₃ ⟨rfl, h₃⟩
      rw [wp_bind]
      simp only [List.length_append] at hn ih
      apply wp_mono (ih h₃ (by omega) (by omega))
      rintro ⟨ws₁, rs₂⟩ s₄ ⟨heq, h₄⟩
      obtain ⟨rfl, rfl⟩ := Prod.mk.inj heq
      exact ⟨rfl, h₄⟩

theorem parseback_complete {c : Cmd} {k : ℕ} (h : Lexes buf es s (List.replicate k .amp ++ rest))
    (hn : (List.replicate k Tok.amp ++ rest).length < n) (hrest : sees [38] rest = false) :
    wp (fun _ => False) (parseback buf es n c)
      (fun d s' => d = Cmd.back^[k] c ∧ Lexes buf es s' rest) s := by
  induction k generalizing n s c with
  | zero =>
    obtain ⟨n, rfl⟩ : ∃ m, n = m+1 := ⟨n-1, by omega⟩
    rw [List.replicate_zero, List.nil_append] at h
    apply wp_peek hends rfl h
    · intro hsees
      rw [hrest] at hsees
      exact absurd hsees Bool.false_ne_true
    · intro _ s₁ h₁
      exact ⟨rfl, h₁⟩
  | succ k ih =>
    obtain ⟨n, rfl⟩ : ∃ m, n = m+1 := ⟨n-1, by omega⟩
    simp only [List.replicate_succ, List.cons_append, List.length_cons] at h hn
    apply wp_peek hends rfl h
    · intro _ s₁ h₁
      apply wp_gettoken hends h₁
      intro _ s₂ h₂ _
      exact ih h₂ (by omega)
    · intro hsees
      exact absurd hsees.symm Bool.false_ne_true

def parse (buf : List Byte) (es : ℕ) : Sym → ℕ → Parse Cmd
  | .line => parseline buf es
  | .pipe => parsepipe buf es
  | .exec => parseexec buf es

/-- By induction on the derivation, for any rest that may follow. -/
theorem parse_complete {x : Sym} {c : Cmd} (hd : Derives x pre c) (rest : List Tok)
    (h : Lexes buf es s (pre ++ rest)) (hn : need x (pre ++ rest).length ≤ n)
    (hrest : Follow x rest) :
    wp (fun _ => False) (parse buf es x n) (fun d s' => d = c ∧ Lexes buf es s' rest) s := by
  induction hd generalizing n s rest with
  | @line ts c k hp ih =>
    simp only [need, List.append_assoc] at h hn
    obtain ⟨n, rfl⟩ : ∃ m, n = m+1 := ⟨n-1, by omega⟩
    have hfollow : Follow .pipe (List.replicate k .amp ++ rest) := by
      cases k with
      | zero => exact hrest.mono rfl
      | succ k => exact Or.inr (sees_of_strchr (t := .amp) rfl rfl)
    show wp _ (parseline buf es (n+1)) _ _
    rw [parseline, wp_bind]
    apply wp_mono (ih _ h (by simp only [need]; omega) hfollow)
    rintro d s₁ ⟨rfl, h₁⟩
    rw [List.length_append] at hn
    rw [wp_bind]
    apply wp_mono (parseback_complete hends h₁ (by omega) (hrest.not_sees rfl))
    rintro d' s₂ ⟨rfl, h₂⟩
    apply wp_peek hends rfl h₂
    · intro hsees
      rw [hrest.not_sees rfl] at hsees
      exact absurd hsees Bool.false_ne_true
    · intro _ s₃ h₃
      exact ⟨rfl, h₃⟩
  | @list ts c us d k hp hl ihp ihl =>
    simp only [need, List.append_assoc, List.cons_append] at h hn
    obtain ⟨n, rfl⟩ : ∃ m, n = m+1 := ⟨n-1, by omega⟩
    have hfollow : Follow .pipe (List.replicate k .amp ++ .semi :: (us ++ rest)) := by
      cases k with
      | zero => exact Or.inr (sees_of_strchr (t := .semi) rfl rfl)
      | succ k => exact Or.inr (sees_of_strchr (t := .amp) rfl rfl)
    show wp _ (parseline buf es (n+1)) _ _
    rw [parseline, wp_bind]
    apply wp_mono (ihp _ h (by simp only [need]; omega) hfollow)
    rintro d s₁ ⟨rfl, h₁⟩
    rw [List.length_append] at hn
    rw [wp_bind]
    apply wp_mono (parseback_complete hends h₁ (by omega) rfl)
    rintro d' s₂ ⟨rfl, h₂⟩
    simp only [List.length_append, List.length_cons] at hn
    apply wp_peek hends rfl h₂
    · intro _ s₃ h₃
      apply wp_gettoken hends h₃
      intro _ s₄ h₄ _
      show wp _ (parseline buf es n >>= _) _ _
      rw [wp_bind]
      apply wp_mono (ihl rest h₄ (by simp only [need, List.length_append]; omega) hrest)
      rintro e s₅ ⟨rfl, h₅⟩
      exact ⟨rfl, h₅⟩
    · intro hsees
      exact absurd hsees.symm Bool.false_ne_true
  | @last ts c he ih =>
    simp only [need] at hn
    obtain ⟨n, rfl⟩ : ∃ m, n = m+1 := ⟨n-1, by omega⟩
    show wp _ (parsepipe buf es (n+1)) _ _
    rw [parsepipe, wp_bind]
    apply wp_mono (ih rest h (by simp only [need]; omega) (hrest.mono rfl))
    rintro d s₁ ⟨rfl, h₁⟩
    apply wp_peek hends rfl h₁
    · intro hsees
      rw [hrest.not_sees rfl] at hsees
      exact absurd hsees Bool.false_ne_true
    · intro _ s₂ h₂
      exact ⟨rfl, h₂⟩
  | @pipe ts c us d he hp ihe ihp =>
    simp only [need, List.append_assoc, List.cons_append] at h hn
    obtain ⟨n, rfl⟩ : ∃ m, n = m+1 := ⟨n-1, by omega⟩
    show wp _ (parsepipe buf es (n+1)) _ _
    rw [parsepipe, wp_bind]
    apply wp_mono (ihe _ h (by simp only [need]; omega)
      (Or.inr (sees_of_strchr (t := .bar) rfl rfl)))
    rintro d s₁ ⟨rfl, h₁⟩
    simp only [List.length_append, List.length_cons] at hn
    apply wp_peek hends rfl h₁
    · intro _ s₂ h₂
      apply wp_gettoken hends h₂
      intro _ s₃ h₃ _
      show wp _ (parsepipe buf es n >>= _) _ _
      rw [wp_bind]
      apply wp_mono (ihp rest h₃ (by simp only [need, List.length_append]; omega) hrest)
      rintro e s₄ ⟨rfl, h₄⟩
      exact ⟨rfl, h₄⟩
    · intro hsees
      exact absurd hsees.symm Bool.false_ne_true
  | @block ts c us rs hl hr ih =>
    simp only [need, List.append_assoc, List.cons_append, List.length_cons] at h hn
    obtain ⟨n, rfl⟩ : ∃ m, n = m+2 := ⟨n-2, by omega⟩
    show wp _ (parseexec buf es (n+2)) _ _
    apply wp_peek hends rfl h
    · intro _ s₁ h₁
      apply wp_peek hends rfl h₁
      · intro _ s₂ h₂
        apply wp_gettoken hends h₂
        intro _ s₃ h₃ _
        show wp _ (parseline buf es n >>= _) _ _
        rw [wp_bind]
        apply wp_mono (ih _ h₃ (by simp only [need]; omega)
          (Or.inr (sees_of_strchr (t := .rpar) rfl rfl)))
        rintro d s₄ ⟨rfl, h₄⟩
        simp only [List.length_append, List.length_cons] at hn
        apply wp_peek hends rfl h₄
        · intro _ s₅ h₅
          apply wp_gettoken hends h₅
          intro _ s₆ h₆ _
          show wp _ (parseredirs buf es n >>= _) _ _
          rw [wp_bind]
          apply wp_mono (parseredirs_complete hends hr h₆ (by rw [List.length_append]; omega)
            (hrest.not_sees rfl))
          rintro rs' s₇ ⟨rfl, h₇⟩
          exact ⟨rfl, h₇⟩
        · intro hsees
          exact absurd hsees.symm Bool.false_ne_true
      · intro hsees
        exact absurd hsees.symm Bool.false_ne_true
    · intro hsees
      exact absurd hsees.symm Bool.false_ne_true
  | @exec ts rs us ws rs' hr ha hmax =>
    simp only [need, List.append_assoc] at h hn
    obtain ⟨n, rfl⟩ : ∃ m, n = m+1 := ⟨n-1, by omega⟩
    have hno : sees [40] (ts ++ (us ++ rest)) = false := by
      cases hr with
      | nil => exact ha.not_sees hrest rfl
      | cons hr hrs => exact (sees_of_redir hr).2
    show wp _ (parseexec buf es (n+1)) _ _
    apply wp_peek hends rfl h
    · intro hsees
      rw [hno] at hsees
      exact absurd hsees Bool.false_ne_true
    · intro _ s₁ h₁
      rw [wp_bind]
      apply wp_mono (parseredirs_complete hends hr h₁ (by omega) (ha.not_sees hrest rfl))
      rintro rs₁ s₂ ⟨rfl, h₂⟩
      rw [List.length_append] at hn
      rw [wp_bind]
      apply wp_mono (parseargs_complete hends ha h₂ (by omega) (by omega) hrest)
      rintro ⟨ws₁, rs₂⟩ s₃ ⟨heq, h₃⟩
      obtain ⟨rfl, rfl⟩ := Prod.mk.inj heq
      exact ⟨rfl, h₃⟩

end Complete

/-- The words of a command, in the order in which they are terminated. -/
def Cmd.words : Cmd → List Word
  | .exec args => args
  | .redir cmd r => cmd.words ++ [r.file]
  | .pipe left right => left.words ++ right.words
  | .list left right => left.words ++ right.words
  | .back cmd => cmd.words

def terminate (ws : List Word) (buf : List Byte) : List Byte :=
  ws.foldl (fun buf w => buf.set w.eq 0) buf

def text (buf : List Byte) (w : Word) : List Byte := (buf.drop w.q).take (w.eq-w.q)

def cstring (buf : List Byte) (q : ℕ) : List Byte := (buf.drop q).takeWhile (· ≠ 0)

theorem nulterminate_eq (c : Cmd) (buf : List Byte) : nulterminate c buf = terminate c.words buf := by
  induction c generalizing buf with
  | exec args => rfl
  | redir cmd r ih =>
    rw [nulterminate, ih, Cmd.words, terminate, terminate, List.foldl_append]
    rfl
  | pipe left right ihl ihr =>
    rw [nulterminate, ihl, ihr, Cmd.words, terminate, terminate, terminate, List.foldl_append]
  | list left right ihl ihr =>
    rw [nulterminate, ihl, ihr, Cmd.words, terminate, terminate, terminate, List.foldl_append]
  | back cmd ih => exact ih buf

theorem char_terminate (ws : List Word) (buf : List Byte) (i : ℕ) :
    char (terminate ws buf) i = if i ∈ ws.map Word.eq then 0 else char buf i := by
  induction ws generalizing buf with
  | nil => rfl
  | cons w ws ih =>
    have hset : char (buf.set w.eq 0) i = if i = w.eq then 0 else char buf i := by
      simp only [char, List.getD_eq_getElem?_getD, List.getElem?_set]
      by_cases hi : w.eq = i
      · subst hi
        simp only [if_true]
        split_ifs <;> rfl
      · rw [if_neg hi, if_neg (Ne.symm hi)]
    rw [terminate, List.foldl_cons, ← terminate, ih, hset]
    simp only [List.map_cons, List.mem_cons]
    by_cases hws : i ∈ ws.map Word.eq
    · rw [if_pos hws, if_pos (Or.inr hws)]
    · simp only [hws, or_false, if_false]

theorem length_terminate (ws : List Word) (buf : List Byte) :
    (terminate ws buf).length = buf.length := by
  induction ws generalizing buf with
  | nil => rfl
  | cons w ws ih =>
    rw [terminate, List.foldl_cons, ← terminate, ih, List.length_set]

theorem getElem?_eq_char (buf : List Byte) (i : ℕ) :
    buf[i]? = if i < buf.length then some (char buf i) else none := by
  split_ifs with hi
  · rw [char, List.getD_eq_getElem?_getD, List.getElem?_eq_getElem hi, Option.getD_some]
  · exact List.getElem?_eq_none (Nat.le_of_not_lt hi)

theorem cstring_eq {q n : ℕ} (hne : ∀ i, q ≤ i → i < q+n → char buf i ≠ 0)
    (hz : char buf (q+n) = 0) : cstring buf q = (buf.drop q).take n := by
  induction n generalizing q with
  | zero =>
    rw [cstring, List.take_zero]
    cases hd : buf.drop q with
    | nil => rfl
    | cons c cs =>
      have hc : char buf q = c := by
        have := congrArg List.head? hd
        rw [List.head?_drop, List.head?_cons] at this
        rw [char, List.getD_eq_getElem?_getD, this, Option.getD_some]
      rw [Nat.add_zero, hc] at hz
      rw [hz]
      rfl
  | succ n ih =>
    have hq := hne q (Nat.le_refl _) (by omega)
    have hlt : q < buf.length := by
      by_contra hge
      rw [char, List.getD_eq_default _ _ (Nat.le_of_not_lt hge)] at hq
      exact hq rfl
    have hc : buf[q] ≠ 0 := by
      rwa [char, List.getD_eq_getElem _ _ hlt] at hq
    have hrest := ih (q := q+1) (fun i h1 h2 => hne i (by omega) (by omega))
      (by rw [show q+1+n = q+(n+1) by omega]; exact hz)
    rw [cstring, List.drop_eq_getElem_cons hlt, List.takeWhile_cons, if_pos (decide_eq_true hc),
      List.take_succ_cons, ← hrest]
    rfl

/-- A word token: its characters, and what is behind it. -/
structure IsWord (buf : List Byte) (es : ℕ) (w : Word) : Prop where
  lt : w.q < w.eq
  le : w.eq ≤ es
  chars : ∀ i, w.q ≤ i → i < w.eq → wordChar (char buf i) = true
  last : w.eq = es ∨ wordChar (char buf w.eq) = false

theorem Lexes.isWord {w : Word} (h : Lexes buf es s ts) (hw : .word w ∈ ts) : IsWord buf es w := by
  induction h with
  | done => simp at hw
  | space hs hc h ih => exact ih hw
  | symbol hs hc hgt h ih =>
    rcases List.mem_cons.mp hw with rfl | hw
    · have := (token_ofChar hc).2.1
      simp [Tok.first] at this
    · exact ih hw
  | append hs hc hc' h ih =>
    rcases List.mem_cons.mp hw with hw | hw
    · exact absurd hw (by simp)
    · exact ih hw
  | word hs he hc hend h ih =>
    rcases List.mem_cons.mp hw with hw | hw
    · rw [Tok.word.inj hw]
      exact ⟨hs, he, hc, hend⟩
    · exact ih hw

theorem cstring_terminate (hends : Ends buf es) {ws : List Word} (hws : ∀ w ∈ ws, IsWord buf es w)
    {w : Word} (hw : w ∈ ws) : cstring (terminate ws buf) w.q = text buf w := by
  have hword := hws w hw
  have hkeep : ∀ i, w.q ≤ i → i < w.eq → char (terminate ws buf) i = char buf i := by
    intro i h1 h2
    rw [char_terminate, if_neg]
    intro hi
    obtain ⟨v, hv, rfl⟩ := List.mem_map.mp hi
    have hc := hword.chars v.eq h1 h2
    rcases (hws v hv).last with hlast | hlast
    · have := hword.le
      omega
    · rw [hc] at hlast
      exact absurd hlast.symm Bool.false_ne_true
  have hq : w.q+(w.eq-w.q) = w.eq := by
    have := hword.lt
    omega
  have hlast : char (terminate ws buf) w.eq = 0 := by
    rw [char_terminate, if_pos (List.mem_map_of_mem hw)]
  rw [cstring_eq (n := w.eq-w.q) (fun i h1 h2 => ?_) (by rw [hq]; exact hlast)]
  · apply List.ext_getElem?
    intro i
    rw [text, List.getElem?_take, List.getElem?_take, List.getElem?_drop, List.getElem?_drop]
    split_ifs with hi
    · rw [getElem?_eq_char, getElem?_eq_char, length_terminate, hkeep _ (by omega) (by omega)]
    · rfl
  · rw [hkeep i h1 (by omega)]
    exact hends.nonzero i (by have := hword.le; omega)

theorem words_wrap (c : Cmd) (rs : List Redir) : (c.wrap rs).words = c.words ++ rs.map Redir.file := by
  induction rs generalizing c with
  | nil => simp [Cmd.wrap]
  | cons r rs ih =>
    rw [Cmd.wrap, List.foldl_cons, ← Cmd.wrap, ih, Cmd.words, List.map_cons, List.append_assoc]
    rfl

theorem words_back (c : Cmd) (k : ℕ) : (Cmd.back^[k] c).words = c.words := by
  induction k generalizing c with
  | zero => rfl
  | succ k ih =>
    rw [Function.iterate_succ_apply, ih]
    rfl

theorem Redirs.words {rs : List Redir} (h : Redirs ts rs) : ∀ w ∈ rs.map Redir.file, .word w ∈ ts := by
  induction h with
  | nil => simp
  | @cons t w r ts rs hr h ih =>
    have hfile : r.file = w := by
      cases t <;> first
        | exact (Option.some.inj hr) ▸ rfl
        | exact absurd hr.symm (Option.some_ne_none _)
    intro v hv
    rw [List.map_cons, hfile] at hv
    rcases List.mem_cons.mp hv with rfl | hv
    · simp
    · have := ih v hv
      simp [this]

theorem Args.words {ws : List Word} {rs : List Redir} (h : Args ts ws rs) :
    ∀ w ∈ ws ++ rs.map Redir.file, .word w ∈ ts := by
  induction h with
  | nil => simp
  | cons hr h ih =>
    intro v hv
    have hr := hr.words v
    have ih := ih v
    simp only [List.cons_append, List.map_append, List.mem_cons, List.mem_append] at hv hr ih ⊢
    rcases hv with rfl | hv | hv | hv
    · exact Or.inl rfl
    · exact Or.inr (Or.inr (ih (Or.inl hv)))
    · exact Or.inr (Or.inl (hr hv))
    · exact Or.inr (Or.inr (ih (Or.inr hv)))

theorem Derives.words {x : Sym} {c : Cmd} (h : Derives x ts c) : ∀ w ∈ c.words, .word w ∈ ts := by
  induction h with
  | line k h ih =>
    intro w hw
    rw [words_back] at hw
    exact List.mem_append_left _ (ih w hw)
  | list k h h' ih ih' =>
    intro w hw
    rw [Cmd.words, words_back, List.mem_append] at hw
    rcases hw with hw | hw
    · exact List.mem_append_left _ (ih w hw)
    · have := ih' w hw
      simp [this]
  | last h ih => exact ih
  | pipe h h' ih ih' =>
    intro w hw
    rw [Cmd.words, List.mem_append] at hw
    rcases hw with hw | hw
    · exact List.mem_append_left _ (ih w hw)
    · have := ih' w hw
      simp [this]
  | block h hr ih =>
    intro w hw
    rw [words_wrap, List.mem_append] at hw
    rcases hw with hw | hw
    · have := ih w hw
      simp [this]
    · have := hr.words w hw
      simp [this]
  | exec hr ha hmax =>
    intro w hw
    rw [words_wrap, List.map_append, Cmd.words] at hw
    have h1 := hr.words w
    have h2 := ha.words w
    simp only [List.mem_append] at hw h2 ⊢
    tauto

theorem ends_strlen (hz : 0 ∈ buf) : Ends buf (strlen buf) := by
  induction buf with
  | nil => simp at hz
  | cons c buf ih =>
    by_cases hc : c = 0
    · subst hc
      refine ⟨fun i hi => ?_, rfl⟩
      have hlen : strlen (0 :: buf) = 0 := rfl
      omega
    · have hlen : strlen (c :: buf) = strlen buf+1 := by
        rw [strlen, List.takeWhile_cons, if_pos (decide_eq_true hc)]
        rfl
      have hih := ih ((List.mem_cons.mp hz).resolve_left (Ne.symm hc))
      rw [hlen]
      refine ⟨fun i hi => ?_, hih.zero⟩
      cases i with
      | zero => exact hc
      | succ i => exact hih.nonzero i (by omega)

theorem parsecmd_of_error {e : Stop} (hp : parseline buf (strlen buf) (4*strlen buf+4) 0 = .error e) :
    parsecmd buf = .error e := by
  rw [parsecmd, hp]
  rfl

theorem parsecmd_of_ok {c : Cmd} (hp : parseline buf (strlen buf) (4*strlen buf+4) 0 = .ok (c, s)) :
    parsecmd buf = if skip buf (strlen buf) (strchr whitespace) s ≠ strlen buf then
        .error (.leftovers ((buf.take (strlen buf)).drop (skip buf (strlen buf) (strchr whitespace) s)))
      else .ok (c, nulterminate c buf) := by
  rw [parsecmd, hp]
  rfl

theorem Lexes.at_end_iff (h : Lexes buf es s ts) :
    skip buf es (strchr whitespace) s = es ↔ ts = [] := by
  have hr := h.ready.1
  generalize skip buf es (strchr whitespace) s = p at hr ⊢
  cases hr with
  | done hs => simp [hs]
  | symbol hs hc hgt h => simp [Nat.ne_of_lt hs]
  | append hs hc hc' h =>
    simp only [reduceCtorEq, iff_false]
    omega
  | word hs he hc hskip h =>
    simp only [reduceCtorEq, iff_false]
    omega

theorem parsecmd_sound (hends : Ends buf (strlen buf)) (hts : Lexes buf (strlen buf) 0 ts) :
    parsecmd buf ≠ .error .rounds ∧ ∀ c out, parsecmd buf = .ok (c, out) →
      Derives .line ts c ∧ out = nulterminate c buf := by
  have hlen : need .line ts.length ≤ 4*strlen buf+4 := by
    have := hts.length_le
    simp only [need]
    omega
  have hline := (parse_sound hends _).line 0 ts hts hlen
  cases hp : parseline buf (strlen buf) (4*strlen buf+4) 0 with
  | error e =>
    rw [parsecmd_of_error hp]
    refine ⟨fun he => ?_, fun c out he => ?_⟩
    · exact wp_error hline hp (Except.error.inj he)
    · cases he
  | ok r =>
    obtain ⟨c, s⟩ := r
    obtain ⟨pre, rest, rfl, hd, hs⟩ := wp_ok hline hp
    rw [parsecmd_of_ok hp]
    split_ifs with hend
    · refine ⟨fun he => ?_, fun c out he => ?_⟩ <;> cases he
    · refine ⟨fun he => (by cases he), fun c' out he => ?_⟩
      obtain ⟨rfl, rfl⟩ := Prod.mk.inj (Except.ok.inj he)
      rw [hs.at_end_iff.mp (not_not.mp hend), List.append_nil]
      exact ⟨hd, rfl⟩

theorem parsecmd_complete (hends : Ends buf (strlen buf)) (hts : Lexes buf (strlen buf) 0 ts)
    {c : Cmd} (hd : Derives .line ts c) : parsecmd buf = .ok (c, nulterminate c buf) := by
  have hlen : need .line (ts ++ []).length ≤ 4*strlen buf+4 := by
    have := hts.length_le
    simp only [need, List.append_nil]
    omega
  have hline := parse_complete hends hd [] (by rwa [List.append_nil]) hlen (Or.inl rfl)
  obtain ⟨d, s, hp, rfl, hs⟩ := wp_total hline
  have hp : parseline buf (strlen buf) (4*strlen buf+4) 0 = .ok (d, s) := hp
  rw [parsecmd_of_ok hp, if_neg (not_not.mpr (hs.at_end_iff.mpr rfl))]

/-- Every line has one sequence of tokens, and `parsecmd` ends: it returns a command if and only
if the grammar derives the tokens, with the tree of the derivation, and every word of the command
is then a string of its own in the line. -/
theorem parsecmd_grammar (buf : List Byte) (hz : 0 ∈ buf) :
    ∃ ts, Lexes buf (strlen buf) 0 ts ∧ (∀ ts', Lexes buf (strlen buf) 0 ts' → ts' = ts) ∧
      (∀ c, (∃ out, parsecmd buf = .ok (c, out)) ↔ Derives .line ts c) ∧
      (∀ c out, parsecmd buf = .ok (c, out) →
        ∀ w ∈ c.words, .word w ∈ ts ∧ cstring out w.q = text buf w) ∧
      parsecmd buf ≠ .error .rounds := by
  have hends := ends_strlen hz
  obtain ⟨ts, hts⟩ := exists_lexes buf hends (Nat.zero_le _)
  have hsound := parsecmd_sound hends hts
  refine ⟨ts, hts, fun ts' h => h.unique hends hts, fun c => ⟨?_, ?_⟩, ?_, hsound.1⟩
  · rintro ⟨out, hp⟩
    exact (hsound.2 c out hp).1
  · intro hd
    exact ⟨_, parsecmd_complete hends hts hd⟩
  · intro c out hp w hw
    obtain ⟨hd, rfl⟩ := hsound.2 c out hp
    rw [nulterminate_eq]
    exact ⟨hd.words w hw,
      cstring_terminate hends (fun v hv => hts.isWord (hd.words v hv)) hw⟩

/-- a>b -/
theorem parsecmd_grammar_redir :
    parsecmd [97, 62, 98, 0] = .ok (.redir (.exec [⟨0, 1⟩]) ⟨⟨2, 3⟩, 0x201, 1⟩, [97, 0, 98, 0]) ∧
      ∃ ts, Lexes [97, 62, 98, 0] 3 0 ts ∧
        Derives .line ts (.redir (.exec [⟨0, 1⟩]) ⟨⟨2, 3⟩, 0x201, 1⟩) := by
  have hp : parsecmd [97, 62, 98, 0] =
      .ok (.redir (.exec [⟨0, 1⟩]) ⟨⟨2, 3⟩, 0x201, 1⟩, [97, 0, 98, 0]) := by
    decide +kernel
  obtain ⟨ts, hts, -, hiff, -⟩ := parsecmd_grammar [97, 62, 98, 0] (by decide)
  exact ⟨hp, ts, hts, (hiff _).mp ⟨_, hp⟩⟩

end ProvenXv6.Shell
