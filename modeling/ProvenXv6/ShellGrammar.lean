import Mathlib.Logic.Function.Iterate
import ProvenXv6.ShellTokens

namespace ProvenXv6.Shell
open WeakestPre

/-- redir ::= ('<' | '>' | '>>') word -/
def Tok.redir : Tok → Word → Option Redir
  | .lt, w => some ⟨w, O_RDONLY, 0⟩
  | .gt, w => some ⟨w, O_WRONLY ||| O_CREATE, 1⟩
  | .append, w => some ⟨w, O_WRONLY ||| O_CREATE, 1⟩
  | _, _ => none

/-- redir* -/
inductive Redirs : List Tok → List Redir → Prop
  | nil : Redirs [] []
  | cons {t w r ts rs} (hr : Tok.redir t w = some r) (h : Redirs ts rs) :
      Redirs (t :: .word w :: ts) (r :: rs)

/-- (word redir*)* -/
inductive Args : List Tok → List Word → List Redir → Prop
  | nil : Args [] [] []
  | cons {w ts rs us ws rs'} (hr : Redirs ts rs) (h : Args us ws rs') :
      Args (.word w :: (ts ++ us)) (w :: ws) (rs ++ rs')

inductive Sym
  | line
  | pipe
  | exec

/-- line ::= pipe '&'* [';' line]
pipe ::= exec ['|' pipe]
exec ::= '(' line ')' redir* | redir* (word redir*)*

with the tree of each derivation. -/
inductive Derives : Sym → List Tok → Cmd → Prop
  | line {ts c} (k : ℕ) (h : Derives .pipe ts c) :
      Derives .line (ts ++ List.replicate k .amp) (Cmd.back^[k] c)
  | list {ts c us d} (k : ℕ) (h : Derives .pipe ts c) (h' : Derives .line us d) :
      Derives .line (ts ++ (List.replicate k .amp ++ .semi :: us)) (.list (Cmd.back^[k] c) d)
  | last {ts c} (h : Derives .exec ts c) : Derives .pipe ts c
  | pipe {ts c us d} (h : Derives .exec ts c) (h' : Derives .pipe us d) :
      Derives .pipe (ts ++ .bar :: us) (.pipe c d)
  | block {ts c us rs} (h : Derives .line ts c) (hr : Redirs us rs) :
      Derives .exec (.lpar :: (ts ++ .rpar :: us)) (c.wrap rs)
  | exec {ts rs us ws rs'} (hr : Redirs ts rs) (ha : Args us ws rs') (hmax : ws.length < MAXARGS) :
      Derives .exec (ts ++ us) ((Cmd.exec ws).wrap (rs ++ rs'))

/-- Rounds enough for a number of tokens. -/
def need : Sym → ℕ → ℕ
  | .line, k => 4*k+4
  | .pipe, k => 4*k+3
  | .exec, k => 4*k+2

variable {buf : List Byte} {es s n : ℕ} {ts pre rest : List Tok} {t : Tok} {F : Stop → Prop}

theorem eq_of_first {u : Tok} (h : u.first = t.first) (hn : t.first ≠ none)
    (hc : t.first ≠ some 62) : u = t := by
  cases t <;> cases u <;> simp_all [Tok.first]

theorem exists_of_sees {toks : List Byte} (h : sees toks ts = true) :
    ∃ t rest c, ts = t :: rest ∧ t.first = some c ∧ c ∈ toks := by
  cases ts with
  | nil => exact absurd h Bool.false_ne_true
  | cons t rest =>
    rw [sees] at h
    cases hc : t.first with
    | none =>
      rw [hc] at h
      exact absurd h Bool.false_ne_true
    | some c =>
      rw [hc, Option.any_some, strchr, List.contains_iff_mem] at h
      exact ⟨t, rest, c, rfl, hc, h⟩

theorem sees_single {c : Byte} (ht : t.first = some c) (hc : c ≠ 62) (h : sees [c] ts = true) :
    ∃ rest, ts = t :: rest := by
  obtain ⟨u, rest, a, rfl, hu, ha⟩ := exists_of_sees h
  rw [List.mem_singleton] at ha
  have hut : u = t := by
    apply eq_of_first
    · rw [hu, ht, ha]
    · rw [ht]
      exact Option.some_ne_none _
    · rw [ht]
      exact fun h => hc (Option.some.inj h)
  exact ⟨rest, by rw [hut]⟩

theorem sees_redir (h : sees [60, 62] ts = true) :
    ∃ t rest, ts = t :: rest ∧ ∀ w, ∃ r, t.redir w = some r ∧ redirFor t.code w = [r] := by
  cases ts with
  | nil => exact absurd h Bool.false_ne_true
  | cons t rest =>
    refine ⟨t, rest, rfl, ?_⟩
    cases t <;> first
      | exact fun w => ⟨_, rfl, rfl⟩
      | exact absurd h Bool.false_ne_true

theorem code_eq_word (h : headCode ts = 97) : ∃ w rest, ts = .word w :: rest := by
  cases ts with
  | nil => exact absurd h (by decide)
  | cons t rest =>
    have hcode : t.code = (Tok.word ⟨0, 0⟩).code := h
    rcases eq_of_code_eq hcode with rfl | ⟨w, -, rfl, -⟩
    · exact ⟨_, rest, rfl⟩
    · exact ⟨w, rest, rfl⟩

theorem headCode_eq_zero (h : headCode ts = 0) : ts = [] := by
  cases ts with
  | nil => rfl
  | cons t rest => exact absurd h (code_ne_zero t)

section Rules
variable (hends : Ends buf es) {α : Type} {Q : α → ℕ → Prop}
include hends

theorem wp_peek {toks : List Byte} (htoks : toks.all (strchr symbols) = true)
    (h : Lexes buf es s ts) {A B : Parse α}
    (hA : sees toks ts = true → ∀ s', Lexes buf es s' ts → wp F A Q s')
    (hB : sees toks ts = false → ∀ s', Lexes buf es s' ts → wp F B Q s') :
    wp F (peek buf es toks >>= fun b => if b = true then A else B) Q s := by
  rw [wp_bind]
  apply wp_mono (peek_spec hends htoks h)
  rintro b s' ⟨rfl, h'⟩
  split_ifs with hs
  · exact hA hs s' h'
  · exact hB (Bool.eq_false_iff.mpr hs) s' h'

theorem wp_gettoken (h : Lexes buf es s ts) {f : Byte × Word → Parse α}
    (hf : ∀ w s', Lexes buf es s' ts.tail → (∀ w' rest, ts = .word w' :: rest → w = w') →
      wp F (f (headCode ts, w)) Q s') : wp F (gettoken buf es >>= f) Q s := by
  rw [wp_bind]
  apply wp_mono (gettoken_spec hends h)
  rintro ⟨c, w⟩ s' ⟨rfl, h', hw⟩
  exact hf w s' h' hw

end Rules

/-- The tokens ts are taken up to a rest, and those taken satisfy D. -/
def Takes (buf : List Byte) (es : ℕ) (ts : List Tok) (D : List Tok → Prop) (s : ℕ) : Prop :=
  ∃ pre rest, ts = pre ++ rest ∧ D pre ∧ Lexes buf es s rest

theorem panic_ne_rounds (m : String) : Stop.panic m ≠ Stop.rounds := fun h => Stop.noConfusion h

section Sound
variable (hends : Ends buf es)
include hends

theorem parseredirs_sound (h : Lexes buf es s ts) (hn : ts.length < n) :
    wp (· ≠ .rounds) (parseredirs buf es n) (fun rs => Takes buf es ts (Redirs · rs)) s := by
  induction n generalizing s ts with
  | zero => omega
  | succ n ih =>
    apply wp_peek hends rfl h
    · intro hsees s₁ h₁
      obtain ⟨t, us, rfl, hredir⟩ := sees_redir hsees
      apply wp_gettoken hends h₁
      intro _ s₂ h₂ _
      apply wp_gettoken hends h₂
      intro w s₃ h₃ hw
      show wp _ (if headCode us ≠ 97 then _ else _) _ _
      split_ifs with hc
      · exact panic_ne_rounds _
      · obtain ⟨w', rest, rfl⟩ := code_eq_word (not_not.mp hc)
        obtain rfl := hw w' rest rfl
        obtain ⟨r, hr, hfor⟩ := hredir w
        rw [wp_bind]
        simp only [List.length_cons] at hn
        apply wp_mono (ih h₃ (by simp only [List.tail_cons]; omega))
        rintro rs s₄ ⟨pre, rest', hpre, hrs, h₄⟩
        have hpre : rest = pre ++ rest' := hpre
        refine ⟨t :: .word w :: pre, rest', ?_, ?_, h₄⟩
        · rw [hpre]
          rfl
        · show Redirs _ (redirFor t.code w ++ rs)
          rw [hfor]
          exact .cons hr hrs
    · intro _ s₁ h₁
      exact ⟨[], ts, rfl, .nil, h₁⟩

theorem parseargs_sound {argc : ℕ} (h : Lexes buf es s ts) (hn : ts.length < n)
    (hargc : argc < MAXARGS) :
    wp (· ≠ .rounds) (parseargs buf es n argc) (fun r => Takes buf es ts fun pre =>
      Args pre r.1 r.2 ∧ argc+r.1.length < MAXARGS) s := by
  induction n generalizing s ts argc with
  | zero => omega
  | succ n ih =>
    apply wp_peek hends rfl h
    · intro _ s₁ h₁
      exact ⟨[], ts, rfl, ⟨.nil, hargc⟩, h₁⟩
    · intro _ s₁ h₁
      apply wp_gettoken hends h₁
      intro w s₂ h₂ hw
      show wp _ (if headCode ts = 0 then _ else if headCode ts ≠ 97 then _ else _) _ _
      split_ifs with h0 hc hmax
      · obtain rfl := headCode_eq_zero h0
        exact ⟨[], [], rfl, ⟨.nil, hargc⟩, h₂⟩
      · exact panic_ne_rounds _
      · exact panic_ne_rounds _
      · obtain ⟨w', us, rfl⟩ := code_eq_word (not_not.mp hc)
        obtain rfl := hw w' us rfl
        rw [List.length_cons] at hn
        rw [wp_bind]
        apply wp_mono (parseredirs_sound hends h₂ (by rw [List.tail_cons]; omega))
        rintro rs s₃ ⟨pre, rest, hpre, hrs, h₃⟩
        rw [List.tail_cons] at hpre
        subst hpre
        rw [List.length_append] at hn
        rw [wp_bind]
        apply wp_mono (ih h₃ (by omega) (Nat.lt_of_not_le hmax))
        rintro ⟨ws, rs'⟩ s₄ ⟨pre', rest', rfl, ⟨hargs, hlen⟩, h₄⟩
        refine ⟨.word w :: (pre ++ pre'), rest', by simp, ⟨.cons hrs hargs, ?_⟩, h₄⟩
        simp only [List.length_cons] at hlen ⊢
        omega

theorem parseback_sound {c : Cmd} (h : Lexes buf es s ts) (hn : ts.length < n) :
    wp (· ≠ .rounds) (parseback buf es n c) (fun d => Takes buf es ts fun pre =>
      ∃ k, pre = List.replicate k .amp ∧ d = Cmd.back^[k] c) s := by
  induction n generalizing s ts c with
  | zero => omega
  | succ n ih =>
    apply wp_peek hends rfl h
    · intro hsees s₁ h₁
      obtain ⟨us, rfl⟩ := sees_single (t := .amp) rfl (by decide) hsees
      apply wp_gettoken hends h₁
      intro _ s₂ h₂ _
      rw [List.length_cons] at hn
      apply wp_mono (ih h₂ (by rw [List.tail_cons]; omega))
      rintro d s₃ ⟨pre, rest, hpre, ⟨k, rfl, rfl⟩, h₃⟩
      rw [List.tail_cons] at hpre
      exact ⟨List.replicate (k+1) .amp, rest, by rw [hpre]; rfl, ⟨k+1, rfl, rfl⟩, h₃⟩
    · intro _ s₁ h₁
      exact ⟨[], ts, rfl, ⟨0, rfl, rfl⟩, h₁⟩

/-- The functions that call each other. -/
structure Sound (buf : List Byte) (es n : ℕ) : Prop where
  line : ∀ s ts, Lexes buf es s ts → need .line ts.length ≤ n →
    wp (· ≠ .rounds) (parseline buf es n) (fun c => Takes buf es ts (Derives .line · c)) s
  pipe : ∀ s ts, Lexes buf es s ts → need .pipe ts.length ≤ n →
    wp (· ≠ .rounds) (parsepipe buf es n) (fun c => Takes buf es ts (Derives .pipe · c)) s
  exec : ∀ s ts, Lexes buf es s ts → need .exec ts.length ≤ n →
    wp (· ≠ .rounds) (parseexec buf es n) (fun c => Takes buf es ts (Derives .exec · c)) s
  block : ∀ s ts, Lexes buf es s (.lpar :: ts) → need .line ts.length+1 ≤ n →
    wp (· ≠ .rounds) (parseblock buf es n) (fun c => Takes buf es (.lpar :: ts) (Derives .exec · c)) s

variable (ih : Sound buf es n)
include ih

theorem parseline_sound (h : Lexes buf es s ts) (hn : need .line ts.length ≤ n+1) :
    wp (· ≠ .rounds) (parseline buf es (n+1)) (fun c => Takes buf es ts (Derives .line · c)) s := by
  simp only [need] at hn
  rw [parseline, wp_bind]
  apply wp_mono (ih.pipe s ts h (by simp only [need]; omega))
  rintro c s₁ ⟨pre, us, rfl, hc, h₁⟩
  rw [List.length_append] at hn
  rw [wp_bind]
  apply wp_mono (parseback_sound hends h₁ (by omega))
  rintro d s₂ ⟨-, vs, rfl, ⟨k, rfl, rfl⟩, h₂⟩
  rw [List.length_append] at hn
  apply wp_peek hends rfl h₂
  · intro hsees s₃ h₃
    obtain ⟨xs, rfl⟩ := sees_single (t := .semi) rfl (by decide) hsees
    apply wp_gettoken hends h₃
    intro _ s₄ h₄ _
    show wp _ (parseline buf es n >>= _) _ _
    rw [List.length_cons] at hn
    rw [wp_bind]
    apply wp_mono (ih.line s₄ xs h₄ (by simp only [need]; omega))
    rintro e s₅ ⟨pre', rest, rfl, he, h₅⟩
    exact ⟨_, rest, by simp, .list k hc he, h₅⟩
  · intro _ s₃ h₃
    exact ⟨_, vs, by simp, .line k hc, h₃⟩

theorem parsepipe_sound (h : Lexes buf es s ts) (hn : need .pipe ts.length ≤ n+1) :
    wp (· ≠ .rounds) (parsepipe buf es (n+1)) (fun c => Takes buf es ts (Derives .pipe · c)) s := by
  simp only [need] at hn
  rw [parsepipe, wp_bind]
  apply wp_mono (ih.exec s ts h (by simp only [need]; omega))
  rintro c s₁ ⟨pre, us, rfl, hc, h₁⟩
  rw [List.length_append] at hn
  apply wp_peek hends rfl h₁
  · intro hsees s₂ h₂
    obtain ⟨xs, rfl⟩ := sees_single (t := .bar) rfl (by decide) hsees
    apply wp_gettoken hends h₂
    intro _ s₃ h₃ _
    show wp _ (parsepipe buf es n >>= _) _ _
    rw [List.length_cons] at hn
    rw [wp_bind]
    apply wp_mono (ih.pipe s₃ xs h₃ (by simp only [need]; omega))
    rintro d s₄ ⟨pre', rest, rfl, hd, h₄⟩
    exact ⟨_, rest, by simp, .pipe hc hd, h₄⟩
  · intro _ s₂ h₂
    exact ⟨pre, us, rfl, .last hc, h₂⟩

theorem parseexec_sound (h : Lexes buf es s ts) (hn : need .exec ts.length ≤ n+1) :
    wp (· ≠ .rounds) (parseexec buf es (n+1)) (fun c => Takes buf es ts (Derives .exec · c)) s := by
  simp only [need] at hn
  apply wp_peek hends rfl h
  · intro hsees s₁ h₁
    obtain ⟨xs, rfl⟩ := sees_single (t := .lpar) rfl (by decide) hsees
    rw [List.length_cons] at hn
    exact ih.block s₁ xs h₁ (by simp only [need]; omega)
  · intro _ s₁ h₁
    rw [wp_bind]
    apply wp_mono (parseredirs_sound hends h₁ (by omega))
    rintro rs s₂ ⟨pre, us, rfl, hrs, h₂⟩
    rw [List.length_append] at hn
    rw [wp_bind]
    apply wp_mono (parseargs_sound hends h₂ (by omega) (by decide))
    rintro ⟨ws, rs'⟩ s₃ ⟨pre', rest, rfl, ⟨hargs, hlen⟩, h₃⟩
    rw [Nat.zero_add] at hlen
    exact ⟨pre ++ pre', rest, by simp, .exec hrs hargs hlen, h₃⟩

theorem parseblock_sound (h : Lexes buf es s (.lpar :: ts)) (hn : need .line ts.length+1 ≤ n+1) :
    wp (· ≠ .rounds) (parseblock buf es (n+1))
      (fun c => Takes buf es (.lpar :: ts) (Derives .exec · c)) s := by
  apply wp_peek hends rfl h
  · intro _ s₁ h₁
    apply wp_gettoken hends h₁
    intro _ s₂ h₂ _
    show wp _ (parseline buf es n >>= _) _ _
    rw [wp_bind]
    apply wp_mono (ih.line s₂ ts h₂ (by omega))
    rintro c s₃ ⟨pre, us, rfl, hc, h₃⟩
    simp only [need, List.length_append] at hn
    apply wp_peek hends rfl h₃
    · intro hsees s₄ h₄
      obtain ⟨xs, rfl⟩ := sees_single (t := .rpar) rfl (by decide) hsees
      apply wp_gettoken hends h₄
      intro _ s₅ h₅ _
      show wp _ (parseredirs buf es n >>= _) _ _
      rw [List.length_cons] at hn
      rw [wp_bind]
      apply wp_mono (parseredirs_sound hends h₅ (by rw [List.tail_cons]; omega))
      rintro rs s₆ ⟨pre', rest, hpre, hrs, h₆⟩
      rw [List.tail_cons] at hpre
      exact ⟨_, rest, by rw [hpre]; simp, .block hc hrs, h₆⟩
    · intro _ s₄ h₄
      exact panic_ne_rounds _
  · intro _ s₁ h₁
    exact panic_ne_rounds _

omit ih in
theorem parse_sound (n : ℕ) : Sound buf es n := by
  induction n with
  | zero =>
    refine ⟨fun s ts h hn => ?_, fun s ts h hn => ?_, fun s ts h hn => ?_, fun s ts h hn => ?_⟩ <;>
      · simp only [need] at hn
        omega
  | succ n ih =>
    exact ⟨fun s ts h hn => parseline_sound hends ih h hn, fun s ts h hn => parsepipe_sound hends ih h hn,
      fun s ts h hn => parseexec_sound hends ih h hn, fun s ts h hn => parseblock_sound hends ih h hn⟩

end Sound

end ProvenXv6.Shell
