import ProvenXv6.PagingInput

namespace ProvenXv6.Paging
open Stdio

/-- The numbers that one `scanf` after the other reads, each with what is left behind it; the list
ends where nothing more is taken from the text. -/
def numbersLoop (conv : Conv) : ℕ → List Byte → List (ℤ × List Byte)
  | 0, _ => []
  | n+1, s =>
    match (scanInt conv s).1 with
    | some v => (v, (scanInt conv s).2) :: numbersLoop conv n (scanInt conv s).2
    | none => if (scanInt conv s).2.length < s.length then numbersLoop conv n (scanInt conv s).2 else []

def numbers (conv : Conv) (s : List Byte) : List (ℤ × List Byte) := numbersLoop conv (s.length+1) s

section
variable {conv : Conv} {s t : List Byte}

theorem numbersLoop_eq {n : ℕ} (hn : s.length < n) : numbersLoop conv n s = numbers conv s := by
  suffices h : ∀ n m, s.length < n → s.length < m → numbersLoop conv n s = numbersLoop conv m s from
    h n _ hn (Nat.lt_succ_self _)
  intro n m hn hm
  induction n generalizing m s with
  | zero => omega
  | succ n ih =>
    obtain ⟨m, rfl⟩ : ∃ k, m = k+1 := ⟨m-1, by omega⟩
    rw [numbersLoop, numbersLoop]
    cases hv : (scanInt conv s).1 with
    | some v =>
      have hlt := scanInt_lt hv
      exact congrArg _ (ih (by omega) m (by omega) (by omega))
    | none =>
      dsimp only
      split_ifs with hlt
      · exact ih (by omega) m (by omega) (by omega)
      · rfl

theorem numbers_of_some {v : ℤ} (h : (scanInt conv s).1 = some v) :
    numbers conv s = (v, (scanInt conv s).2) :: numbers conv (scanInt conv s).2 := by
  rw [numbers, numbersLoop, h]
  exact congrArg _ (numbersLoop_eq (scanInt_lt h))

theorem numbers_of_none (h : (scanInt conv s).1 = none) (hlt : (scanInt conv s).2.length < s.length) :
    numbers conv s = numbers conv (scanInt conv s).2 := by
  rw [numbers, numbersLoop, h]
  exact (if_pos hlt).trans (numbersLoop_eq hlt)

theorem numbers_of_stuck (h : (scanInt conv s).1 = none) (hlt : ¬(scanInt conv s).2.length < s.length) :
    numbers conv s = [] := by
  rw [numbers, numbersLoop, h]
  exact if_neg hlt

theorem scanInt_stuck (hlt : ¬(scanInt conv s).2.length < s.length) : (scanInt conv s).2 = s :=
  (scanInt_suffix conv s).eq_of_length_le (by omega)

def firstMethod (conv : Conv) (s : List Byte) : Option (ℤ × List Byte) :=
  (numbers conv s).find? fun r => isMethod r.1

theorem firstMethod_of_some {v : ℤ} (h : (scanInt conv s).1 = some v) : firstMethod conv s =
    if isMethod v then some (v, (scanInt conv s).2) else firstMethod conv (scanInt conv s).2 := by
  rw [firstMethod, numbers_of_some h, List.find?_cons]
  cases isMethod v <;> rfl

theorem firstMethod_of_none (h : (scanInt conv s).1 = none) :
    firstMethod conv s = firstMethod conv (scanInt conv s).2 := by
  by_cases hlt : (scanInt conv s).2.length < s.length
  · rw [firstMethod, numbers_of_none h hlt, firstMethod]
  · rw [scanInt_stuck hlt]

theorem asked_of_firstMethod {x y : ℤ} (hx : isMethod x = false) (h : firstMethod conv s = some (y, t)) :
    Asked (scanInt conv) isMethod x s y t := by
  induction hn : s.length using Nat.strong_induction_on generalizing s x with
  | _ n ih =>
    subst hn
    cases hv : (scanInt conv s).1 with
    | some v =>
      rw [firstMethod_of_some hv] at h
      have hgetD : (scanInt conv s).1.getD x = v := by rw [hv]; rfl
      split_ifs at h with hm
      · obtain ⟨rfl, rfl⟩ := Prod.mk.inj (Option.some.inj h)
        have hlast : Asked (scanInt conv) isMethod x s _ _ := .last (by rw [hgetD]; exact hm)
        rwa [hgetD] at hlast
      · have hm := Bool.eq_false_iff.mpr hm
        refine .again (by rw [hgetD]; exact hm) ?_
        rw [hgetD]
        exact ih _ (scanInt_lt hv) hm h rfl
    | none =>
      have hgetD : (scanInt conv s).1.getD x = x := by rw [hv]; rfl
      by_cases hlt : (scanInt conv s).2.length < s.length
      · refine .again (by rw [hgetD]; exact hx) ?_
        rw [hgetD]
        exact ih _ hlt hx (firstMethod_of_none hv ▸ h) rfl
      · rw [firstMethod, numbers_of_stuck hv hlt] at h
        cases h

theorem asked_method_iff {x y : ℤ} (hx : isMethod x = false) :
    Asked (scanInt conv) isMethod x s y t ↔ firstMethod conv s = some (y, t) := by
  refine ⟨fun h => ?_, asked_of_firstMethod hx⟩
  induction h with
  | @last x s h =>
    cases hv : (scanInt conv s).1 with
    | some v =>
      rw [hv, Option.getD_some] at h
      rw [firstMethod_of_some hv, if_pos h, Option.getD_some]
    | none =>
      rw [hv] at h
      exact absurd (hx.symm.trans h) Bool.false_ne_true
  | @again x y s t h _ ih =>
    have hnext := ih h
    cases hv : (scanInt conv s).1 with
    | some v =>
      rw [hv, Option.getD_some] at h
      rw [firstMethod_of_some hv, if_neg (fun hm => Bool.false_ne_true (h.symm.trans hm)), hnext]
    | none => rw [firstMethod_of_none hv, hnext]

/-- How the loop ends from any first value: it stays if nothing is read. -/
theorem exists_asked_method_iff (i : ℤ) (P : ℤ → List Byte → Prop) :
    (∃ y t, Asked (scanInt conv) isMethod i s y t ∧ P y t) ↔
      if isMethod i ∧ (scanInt conv s).1 = none then P i (scanInt conv s).2
      else ∃ y t, firstMethod conv s = some (y, t) ∧ P y t := by
  split_ifs with hi
  · have hgetD : (scanInt conv s).1.getD i = i := by rw [hi.2]; rfl
    constructor
    · rintro ⟨y, t, h, hp⟩
      cases h with
      | last h => rwa [hgetD] at hp
      | again h hnext =>
        rw [hgetD, hi.1] at h
        cases h
    · intro hp
      refine ⟨_, _, .last (by rw [hgetD]; exact hi.1), ?_⟩
      rwa [hgetD]
  · have hiff (y : ℤ) (t : List Byte) : Asked (scanInt conv) isMethod i s y t ↔ firstMethod conv s = some (y, t) := by
      cases hv : (scanInt conv s).1 with
      | some v =>
        have h0 : isMethod 0 = false := rfl
        exact ⟨fun h => (asked_method_iff h0).mp (h.of_read hv), fun h => ((asked_method_iff h0).mpr h).of_read hv⟩
      | none =>
        refine asked_method_iff ?_
        rw [Bool.eq_false_iff]
        exact fun hm => hi ⟨hm, hv⟩
    simp only [hiff]

end

/-- What is left is white space only, or there is an answer in it. -/
def Answered (s : List Byte) : Prop := (∀ c ∈ s, isspace c = true) ∨ ∃ c ∈ s, isAnswer c = true

/-- The answer at a prompt where c is the one before. -/
def answer (c : Byte) (s : List Byte) : Byte := (s.find? isAnswer).getD c

/-- The text behind the first answer. -/
def afterAnswer (s : List Byte) : List Byte := (s.dropWhile fun c => !isAnswer c).tail

section
variable {s t pre : List Byte} {c x y : Byte}

theorem isAnswer_of_isspace (h : isspace c = true) : isAnswer c = false := by
  simp only [isspace, isAnswer, decide_eq_true_eq, decide_eq_false_iff_not] at h ⊢
  omega

theorem find?_answer_append (h : ∀ x ∈ pre, isAnswer x = false) :
    (pre ++ s).find? isAnswer = s.find? isAnswer := by
  have hnone : pre.find? isAnswer = none := by
    rw [List.find?_eq_none]
    intro x hx
    rw [h x hx]
    exact Bool.false_ne_true
  rw [List.find?_append, hnone, Option.none_or]

theorem afterAnswer_append (h : ∀ x ∈ pre, isAnswer x = false) : afterAnswer (pre ++ s) = afterAnswer s := by
  have hdrop : (pre ++ s).dropWhile (fun c => !isAnswer c) = s.dropWhile fun c => !isAnswer c :=
    List.dropWhile_append_of_pos fun x hx => by rw [h x hx]; rfl
  rw [afterAnswer, hdrop, afterAnswer]

theorem afterAnswer_cons (h : isAnswer c = true) : afterAnswer (c :: s) = s := by
  rw [afterAnswer, List.dropWhile_cons_of_neg (by rw [h]; exact Bool.false_ne_true), List.tail_cons]

theorem afterAnswer_of_none (h : ∀ x ∈ s, isAnswer x = false) : afterAnswer s = [] := by
  have happ := afterAnswer_append (s := []) h
  rwa [List.append_nil] at happ

/-- The loop ends at the first answer, or at the end of a text without anything to read. -/
theorem asked_char_iff : Asked scanChar isAnswer x s y t ↔
    s.find? isAnswer = some y ∧ t = afterAnswer s ∨
      (∀ c ∈ s, isspace c = true) ∧ isAnswer x = true ∧ y = x ∧ t = [] := by
  induction hn : s.length using Nat.strong_induction_on generalizing s x with
  | _ n ih =>
    subst hn
    rcases scanChar_cases s with ⟨hs, hscan⟩ | ⟨pre, c, rest, rfl, hpre, hc, hscan⟩
    · -- nothing to read: x stays
      have hnot : ∀ c ∈ s, isAnswer c = false := fun c hc => isAnswer_of_isspace (hs c hc)
      have hfind : s.find? isAnswer = none := by
        have happ := find?_answer_append (s := []) hnot
        rwa [List.append_nil] at happ
      rw [asked_of_stuck_iff hscan rfl, hfind]
      constructor
      · exact fun h => Or.inr ⟨hs, h⟩
      · rintro (⟨h, -⟩ | h)
        · cases h
        · exact h.2
    · have hnot : ∀ c ∈ pre, isAnswer c = false := fun c hc => isAnswer_of_isspace (hpre c hc)
      have hspace : ¬∀ d ∈ pre ++ c :: rest, isspace d = true := fun h =>
        Bool.false_ne_true (hc.symm.trans (h c (by simp)))
      rw [asked_of_read_iff hscan, find?_answer_append hnot, afterAnswer_append hnot,
        or_iff_left (fun h => hspace h.1), List.find?_cons]
      cases hans : isAnswer c with
      | true =>
        rw [if_pos rfl, afterAnswer_cons hans, Option.some_inj, eq_comm]
      | false =>
        have hskip : afterAnswer (c :: rest) = afterAnswer rest :=
          show afterAnswer ([c] ++ rest) = _ from afterAnswer_append (by simpa using hans)
        rw [if_neg Bool.false_ne_true, hskip, ih rest.length (by simp; omega) rfl,
          or_iff_left (fun h => Bool.false_ne_true (hans.symm.trans h.2.1))]

theorem exists_asked_char_iff (hx : isAnswer x = true) (P : Byte → List Byte → Prop) :
    (∃ y t, Asked scanChar isAnswer x s y t ∧ P y t) ↔ Answered s ∧ P (answer x s) (afterAnswer s) := by
  simp only [asked_char_iff]
  cases hfind : s.find? isAnswer with
  | some y =>
    have hy : y ∈ s ∧ isAnswer y = true := ⟨List.mem_of_find?_eq_some hfind, List.find?_some hfind⟩
    have hspace : ¬∀ c ∈ s, isspace c = true := fun h =>
      Bool.false_ne_true ((isAnswer_of_isspace (h y hy.1)).symm.trans hy.2)
    have hans : Answered s := Or.inr ⟨y, hy⟩
    have hy' : answer x s = y := by rw [answer, hfind, Option.getD_some]
    simp only [hspace, false_and, or_false, Option.some_inj, hans, true_and, hy']
    constructor
    · rintro ⟨_, _, ⟨rfl, rfl⟩, hp⟩
      exact hp
    · exact fun hp => ⟨y, _, ⟨rfl, rfl⟩, hp⟩
  | none =>
    have hnot : ∀ c ∈ s, isAnswer c = false := fun c hc => by
      simpa using List.find?_eq_none.mp hfind c hc
    have hans : Answered s ↔ ∀ c ∈ s, isspace c = true :=
      or_iff_left fun ⟨c, hc, h⟩ => Bool.false_ne_true ((hnot c hc).symm.trans h)
    have hy' : answer x s = x := by rw [answer, hfind, Option.getD_none]
    rw [hans, hy', afterAnswer_of_none hnot]
    constructor
    · rintro ⟨_, _, ⟨h, -⟩ | ⟨hs, -, rfl, rfl⟩, hp⟩
      · cases h
      · exact ⟨hs, hp⟩
    · exact fun ⟨hs, hp⟩ => ⟨x, [], Or.inr ⟨hs, hx, rfl, rfl⟩, hp⟩

theorem isAnswer_answer (hx : isAnswer x = true) : isAnswer (answer x s) = true := by
  unfold answer
  cases hfind : s.find? isAnswer with
  | some y => exact List.find?_some hfind
  | none => exact hx

end

/-- From the question about output.txt on; c is 'y' before it. -/
def SaveEnds (opens : Bool) (s : List Byte) : Prop :=
  Answered s ∧ ((isYes (answer 121 s) = true → opens = true) → Answered (afterAnswer s))

/-- From the choice of the method on, which is i. -/
def MethodEnds (conv : Conv) (opens : Bool) (i : ℤ) (s : List Byte) : Prop :=
  if i = 2 then SaveEnds opens s
  else 500 ≤ (scanInt conv s).1.getD 0 → SaveEnds opens (scanInt conv s).2

/-- The texts at which the prompts end: behind the line and pf_num the method can be read (or i,
which is not initialized, is one and nothing is read), and both questions are answered. -/
def PromptsEnd (conv : Conv) (opens : Bool) (old : List Byte) (i : ℤ) (stdin : List Byte) : Prop :=
  ∀ algorithm, chooseAlgorithms conv (readLine old stdin).1 = .ok algorithm →
    3 ≤ (scanInt conv (readLine old stdin).2).1.getD 0 → (scanInt conv (readLine old stdin).2).1.getD 0 ≤ 10 →
      let s := (scanInt conv (readLine old stdin).2).2
      if isMethod i ∧ (scanInt conv s).1 = none then MethodEnds conv opens i (scanInt conv s).2
      else ∃ y t, firstMethod conv s = some (y, t) ∧ MethodEnds conv opens y t

section
variable {conv : Conv} {opens : Bool} {s : List Byte}

theorem exists_askExit_iff (o : Options) {c : Byte} (hc : isAnswer c = true) :
    (∃ rounds, (askExit rounds o c s).isSome) ↔ Answered s := by
  have h := exists_asked_char_iff (s := s) hc fun _ _ => True
  simp only [and_true] at h
  rw [← h]
  simp only [askExit, Option.isSome_map, ← exists_ask_iff, Option.isSome_iff_exists, Prod.exists]
  exact ⟨fun ⟨n, y, t, h⟩ => ⟨y, t, n, h⟩, fun ⟨y, t, n, h⟩ => ⟨n, y, t, h⟩⟩

theorem askExit_mono {n m : ℕ} {o : Options} {c : Byte} (hnm : n ≤ m) (h : (askExit n o c s).isSome) :
    (askExit m o c s).isSome := by
  rw [askExit, Option.isSome_map] at h ⊢
  obtain ⟨r, hr⟩ := Option.isSome_iff_exists.mp h
  rw [ask_mono hr hnm]
  rfl

/-- The rest of the prompts behind the question about output.txt. -/
def afterSave (opens : Bool) (o : Options) (rounds : ℕ) (r : Byte × List Byte) : Option (Except Stop Options) :=
  if isYes r.1 ∧ ¬opens then some (.error (.exit 1)) else askExit rounds { o with save := isYes r.1 } r.1 r.2

theorem askSave_eq (rounds : ℕ) (opens : Bool) (o : Options) (s : List Byte) :
    askSave rounds opens o s = (ask scanChar isAnswer rounds 121 s).bind (afterSave opens o rounds) := rfl

theorem afterSave_mono (o : Options) (n m : ℕ) (r : Byte × List Byte) (hnm : n ≤ m)
    (h : (afterSave opens o n r).isSome) : (afterSave opens o m r).isSome := by
  unfold afterSave at h ⊢
  split_ifs at h ⊢
  · rfl
  · exact askExit_mono hnm h

theorem exists_askSave_iff (o : Options) :
    (∃ rounds, (askSave rounds opens o s).isSome) ↔ SaveEnds opens s := by
  have h121 : isAnswer 121 = true := rfl
  simp only [askSave_eq]
  rw [exists_ask_bind_iff (afterSave_mono o), exists_asked_char_iff h121, SaveEnds]
  refine and_congr_right fun _ => ?_
  have hc := isAnswer_answer (s := s) h121
  simp only [afterSave]
  by_cases hyes : isYes (answer 121 s) = true ∧ ¬opens = true
  · simp only [if_pos hyes]
    exact ⟨fun _ h => absurd (h hyes.1) hyes.2, fun _ => ⟨0, rfl⟩⟩
  · simp only [if_neg hyes, exists_askExit_iff _ hc]
    have himp : isYes (answer 121 s) = true → opens = true := fun hy => not_not.mp fun ho => hyes ⟨hy, ho⟩
    exact ⟨fun h _ => h, fun h => h himp⟩

theorem askSave_mono (o : Options) {n m : ℕ} (hnm : n ≤ m) (h : (askSave n opens o s).isSome) :
    (askSave m opens o s).isSome := by
  rw [askSave_eq] at h ⊢
  exact ask_bind_mono (afterSave_mono o) hnm h

/-- The rest of the prompts behind the choice of the method. -/
def afterMethod (conv : Conv) (opens : Bool) (o : Options) (rounds : ℕ) (r : ℤ × List Byte) :
    Option (Except Stop Options) :=
  if r.1 = 2 then askSave rounds opens { o with rd := false } r.2
  else
    let refNum := (scanInt conv r.2).1.getD o.refNum
    if refNum < 500 then some (.error (.exit 0))
    else askSave rounds opens { o with rd := true, refNum := refNum } (scanInt conv r.2).2

theorem askMethod_eq (conv : Conv) (rounds : ℕ) (opens : Bool) (o : Options) (i : ℤ) (s : List Byte) :
    askMethod conv rounds opens o i s =
      (ask (scanInt conv) isMethod rounds i s).bind (afterMethod conv opens o rounds) := rfl

theorem afterMethod_mono (o : Options) (n m : ℕ) (r : ℤ × List Byte) (hnm : n ≤ m)
    (h : (afterMethod conv opens o n r).isSome) : (afterMethod conv opens o m r).isSome := by
  simp only [afterMethod] at h ⊢
  split_ifs at h ⊢
  · exact askSave_mono _ hnm h
  · rfl
  · exact askSave_mono _ hnm h

theorem exists_afterMethod_iff {o : Options} (ho : o.refNum = 0) (i : ℤ) :
    (∃ rounds, (afterMethod conv opens o rounds (i, s)).isSome) ↔ MethodEnds conv opens i s := by
  simp only [afterMethod, MethodEnds, ho]
  by_cases hi : i = 2
  · simp only [if_pos hi, exists_askSave_iff]
  · by_cases hnum : (scanInt conv s).1.getD 0 < 500
    · simp only [if_neg hi, if_pos hnum]
      exact ⟨fun _ h => absurd hnum (not_lt.mpr h), fun _ => ⟨0, rfl⟩⟩
    · simp only [if_neg hi, if_neg hnum, exists_askSave_iff]
      exact ⟨fun h _ => h, fun h => h (not_lt.mp hnum)⟩

theorem exists_askMethod_iff {o : Options} (ho : o.refNum = 0) (i : ℤ) :
    (∃ rounds, (askMethod conv rounds opens o i s).isSome) ↔
      if isMethod i ∧ (scanInt conv s).1 = none then MethodEnds conv opens i (scanInt conv s).2
      else ∃ y t, firstMethod conv s = some (y, t) ∧ MethodEnds conv opens y t := by
  simp only [askMethod_eq]
  rw [exists_ask_bind_iff (afterMethod_mono o)]
  simp only [exists_afterMethod_iff ho]
  exact exists_asked_method_iff i _

end

/-- The prompts end after finitely many rounds if and only if the text has what they ask for. -/
theorem prompting_ends_iff (conv : Conv) (opens : Bool) (old : List Byte) (i : ℤ) (stdin : List Byte) :
    (∃ rounds, (chooseOption conv rounds opens old i stdin).isSome) ↔ PromptsEnd conv opens old i stdin := by
  simp only [chooseOption, PromptsEnd]
  cases hline : chooseAlgorithms conv (readLine old stdin).1 with
  | error e =>
    refine ⟨fun _ a h => ?_, fun _ => ⟨0, rfl⟩⟩
    cases h
  | ok algorithm =>
    dsimp only
    by_cases hpf : (scanInt conv (readLine old stdin).2).1.getD 0 < 3 ∨
        (scanInt conv (readLine old stdin).2).1.getD 0 > 10
    · simp only [if_pos hpf]
      exact ⟨fun _ _ _ h3 h10 => by omega, fun _ => ⟨0, rfl⟩⟩
    · simp only [if_neg hpf]
      rw [exists_askMethod_iff rfl]
      exact ⟨fun h _ _ _ _ => h, fun h => h algorithm rfl (by omega) (by omega)⟩

/-- The lines 1 and 3, then 5x: the x is met in every round. -/
theorem letter_prompts_forever :
    ¬∃ i rounds, (chooseOption Conv.trunc rounds true [] i [49, 10, 51, 10, 53, 120]).isSome := by
  rintro ⟨i, hends⟩
  obtain ⟨algorithm, hask⟩ : ∃ algorithm, ∀ rounds,
      chooseOption Conv.trunc rounds true [] i [49, 10, 51, 10, 53, 120] =
        askMethod Conv.trunc rounds true ⟨algorithm, 3, true, 0, true⟩ i [10, 53, 120] := ⟨_, fun _ => rfl⟩
  have hfive : (scanInt Conv.trunc [10, 53, 120]).1 = some 5 := rfl
  have hnone : firstMethod Conv.trunc [10, 53, 120] = none := rfl
  simp only [hask] at hends
  rw [exists_askMethod_iff rfl, hfive, hnone, if_neg (fun h => Option.some_ne_none _ h.2)] at hends
  obtain ⟨y, t, h, -⟩ := hends
  cases h

end ProvenXv6.Paging
