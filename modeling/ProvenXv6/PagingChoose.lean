import Mathlib.Data.List.GetD
import ProvenXv6.PagingInput

namespace ProvenXv6.Paging
open Stdio

/-- The tokens of a string, with a bound on their number. -/
def wordsLoop : ℕ → List Byte → List (List Byte)
  | 0, _ => []
  | n+1, s =>
    match strtok 32 s with
    | none => []
    | some (word, rest) => word :: wordsLoop n rest

def words (s : List Byte) : List (List Byte) := wordsLoop (s.length+1) s

theorem tokenizeLoop_eq (n : ℕ) (s : List Byte) {argv : List (List Byte)} (hargv : argv.length ≤ 4) :
    tokenizeLoop n s argv =
      if argv.length+(wordsLoop n s).length ≤ 4 then .ok (argv ++ wordsLoop n s)
      else .error (.outside .argv 4) := by
  induction n generalizing s argv with
  | zero => rw [tokenizeLoop, wordsLoop, List.append_nil, List.length_nil, Nat.add_zero, if_pos hargv]
  | succ n ih =>
    rw [tokenizeLoop, wordsLoop]
    cases strtok 32 s with
    | none => rw [List.append_nil, List.length_nil, Nat.add_zero, if_pos hargv]
    | some r =>
      obtain ⟨word, rest⟩ := r
      dsimp only
      rw [List.length_cons]
      by_cases hlt : argv.length < 4
      · have hlen : (argv ++ [word]).length = argv.length+1 := by simp
        rw [if_pos hlt, ih rest (by omega), hlen, List.append_assoc, List.singleton_append, Nat.add_assoc,
          Nat.add_comm 1]
      · rw [if_neg hlt, if_neg (by omega), show argv.length = 4 by omega]

theorem tokenize_eq (s : List Byte) : tokenize s =
    if (words s).length ≤ 4 then .ok (words s) else .error (.outside .argv 4) := by
  have hnil : ([] : List (List Byte)).length ≤ 4 := Nat.zero_le 4
  have h := tokenizeLoop_eq (s.length+1) s hnil
  rwa [List.length_nil, Nat.zero_add, List.nil_append] at h

/-- algorithm with the numbers vs in its first cells. -/
def cells3 (vs : List ℤ) : Fin 3 → ℤ := fun j => vs.getD j 0

theorem storeAlgorithm_cells3 {vs : List ℤ} (h : vs.length < 3) (v : ℤ) :
    storeAlgorithm (cells3 vs) vs.length v = .ok (cells3 (vs ++ [v])) := by
  rw [storeAlgorithm, dif_pos h]
  congr 1
  funext j
  unfold cells3
  by_cases hj : j = ⟨vs.length, h⟩
  · rw [hj, Function.update_self, List.getD_append_right _ _ _ _ le_rfl, Nat.sub_self]
    rfl
  · rw [Function.update_of_ne hj]
    rcases Nat.lt_or_ge j.val vs.length with hlt | hge
    · rw [List.getD_append _ _ _ _ hlt]
    · have hgt : vs.length < j.val := lt_of_le_of_ne hge fun he => hj (Fin.ext he.symm)
      rw [List.getD_eq_default _ _ hge, List.getD_eq_default _ _ (by rw [List.length_append, List.length_singleton]; exact hgt)]

/-- The numbers of the tokens: each token starts with a number from 1 to 8. -/
def Numbered (conv : Conv) (args : List (List Byte)) (vs : List ℤ) : Prop :=
  args.map (fun a => (scanInt conv a).1) = vs.map some ∧ ∀ v ∈ vs, 1 ≤ v ∧ v ≤ 8

theorem parseArgs_cases (conv : Conv) (args : List (List Byte)) (pre : List ℤ) (h : pre.length+args.length ≤ 3) :
    (∃ vs, Numbered conv args vs ∧ parseArgs conv pre.length args (cells3 pre) = .ok (cells3 (pre ++ vs))) ∨
      (¬∃ vs, Numbered conv args vs) ∧ ∃ status, parseArgs conv pre.length args (cells3 pre) = .error (.exit status) := by
  induction args generalizing pre with
  | nil => exact Or.inl ⟨[], ⟨rfl, fun v hv => absurd hv List.not_mem_nil⟩, by rw [List.append_nil]; rfl⟩
  | cons a args ih =>
    rw [List.length_cons] at h
    cases ha : (scanInt conv a).1 with
    | none =>
      refine Or.inr ⟨?_, 1, by simp only [parseArgs, ha]⟩
      rintro ⟨vs, hvs, -⟩
      cases vs with
      | nil => cases hvs
      | cons v vs =>
        rw [List.map_cons, ha] at hvs
        cases (List.cons.inj hvs).1
    | some v =>
      have hstep : parseArgs conv pre.length (a :: args) (cells3 pre) =
          if v < 1 ∨ v > 8 then .error (.exit 0)
          else parseArgs conv (pre ++ [v]).length args (cells3 (pre ++ [v])) := by
        rw [List.length_append, List.length_singleton]
        simp only [parseArgs, ha, storeAlgorithm_cells3 (show pre.length < 3 by omega) v]
        rfl
      rw [hstep]
      by_cases hv : v < 1 ∨ v > 8
      · rw [if_pos hv]
        refine Or.inr ⟨?_, 0, rfl⟩
        rintro ⟨vs, hvs, hall⟩
        cases vs with
        | nil => cases hvs
        | cons w vs =>
          rw [List.map_cons, ha] at hvs
          obtain rfl := Option.some.inj (List.cons.inj hvs).1
          have := hall v List.mem_cons_self
          omega
      · rw [if_neg hv]
        have hlen : (pre ++ [v]).length+args.length ≤ 3 := by
          rw [List.length_append, List.length_singleton]
          omega
        rcases ih _ hlen with ⟨vs, ⟨hvs, hall⟩, hok⟩ | ⟨hno, hstop⟩
        · refine Or.inl ⟨v :: vs, ⟨by rw [List.map_cons, ha, hvs]; rfl, ?_⟩, ?_⟩
          · exact List.forall_mem_cons.mpr ⟨by omega, hall⟩
          · rw [hok, List.append_assoc, List.singleton_append]
        · refine Or.inr ⟨?_, hstop⟩
          rintro ⟨vs, hvs, hall⟩
          cases vs with
          | nil => cases hvs
          | cons w vs =>
            rw [List.map_cons] at hvs
            exact hno ⟨vs, (List.cons.inj hvs).2, fun x hx => hall x (List.mem_cons_of_mem _ hx)⟩

/-- The numbers are those of single simulators, or it is 8 for all of them. -/
def Chosen (vs : List ℤ) : Prop := vs = [8] ∨ vs ≠ [] ∧ 8 ∉ vs

theorem readAlgorithm_cells3 (vs : List ℤ) {i : ℕ} (h : i < 3) :
    readAlgorithm (cells3 vs) i = .ok 8 ↔ vs.getD i 0 = 8 := by
  rw [readAlgorithm, dif_pos h, Except.ok.injEq]
  rfl

theorem refuseAll_cases (vs : List ℤ) (h : vs.length = 1 ∨ vs.length = 2 ∨ vs.length = 3) :
    Chosen vs ∧ refuseAll vs.length (cells3 vs) = .ok (cells3 vs) ∨
      ¬Chosen vs ∧ refuseAll vs.length (cells3 vs) = .error (.exit 0) := by
  have h0 := readAlgorithm_cells3 vs (show 0 < 3 by omega)
  have h1 := readAlgorithm_cells3 vs (show 1 < 3 by omega)
  have h2 := readAlgorithm_cells3 vs (show 2 < 3 by omega)
  simp only [Chosen, refuseAll, h0, h1, h2]
  rcases h with h | h | h
  · obtain ⟨a, rfl⟩ := List.length_eq_one_iff.mp h
    left
    refine ⟨?_, rfl⟩
    by_cases ha : a = 8
    · exact Or.inl (by rw [ha])
    · exact Or.inr ⟨List.cons_ne_nil _ _, fun h8 => ha (List.mem_singleton.mp h8).symm⟩
  · obtain ⟨a, b, rfl⟩ := List.length_eq_two.mp h
    by_cases h8 : a = 8 ∨ b = 8
    · right
      refine ⟨?_, if_pos ⟨rfl, h8⟩⟩
      rintro (hone | ⟨-, hno⟩)
      · cases hone
      · rcases h8 with rfl | rfl <;> exact hno (by simp)
    · left
      refine ⟨Or.inr ⟨List.cons_ne_nil _ _, fun hm => ?_⟩, ?_⟩
      · simp only [List.mem_cons, List.not_mem_nil, or_false] at hm
        exact h8 (hm.imp Eq.symm Eq.symm)
      · exact (if_neg fun hc => h8 hc.2).trans (if_neg fun hc => absurd hc.1 (show ¬2 = 3 by decide))
  · obtain ⟨a, b, c, rfl⟩ := List.length_eq_three.mp h
    by_cases h8 : a = 8 ∨ b = 8 ∨ c = 8
    · right
      refine ⟨?_, (if_neg fun hc => absurd hc.1 (show ¬3 = 2 by decide)).trans (if_pos ⟨rfl, h8⟩)⟩
      rintro (hone | ⟨-, hno⟩)
      · cases hone
      · rcases h8 with rfl | rfl | rfl <;> exact hno (by simp)
    · left
      refine ⟨Or.inr ⟨List.cons_ne_nil _ _, fun hm => ?_⟩, ?_⟩
      · simp only [List.mem_cons, List.not_mem_nil, or_false] at hm
        exact h8 (hm.imp Eq.symm (Or.imp Eq.symm Eq.symm))
      · exact (if_neg fun hc => absurd hc.1 (show ¬3 = 2 by decide)).trans (if_neg fun hc => h8 hc.2)

theorem Numbered.length {conv : Conv} {args : List (List Byte)} {vs : List ℤ} (h : Numbered conv args vs) :
    vs.length = args.length := by
  have := congrArg List.length h.1
  rw [List.length_map, List.length_map] at this
  exact this.symm

theorem Numbered.unique {conv : Conv} {args : List (List Byte)} {vs ws : List ℤ} (h : Numbered conv args vs)
    (h' : Numbered conv args ws) : vs = ws :=
  List.map_injective_iff.mpr (Option.some_injective ℤ) (h.1.symm.trans h'.1)

theorem chooseAlgorithms_cases (conv : Conv) (input : List Byte) :
    4 ≤ (words input.dropLast).length ∧ chooseAlgorithms conv input = .error (.outside .argv 4) ∨
    (¬∃ vs, Numbered conv (words input.dropLast) vs ∧ Chosen vs) ∧ (words input.dropLast).length < 4 ∧
      (∃ status, chooseAlgorithms conv input = .error (.exit status)) ∨
    (words input.dropLast).length < 4 ∧ ∃ vs, Numbered conv (words input.dropLast) vs ∧ Chosen vs ∧
      chooseAlgorithms conv input = .ok (cells3 vs) := by
  unfold chooseAlgorithms
  rw [tokenize_eq]
  generalize words input.dropLast = args
  by_cases h4 : 4 ≤ args.length
  · refine Or.inl ⟨h4, ?_⟩
    by_cases hle : args.length ≤ 4
    · rw [if_pos hle]
      show acceptArgs conv args = _
      rw [acceptArgs, if_pos (by omega), show args.length = 4 by omega]
    · rw [if_neg hle]
      rfl
  · right
    rw [if_pos (by omega)]
    show _ ∧ _ ∧ (∃ status, acceptArgs conv args = .error (.exit status)) ∨
      _ ∧ ∃ vs, _ ∧ _ ∧ acceptArgs conv args = .ok (cells3 vs)
    simp only [acceptArgs, not_lt, if_neg h4]
    by_cases h0 : args.length = 0
    · rw [if_pos h0]
      refine Or.inl ⟨?_, by omega, 0, rfl⟩
      rintro ⟨vs, hvs, hch⟩
      have hnil : vs = [] := List.length_eq_zero_iff.mp (hvs.length.trans h0)
      subst hnil
      rcases hch with hch | hch
      · cases hch
      · exact hch.1 rfl
    · rw [if_neg h0, if_neg (by omega)]
      have hzero : (fun _ => 0 : Fin 3 → ℤ) = cells3 [] := rfl
      rcases parseArgs_cases conv args [] (by rw [List.length_nil]; omega) with
        ⟨vs, hvs, hok⟩ | ⟨hno, status, hstop⟩
      · rw [hzero, show parseArgs conv 0 args (cells3 []) = .ok (cells3 vs) from hok, ← hvs.length]
        show _ ∧ _ ∧ (∃ status, refuseAll vs.length (cells3 vs) = .error (.exit status)) ∨
          _ ∧ ∃ ws, _ ∧ _ ∧ refuseAll vs.length (cells3 vs) = .ok (cells3 ws)
        have hlen := hvs.length
        rcases refuseAll_cases vs (by omega) with ⟨hch, hr⟩ | ⟨hch, hr⟩
        · exact Or.inr ⟨by omega, vs, hvs, hch, hr⟩
        · refine Or.inl ⟨?_, by omega, 0, hr⟩
          rintro ⟨ws, hws, hch'⟩
          exact hch (hvs.unique hws ▸ hch')
      · rw [hzero, show parseArgs conv 0 args (cells3 []) = .error (.exit status) from hstop]
        exact Or.inl ⟨fun ⟨vs, hvs, _⟩ => hno ⟨vs, hvs⟩, by omega, status, rfl⟩

section
variable {vs : List ℤ}

theorem simulateLoop_succ {i : ℕ} (h : i < 3) (n : ℕ) : simulateLoop (cells3 vs) (n+1) i =
    if vs.getD i 0 = 0 then .ok []
    else (simulateLoop (cells3 vs) n (i+1)).map ((Simulator.ofNumber (vs.getD i 0)).toList ++ ·) := by
  rw [simulateLoop, readAlgorithm, dif_pos h]
  show (if vs.getD i 0 = 0 then _ else _) = _
  cases simulateLoop (cells3 vs) n (i+1) <;> rfl

theorem simulateLoop_short (h : vs.length < 3) (hne : 0 ∉ vs) {n i : ℕ} (hi : i ≤ vs.length)
    (hn : vs.length < n+i) :
    simulateLoop (cells3 vs) n i = .ok ((vs.drop i).filterMap Simulator.ofNumber) := by
  induction n generalizing i with
  | zero => omega
  | succ n ih =>
    rw [simulateLoop_succ (by omega)]
    rcases Nat.lt_or_ge i vs.length with hlt | hge
    · have hget : vs.getD i 0 = vs[i] := List.getD_eq_getElem _ _ hlt
      have hnz : vs[i] ≠ 0 := fun h0 => hne (h0 ▸ List.getElem_mem hlt)
      rw [hget, if_neg hnz, ih hlt (by omega), List.drop_eq_getElem_cons hlt, List.filterMap_cons]
      cases hsim : Simulator.ofNumber vs[i] <;> rfl
    · rw [List.getD_eq_default _ _ hge, if_pos rfl, List.drop_eq_nil_of_le hge]
      rfl

theorem simulateLoop_three (h : vs.length = 3) (hne : 0 ∉ vs) {n i : ℕ} (hi : i ≤ 3) (hn : 3 < n+i) :
    simulateLoop (cells3 vs) n i = .error (.outside .algorithm 3) := by
  induction n generalizing i with
  | zero => omega
  | succ n ih =>
    rcases Nat.lt_or_ge i 3 with hlt | hge
    · have hlt' : i < vs.length := by omega
      have hget : vs.getD i 0 = vs[i] := List.getD_eq_getElem _ _ hlt'
      have hnz : vs[i] ≠ 0 := fun h0 => hne (h0 ▸ List.getElem_mem hlt')
      rw [simulateLoop_succ hlt, hget, if_neg hnz, ih hlt (by omega)]
      rfl
    · rw [simulateLoop, readAlgorithm, dif_neg (by omega), show i = 3 by omega]
      rfl

end

theorem readAlgorithm_ne {vs : List ℤ} (hpos : 0 < vs.length) (h8 : 8 ∉ vs) :
    readAlgorithm (cells3 vs) 0 ≠ .ok 8 := by
  rw [Ne, readAlgorithm_cells3 vs (by omega), List.getD_eq_getElem _ _ hpos]
  exact fun he => h8 (he ▸ List.getElem_mem hpos)

/-- What the menu promises for a line: no access outside argv and algorithm, and if it is accepted the
simulators that run are those numbered on it, in order, or all for a single 8. -/
def Selects (conv : Conv) (input : List Byte) : Prop :=
  (∀ table i, chooseAlgorithms conv input ≠ .error (.outside table i)) ∧
  ∀ algorithm, chooseAlgorithms conv input = .ok algorithm →
    ∃ vs, Numbered conv (words input.dropLast) vs ∧ Chosen vs ∧
      simulate algorithm = .ok (if vs = [8] then Simulator.all else vs.filterMap Simulator.ofNumber)

/-- It holds exactly for the lines with less than four tokens that do not have three tokens with
numbers of single simulators. -/
theorem selects_iff (conv : Conv) (old stdin : List Byte) :
    Selects conv (readLine old stdin).1 ↔
      (words (readLine old stdin).1.dropLast).length < 4 ∧
      ¬((words (readLine old stdin).1.dropLast).length = 3 ∧
        ∃ vs, Numbered conv (words (readLine old stdin).1.dropLast) vs ∧ 8 ∉ vs) := by
  generalize (readLine old stdin).1 = input
  rcases chooseAlgorithms_cases conv input with ⟨h4, hc⟩ | ⟨hno, h4, status, hc⟩ | ⟨h4, vs, hvs, hch, hc⟩
  · refine ⟨fun h => absurd hc (h.1 _ _), fun h => absurd h.1 (by omega)⟩
  · refine ⟨fun _ => ⟨h4, ?_⟩, fun _ => ⟨fun table i he => ?_, fun algorithm he => ?_⟩⟩
    · rintro ⟨h3, vs, hvs, h8⟩
      refine hno ⟨vs, hvs, Or.inr ⟨?_, h8⟩⟩
      rw [← List.length_pos_iff, hvs.length]
      omega
    · rw [hc] at he
      cases he
    · rw [hc] at he
      cases he
  · have h0 : 0 ∉ vs := fun hm => absurd (hvs.2 0 hm).1 (by decide)
    have hlen := hvs.length
    constructor
    · intro h
      obtain ⟨ws, hws, -, hsim⟩ := h.2 _ hc
      refine ⟨h4, fun ⟨h3, us, hus, h8⟩ => ?_⟩
      obtain rfl := hvs.unique hus
      rw [simulate, if_neg (readAlgorithm_ne (by omega) h8), simulateLoop_three (by omega) h0 (by omega) (by omega)] at hsim
      cases hsim
    · rintro ⟨-, hthree⟩
      refine ⟨fun table i he => ?_, fun algorithm he => ?_⟩
      · rw [hc] at he
        cases he
      · rw [hc] at he
        obtain rfl := Except.ok.inj he
        refine ⟨vs, hvs, hch, ?_⟩
        rcases hch with rfl | ⟨hnil, h8⟩
        · rfl
        · have hshort : vs.length < 3 := by
            by_contra hge
            exact hthree ⟨by omega, vs, hvs, h8⟩
          have hpos : 0 < vs.length := List.length_pos_iff.mpr hnil
          rw [simulate, if_neg (readAlgorithm_ne hpos h8), simulateLoop_short hshort h0 (by omega) (by omega), List.drop_zero,
            if_neg fun he : vs = [8] => h8 (he ▸ List.mem_singleton_self 8)]

/-- The lines "1 2 3" and "1 2 3 4". -/
theorem three_numbers_leave_algorithm :
    (∃ algorithm, chooseAlgorithms Conv.trunc (readLine [] [49, 32, 50, 32, 51, 10]).1 = .ok algorithm ∧
      simulate algorithm = .error (.outside .algorithm 3)) ∧
    chooseAlgorithms Conv.trunc (readLine [] [49, 32, 50, 32, 51, 32, 52, 10]).1 = .error (.outside .argv 4) :=
  ⟨⟨_, rfl, rfl⟩, rfl⟩

end ProvenXv6.Paging
