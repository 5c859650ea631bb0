import Mathlib.Data.List.TakeWhile

namespace ProvenXv6.Runs

variable {α : Type} [DecidableEq α] {a : α} {w l m : List α}

def runs (a : α) (l : List α) : List (List α) := (l.splitOn a).filter (· ≠ [])

theorem runs_nil : runs a [] = [] := by
  rw [runs, List.splitOn_nil]
  rfl

theorem runs_append (l m : List α) : runs a (l ++ a :: m) = runs a l ++ runs a m := by
  rw [runs, List.splitOn_append_cons_self, List.filter_append]
  rfl

theorem runs_cons_self (l : List α) : runs a (a :: l) = runs a l := by
  have h := runs_append (a := a) [] l
  rw [runs_nil, List.nil_append, List.nil_append] at h
  exact h

theorem runs_snoc_self (l : List α) : runs a (l ++ [a]) = runs a l := by
  rw [runs_append, runs_nil, List.append_nil]

theorem runs_single (hw : w ≠ []) (ha : a ∉ w) : runs a w = [w] := by
  rw [runs, List.splitOn_eq_singleton ha, List.filter_cons_of_pos (by simpa using hw), List.filter_nil]

theorem runs_dropWhile (l : List α) : runs a (l.dropWhile (· = a)) = runs a l := by
  induction l with
  | nil => rfl
  | cons b l ih =>
    by_cases hb : b = a
    · subst hb
      rw [List.dropWhile_cons_of_pos (by simp), ih, runs_cons_self]
    · rw [List.dropWhile_cons_of_neg (by simpa using hb)]

theorem runs_takeWhile {b : α} (hb : b ≠ a) (l : List α) : runs a (b :: l) =
    (b :: l).takeWhile (· ≠ a) :: runs a ((b :: l).dropWhile (· ≠ a)) := by
  have hsplit := List.takeWhile_append_dropWhile (p := fun x => decide (x ≠ a)) (l := b :: l)
  have hfirst : (b :: l).takeWhile (fun x => decide (x ≠ a)) ≠ [] := by
    rw [List.takeWhile_cons_of_pos (by simpa using hb)]
    exact List.cons_ne_nil _ _
  have hnot : a ∉ (b :: l).takeWhile (fun x => decide (x ≠ a)) := by
    intro hmem
    have := List.mem_takeWhile_imp hmem
    simp at this
  cases hrest : (b :: l).dropWhile (fun x => decide (x ≠ a)) with
  | nil =>
    rw [hrest, List.append_nil] at hsplit
    rw [runs_nil, ← runs_single hfirst hnot, hsplit]
  | cons c rest =>
    have hc : c = a := by
      have := List.head?_dropWhile_not (fun x => decide (x ≠ a)) (b :: l)
      rw [hrest] at this
      simpa using this
    subst hc
    calc runs c (b :: l)
      _ = runs c ((b :: l).takeWhile (fun x => decide (x ≠ c)) ++ c :: rest) := by rw [← hrest, hsplit]
      _ = [(b :: l).takeWhile fun x => decide (x ≠ c)] ++ runs c rest := by
        rw [runs_append, runs_single hfirst hnot]
      _ = _ := by rw [runs_cons_self, List.singleton_append]

end ProvenXv6.Runs
