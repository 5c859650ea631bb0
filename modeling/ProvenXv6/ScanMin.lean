import Mathlib.Data.Fintype.Basic
import Mathlib.Data.List.FinRange
import Mathlib.Order.Lattice
import Mathlib.Tactic.Common

namespace ProvenXv6.ScanMin

def scanMin {n : ℕ} {κ : Type*} [LT κ] [DecidableLT κ] (key : Fin n → κ) (m : Fin n) : Fin n :=
  (List.finRange n).foldl (fun m j => if key j < key m then j else m) m

def scanMin? {n : ℕ} {κ : Type} [LT κ] [DecidableLT κ] (key : Fin n → Option κ)
    (m : Fin n) : Option (Fin n) :=
  (List.finRange n).foldlM (fun m j => do
    let a ← key j
    let b ← key m
    pure (if a < b then j else m)) m

section Order
variable {n : ℕ} {κ : Type*} [LinearOrder κ]

theorem foldl_scan_le (key : Fin n → κ) (l : List (Fin n)) (m : Fin n) :
    key (l.foldl (fun m j => if key j < key m then j else m) m) ≤ key m ∧
      ∀ j ∈ l, key (l.foldl (fun m j => if key j < key m then j else m) m) ≤ key j := by
  induction l generalizing m with
  | nil => simp
  | cons j l ih =>
    simp only [List.foldl_cons]
    obtain ⟨hm, hl⟩ := ih (if key j < key m then j else m)
    by_cases hjm : key j < key m
    · simp only [hjm, ↓reduceIte] at hm hl ⊢
      refine ⟨hm.trans hjm.le, ?_⟩
      intro i hi
      rcases List.mem_cons.mp hi with rfl | hi
      · exact hm
      · exact hl i hi
    · simp only [hjm, ↓reduceIte] at hm hl ⊢
      refine ⟨hm, ?_⟩
      intro i hi
      rcases List.mem_cons.mp hi with rfl | hi
      · exact hm.trans (not_lt.mp hjm)
      · exact hl i hi

theorem scanMin_le (key : Fin n → κ) (m j : Fin n) : key (scanMin key m) ≤ key j :=
  (foldl_scan_le key (List.finRange n) m).2 j (List.mem_finRange j)

theorem foldl_scan_first (key : Fin n → κ) {l : List (Fin n)} (hl : l.Pairwise (· ≤ ·)) (m : Fin n) :
    l.foldl (fun m j => if key j < key m then j else m) m = m ∨
      (key (l.foldl (fun m j => if key j < key m then j else m) m) < key m ∧
        ∀ j ∈ l, key j ≤ key (l.foldl (fun m j => if key j < key m then j else m) m) →
          l.foldl (fun m j => if key j < key m then j else m) m ≤ j) := by
  induction l generalizing m with
  | nil => exact Or.inl rfl
  | cons i l ih =>
    obtain ⟨hi, hl⟩ := List.pairwise_cons.mp hl
    rw [List.foldl_cons]
    by_cases him : key i < key m
    · rw [if_pos him]
      rcases ih hl i with he | ⟨hlt, hfirst⟩
      · rw [he]
        refine Or.inr ⟨him, ?_⟩
        intro j hj _
        rcases List.mem_cons.mp hj with rfl | hj
        · exact le_rfl
        · exact hi j hj
      · refine Or.inr ⟨hlt.trans him, ?_⟩
        intro j hj hle
        rcases List.mem_cons.mp hj with rfl | hj
        · exact absurd hle (not_le.mpr hlt)
        · exact hfirst j hj hle
    · rw [if_neg him]
      rcases ih hl m with he | ⟨hlt, hfirst⟩
      · exact Or.inl he
      · refine Or.inr ⟨hlt, ?_⟩
        intro j hj hle
        rcases List.mem_cons.mp hj with rfl | hj
        · exact absurd (hle.trans_lt hlt) him
        · exact hfirst j hj hle

theorem scanMin_first (key : Fin n → κ) (m : Fin n) : scanMin key m = m ∨
    (key (scanMin key m) < key m ∧ ∀ j, key j ≤ key (scanMin key m) → scanMin key m ≤ j) := by
  have hsorted : (List.finRange n).Pairwise (· ≤ ·) := (List.pairwise_lt_finRange n).imp le_of_lt
  refine (foldl_scan_first key hsorted m).imp_right fun h => ⟨h.1, ?_⟩
  exact fun j => h.2 j (List.mem_finRange j)

theorem scanMin_of_le (key : Fin n → κ) {m : Fin n} (h : ∀ j, key m ≤ key j) : scanMin key m = m :=
  (scanMin_first key m).resolve_right fun hlt => absurd hlt.1 (not_lt.mpr (h _))

/-- The first index with a smallest key. -/
def FirstMin (key : Fin n → κ) (i : Fin n) : Prop := ∀ j, key i < key j ∨ key i = key j ∧ i ≤ j

theorem FirstMin.unique {key : Fin n → κ} {i j : Fin n} (hi : FirstMin key i) (hj : FirstMin key j) : i = j := by
  rcases hi j with hlt | ⟨heq, hij⟩
  · rcases hj i with hgt | ⟨heq, -⟩
    · exact absurd hgt hlt.asymm
    · exact absurd heq hlt.ne'
  · rcases hj i with hgt | ⟨-, hji⟩
    · exact absurd heq hgt.ne'
    · exact hij.antisymm hji

theorem firstMin_scanMin_zero (key : Fin n → κ) (hn : 0 < n) : FirstMin key (scanMin key ⟨0, hn⟩) := by
  intro j
  rcases (scanMin_le key ⟨0, hn⟩ j).lt_or_eq with hlt | heq
  · exact Or.inl hlt
  · refine Or.inr ⟨heq, ?_⟩
    rcases scanMin_first key ⟨0, hn⟩ with he | ⟨-, hfirst⟩
    · rw [he]
      exact Nat.zero_le j.val
    · exact hfirst j heq.ge

end Order

theorem scanMin_congr {n : ℕ} {κ κ' : Type*} [LT κ] [DecidableLT κ] [LT κ'] [DecidableLT κ']
    (key : Fin n → κ) (key' : Fin n → κ') (h : ∀ i j, key i < key j ↔ key' i < key' j)
    (m : Fin n) : scanMin key m = scanMin key' m := by
  unfold scanMin
  congr 1
  funext i j
  simp only [h]

theorem scanMin?_some {n : ℕ} {κ : Type} [LT κ] [DecidableLT κ] (key : Fin n → Option κ)
    (d : Fin n → κ) (h : ∀ i, key i = some (d i)) (m : Fin n) :
    scanMin? key m = some (scanMin d m) := by
  have hl (l : List (Fin n)) (m : Fin n) :
      l.foldlM (fun m j => do
        let a ← key j
        let b ← key m
        pure (if a < b then j else m)) m =
      some (l.foldl (fun m j => if d j < d m then j else m) m) := by
    induction l generalizing m with
    | nil => rfl
    | cons j l ih =>
      simp only [List.foldlM_cons, List.foldl_cons, h, Option.bind_eq_bind, Option.bind_some,
        Option.pure_def] at ih ⊢
      exact ih _
  exact hl _ m

section Selected
variable {ι κ : Type*} [LinearOrder κ] (keep : ι → Prop) (key : ι → κ)

/-- b is the smallest of m and the keys of the selected items of l. -/
structure Least (m : κ) (l : List ι) (b : κ) : Prop where
  le_start : b ≤ m
  le : ∀ i ∈ l, keep i → b ≤ key i
  attained : b = m ∨ ∃ i ∈ l, keep i ∧ key i = b

variable {keep key}

theorem Least.skip {m b : κ} {i : ι} {l : List ι} (h : Least keep key m l b) (hi : ¬keep i) :
    Least keep key m (i :: l) b where
  le_start := h.le_start
  le := by
    intro j hj hk
    rcases List.mem_cons.mp hj with rfl | hj
    · exact absurd hk hi
    · exact h.le j hj hk
  attained := h.attained.imp_right fun ⟨j, hj, hk⟩ => ⟨j, List.mem_cons_of_mem _ hj, hk⟩

theorem Least.take {m b : κ} {i : ι} {l : List ι}
    (h : Least keep key (if key i < m then key i else m) l b) (hi : keep i) :
    Least keep key m (i :: l) b where
  le_start := h.le_start.trans (by split_ifs with hlt; exacts [hlt.le, le_rfl])
  le := by
    intro j hj hk
    rcases List.mem_cons.mp hj with rfl | hj
    · exact h.le_start.trans (by split_ifs with hlt; exacts [le_rfl, not_lt.mp hlt])
    · exact h.le j hj hk
  attained := by
    rcases h.attained with hb | ⟨j, hj, hk⟩
    · split_ifs at hb
      · exact Or.inr ⟨i, by simp, hi, hb.symm⟩
      · exact Or.inl hb
    · exact Or.inr ⟨j, List.mem_cons_of_mem _ hj, hk⟩

variable (keep key) [DecidablePred keep]

theorem foldl_least (l : List ι) (m : κ) :
    Least keep key m l (l.foldl (fun m i =>
      if ¬keep i then m else if key i < m then key i else m) m) := by
  induction l generalizing m with
  | nil => exact ⟨le_rfl, by simp, Or.inl rfl⟩
  | cons i l ih =>
    by_cases hi : keep i
    · simpa only [List.foldl_cons, hi, not_true_eq_false, if_false] using (ih _).take hi
    · simpa only [List.foldl_cons, hi, not_false_eq_true, if_true] using (ih m).skip hi

/-- The scan that starts with nothing: it ends with nothing if no item is
selected, and else with the smallest selected key. -/
theorem foldl_least? (l : List ι) :
    let r := l.foldl (fun m i => if ¬keep i then m else match m with
      | none => some (key i)
      | some m => some (if key i < m then key i else m)) none
    ∀ i ∈ l, keep i → ∃ b, r = some b ∧ (∀ j ∈ l, keep j → b ≤ key j) ∧
      ∃ j ∈ l, keep j ∧ key j = b := by
  have hsome (l : List ι) (m : κ) : l.foldl (fun m i => if ¬keep i then m else match m with
      | none => some (key i)
      | some m => some (if key i < m then key i else m)) (some m) =
      some (l.foldl (fun m i => if ¬keep i then m else if key i < m then key i else m) m) := by
    induction l generalizing m with
    | nil => rfl
    | cons i l ih =>
      by_cases hi : keep i
      · simpa only [List.foldl_cons, hi, not_true_eq_false, if_false] using ih _
      · simpa only [List.foldl_cons, hi, not_false_eq_true, if_true] using ih m
  induction l with
  | nil => simp
  | cons i l ih =>
    dsimp only [List.foldl_cons]
    by_cases hi : keep i
    · intro _ _ _
      simp only [hi, not_true_eq_false, if_false, hsome]
      have h := foldl_least keep key l (key i)
      refine ⟨_, rfl, fun j hj hk => ?_, ?_⟩
      · rcases List.mem_cons.mp hj with rfl | hj
        · exact h.le_start
        · exact h.le j hj hk
      · rcases h.attained with hb | ⟨j, hj, hk⟩
        · exact ⟨i, by simp, hi, hb.symm⟩
        · exact ⟨j, List.mem_cons_of_mem _ hj, hk⟩
    · simp only [hi, not_false_eq_true, if_true]
      intro j hj hk
      rcases List.mem_cons.mp hj with rfl | hj
      · exact absurd hk hi
      · obtain ⟨b, hb, hle, n, hn, hkn⟩ := ih j hj hk
        refine ⟨b, hb, fun p hp hkp => ?_, n, List.mem_cons_of_mem _ hn, hkn⟩
        rcases List.mem_cons.mp hp with rfl | hp
        · exact absurd hkp hi
        · exact hle p hp hkp

end Selected

end ProvenXv6.ScanMin
