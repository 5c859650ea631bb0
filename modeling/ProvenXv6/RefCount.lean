import Mathlib.Algebra.BigOperators.Fin
import Mathlib.Data.Finset.Card
import Mathlib.Data.Fintype.Basic
import Mathlib.Logic.Function.Basic

namespace ProvenXv6.RefCount

variable {ι β : Type*} [Fintype ι] [DecidableEq β]

def refs (f : ι → Option β) (x : β) : ℕ := (Finset.univ.filter fun i => f i = some x).card

variable {f g : ι → Option β} {x : β}

theorem refs_pos : 0 < refs f x ↔ ∃ i, f i = some x := by
  unfold refs
  rw [Finset.card_pos]
  constructor
  · rintro ⟨i, hi⟩
    exact ⟨i, (Finset.mem_filter.mp hi).2⟩
  · rintro ⟨i, hi⟩
    exact ⟨i, Finset.mem_filter.mpr ⟨Finset.mem_univ i, hi⟩⟩

theorem refs_pos_of {i : ι} (h : f i = some x) : 0 < refs f x := refs_pos.mpr ⟨i, h⟩

theorem refs_eq_zero : refs f x = 0 ↔ ∀ i, f i ≠ some x := by
  unfold refs
  rw [Finset.card_eq_zero, Finset.filter_eq_empty_iff]
  simp

theorem slot_unique (h : refs f x ≤ 1) {i j : ι} (hi : f i = some x) (hj : f j = some x) : i = j :=
  Finset.card_le_one.mp h i (Finset.mem_filter.mpr ⟨Finset.mem_univ i, hi⟩) j
    (Finset.mem_filter.mpr ⟨Finset.mem_univ j, hj⟩)

theorem refs_none : refs (fun _ : ι => (none : Option β)) x = 0 := by
  simp [refs]

variable [DecidableEq ι]

theorem refs_split (f : ι → Option β) (i : ι) (x : β) :
    refs f x = ((Finset.univ.erase i).filter fun j => f j = some x).card+
      (if f i = some x then 1 else 0) := by
  unfold refs
  rw [← Finset.insert_erase (Finset.mem_univ i), Finset.filter_insert, Finset.insert_erase (Finset.mem_univ i)]
  split_ifs
  · rw [Finset.card_insert_of_notMem (by simp)]
  · rfl

theorem refs_update (f : ι → Option β) (i : ι) (v : Option β) (x : β) :
    refs (Function.update f i v) x+(if f i = some x then 1 else 0) =
      refs f x+(if v = some x then 1 else 0) := by
  have hothers : ((Finset.univ.erase i).filter fun j => Function.update f i v j = some x) =
      (Finset.univ.erase i).filter fun j => f j = some x := by
    apply Finset.filter_congr
    intro j hj
    rw [Function.update_of_ne (Finset.ne_of_mem_erase hj)]
  rw [refs_split (Function.update f i v) i x, refs_split f i x, hothers, Function.update_self]
  omega

theorem refs_eq_count {β : Type*} [DecidableEq β] {n : ℕ} (f : ℕ → Option β) (x : β) :
    refs (fun i : Fin n => f i) x = ((List.range n).filterMap f).count x := by
  induction n with
  | zero => rfl
  | succ n ih =>
    have hlast : ([n].filterMap f).count x = if f n = some x then 1 else 0 := by
      rcases hf : f n with _ | y
      · simp [hf]
      · simp [hf, List.count_cons]
    rw [List.range_succ, List.filterMap_append, List.count_append, ← ih, hlast]
    simp only [refs, Finset.card_filter, Fin.sum_univ_castSucc, Fin.val_castSucc, Fin.val_last]

theorem count_filterMap_gain {ι β : Type*} [DecidableEq β] (l : List ι) {f g : ι → Option β} {P : ι → Bool}
    (hin : ∀ i ∈ l, P i = true → f i = none) (hout : ∀ i ∈ l, P i = false → g i = f i) (x : β) :
    (l.filterMap g).count x = (l.filterMap f).count x+((l.filter P).filterMap g).count x := by
  induction l with
  | nil => rfl
  | cons i l ih =>
    have ih := ih (fun j hj => hin j (List.mem_cons_of_mem i hj)) fun j hj => hout j (List.mem_cons_of_mem i hj)
    have hone (h : ι → Option β) (l : List ι) : ((i :: l).filterMap h).count x =
        (if h i = some x then 1 else 0)+(l.filterMap h).count x := by
      cases hi : h i with
      | none => simp [hi]
      | some y => simp [hi, List.count_cons, Nat.add_comm]
    rw [hone, hone, ih]
    cases hP : P i with
    | true =>
      rw [List.filter_cons_of_pos hP, hone, hin i List.mem_cons_self hP, if_neg (Option.some_ne_none x).symm]
      omega
    | false =>
      rw [List.filter_cons_of_neg (by rw [hP]; exact Bool.false_ne_true), hout i List.mem_cons_self hP]
      omega

theorem refs_gain {β : Type*} [DecidableEq β] {n : ℕ} {f g : ℕ → Option β} {P : ℕ → Bool}
    (hin : ∀ i < n, P i = true → f i = none) (hout : ∀ i < n, P i = false → g i = f i) (x : β) :
    refs (fun i : Fin n => g i) x =
      refs (fun i : Fin n => f i) x+(((List.range n).filter P).filterMap g).count x := by
  rw [refs_eq_count, refs_eq_count]
  exact count_filterMap_gain _ (fun i hi => hin i (List.mem_range.mp hi))
    (fun i hi => hout i (List.mem_range.mp hi)) x

theorem refs_eq_count_finRange {β : Type*} [DecidableEq β] {n : ℕ} (f : Fin n → Option β) (x : β) :
    ((List.finRange n).filterMap f).count x = refs f x := by
  obtain ⟨g, rfl⟩ : ∃ g : ℕ → Option β, f = fun i : Fin n => g i :=
    ⟨fun j => if h : j < n then f ⟨j, h⟩ else none, by simp⟩
  rw [refs_eq_count g, ← List.map_coe_finRange_eq_range, List.filterMap_map]
  rfl

theorem filterMap_update_perm {β : Type*} [DecidableEq β] {n : ℕ} (f : Fin n → Option β) (i : Fin n)
    (v : Option β) : ((f i).toList ++ (List.finRange n).filterMap (Function.update f i v)).Perm
      (v.toList ++ (List.finRange n).filterMap f) := by
  have hone (w : Option β) (x : β) : w.toList.count x = if w = some x then 1 else 0 := by
    cases w <;> simp [List.count_cons]
  rw [List.perm_iff_count]
  intro x
  have := refs_update f i v x
  rw [List.count_append, List.count_append, refs_eq_count_finRange, refs_eq_count_finRange, hone, hone]
  omega

end ProvenXv6.RefCount
