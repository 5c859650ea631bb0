import Mathlib.Data.List.Nodup
import Mathlib.Data.List.ReduceOption
import Mathlib.Logic.Function.Basic

namespace ProvenXv6.SlotMap

variable {α κ ν : Type*} {l : List (Option α)} {i : ℕ} {p : α}

/-- Slot i replaced by x; behind the last slot the table grows. -/
def put (l : List (Option α)) (i : ℕ) (x : Option α) : List (Option α) := l.take i ++ x :: l.drop (i+1)

/-- The slots that a new key may take. -/
def Vacant (l : List (Option α)) (i : ℕ) : Prop := l[i]? = some none ∨ i = l.length

theorem split_of_getElem? {x : Option α} (h : l[i]? = some x) : l = l.take i ++ x :: l.drop (i+1) := by
  obtain ⟨hi, hx⟩ := List.getElem?_eq_some_iff.mp h
  rw [← hx, ← List.drop_eq_getElem_cons hi, List.take_append_drop]

theorem put_some_perm (h : Vacant l i) (p : α) :
    (put l i (some p)).reduceOption.Perm (p :: l.reduceOption) := by
  have hmid (l₁ l₂ : List (Option α)) :
      (l₁ ++ some p :: l₂).reduceOption.Perm (p :: (l₁.reduceOption ++ l₂.reduceOption)) := by
    rw [List.reduceOption_append, List.reduceOption_cons_of_some]
    exact List.perm_middle
  unfold put
  refine (hmid _ _).trans (List.Perm.cons p ?_)
  rcases h with h | rfl
  · conv_rhs => rw [split_of_getElem? h]
    rw [List.reduceOption_append, List.reduceOption_cons_of_none]
  · rw [List.take_length, List.drop_of_length_le (by omega)]
    simp

theorem put_none_perm (h : l[i]? = some (some p)) :
    l.reduceOption.Perm (p :: (put l i none).reduceOption) := by
  conv_lhs => rw [split_of_getElem? h]
  rw [put, List.reduceOption_append, List.reduceOption_append, List.reduceOption_cons_of_some,
    List.reduceOption_cons_of_none]
  exact List.perm_middle

theorem mem_put {x : Option α} (h : p ∈ (put l i x).reduceOption) : x = some p ∨ p ∈ l.reduceOption := by
  rw [List.reduceOption_mem_iff, put, List.mem_append, List.mem_cons] at h
  rw [List.reduceOption_mem_iff]
  rcases h with h | h | h
  · exact Or.inr (List.mem_of_mem_take h)
  · exact Or.inl h.symm
  · exact Or.inr (List.mem_of_mem_drop h)

theorem mem_reduceOption_of_getElem? (h : l[i]? = some (some p)) : p ∈ l.reduceOption :=
  List.reduceOption_mem_iff.mpr (List.mem_of_getElem? h)

variable {t : List (Option (κ × ν))} {m : κ → Option ν} {k : κ} {v : ν}

/-- The value of the first slot with key k. -/
def find [DecidableEq κ] : List (Option (κ × ν)) → κ → Option ν
  | [], _ => none
  | none :: t, k => find t k
  | some p :: t, k => if p.1 = k then some p.2 else find t k

theorem find_first [DecidableEq κ] (hi : t[i]? = some (some (k, v)))
    (hbefore : ∀ j < i, ∀ w, t[j]? ≠ some (some (k, w))) : find t k = some v := by
  induction t generalizing i with
  | nil => cases hi
  | cons x t ih =>
    cases i with
    | zero =>
      rw [List.getElem?_cons_zero, Option.some.injEq] at hi
      rw [hi, find, if_pos rfl]
    | succ i =>
      have hrest : find t k = some v := by
        apply ih hi
        intro j hj w hw
        exact hbefore (j+1) (by omega) w hw
      have hhead := hbefore 0 (Nat.succ_pos i)
      cases x with
      | none => exact hrest
      | some p =>
        rw [find, if_neg, hrest]
        rintro rfl
        exact hhead p.2 rfl

theorem find_none [DecidableEq κ] (h : ∀ w, some (k, w) ∉ t) : find t k = none := by
  induction t with
  | nil => rfl
  | cons x t ih =>
    have hrest : find t k = none := ih fun w hw => h w (List.mem_cons_of_mem _ hw)
    cases x with
    | none => exact hrest
    | some p =>
      rw [find, if_neg, hrest]
      rintro rfl
      exact h p.2 List.mem_cons_self

/-- The table has every key once, and its pairs are those of the map. -/
structure Represents (t : List (Option (κ × ν))) (m : κ → Option ν) : Prop where
  nodup : (t.reduceOption.map Prod.fst).Nodup
  mem : ∀ k v, (k, v) ∈ t.reduceOption ↔ m k = some v

namespace Represents

theorem of_getElem? (h : Represents t m) (hi : t[i]? = some (some (k, v))) : m k = some v :=
  (h.mem k v).mp (mem_reduceOption_of_getElem? hi)

theorem absent (h : Represents t m) : m k = none ↔ k ∉ t.reduceOption.map Prod.fst := by
  constructor
  · intro hm hk
    obtain ⟨⟨k', v⟩, hmem, rfl⟩ := List.mem_map.mp hk
    rw [(h.mem k' v).mp hmem] at hm
    cases hm
  · intro hk
    cases hm : m k with
    | none => rfl
    | some v => exact absurd (List.mem_map.mpr ⟨(k, v), (h.mem k v).mpr hm, rfl⟩) hk

variable [DecidableEq κ]

theorem insert (h : Represents t m) (hk : m k = none) (hi : Vacant t i) (v : ν) :
    Represents (put t i (some (k, v))) (Function.update m k (some v)) := by
  have hperm := put_some_perm hi (k, v)
  have hnot : k ∉ t.reduceOption.map Prod.fst := h.absent.mp hk
  refine ⟨?_, ?_⟩
  · rw [(hperm.map Prod.fst).nodup_iff, List.map_cons, List.nodup_cons]
    exact ⟨hnot, h.nodup⟩
  · intro k' v'
    rw [hperm.mem_iff, List.mem_cons]
    by_cases hkk : k' = k
    · subst hkk
      rw [Function.update_self]
      constructor
      · rintro (he | hmem)
        · rw [(Prod.mk.inj he).2]
        · exact absurd (List.mem_map.mpr ⟨_, hmem, rfl⟩) hnot
      · intro he
        exact Or.inl (by rw [Option.some.inj he])
    · rw [Function.update_of_ne hkk, ← h.mem k' v']
      exact ⟨fun hor => hor.resolve_left fun he => hkk (Prod.mk.inj he).1, Or.inr⟩

theorem erase (h : Represents t m) (hi : t[i]? = some (some (k, v))) :
    Represents (put t i none) (Function.update m k none) := by
  have hperm := put_none_perm hi
  have hnodup := h.nodup
  rw [(hperm.map Prod.fst).nodup_iff, List.map_cons, List.nodup_cons] at hnodup
  refine ⟨hnodup.2, ?_⟩
  intro k' v'
  by_cases hkk : k' = k
  · subst hkk
    rw [Function.update_self]
    exact iff_of_false (fun hmem => hnodup.1 (List.mem_map.mpr ⟨_, hmem, rfl⟩)) (by simp)
  · rw [Function.update_of_ne hkk, ← h.mem k' v', hperm.mem_iff, List.mem_cons]
    exact ⟨Or.inr, fun hor => hor.resolve_left fun he => hkk (Prod.mk.inj he).1⟩

end Represents

end ProvenXv6.SlotMap
