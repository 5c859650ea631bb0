import Mathlib.Algebra.BigOperators.Fin
import Mathlib.Data.Finset.Card
import Mathlib.Data.Finset.Lattice.Lemmas
import Mathlib.Data.List.Basic
import Mathlib.Tactic.Common
import Mathlib.Tactic.SplitIfs

namespace ProvenXv6.DemandPaging

variable {α : Type*} [DecidableEq α] {k : ℕ}

/-- `Serves k S l c`: some schedule that starts with the resident set S serves
the string l with c faults. A step may drop any pages, also on a hit. -/
inductive Serves (k : ℕ) : Finset α → List α → ℕ → Prop
  | nil (S : Finset α) : Serves k S [] 0
  | cons {S T : Finset α} {r : α} {l : List α} {c : ℕ} (hr : r ∈ T) (hs : T ⊆ insert r S)
      (hc : T.card ≤ k) (h : Serves k T l c) :
      Serves k S (r :: l) (c + if r ∈ S then 0 else 1)

/-- `Farthest k S l c`: the rule that fills free frames first and then evicts a
page whose next use lies farthest ahead serves l from S with c faults. -/
inductive Farthest (k : ℕ) : Finset α → List α → ℕ → Prop
  | nil (S : Finset α) : Farthest k S [] 0
  | hit {S : Finset α} {r : α} {l : List α} {c : ℕ} (hr : r ∈ S) (h : Farthest k S l c) :
      Farthest k S (r :: l) c
  | load {S : Finset α} {r : α} {l : List α} {c : ℕ} (hr : r ∉ S) (hc : S.card < k)
      (h : Farthest k (insert r S) l c) : Farthest k S (r :: l) (c+1)
  | evict {S : Finset α} {r v : α} {l : List α} {c : ℕ} (hr : r ∉ S) (hk : k ≤ S.card)
      (hv : v ∈ S) (hfar : ∀ u ∈ S, l.idxOf u ≤ l.idxOf v)
      (h : Farthest k (insert r (S.erase v)) l c) : Farthest k S (r :: l) (c+1)

theorem erase_subset_insert_erase {T U : Finset α} {r : α} (b : α) (hs : U ⊆ insert r T) :
    U.erase b ⊆ insert r (T.erase b) := by
  intro x hx
  obtain ⟨hxb, hxU⟩ := Finset.mem_erase.mp hx
  rcases Finset.mem_insert.mp (hs hxU) with rfl | hxT
  · exact Finset.mem_insert_self _ _
  · exact Finset.mem_insert_of_mem (Finset.mem_erase.mpr ⟨hxb, hxT⟩)

/-- More resident pages never cost a fault: the larger set can follow the same schedule. -/
theorem serves_of_superset {S S' : Finset α} {l : List α} {c : ℕ} (hS : S ⊆ S')
    (h : Serves k S l c) : ∃ c' ≤ c, Serves k S' l c' := by
  cases h with
  | nil => exact ⟨0, le_rfl, .nil S'⟩
  | @cons _ T r l c hr hs hc h =>
    refine ⟨_, ?_, Serves.cons hr (hs.trans (Finset.insert_subset_insert r hS)) hc h⟩
    by_cases hrS : r ∈ S
    · simp [hrS, hS hrS]
    · split_ifs <;> omega

theorem serves_erase {S : Finset α} {l : List α} {c : ℕ} (b : α) (h : Serves k S l c) :
    ∃ c' ≤ c+1, Serves k (S.erase b) l c' := by
  induction h with
  | nil S => exact ⟨0, by omega, .nil _⟩
  | @cons S T r l c hr hs hc h ih =>
    by_cases hrb : r = b
    · -- the lost page is the one referenced: reload it and go on as before
      subst hrb
      refine ⟨_, ?_, Serves.cons hr ?_ hc h⟩
      · split_ifs <;> omega
      · intro x hx
        by_cases hxr : x = r
        · exact hxr ▸ Finset.mem_insert_self _ _
        · exact erase_subset_insert_erase r hs (Finset.mem_erase.mpr ⟨hxr, hx⟩)
    · have hmem : r ∈ S.erase b ↔ r ∈ S := by simp [hrb]
      obtain ⟨c', hc', h'⟩ := ih
      refine ⟨_, ?_, Serves.cons (T := T.erase b) (Finset.mem_erase.mpr ⟨hrb, hr⟩)
        (erase_subset_insert_erase b hs) (Finset.card_erase_le.trans hc) h'⟩
      simp only [hmem]
      omega

/-- The exchange: holding a page a that is used no later than b is at least as
good as holding b instead. -/
theorem serves_exchange {T : Finset α} {l : List α} {c : ℕ} {a b : α} (h : Serves k T l c)
    (ha : a ∉ T) (hb : b ∈ T) (hab : l.idxOf a ≤ l.idxOf b) :
    ∃ c' ≤ c, Serves k (insert a (T.erase b)) l c' := by
  induction h with
  | nil S => exact ⟨0, le_rfl, .nil _⟩
  | @cons T U r l c hr hs hc h ih =>
    have hne : a ≠ b := fun hh => ha (hh ▸ hb)
    have hrb : r ≠ b := by
      intro hrb
      subst hrb
      rw [List.idxOf_cons_self, List.idxOf_cons_ne _ hne.symm] at hab
      omega
    have hsub : U.erase b ⊆ insert r (insert a (T.erase b)) :=
      (erase_subset_insert_erase b hs).trans
        (Finset.insert_subset_insert r (Finset.subset_insert a _))
    have hrU : r ∈ U.erase b := Finset.mem_erase.mpr ⟨hrb, hr⟩
    have hcU : (U.erase b).card ≤ k := Finset.card_erase_le.trans hc
    by_cases hbU : b ∈ U
    · by_cases hra : r = a
      · -- a is referenced: its holder hits while the other schedule faults
        obtain ⟨c', hc', h'⟩ := serves_erase b h
        refine ⟨_, ?_, Serves.cons hrU hsub hcU h'⟩
        have hmem : r ∈ insert a (T.erase b) := hra ▸ Finset.mem_insert_self _ _
        have hnot : r ∉ T := hra ▸ ha
        simp only [hmem, hnot, ↓reduceIte]
        omega
      · -- the other schedule still holds b: keep a in its place
        have haU : a ∉ U := by
          intro haU
          rcases Finset.mem_insert.mp (hs haU) with hh | hh
          · exact hra hh.symm
          · exact ha hh
        have hab' : l.idxOf a ≤ l.idxOf b := by
          rw [List.idxOf_cons_ne _ hra, List.idxOf_cons_ne _ hrb] at hab
          omega
        obtain ⟨c', hc', h'⟩ := ih haU hbU hab'
        have hcard : (insert a (U.erase b)).card ≤ k := by
          rw [Finset.card_insert_of_notMem (fun hh => haU (Finset.mem_of_mem_erase hh)),
            Finset.card_erase_add_one hbU]
          exact hc
        refine ⟨_, ?_, Serves.cons (Finset.mem_insert_of_mem hrU) ?_ hcard h'⟩
        · simp only [Finset.mem_insert, hra, false_or, Finset.mem_erase, hrb, ne_eq,
            not_false_eq_true, true_and]
          omega
        · exact Finset.insert_subset
            (Finset.mem_insert_of_mem (Finset.mem_insert_self _ _)) hsub
    · -- the other schedule dropped b itself: follow it
      rw [Finset.erase_eq_of_notMem hbU] at hsub
      refine ⟨_, ?_, Serves.cons hr hsub hc h⟩
      by_cases hrT : r ∈ T
      · have hmem : r ∈ insert a (T.erase b) :=
          Finset.mem_insert_of_mem (Finset.mem_erase.mpr ⟨hrb, hrT⟩)
        simp only [hmem, hrT, ↓reduceIte, le_refl]
      · simp only [hrT, ↓reduceIte]
        split_ifs <;> omega

/-- Farthest-next-use faults no more often than any schedule from the same resident set. -/
theorem farthest_le_serves {S : Finset α} {l : List α} {c c' : ℕ} (hf : Farthest k S l c)
    (h : Serves k S l c') : c ≤ c' := by
  induction hf generalizing c' with
  | nil S => exact Nat.zero_le _
  | @hit S r l c hr hf ih =>
    cases h with
    | @cons _ T _ _ d hrT hs hc h =>
      rw [Finset.insert_eq_of_mem hr] at hs
      obtain ⟨e, he, hse⟩ := serves_of_superset hs h
      have := ih hse
      omega
  | @load S r l c hr hc hf ih =>
    cases h with
    | @cons _ T _ _ d hrT hs hcT h =>
      obtain ⟨e, he, hse⟩ := serves_of_superset hs h
      have := ih hse
      simp only [hr, ↓reduceIte]
      omega
  | @evict S r v l c hr hk hv hfar hf ih =>
    cases h with
    | @cons _ T _ _ d hrT hs hcT h =>
      -- the other schedule has lost some page u of S, so it is no better than S with u out
      obtain ⟨u, huS, huT⟩ : ∃ u ∈ S, u ∉ T := by
        by_contra hall
        push Not at hall
        have hins : insert r S ⊆ T := Finset.insert_subset hrT hall
        have := Finset.card_le_card hins
        rw [Finset.card_insert_of_notMem hr] at this
        omega
      have hsub : T ⊆ insert r (S.erase u) := by
        have := erase_subset_insert_erase u hs
        rwa [Finset.erase_eq_of_notMem huT] at this
      obtain ⟨e, he, hse⟩ := serves_of_superset hsub h
      have hur : u ≠ r := fun hh => hr (hh ▸ huS)
      have hvr : v ≠ r := fun hh => hr (hh ▸ hv)
      have hbest : ∃ e' ≤ e, Serves k (insert r (S.erase v)) l e' := by
        by_cases huv : u = v
        · exact ⟨e, le_rfl, huv ▸ hse⟩
        · have hx := serves_exchange (a := u) (b := v) hse (by simp [hur])
            (by simp [hv, Ne.symm huv]) (hfar u huS)
          have hset : insert u ((insert r (S.erase u)).erase v) = insert r (S.erase v) := by
            ext x
            simp only [Finset.mem_insert, Finset.mem_erase]
            grind
          rwa [hset] at hx
      obtain ⟨e', he', hse'⟩ := hbest
      have := ih hse'
      simp only [hr, ↓reduceIte]
      omega

/-- A demand-paging schedule for l with k frames: the resident sets before the
first reference and after each of them. -/
structure Schedule (k : ℕ) (l : List α) where
  resident : ℕ → Finset α
  start : resident 0 = ∅
  card_le : ∀ i < l.length, (resident (i+1)).card ≤ k
  holds : ∀ i : Fin l.length, l[i] ∈ resident (i+1)
  demand : ∀ i : Fin l.length, resident (i+1) ⊆ insert l[i] (resident i)

/-- The references of l that find their page absent. -/
def faults (S : ℕ → Finset α) (l : List α) : ℕ :=
  (Finset.univ.filter (fun i : Fin l.length => l[i] ∉ S i)).card

theorem faults_cons (S : ℕ → Finset α) (r : α) (l : List α) :
    faults S (r :: l) = faults (fun i => S (i+1)) l + if r ∈ S 0 then 0 else 1 := by
  unfold faults
  rw [Finset.card_filter, Finset.card_filter]
  change ∑ i : Fin (l.length+1), _ = _
  rw [Fin.sum_univ_succ, Nat.add_comm]
  congr 1
  by_cases hr : r ∈ S 0 <;> simp [hr]

theorem serves_of_resident (S : ℕ → Finset α) (l : List α)
    (hc : ∀ i < l.length, (S (i+1)).card ≤ k) (hh : ∀ i : Fin l.length, l[i] ∈ S (i+1))
    (hd : ∀ i : Fin l.length, S (i+1) ⊆ insert l[i] (S i)) : Serves k (S 0) l (faults S l) := by
  induction l generalizing S with
  | nil => exact .nil _
  | cons r l ih =>
    rw [faults_cons]
    refine .cons (hh ⟨0, by simp⟩) (hd ⟨0, by simp⟩) (hc 0 (by simp)) ?_
    apply ih (fun i => S (i+1))
    · intro i hi
      exact hc (i+1) (by simpa using hi)
    · intro i
      exact hh i.succ
    · intro i
      exact hd i.succ

theorem Schedule.serves {l : List α} (s : Schedule k l) : Serves k ∅ l (faults s.resident l) :=
  s.start ▸ serves_of_resident s.resident l s.card_le s.holds s.demand

end ProvenXv6.DemandPaging
