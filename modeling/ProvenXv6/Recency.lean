import Mathlib.Data.Finset.Card
import Mathlib.Data.List.Basic
import Mathlib.Data.List.Nodup
import Mathlib.Data.List.TakeDrop
import Mathlib.Tactic.Common

namespace ProvenXv6.Recency

variable {α : Type*} [DecidableEq α]

def recent (l : List α) : List α := l.foldl (fun m r => r :: m.erase r) []

@[simp] theorem recent_nil : recent ([] : List α) = [] := rfl

theorem recent_concat (l : List α) (r : α) : recent (l ++ [r]) = r :: (recent l).erase r := by
  simp only [recent, List.foldl_append, List.foldl_cons, List.foldl_nil]

theorem recent_nodup (l : List α) : (recent l).Nodup := by
  induction l using List.reverseRecOn with
  | nil => exact List.nodup_nil
  | append_singleton l r ih =>
    rw [recent_concat]
    exact List.nodup_cons.mpr ⟨ih.not_mem_erase, ih.erase r⟩

/-- Recency as a position: the k-th entry is met k-th when reading backwards. -/
theorem recent_pairwise (l : List α) :
    (recent l).Pairwise (fun a b => l.reverse.idxOf a < l.reverse.idxOf b) := by
  induction l using List.reverseRecOn with
  | nil => exact List.Pairwise.nil
  | append_singleton l r ih =>
    rw [recent_concat, List.reverse_append, List.reverse_singleton, List.singleton_append]
    have hne (a : α) (ha : a ∈ (recent l).erase r) : r ≠ a := by
      rintro rfl
      exact (recent_nodup l).not_mem_erase ha
    apply List.pairwise_cons.mpr
    constructor
    · intro a ha
      rw [List.idxOf_cons_self, List.idxOf_cons_ne _ (hne a ha)]
      exact Nat.succ_pos _
    · apply (ih.sublist List.erase_sublist).imp_of_mem
      intro a b ha hb hab
      rw [List.idxOf_cons_ne _ (hne a ha), List.idxOf_cons_ne _ (hne b hb)]
      exact Nat.succ_lt_succ hab

def top (n : ℕ) (l : List α) : Finset α := ((recent l).take n).toFinset

theorem mem_top {n : ℕ} {l : List α} {p : α} : p ∈ top n l ↔ p ∈ (recent l).take n :=
  List.mem_toFinset

theorem top_nil (n : ℕ) : top n ([] : List α) = ∅ := by
  simp only [top, recent_nil, List.take_nil, List.toFinset_nil]

theorem top_mono {n m : ℕ} (h : n ≤ m) (l : List α) : top n l ⊆ top m l := by
  intro p hp
  rw [mem_top] at hp ⊢
  exact (List.take_sublist_take_left h).subset hp

theorem card_top (n : ℕ) (l : List α) : (top n l).card = min n (recent l).length := by
  rw [top, List.toFinset_card_of_nodup ((recent_nodup l).sublist (List.take_sublist _ _)),
    List.length_take]

theorem top_concat_of_mem {n : ℕ} {l : List α} {r : α} (h : r ∈ top n l) :
    top n (l ++ [r]) = top n l := by
  rw [mem_top] at h
  obtain ⟨a, b, hab⟩ := List.append_of_mem (List.mem_of_mem_take h)
  have hnd := recent_nodup l
  rw [hab] at hnd h
  have hra : r ∉ a := fun hh => (List.nodup_append.mp hnd).2.2 r hh r List.mem_cons_self rfl
  have hlen : a.length < n := by
    by_contra hge
    rw [List.take_append_of_le_length (not_lt.mp hge)] at h
    exact hra (List.mem_of_mem_take h)
  obtain ⟨m, rfl⟩ : ∃ m, n = a.length+(m+1) := ⟨n-a.length-1, by omega⟩
  have hnew : (recent (l ++ [r])).take (a.length+(m+1)) = r :: (a ++ b.take m) := by
    rw [recent_concat, hab, List.erase_append_right _ hra, List.erase_cons_head, ← Nat.add_assoc,
      List.take_succ_cons, List.take_length_add_append]
  have hold : (recent l).take (a.length+(m+1)) = a ++ r :: b.take m := by
    rw [hab, List.take_length_add_append, List.take_succ_cons]
  ext p
  rw [mem_top, mem_top, hnew, hold]
  simp only [List.mem_cons, List.mem_append]
  exact or_left_comm

theorem top_concat_of_room {n : ℕ} {l : List α} {r : α} (h : r ∉ top n l)
    (hc : (top n l).card < n) : top n (l ++ [r]) = insert r (top n l) := by
  rw [card_top] at hc
  have hlen : (recent l).length < n := by omega
  rw [mem_top, List.take_of_length_le hlen.le] at h
  ext p
  rw [Finset.mem_insert, mem_top, mem_top, recent_concat, List.erase_of_not_mem h,
    List.take_of_length_le hlen.le, List.take_of_length_le (by simp only [List.length_cons]; omega),
    List.mem_cons]

theorem top_concat_of_full {n : ℕ} {l : List α} {r v : α} (hr : r ∉ top n l)
    (hc : (top n l).card = n) (hv : v ∈ top n l)
    (hlast : ∀ u ∈ top n l, l.reverse.idxOf u ≤ l.reverse.idxOf v) :
    top n (l ++ [r]) = insert r ((top n l).erase v) := by
  rw [card_top] at hc
  have hn : 0 < n := by
    rw [mem_top] at hv
    have := List.length_pos_of_mem hv
    rw [List.length_take] at this
    omega
  obtain ⟨m, rfl⟩ : ∃ m, n = m+1 := ⟨n-1, by omega⟩
  have hm : m < (recent l).length := by omega
  let w := (recent l)[m]
  have htake : (recent l).take (m+1) = (recent l).take m ++ [w] := by
    rw [List.take_add_one, List.getElem?_eq_getElem hm, Option.toList_some]
  -- the entry met last when reading backwards is the last one of the n
  have hvw : v = w := by
    rw [mem_top, htake, List.mem_append, List.mem_singleton] at hv
    rcases hv with hv | hv
    · have hpair := (recent_pairwise l).sublist (List.take_sublist (m+1) _)
      rw [htake] at hpair
      have hlt := (List.pairwise_append.mp hpair).2.2 v hv w (List.mem_singleton_self w)
      have hle := hlast w (by rw [mem_top, htake]; simp)
      omega
    · exact hv
  have hnd := (recent_nodup l).sublist (List.take_sublist (m+1) _)
  rw [htake] at hnd
  have hw : w ∉ (recent l).take m := fun hh =>
    (List.nodup_append.mp hnd).2.2 w hh w (List.mem_singleton_self w) rfl
  have herase : ((recent l).erase r).take m = (recent l).take m := by
    rw [mem_top, htake, List.mem_append, not_or] at hr
    have hsplit := List.take_append_drop m (recent l)
    conv_lhs => rw [← hsplit, List.erase_append_right _ hr.1]
    rw [List.take_append_of_le_length (by rw [List.length_take]; omega), List.take_take, min_self]
  ext p
  rw [Finset.mem_insert, Finset.mem_erase, mem_top, mem_top, recent_concat, List.take_succ_cons,
    herase, htake, List.mem_cons, List.mem_append, List.mem_singleton, hvw]
  constructor
  · rintro (hp | hp)
    · exact Or.inl hp
    · exact Or.inr ⟨fun hh => hw (hh ▸ hp), Or.inl hp⟩
  · rintro (hp | ⟨hpw, hp | hp⟩)
    · exact Or.inl hp
    · exact Or.inr hp
    · exact absurd hp hpw

theorem mem_recent {l : List α} {p : α} : p ∈ recent l ↔ p ∈ l := by
  induction l using List.reverseRecOn with
  | nil => exact Iff.rfl
  | append_singleton l r ih =>
    rw [recent_concat, List.mem_append, List.mem_singleton, List.mem_cons]
    by_cases hp : p = r
    · simp [hp]
    · simp [hp, List.mem_erase_of_ne hp, ih]

def debt (S : Finset α) : ℕ → List α → ℕ
  | _, [] => 0
  | n, a :: m => (if a ∈ S then 0 else n)+debt S (n-1) m

variable {S T : Finset α} {m : List α} {r v : α}

theorem debt_mono (n : ℕ) (h : ∀ a ∈ m, a ∈ S → a ∈ T) : debt T n m ≤ debt S n m := by
  induction m generalizing n with
  | nil => exact le_rfl
  | cons a m ih =>
    have ha := h a List.mem_cons_self
    have hm := ih (n-1) fun b hb => h b (List.mem_cons_of_mem a hb)
    unfold debt
    by_cases hT : a ∈ T
    · rw [if_pos hT]
      omega
    · rw [if_neg hT, if_neg fun hS => hT (ha hS)]
      omega

theorem debt_give_up (n : ℕ) (hm : m.Nodup) (h : ∀ a ∈ m, a ∈ S → a ≠ v → a ∈ T) : debt T n m ≤ debt S n m+n := by
  induction m generalizing n with
  | nil => exact Nat.zero_le _
  | cons a m ih =>
    obtain ⟨ha, hm⟩ := List.nodup_cons.mp hm
    have hrest (b : α) (hb : b ∈ m) := h b (List.mem_cons_of_mem a hb)
    unfold debt
    by_cases hv : a = v
    · have hle := debt_mono (n-1) fun b hb hS => hrest b hb hS fun heq => ha ((heq.trans hv.symm) ▸ hb)
      split_ifs <;> omega
    · have hle := ih (n-1) hm hrest
      by_cases hT : a ∈ T
      · rw [if_pos hT]
        omega
      · rw [if_neg hT, if_neg fun hS => hT (h a List.mem_cons_self hS hv)]
        omega

theorem debt_erase_le (n : ℕ) (hr : r ∈ T) : debt T (n-1) (m.erase r) ≤ debt T n m := by
  induction m generalizing n with
  | nil => exact le_rfl
  | cons a m ih =>
    by_cases ha : a = r
    · subst ha
      rw [List.erase_cons_head, debt, if_pos hr, Nat.zero_add]
    · rw [List.erase_cons_tail (by simpa using ha), debt, debt]
      have hle := ih (n-1)
      split_ifs <;> omega

/-- If it was not among the first n, and one of these is lost, that one loses weight. -/
theorem debt_erase_lt (n : ℕ) (hr : r ∈ T) (hmiss : r ∉ m.take n) (hlost : ∃ a ∈ m.take n, a ∉ T) :
    debt T (n-1) (m.erase r)+1 ≤ debt T n m := by
  induction m generalizing n with
  | nil => simp at hlost
  | cons a m ih =>
    cases n with
    | zero => simp at hlost
    | succ n =>
      rw [List.take_succ_cons, List.mem_cons, not_or] at hmiss
      have ha : a ≠ r := Ne.symm hmiss.1
      rw [List.erase_cons_tail (by simpa using ha), debt, debt, Nat.add_sub_cancel]
      by_cases haT : a ∈ T
      · obtain ⟨b, hb, hbT⟩ := hlost
        rw [List.take_succ_cons, List.mem_cons] at hb
        have hb := hb.resolve_left fun heq => hbT (heq ▸ haT)
        have hle := ih n hmiss.2 ⟨b, hb, hbT⟩
        rw [if_pos haT, if_pos haT]
        omega
      · have hle := debt_erase_le (m := m) n hr
        rw [if_neg haT, if_neg haT]
        omega

theorem debt_concat (n : ℕ) (l : List α) (hr : r ∈ T) :
    debt T n (recent (l ++ [r])) = debt T (n-1) ((recent l).erase r) := by
  rw [recent_concat, debt, if_pos hr, Nat.zero_add]

/-- A set of n pages that has one more has lost one of the n most recently used. -/
theorem exists_lost {n : ℕ} {l : List α} (hr : r ∈ T) (hT : T.card ≤ n) (hmiss : r ∉ top n l)
    (hfull : n ≤ (recent l).length) : ∃ a ∈ top n l, a ∉ T := by
  by_contra hall
  push Not at hall
  have hlt := Finset.card_lt_card (Finset.ssubset_iff_subset_ne.mpr ⟨hall, fun heq => hmiss (heq ▸ hr)⟩)
  rw [card_top, min_eq_left hfull] at hlt
  omega

/-- What a reference adds to the debt, if the other set has n pages at most, all of them used before. -/
theorem debt_step {n : ℕ} {l : List α} (hr : r ∈ T) (hT : T.card ≤ n) (hmiss : r ∉ top n l)
    (hfull : n ≤ (recent l).length) : debt T n (recent (l ++ [r]))+1 ≤ debt T n (recent l) := by
  rw [debt_concat n l hr]
  obtain ⟨a, ha, haT⟩ := exists_lost hr hT hmiss hfull
  exact debt_erase_lt n hr (fun hin => hmiss (mem_top.mpr hin)) ⟨a, mem_top.mp ha, haT⟩

end ProvenXv6.Recency
