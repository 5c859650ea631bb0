import Mathlib.Data.List.Basic
import Mathlib.Data.List.Nodup
import Mathlib.Data.List.Perm.Subperm
import Mathlib.Logic.Function.Basic
import Mathlib.Tactic.Common

namespace ProvenXv6.Chains

variable {α : Type*} {next : α → α} {l m : List α} {a x z : α}

/-- From each node of the list next leads to the node behind it, from the last one to z. -/
def Links (next : α → α) : List α → α → Prop
  | [], _ => True
  | a :: l, z => next a = l.headD z ∧ Links next l z

theorem headD_append (l m : List α) (z : α) : (l ++ m).headD z = l.headD (m.headD z) := by
  cases l <;> rfl

theorem links_append : Links next (l ++ m) z ↔ Links next l (m.headD z) ∧ Links next m z := by
  induction l with
  | nil => simp [Links]
  | cons a l ih => simp only [List.cons_append, Links, ih, headD_append, and_assoc]

theorem links_congr {next' : α → α} (h : ∀ a ∈ l, next' a = next a) :
    Links next' l z ↔ Links next l z := by
  induction l with
  | nil => exact Iff.rfl
  | cons a l ih =>
    rw [Links, Links, h a List.mem_cons_self, ih fun b hb => h b (List.mem_cons_of_mem _ hb)]

theorem links_getLastD (h : Links next (a :: l) z) : next (l.getLastD a) = z := by
  induction l generalizing a with
  | nil => exact h.1
  | cons b l ih =>
    rw [List.getLastD_cons]
    exact ih h.2

def Cycle (next : α → α) : List α → Prop
  | [] => True
  | a :: l => Links next (a :: l) a

theorem cycle_append_comm (h : Cycle next (l ++ m)) : Cycle next (m ++ l) := by
  cases l with
  | nil => simpa using h
  | cons a l =>
    cases m with
    | nil => simpa using h
    | cons b m =>
      have hs := links_append.mp (show Links next ((a :: l) ++ b :: m) a from h)
      exact links_append.mpr ⟨hs.2, hs.1⟩

theorem cycle_rotate (h : Cycle next l) (ha : a ∈ l) :
    ∃ l₁ l₂, l = l₁ ++ a :: l₂ ∧ Links next (a :: (l₂ ++ l₁)) a := by
  obtain ⟨l₁, l₂, rfl⟩ := List.append_of_mem ha
  exact ⟨l₁, l₂, rfl, cycle_append_comm h⟩

/-- The loop that goes to the next node until stop. -/
def walk (next : α → α) (stop : α → Bool) : ℕ → α → Option α
  | 0, _ => none
  | n+1, a => if stop a then some a else walk next stop n (next a)

theorem walk_links {stop : α → Bool} (n : ℕ) (h : Links next l x) (hl : ∀ a ∈ l, stop a = false)
    (hx : stop x = true) : walk next stop (l.length+(n+1)) (l.headD x) = some x := by
  induction l with
  | nil => rw [List.length_nil, Nat.zero_add, walk, List.headD_nil, if_pos hx]
  | cons a l ih =>
    have ha : ¬stop a = true := by simp [hl a List.mem_cons_self]
    rw [List.length_cons, Nat.add_right_comm, walk, List.headD_cons, if_neg ha, h.1]
    exact ih h.2 fun b hb => hl b (List.mem_cons_of_mem _ hb)

theorem walk_find {stop : α → Bool} (h : Links next l z) (hz : stop z = true) {n : ℕ}
    (hn : l.length < n) : walk next stop n (l.headD z) = some ((l.find? stop).getD z) := by
  induction l generalizing n with
  | nil =>
    obtain ⟨n, rfl⟩ : ∃ m, n = m+1 := ⟨n-1, by omega⟩
    rw [walk, List.headD_nil, if_pos hz]
    rfl
  | cons a l ih =>
    rw [List.length_cons] at hn
    obtain ⟨n, rfl⟩ : ∃ m, n = m+1 := ⟨n-1, by omega⟩
    rw [walk, List.headD_cons]
    cases ha : stop a with
    | true => rw [if_pos rfl, List.find?_cons_of_pos ha, Option.getD_some]
    | false =>
      rw [if_neg Bool.false_ne_true, List.find?_cons_of_neg (by simp [ha]), h.1]
      exact ih h.2 (by omega)

theorem walk_last [DecidableEq α] (h : Links next (a :: l) z) (hz : ∀ b ∈ l, b ≠ z) {n : ℕ} (hn : l.length < n) :
    walk next (fun b => next b = z) n a = some (l.getLastD a) := by
  induction l generalizing a n with
  | nil =>
    obtain ⟨n, rfl⟩ : ∃ m, n = m+1 := ⟨n-1, by omega⟩
    have hz : next a = z := h.1
    rw [walk, if_pos (decide_eq_true hz), List.getLastD_nil]
  | cons b l ih =>
    rw [List.length_cons] at hn
    obtain ⟨n, rfl⟩ : ∃ m, n = m+1 := ⟨n-1, by omega⟩
    have hb : next a = b := h.1
    rw [walk, hb, if_neg (by simpa using hz b List.mem_cons_self), List.getLastD_cons]
    exact ih h.2 (fun c hc => hz c (List.mem_cons_of_mem _ hc)) (by omega)

theorem links_snoc [DecidableEq α] (h : Links next (a :: l) z) (hl : (a :: l).Nodup) (hx : x ∉ a :: l) :
    Links (Function.update (Function.update next x z) (l.getLastD a) x) (a :: (l ++ [x])) z := by
  induction l generalizing a with
  | nil =>
    have hne : x ≠ a := fun heq => hx (heq ▸ List.mem_cons_self)
    refine ⟨Function.update_self .., ?_, trivial⟩
    rw [List.getLastD_nil, Function.update_of_ne hne, Function.update_self]
    rfl
  | cons b l ih =>
    have ha := (List.nodup_cons.mp hl).1
    have hlast : a ≠ l.getLastD b := fun heq => ha (heq ▸ List.getLastD_mem_cons ..)
    have hne : a ≠ x := fun heq => hx (heq ▸ List.mem_cons_self)
    rw [List.getLastD_cons]
    refine ⟨?_, ih h.2 (List.nodup_cons.mp hl).2 fun hmem => hx (List.mem_cons_of_mem _ hmem)⟩
    rw [Function.update_of_ne hlast, Function.update_of_ne hne]
    exact h.1

theorem first_or_none (p : α → Bool) (l : List α) :
    (∀ a ∈ l, p a = false) ∨ ∃ l₁ x l₂, l = l₁ ++ x :: l₂ ∧ p x = true ∧ ∀ a ∈ l₁, p a = false := by
  cases h : l.find? p with
  | none =>
    left
    simpa using h
  | some x =>
    obtain ⟨hx, l₁, l₂, rfl, hl⟩ := List.find?_eq_some_iff_append.mp h
    exact Or.inr ⟨l₁, x, l₂, rfl, hx, by simpa using hl⟩

theorem walk_cycle {stop : α → Bool} (h : Cycle next l) (ha : a ∈ l)
    (hs : ∃ x ∈ l, stop x = true) {n : ℕ} (hn : l.length ≤ n) :
    ∃ x ∈ l, stop x = true ∧ walk next stop n a = some x := by
  obtain ⟨l₁, l₂, rfl, hlinks⟩ := cycle_rotate h ha
  have hmem : ∀ b, b ∈ l₁ ++ a :: l₂ ↔ b ∈ a :: (l₂ ++ l₁) := by
    intro b
    simp only [List.mem_append, List.mem_cons]
    tauto
  have hlen : (l₁ ++ a :: l₂).length = (a :: (l₂ ++ l₁)).length := by
    simp only [List.length_append, List.length_cons]
    omega
  rcases first_or_none stop (a :: (l₂ ++ l₁)) with hnone | ⟨m₁, x, m₂, hm, hx, hfirst⟩
  · obtain ⟨x, hx, hsx⟩ := hs
    rw [hnone x ((hmem x).mp hx)] at hsx
    exact absurd hsx Bool.false_ne_true
  · refine ⟨x, (hmem x).mpr (by rw [hm]; simp), hx, ?_⟩
    rw [hm] at hlinks hlen
    have hto : Links next m₁ x := (links_append.mp hlinks).1
    have hw := walk_links (n-m₁.length-1) hto hfirst hx
    have hhead : m₁.headD x = a := by
      have hd := congrArg (List.headD · x) hm
      rw [headD_append] at hd
      exact hd.symm
    have hfuel : m₁.length+(n-m₁.length-1+1) = n := by
      simp only [List.length_append, List.length_cons] at hlen hn
      omega
    rw [hfuel, hhead] at hw
    exact hw

section Circle
variable {b h : α} {l₁ l₂ : List α} {prev : α → α}

structure Circle (next prev : α → α) (h : α) (l : List α) : Prop where
  forward : Links next (h :: l) h
  backward : Links prev (h :: l.reverse) h
  nodup : (h :: l).Nodup

theorem cons_eq_snoc (h : α) (l : List α) : ∃ m, h :: l = m ++ [l.getLastD h] := by
  induction l generalizing h with
  | nil => exact ⟨[], rfl⟩
  | cons a l ih =>
    obtain ⟨m, hm⟩ := ih a
    refine ⟨h :: m, ?_⟩
    rw [List.getLastD_cons, List.cons_append, ← hm]

theorem getLastD_reverse (l : List α) (h : α) : l.reverse.getLastD h = l.headD h := by
  cases l <;> simp

theorem Circle.next_eq (hr : Circle next prev h (l₁ ++ b :: l₂)) : next b = l₂.headD h := by
  have hf := hr.forward
  rw [← List.cons_append, links_append] at hf
  exact hf.2.1

theorem Circle.symm (hr : Circle next prev h l) : Circle prev next h l.reverse := by
  refine ⟨hr.backward, by rw [List.reverse_reverse]; exact hr.forward, ?_⟩
  have hn := hr.nodup
  rw [List.nodup_cons] at hn ⊢
  exact ⟨by rw [List.mem_reverse]; exact hn.1, List.nodup_reverse.mpr hn.2⟩

theorem Circle.symm_split (hr : Circle next prev h (l₁ ++ b :: l₂)) :
    Circle prev next h (l₂.reverse ++ b :: l₁.reverse) := by
  have hs := hr.symm
  rwa [List.reverse_append, List.reverse_cons, List.append_assoc, List.singleton_append] at hs

theorem Circle.prev_eq (hr : Circle next prev h (l₁ ++ b :: l₂)) : prev b = l₁.getLastD h := by
  rw [hr.symm_split.next_eq, ← getLastD_reverse, List.reverse_reverse]

variable [DecidableEq α]

theorem links_update {y : α} (hx : x ∉ l) :
    Links (Function.update next x y) l z ↔ Links next l z := by
  apply links_congr
  intro a ha
  have hax : a ≠ x := fun he => hx (he ▸ ha)
  exact Function.update_of_ne hax _ _

theorem links_bypass (hl : Links next (m ++ a :: b :: l) z) (hm : a ∉ m) (ha : a ∉ l) :
    Links (Function.update next a (next b)) (m ++ a :: l) z := by
  obtain ⟨h₁, -, hb, h₂⟩ := links_append.mp hl
  refine links_append.mpr ⟨(links_update hm).mpr h₁, ?_, (links_update ha).mpr h₂⟩
  rw [Function.update_self, hb]

theorem links_insert (hl : Links next (m ++ a :: l) z) (hm : a ∉ m) (ha : a ∉ l)
    (hb : b ∉ m ++ a :: l) :
    Links (Function.update (Function.update next b (next a)) a b) (m ++ a :: b :: l) z := by
  obtain ⟨h₁, ha', h₂⟩ := links_append.mp hl
  simp only [List.mem_append, List.mem_cons, not_or] at hb
  refine links_append.mpr ⟨?_, ?_, ?_, ?_⟩
  · exact (links_update hm).mpr ((links_update hb.1).mpr h₁)
  · exact Function.update_self _ _ _
  · rw [Function.update_of_ne hb.2.1, Function.update_self, ha']
  · exact (links_update ha).mpr ((links_update hb.2.2).mpr h₂)

theorem links_unlink (hl : Links next (h :: (l₁ ++ b :: l₂)) h)
    (hn : (h :: (l₁ ++ b :: l₂)).Nodup) :
    Links (Function.update next (l₁.getLastD h) (next b)) (h :: (l₁ ++ l₂)) h := by
  obtain ⟨m, hm⟩ := cons_eq_snoc h l₁
  rw [← List.cons_append, hm, List.append_assoc, List.singleton_append] at hl hn ⊢
  have hparts := List.nodup_append.mp hn
  have hcons := List.nodup_cons.mp hparts.2.1
  refine links_bypass hl (fun hmem => ?_) (fun hmem => hcons.1 (List.mem_cons_of_mem _ hmem))
  exact hparts.2.2 _ hmem _ List.mem_cons_self rfl

theorem Circle.unlink (hr : Circle next prev h (l₁ ++ b :: l₂)) :
    Circle (Function.update next (prev b) (next b)) (Function.update prev (next b) (prev b)) h
      (l₁ ++ l₂) := by
  have hs := hr.symm_split
  refine ⟨?_, ?_, ?_⟩
  · rw [hr.prev_eq]
    exact links_unlink hr.forward hr.nodup
  · rw [List.reverse_append, hr.next_eq, ← getLastD_reverse]
    exact links_unlink hs.forward hs.nodup
  · refine hr.nodup.sublist ?_
    simp

theorem Circle.push (hr : Circle next prev h l) (hb : b ∉ h :: l) :
    Circle (Function.update (Function.update next b (next h)) h b)
      (Function.update (Function.update prev b h) (next h) b) h (b :: l) := by
  have hn := List.nodup_cons.mp hr.nodup
  have hnext : next h = l.headD h := hr.forward.1
  refine ⟨?_, ?_, ?_⟩
  · exact links_insert (m := []) hr.forward List.not_mem_nil hn.1 hb
  · -- behind the last node on the way back
    obtain ⟨m, hm⟩ := cons_eq_snoc h l.reverse
    rw [getLastD_reverse] at hm
    have hback := hr.backward
    have hlast : prev (l.headD h) = h := by
      rw [← getLastD_reverse]
      exact links_getLastD hback
    have hnodup := hr.symm.nodup
    rw [hm] at hback hnodup
    have hbm : b ∉ m ++ [l.headD h] := by
      rw [← hm]
      simpa using hb
    have hins := links_insert hback (fun hmem => (List.nodup_append.mp hnodup).2.2 _ hmem _
      List.mem_cons_self rfl) List.not_mem_nil hbm
    rw [hlast] at hins
    rw [hnext, List.reverse_cons, ← List.cons_append, hm, List.append_assoc]
    exact hins
  · simp only [List.mem_cons, not_or] at hb
    simp only [List.nodup_cons, List.mem_cons, not_or]
    exact ⟨⟨Ne.symm hb.1, hn.1⟩, hb.2, hn.2⟩

end Circle

theorem length_le_of_nodup {l : List ℕ} {n : ℕ} (h : l.Nodup) (hn : ∀ a ∈ l, a < n) :
    l.length ≤ n := by
  have hsub : l ⊆ List.range n := fun a ha => List.mem_range.mpr (hn a ha)
  have hle := (List.Nodup.subperm h hsub).length_le
  rwa [List.length_range] at hle

end ProvenXv6.Chains
