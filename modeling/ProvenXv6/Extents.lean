import Mathlib.Data.List.Basic
import Mathlib.Data.Nat.Notation
import Mathlib.Tactic.Common

namespace ProvenXv6.Extents

structure Extent where
  addr : ℕ
  size : ℕ
  deriving DecidableEq, Repr

def Extent.fin (e : Extent) : ℕ := e.addr+e.size

def Extent.Has (e : Extent) (x : ℕ) : Prop := e.addr ≤ x ∧ x < e.fin

instance (e : Extent) (x : ℕ) : Decidable (e.Has x) := inferInstanceAs (Decidable (_ ∧ _))

variable {e f p b : Extent} {l l₁ l₂ m : List Extent} {x : ℕ}

/-- How many ranges of the list hold an address. -/
def cover (l : List Extent) (x : ℕ) : ℕ := l.countP fun e => e.Has x

theorem cover_nil : cover [] x = 0 := rfl

theorem cover_cons : cover (e :: l) x = cover l x+if e.Has x then 1 else 0 := by
  simp [cover, List.countP_cons]

theorem cover_append : cover (l ++ m) x = cover l x+cover m x := List.countP_append

theorem cover_perm (h : l.Perm m) : cover l x = cover m x := h.countP_eq _

theorem cover_pos (he : e ∈ l) (hx : e.Has x) : 0 < cover l x :=
  List.countP_pos_iff.mpr ⟨e, he, decide_eq_true hx⟩

theorem exists_of_cover_pos (h : 0 < cover l x) : ∃ e ∈ l, e.Has x := by
  obtain ⟨e, he, hx⟩ := List.countP_pos_iff.mp h
  exact ⟨e, he, of_decide_eq_true hx⟩

theorem cover_eq_zero (h : ∀ e ∈ l, ¬e.Has x) : cover l x = 0 := by
  apply Nat.eq_zero_of_not_pos
  intro hpos
  obtain ⟨e, he, hx⟩ := exists_of_cover_pos hpos
  exact h e he hx

theorem has_addr (h : 0 < e.size) : e.Has e.addr := ⟨Nat.le_refl _, Nat.lt_add_of_pos_right h⟩

theorem has_split {a s t : ℕ} (h : t ≤ s) : (if Extent.Has ⟨a, s⟩ x then 1 else 0) =
    (if Extent.Has ⟨a, s-t⟩ x then 1 else 0)+if Extent.Has ⟨a+(s-t), t⟩ x then 1 else 0 := by
  split_ifs <;> simp only [Extent.Has, Extent.fin] at * <;> omega

theorem fin_le_of_disjoint (h : ∀ x, ¬(e.Has x ∧ f.Has x)) (hf : 0 < f.size)
    (hlt : e.addr < f.addr) : e.fin ≤ f.addr := by
  by_contra hc
  exact h f.addr ⟨⟨Nat.le_of_lt hlt, Nat.lt_of_not_le hc⟩, has_addr hf⟩

/-- In address order, and no range ends where another one starts. -/
def Separated (l : List Extent) : Prop := l.Pairwise fun e f => e.fin < f.addr

theorem addr_lt_of_fin_lt (h : e.fin < f.addr) : e.addr < f.addr :=
  Nat.lt_of_le_of_lt (Nat.le_add_right _ _) h

theorem Separated.nodup (h : Separated l) : (l.map Extent.addr).Nodup := by
  rw [List.Nodup, List.pairwise_map]
  exact h.imp fun hef => Nat.ne_of_lt (addr_lt_of_fin_lt hef)

theorem exists_place (hl : Separated (e :: l)) (he : e.addr < x) (hx : ∀ f ∈ l, f.addr ≠ x) :
    ∃ l₁ p l₂, e :: l = l₁ ++ p :: l₂ ∧ p.addr < x ∧ ∀ f ∈ l₂, x < f.addr := by
  induction l generalizing e with
  | nil => exact ⟨[], e, [], rfl, he, by simp⟩
  | cons f l ih =>
    have hsep := List.pairwise_cons.mp hl
    rcases Nat.lt_or_gt_of_ne (hx f List.mem_cons_self) with hf | hf
    · obtain ⟨l₁, p, l₂, h, hp, hl₂⟩ := ih hsep.2 hf fun g hg => hx g (List.mem_cons_of_mem _ hg)
      exact ⟨e :: l₁, p, l₂, by rw [h, List.cons_append], hp, hl₂⟩
    · refine ⟨[], e, f :: l, rfl, he, ?_⟩
      intro g hg
      rcases List.mem_cons.mp hg with rfl | hg
      · exact hf
      · exact Nat.lt_trans hf (addr_lt_of_fin_lt ((List.pairwise_cons.mp hsep.2).1 g hg))

/-- A range in front of a list, as one with the first of the list if they touch. -/
def join (e : Extent) : List Extent → List Extent
  | [] => [e]
  | f :: l => if e.fin = f.addr then ⟨e.addr, e.size+f.size⟩ :: l else e :: f :: l

theorem exists_join (e : Extent) (l : List Extent) :
    ∃ s m, join e l = ⟨e.addr, s⟩ :: m ∧ e.size ≤ s ∧ ∀ f ∈ m, f ∈ l := by
  cases l with
  | nil => exact ⟨e.size, [], rfl, Nat.le_refl _, by simp⟩
  | cons f l =>
    rw [join]
    split_ifs with h
    · exact ⟨_, l, rfl, Nat.le_add_right _ _, fun g hg => List.mem_cons_of_mem _ hg⟩
    · exact ⟨_, f :: l, rfl, Nat.le_refl _, fun g hg => hg⟩

theorem cover_join : cover (join e l) x = cover (e :: l) x := by
  cases l with
  | nil => rfl
  | cons f l =>
    rw [join]
    split_ifs with h
    · simp only [cover_cons]
      split_ifs <;> simp only [Extent.Has, Extent.fin] at * <;> omega
    · rfl

theorem separated_join (hl : Separated l) (he : ∀ f ∈ l, e.fin ≤ f.addr) :
    Separated (join e l) := by
  cases l with
  | nil => exact List.pairwise_singleton _ _
  | cons f l =>
    have hf := List.pairwise_cons.mp hl
    rw [join]
    split_ifs with h
    · -- the joined range ends where f does
      refine List.pairwise_cons.mpr ⟨fun g hg => ?_, hf.2⟩
      have hg := hf.1 g hg
      simp only [Extent.fin] at h hg ⊢
      omega
    · refine List.pairwise_cons.mpr ⟨fun g hg => ?_, hl⟩
      have hef : e.fin < f.addr := Nat.lt_of_le_of_ne (he f List.mem_cons_self) h
      rcases List.mem_cons.mp hg with rfl | hg
      · exact hef
      · exact Nat.lt_trans hef (addr_lt_of_fin_lt (hf.1 g hg))

theorem addr_ge_of_mem_join (h : ∀ f ∈ l, x ≤ f.addr) (he : x ≤ e.addr) :
    ∀ f ∈ join e l, x ≤ f.addr := by
  obtain ⟨s, m, hj, -, hm⟩ := exists_join e l
  intro f hf
  rw [hj] at hf
  rcases List.mem_cons.mp hf with rfl | hf
  · exact he
  · exact h f (hm f hf)

theorem fin_le_of_mem_join (h : ∀ f ∈ l, f.fin ≤ x) (he : e.fin ≤ x) :
    ∀ f ∈ join e l, f.fin ≤ x := by
  cases l with
  | nil => simpa [join] using he
  | cons f l =>
    rw [List.forall_mem_cons] at h
    rw [join]
    split_ifs with ht
    · refine List.forall_mem_cons.mpr ⟨?_, h.2⟩
      have := h.1
      simp only [Extent.fin] at ht this ⊢
      omega
    · exact List.forall_mem_cons.mpr ⟨he, List.forall_mem_cons.mpr h⟩

theorem size_pos_of_mem_join (h : ∀ f ∈ l, 0 < f.size) (he : 0 < e.size) :
    ∀ f ∈ join e l, 0 < f.size := by
  obtain ⟨s, m, hj, hs, hm⟩ := exists_join e l
  rw [hj]
  exact List.forall_mem_cons.mpr ⟨Nat.lt_of_lt_of_le he hs, fun f hf => h f (hm f hf)⟩

theorem separated_insert (h : Separated (l₁ ++ p :: l₂)) (hb : p.fin ≤ b.addr)
    (hl : ∀ f ∈ l₂, b.fin ≤ f.addr) : Separated (l₁ ++ join p (join b l₂)) := by
  obtain ⟨h1, h2, h12⟩ := List.pairwise_append.mp h
  obtain ⟨hp, h2⟩ := List.pairwise_cons.mp h2
  have hfin : b.addr ≤ b.fin := Nat.le_add_right _ _
  have hge : ∀ f ∈ join b l₂, b.addr ≤ f.addr :=
    addr_ge_of_mem_join (fun f hf => Nat.le_trans hfin (hl f hf)) (Nat.le_refl _)
  refine List.pairwise_append.mpr ⟨h1, ?_, ?_⟩
  · exact separated_join (separated_join h2 hl) fun f hf => Nat.le_trans hb (hge f hf)
  · intro e he f hf
    have hep := h12 e he p List.mem_cons_self
    have hpf : p.addr ≤ f.addr := addr_ge_of_mem_join
      (fun g hg => Nat.le_trans (Nat.le_trans (Nat.le_add_right _ _) hb) (hge g hg)) (Nat.le_refl _) f hf
    exact Nat.lt_of_lt_of_le hep hpf

theorem cover_insert : cover (l₁ ++ join p (join b l₂)) x =
    cover (l₁ ++ p :: l₂) x+cover [b] x := by
  simp only [cover_append, cover_join, cover_cons, cover_nil]
  omega

end ProvenXv6.Extents
