import Mathlib.Data.Fintype.Basic
import ProvenXv6.PagingModel

namespace ProvenXv6.Paging

/-- How many frames the lookup reads. -/
def scanned (pfNum occupied : ℕ) : ℕ := if occupied < pfNum then occupied+1 else occupied

theorem mem_take_finRange {n b : ℕ} (f : Fin n) : f ∈ (List.finRange n).take b ↔ f.val < b := by
  constructor
  · intro h
    obtain ⟨i, hi, he⟩ := List.mem_iff_getElem.mp h
    simp only [List.length_take, List.length_finRange, List.getElem_take, List.getElem_finRange] at hi he
    have := congrArg Fin.val he
    simp only [Fin.val_cast] at this
    omega
  · intro h
    apply List.mem_iff_getElem.mpr
    refine ⟨f.val, by simp [h], ?_⟩
    simp [List.getElem_take]

theorem checkHit_none_iff {pfNum : ℕ} (key : ℤ) (pageFrame : Fin pfNum → ℤ) (occupied : ℕ) :
    checkHit key pageFrame occupied = none ↔
      ∀ f : Fin pfNum, f.val < scanned pfNum occupied → pageFrame f ≠ key := by
  simp only [checkHit, List.find?_eq_none, mem_take_finRange, decide_eq_true_eq, scanned, ne_eq]
  constructor <;> intro h f hf he <;> exact h f hf he.symm

theorem checkHit_some {pfNum : ℕ} {key : ℤ} {pageFrame : Fin pfNum → ℤ} {occupied : ℕ}
    {f : Fin pfNum} (h : checkHit key pageFrame occupied = some f) :
    f.val < scanned pfNum occupied ∧ pageFrame f = key := by
  have hm := List.mem_of_find?_eq_some h
  have hp := List.find?_some h
  simp only [decide_eq_true_eq] at hp
  exact ⟨(mem_take_finRange f).mp hm, hp.symm⟩

namespace Policy
variable {pfNum : ℕ} (P : Policy pfNum) {refs : List Psr}

/-- Everything one iteration can do: a hit, a load into a free frame, or a replacement. -/
theorem step_cases {i : ℕ} {r : Psr} {s s' : Sim pfNum P.Aux} (h : P.step refs i r s = some s') :
    (∃ f, checkHit r.data s.pageFrame s.occupied = some f ∧
      s' = { s with aux := P.hit (P.tick s.aux) f }) ∨
    (∃ ho : s.occupied < pfNum, checkHit r.data s.pageFrame s.occupied = none ∧
      s' = { s with
        pageFault := s.pageFault+1
        pageFrame := Function.update s.pageFrame ⟨s.occupied, ho⟩ r.data
        occupied := s.occupied+1
        occupied_le := ho
        aux := P.cold (P.tick s.aux) ⟨s.occupied, ho⟩ r }) ∨
    (s.occupied = pfNum ∧ checkHit r.data s.pageFrame s.occupied = none ∧
      ∃ index aux,
        P.replace refs i r { s with aux := P.tick s.aux, pageFault := s.pageFault+1 } =
          some (index, aux) ∧
        s' = { s with
          pageFault := s.pageFault+1
          pageFrame := Function.update s.pageFrame index r.data
          aux := aux }) := by
  unfold step at h
  cases hc : checkHit r.data s.pageFrame s.occupied with
  | some f =>
    simp only [hc, Option.some.injEq] at h
    exact Or.inl ⟨f, rfl, h.symm⟩
  | none =>
    simp only [hc] at h
    by_cases ho : s.occupied < pfNum
    · simp only [ho, ↓reduceDIte, Option.some.injEq] at h
      exact Or.inr (Or.inl ⟨ho, rfl, h.symm⟩)
    · simp only [ho, ↓reduceDIte, Option.map_eq_some_iff] at h
      obtain ⟨⟨index, aux⟩, hrep, hs⟩ := h
      exact Or.inr (Or.inr ⟨le_antisymm s.occupied_le (not_lt.mp ho), rfl, index, aux, hrep, hs.symm⟩)

theorem step_total {i : ℕ} {r : Psr} {s : Sim pfNum P.Aux}
    (h : s.occupied = pfNum → ∃ index aux,
      P.replace refs i r { s with aux := P.tick s.aux, pageFault := s.pageFault+1 } =
        some (index, aux)) : ∃ s', P.step refs i r s = some s' := by
  unfold step
  cases hc : checkHit r.data s.pageFrame s.occupied with
  | some f =>
    simp only [hc]
    exact ⟨_, rfl⟩
  | none =>
    by_cases ho : s.occupied < pfNum
    · simp only [hc, ho, ↓reduceDIte]
      exact ⟨_, rfl⟩
    · obtain ⟨index, aux, hrep⟩ := h (le_antisymm s.occupied_le (not_lt.mp ho))
      simp only [hc, ho, ↓reduceDIte, hrep, Option.map_some]
      exact ⟨_, rfl⟩

theorem stateAt_succ_iff {k : ℕ} {s' : Sim pfNum P.Aux} : P.stateAt refs (k+1) = some s' ↔
    ∃ s r, P.stateAt refs k = some s ∧ refs[k]? = some r ∧ P.step refs k r s = some s' := by
  simp only [stateAt, Option.bind_eq_bind, Option.bind_eq_some_iff]
  constructor
  · rintro ⟨s, hs, r, hr, h⟩
    exact ⟨s, r, hs, hr, h⟩
  · rintro ⟨s, r, hs, hr, h⟩
    exact ⟨s, hs, r, hr, h⟩

theorem stateAt_invariant (I : ℕ → Sim pfNum P.Aux → Prop) (h0 : I 0 P.start)
    (hstep : ∀ k s r s', refs[k]? = some r → I k s → P.step refs k r s = some s' → I (k+1) s')
    {k : ℕ} {s : Sim pfNum P.Aux} (h : P.stateAt refs k = some s) : I k s := by
  induction k generalizing s with
  | zero =>
    simp only [stateAt, Option.some.injEq] at h
    exact h ▸ h0
  | succ k ih =>
    obtain ⟨s₀, r, hs₀, hr, hs⟩ := (P.stateAt_succ_iff).mp h
    exact hstep k s₀ r s hr (ih hs₀) hs

end Policy

def pages (refs : List Psr) (k : ℕ) : List ℤ := (refs.take k).map Psr.data

theorem pages_succ {refs : List Psr} {k : ℕ} {r : Psr} (h : refs[k]? = some r) :
    pages refs (k+1) = pages refs k ++ [r.data] := by
  simp only [pages, List.take_add_one, h, Option.toList_some, List.map_append, List.map_cons,
    List.map_nil]

theorem mem_pages_succ {refs : List Psr} {k : ℕ} {r : Psr} (h : refs[k]? = some r) (p : ℤ) :
    p ∈ pages refs (k+1) ↔ p ∈ pages refs k ∨ p = r.data := by
  simp only [pages_succ h, List.mem_append, List.mem_singleton]

/-- The frames after k references: distinct referenced pages first, then free
frames. While a frame is free, -1 is not taken for a page. -/
structure Framed {pfNum : ℕ} {Aux : Type} (refs : List Psr) (k : ℕ) (s : Sim pfNum Aux) : Prop where
  distinct : ∀ f g : Fin pfNum, f.val < s.occupied → g.val < s.occupied →
    s.pageFrame f = s.pageFrame g → f = g
  free : ∀ f : Fin pfNum, s.occupied ≤ f.val → s.pageFrame f = -1
  referenced : ∀ f : Fin pfNum, f.val < s.occupied → s.pageFrame f ∈ pages refs k
  real : s.occupied < pfNum → ∀ f : Fin pfNum, f.val < s.occupied → s.pageFrame f ≠ -1

theorem framed_start {pfNum : ℕ} (P : Policy pfNum) (refs : List Psr) :
    Framed refs 0 P.start where
  distinct := fun _ _ hf _ _ => absurd hf (Nat.not_lt_zero _)
  free := fun _ _ => rfl
  referenced := fun _ hf => absurd hf (Nat.not_lt_zero _)
  real := fun _ _ hf => absurd hf (Nat.not_lt_zero _)

theorem framed_hit {pfNum : ℕ} {Aux : Type} {refs : List Psr} {k : ℕ} {r : Psr}
    {s : Sim pfNum Aux} (hr : refs[k]? = some r) (h : Framed refs k s) (aux : Aux) :
    Framed refs (k+1) { s with aux := aux } where
  distinct := h.distinct
  free := h.free
  referenced := fun f hf => (mem_pages_succ hr _).mpr (Or.inl (h.referenced f hf))
  real := h.real

theorem framed_cold {pfNum : ℕ} {Aux : Type} {refs : List Psr} {k : ℕ} {r : Psr}
    {s : Sim pfNum Aux} (hr : refs[k]? = some r) (h : Framed refs k s) (ho : s.occupied < pfNum)
    (hmiss : checkHit r.data s.pageFrame s.occupied = none) (n : ℕ) (aux : Aux) :
    Framed refs (k+1) { s with
      pageFault := n
      pageFrame := Function.update s.pageFrame ⟨s.occupied, ho⟩ r.data
      occupied := s.occupied+1
      occupied_le := ho
      aux := aux } := by
  have hnot := (checkHit_none_iff _ _ _).mp hmiss
  simp only [scanned, ho, ↓reduceIte] at hnot
  have hnew : r.data ≠ -1 := by
    have h1 := hnot ⟨s.occupied, ho⟩ (Nat.lt_succ_self _)
    rw [h.free ⟨s.occupied, ho⟩ le_rfl] at h1
    exact h1.symm
  have hold (f : Fin pfNum) (hf : f.val < s.occupied+1) (hne : f ≠ ⟨s.occupied, ho⟩) :
      f.val < s.occupied := by
    have : f.val ≠ s.occupied := fun hh => hne (Fin.ext hh)
    omega
  constructor
  · intro f g hf hg he
    dsimp only at hf hg he
    by_cases hf' : f = ⟨s.occupied, ho⟩ <;> by_cases hg' : g = ⟨s.occupied, ho⟩
    · exact hf'.trans hg'.symm
    · rw [hf', Function.update_self, Function.update_of_ne hg'] at he
      exact absurd he.symm (hnot g hg)
    · rw [hg', Function.update_self, Function.update_of_ne hf'] at he
      exact absurd he (hnot f hf)
    · rw [Function.update_of_ne hf', Function.update_of_ne hg'] at he
      exact h.distinct f g (hold f hf hf') (hold g hg hg') he
  · intro f hf
    dsimp only at hf ⊢
    have hne : f ≠ ⟨s.occupied, ho⟩ := fun hh => by
      have := congrArg Fin.val hh
      dsimp only at this
      omega
    rw [Function.update_of_ne hne]
    exact h.free f (by omega)
  · intro f hf
    dsimp only at hf ⊢
    by_cases hf' : f = ⟨s.occupied, ho⟩
    · rw [hf', Function.update_self]
      exact (mem_pages_succ hr _).mpr (Or.inr rfl)
    · rw [Function.update_of_ne hf']
      exact (mem_pages_succ hr _).mpr (Or.inl (h.referenced f (hold f hf hf')))
  · intro _ f hf
    dsimp only at hf ⊢
    by_cases hf' : f = ⟨s.occupied, ho⟩
    · rw [hf', Function.update_self]
      exact hnew
    · rw [Function.update_of_ne hf']
      exact h.real ho f (hold f hf hf')

theorem framed_replace {pfNum : ℕ} {Aux : Type} {refs : List Psr} {k : ℕ} {r : Psr}
    {s : Sim pfNum Aux} (hr : refs[k]? = some r) (h : Framed refs k s) (ho : s.occupied = pfNum)
    (hmiss : checkHit r.data s.pageFrame s.occupied = none) (index : Fin pfNum) (n : ℕ) (aux : Aux) :
    Framed refs (k+1) { s with
      pageFault := n
      pageFrame := Function.update s.pageFrame index r.data
      aux := aux } := by
  have hnot := (checkHit_none_iff _ _ _).mp hmiss
  simp only [scanned, ho, lt_irrefl, ↓reduceIte] at hnot
  constructor
  · intro f g hf hg he
    dsimp only at hf hg he
    by_cases hf' : f = index <;> by_cases hg' : g = index
    · exact hf'.trans hg'.symm
    · rw [hf', Function.update_self, Function.update_of_ne hg'] at he
      exact absurd he.symm (hnot g g.isLt)
    · rw [hg', Function.update_self, Function.update_of_ne hf'] at he
      exact absurd he (hnot f f.isLt)
    · rw [Function.update_of_ne hf', Function.update_of_ne hg'] at he
      exact h.distinct f g hf hg he
  · intro f hf
    dsimp only at hf
    have := f.isLt
    omega
  · intro f hf
    dsimp only at hf ⊢
    by_cases hf' : f = index
    · rw [hf', Function.update_self]
      exact (mem_pages_succ hr _).mpr (Or.inr rfl)
    · rw [Function.update_of_ne hf']
      exact (mem_pages_succ hr _).mpr (Or.inl (h.referenced f hf))
  · intro hlt
    dsimp only at hlt
    omega

theorem framed_step {pfNum : ℕ} (P : Policy pfNum) {refs : List Psr} {k : ℕ} {r : Psr}
    {s s' : Sim pfNum P.Aux} (hr : refs[k]? = some r) (h : Framed refs k s)
    (hs : P.step refs k r s = some s') : Framed refs (k+1) s' := by
  rcases P.step_cases hs with ⟨f, _, rfl⟩ | ⟨ho, hmiss, rfl⟩ | ⟨ho, hmiss, index, aux, _, rfl⟩
  · exact framed_hit hr h _
  · exact framed_cold hr h ho hmiss _ _
  · exact framed_replace hr h ho hmiss _ _ _

/-- The frames are well formed after every step of every run. -/
theorem framed_stateAt {pfNum : ℕ} (P : Policy pfNum) {refs : List Psr} {k : ℕ}
    {s : Sim pfNum P.Aux} (h : P.stateAt refs k = some s) : Framed refs k s :=
  P.stateAt_invariant (fun k s => Framed refs k s) (framed_start P refs)
    (fun _ _ _ _ hr hi hs => framed_step P hr hi hs) h

end ProvenXv6.Paging
