import Mathlib.Logic.Function.Basic
import Mathlib.Tactic.Common

namespace ProvenXv6.Ownership

variable {σ β : Type*}

/-- Every reference other than null is held by one slot, and the blocks that are
referred to are the used ones. -/
structure Owned (ref : σ → β) (null : β) (used : β → Prop) : Prop where
  unique : ∀ r r', ref r ≠ null → ref r = ref r' → r = r'
  used_iff : ∀ b, used b ↔ b ≠ null ∧ ∃ r, ref r = b

section Rules
variable {ref : σ → β} {null : β} {used : β → Prop}

theorem Owned.used_ref (h : Owned ref null used) {r : σ} (hr : ref r ≠ null) : used (ref r) :=
  (h.used_iff _).mpr ⟨hr, r, rfl⟩

theorem Owned.congr {ref' : σ → β} {used' : β → Prop} (h : Owned ref null used)
    (hr : ∀ r, ref' r = ref r) (hu : ∀ b, used' b ↔ used b) : Owned ref' null used' := by
  have hfun : ref' = ref := funext hr
  have hset : used' = used := funext fun b => propext (hu b)
  rw [hfun, hset]
  exact h

variable [DecidableEq σ]

theorem Owned.attach (h : Owned ref null used) {r : σ} {b : β} (hr : ref r = null) (hb : ¬used b)
    (hnull : b ≠ null) : Owned (Function.update ref r b) null (fun x => used x ∨ x = b) where
  unique := by
    intro p q hp he
    by_cases hpr : p = r <;> by_cases hqr : q = r
    · rw [hpr, hqr]
    · -- q would already refer to the free block
      rw [hpr, Function.update_self, Function.update_of_ne hqr] at he
      exact absurd ((h.used_iff b).mpr ⟨hnull, q, he.symm⟩) hb
    · rw [hqr, Function.update_self, Function.update_of_ne hpr] at he
      exact absurd ((h.used_iff b).mpr ⟨hnull, p, he⟩) hb
    · rw [Function.update_of_ne hpr] at hp he
      rw [Function.update_of_ne hqr] at he
      exact h.unique p q hp he
  used_iff := by
    intro x
    constructor
    · rintro (hx | rfl)
      · obtain ⟨hne, p, hp⟩ := (h.used_iff x).mp hx
        have hpr : p ≠ r := by
          rintro rfl
          exact hne (hp.symm.trans hr)
        exact ⟨hne, p, by rw [Function.update_of_ne hpr, hp]⟩
      · exact ⟨hnull, r, Function.update_self ..⟩
    · rintro ⟨hne, p, hp⟩
      by_cases hpr : p = r
      · rw [hpr, Function.update_self] at hp
        exact Or.inr hp.symm
      · rw [Function.update_of_ne hpr] at hp
        exact Or.inl ((h.used_iff x).mpr ⟨hne, p, hp⟩)

theorem Owned.detach (h : Owned ref null used) {r : σ} (hr : ref r ≠ null) :
    Owned (Function.update ref r null) null (fun x => used x ∧ x ≠ ref r) where
  unique := by
    intro p q hp he
    have hpr : p ≠ r := by
      rintro rfl
      exact hp (Function.update_self ..)
    rw [Function.update_of_ne hpr] at hp he
    have hqr : q ≠ r := by
      rintro rfl
      rw [Function.update_self] at he
      exact hp he
    rw [Function.update_of_ne hqr] at he
    exact h.unique p q hp he
  used_iff := by
    intro x
    constructor
    · rintro ⟨hx, hxr⟩
      obtain ⟨hne, p, hp⟩ := (h.used_iff x).mp hx
      have hpr : p ≠ r := by
        rintro rfl
        exact hxr hp.symm
      exact ⟨hne, p, by rw [Function.update_of_ne hpr, hp]⟩
    · rintro ⟨hne, p, hp⟩
      have hpr : p ≠ r := by
        rintro rfl
        rw [Function.update_self] at hp
        exact hne hp.symm
      rw [Function.update_of_ne hpr] at hp
      refine ⟨(h.used_iff x).mpr ⟨hne, p, hp⟩, ?_⟩
      intro hxr
      exact hpr (h.unique p r (by rw [hp]; exact hne) (hp.trans hxr))

end Rules

end ProvenXv6.Ownership
