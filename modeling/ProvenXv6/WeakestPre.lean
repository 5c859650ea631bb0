import Mathlib.Tactic.Common

/-! Weakest preconditions of computations that update a state and may stop with a
fault. `wp F m Q s`: from s, m either ends with a result and a state that satisfy
Q, or stops with a fault that satisfies F. -/
namespace ProvenXv6.WeakestPre

abbrev Comp (σ ε α : Type) := StateT σ (Except ε) α

variable {σ ε α β ι : Type} {F : ε → Prop} {s : σ}

def wp (F : ε → Prop) (m : Comp σ ε α) (Q : α → σ → Prop) (s : σ) : Prop :=
  match m s with
  | .ok (a, t) => Q a t
  | .error e => F e

theorem wp_mono {m : Comp σ ε α} {Q R : α → σ → Prop} (h : wp F m Q s)
    (hqr : ∀ a t, Q a t → R a t) : wp F m R s := by
  unfold wp at h ⊢
  cases hm : m s with
  | ok p =>
    rw [hm] at h
    exact hqr _ _ h
  | error e =>
    rw [hm] at h
    exact h

theorem wp_weaken {G : ε → Prop} {m : Comp σ ε α} {Q : α → σ → Prop} (h : wp F m Q s)
    (hFG : ∀ e, F e → G e) : wp G m Q s := by
  unfold wp at h ⊢
  cases hm : m s with
  | ok p =>
    rw [hm] at h
    exact h
  | error e =>
    rw [hm] at h
    exact hFG e h

theorem wp_of_ok {m : Comp σ ε α} {Q : α → σ → Prop} {a : α} {t : σ} (hm : m s = .ok (a, t))
    (h : Q a t) : wp F m Q s := by
  rw [wp, hm]
  exact h

theorem wp_ok {m : Comp σ ε α} {Q : α → σ → Prop} {a : α} {t : σ} (h : wp F m Q s)
    (hm : m s = .ok (a, t)) : Q a t := by
  rw [wp, hm] at h
  exact h

theorem wp_error {m : Comp σ ε α} {Q : α → σ → Prop} {e : ε} (h : wp F m Q s)
    (hm : m s = .error e) : F e := by
  rw [wp, hm] at h
  exact h

theorem ok_of_mem_toOption {x : Except ε α} {a : α} (h : a ∈ x.toOption) : x = .ok a := by
  cases x with
  | ok b => rw [Option.some.inj h]
  | error e => cases h

theorem wp_total {m : Comp σ ε α} {Q : α → σ → Prop} (h : wp (fun _ => False) m Q s) :
    ∃ a t, m s = .ok (a, t) ∧ Q a t := by
  cases hm : m s with
  | ok p => exact ⟨p.1, p.2, rfl, wp_ok h hm⟩
  | error e => exact (wp_error h hm).elim

theorem wp_and {G H : ε → Prop} {m : Comp σ ε α} {Q R : α → σ → Prop} (h : wp F m Q s) (h' : wp G m R s)
    (hH : ∀ e, F e → G e → H e) : wp H m (fun a t => Q a t ∧ R a t) s := by
  unfold wp at h h' ⊢
  cases hm : m s with
  | ok p =>
    rw [hm] at h h'
    exact ⟨h, h'⟩
  | error e =>
    rw [hm] at h h'
    exact hH e h h'

theorem wp_self (m : Comp σ ε α) (s : σ) : wp (fun _ => True) m (fun a t => m s = .ok (a, t)) s := by
  unfold wp
  split
  · assumption
  · trivial

@[simp] theorem wp_pure (a : α) (Q : α → σ → Prop) :
    wp F (pure a : Comp σ ε α) Q s ↔ Q a s := Iff.rfl

@[simp] theorem wp_bind (m : Comp σ ε α) (f : α → Comp σ ε β) (Q : β → σ → Prop) :
    wp F (m >>= f) Q s ↔ wp F m (fun a t => wp F (f a) Q t) s := by
  have hbind : (m >>= f) s = (m s).bind fun p => f p.1 p.2 := rfl
  unfold wp
  rw [hbind]
  cases m s <;> rfl

@[simp] theorem wp_get (Q : σ → σ → Prop) : wp F (get : Comp σ ε σ) Q s ↔ Q s s := Iff.rfl

@[simp] theorem wp_modify (f : σ → σ) (Q : PUnit → σ → Prop) :
    wp F (modify f : Comp σ ε PUnit) Q s ↔ Q ⟨⟩ (f s) := Iff.rfl

@[simp] theorem wp_throw (e : ε) (Q : α → σ → Prop) :
    wp F (throw e : Comp σ ε α) Q s ↔ F e := Iff.rfl

/-- The rule for a loop over a list, with an invariant of what remains. -/
theorem wp_forM {f : ι → Comp σ ε PUnit} (I : List ι → σ → Prop)
    (hstep : ∀ i l s, I (i :: l) s → wp F (f i) (fun _ t => I l t) s) (l : List ι) (s : σ)
    (h : I l s) : wp F (forM l f) (fun _ t => I [] t) s := by
  induction l generalizing s with
  | nil => exact h
  | cons i l ih =>
    rw [List.forM_cons, wp_bind]
    apply wp_mono (hstep i l s h)
    intro _ t ht
    exact ih t ht

end ProvenXv6.WeakestPre
