import ProvenXv6.WeakestPre

namespace ProvenXv6.Lockstep
open WeakestPre

variable {σ ε α β : Type} {R : σ → σ → Prop} {s s' : σ}

/-- When m ends from s, m' ends from s' with the same result, and R relates the states. -/
def Follows (R : σ → σ → Prop) (m m' : Comp σ ε α) (s s' : σ) : Prop :=
  wp (fun _ => True) m (fun a t => ∃ t', m' s' = .ok (a, t') ∧ R t t') s

theorem follows_pure (a : α) (h : R s s') : Follows R (pure a : Comp σ ε α) (pure a) s s' := ⟨s', rfl, h⟩

theorem follows_throw (e : ε) : Follows R (throw e : Comp σ ε α) (throw e) s s' := trivial

theorem wp_of_run {F : ε → Prop} {m : Comp σ ε α} {Q : α → σ → Prop} (hfail : ∀ e, m s = .error e → F e)
    (hok : ∀ a t, m s = .ok (a, t) → Q a t) : wp F m Q s := by
  cases hm : m s with
  | ok p =>
    rw [wp, hm]
    exact hok p.1 p.2 hm
  | error e =>
    rw [wp, hm]
    exact hfail e hm

theorem bind_ok {m : Comp σ ε α} {f : α → Comp σ ε β} {a : α} {t : σ} (h : m s = .ok (a, t)) :
    (m >>= f) s = f a t := by
  have hbind : (m >>= f) s = (m s).bind fun p => f p.1 p.2 := rfl
  rw [hbind, h]
  rfl

theorem bind_eq_ok {m : Comp σ ε α} {f : α → Comp σ ε β} {p : β × σ} :
    (m >>= f) s = .ok p ↔ ∃ a t, m s = .ok (a, t) ∧ f a t = .ok p := by
  constructor
  · intro h
    have hbind : (m >>= f) s = (m s).bind fun p => f p.1 p.2 := rfl
    cases hm : m s with
    | error e =>
      rw [hbind, hm] at h
      cases h
    | ok q =>
      rw [bind_ok (a := q.1) (t := q.2) hm] at h
      exact ⟨q.1, q.2, rfl, h⟩
  · rintro ⟨a, t, hm, h⟩
    rw [bind_ok hm, h]

/-- Q is what is known of the first computation alone. -/
theorem Follows.bind_of {m m' : Comp σ ε α} {f f' : α → Comp σ ε β} {Q : α → σ → Prop} (h : Follows R m m' s s')
    (hQ : wp (fun _ => True) m Q s) (hf : ∀ a t t', Q a t → R t t' → Follows R (f a) (f' a) t t') :
    Follows R (m >>= f) (m' >>= f') s s' := by
  unfold Follows
  rw [wp_bind]
  apply wp_mono (wp_and (H := fun _ => True) h hQ fun _ _ _ => trivial)
  rintro a t ⟨⟨t', ht', hR⟩, hq⟩
  rw [bind_ok ht']
  exact hf a t t' hq hR

theorem Follows.bind {m m' : Comp σ ε α} {f f' : α → Comp σ ε β} (h : Follows R m m' s s')
    (hf : ∀ a t t', R t t' → Follows R (f a) (f' a) t t') : Follows R (m >>= f) (m' >>= f') s s' :=
  h.bind_of (wp_mono h fun _ _ _ => trivial) fun a t t' _ => hf a t t'

theorem follows_get {f f' : σ → Comp σ ε α} (h : Follows R (f s) (f' s') s s') :
    Follows R (get >>= f) (get >>= f') s s' := by
  unfold Follows
  rw [wp_bind, wp_get]
  exact h

theorem Follows.run {m m' : Comp σ ε α} {a : α} {t : σ} (h : Follows R m m' s s') (hm : m s = .ok (a, t)) :
    ∃ t', m' s' = .ok (a, t') ∧ R t t' := wp_ok h hm

/-- m stops with e, or it does what m' does. -/
def Guards (e : ε) (m m' : Comp σ ε α) : Prop := ∀ s, m s = .error e ∨ m s = m' s

theorem Guards.refl (e : ε) (m : Comp σ ε α) : Guards e m m := fun _ => Or.inr rfl

theorem Guards.bind {e : ε} {m m' : Comp σ ε α} {f f' : α → Comp σ ε β} (h : Guards e m m')
    (hf : ∀ a, Guards e (f a) (f' a)) : Guards e (m >>= f) (m' >>= f') := by
  intro s
  have hbind (n : Comp σ ε α) (g : α → Comp σ ε β) : (n >>= g) s = (n s).bind fun p => g p.1 p.2 := rfl
  rw [hbind, hbind]
  rcases h s with he | hs
  · left
    rw [he]
    rfl
  · rw [← hs]
    cases hm : m s with
    | error e => exact Or.inr rfl
    | ok p => exact hf p.1 p.2

end ProvenXv6.Lockstep
