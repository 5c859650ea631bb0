import Mathlib.Logic.Basic
import Mathlib.Tactic.Common

/-! Runs of a partial step function. `Run step Q s es t`: the events es lead from
s to t, and every step of the way satisfies Q. -/
namespace ProvenXv6.StepSystem

variable {σ ε : Type*} {step : σ → ε → Option σ} {Q R : σ → ε → σ → Prop}

inductive Run (step : σ → ε → Option σ) (Q : σ → ε → σ → Prop) : σ → List ε → σ → Prop
  | nil (s : σ) : Run step Q s [] s
  | cons {s s' t : σ} {e : ε} {es : List ε} (h : step s e = some s') (hq : Q s e s')
      (hr : Run step Q s' es t) : Run step Q s (e :: es) t

/-- A run without a condition on its steps. -/
def Free : σ → ε → σ → Prop := fun _ _ _ => True

def Reachable (step : σ → ε → Option σ) (init s : σ) : Prop := ∃ es, Run step Free init es s

theorem Run.mono {s t : σ} {es : List ε} (h : Run step Q s es t)
    (hqr : ∀ s e s', step s e = some s' → Q s e s' → R s e s') : Run step R s es t := by
  induction h with
  | nil s => exact .nil s
  | cons h hq _ ih => exact .cons h (hqr _ _ _ h hq) ih

theorem Run.mem {s t : σ} {es : List ε} (h : Run step Q s es t) :
    Run step (fun s e s' => Q s e s' ∧ e ∈ es) s es t := by
  induction h with
  | nil s => exact .nil s
  | cons h hq _ ih =>
    refine .cons h ⟨hq, List.mem_cons_self⟩ (ih.mono fun _ _ _ _ hq => ?_)
    exact ⟨hq.1, List.mem_cons_of_mem _ hq.2⟩

theorem Run.append {s t u : σ} {es fs : List ε} (h : Run step Q s es t) (h' : Run step Q t fs u) :
    Run step Q s (es ++ fs) u := by
  induction h with
  | nil s => exact h'
  | cons h hq _ ih => exact .cons h hq (ih h')

theorem Reachable.next {init s s' : σ} {e : ε} (h : Reachable step init s)
    (hs : step s e = some s') : Reachable step init s' := by
  obtain ⟨es, hr⟩ := h
  exact ⟨es ++ [e], hr.append (.cons hs trivial (.nil _))⟩

/-- The invariant rule for runs: what holds before the first step and is kept by
every step that the run may take holds after the last. -/
theorem Run.invariant {I : σ → Prop} {s t : σ} {es : List ε} (h : Run step Q s es t) (h0 : I s)
    (hstep : ∀ s e s', I s → step s e = some s' → Q s e s' → I s') : I t := by
  induction h with
  | nil s => exact h0
  | cons h hq _ ih => exact ih (hstep _ _ _ h0 h hq)

theorem Reachable.invariant {I : σ → Prop} {init s : σ} (h : Reachable step init s) (h0 : I init)
    (hstep : ∀ s e s', I s → step s e = some s' → I s') : I s := by
  obtain ⟨es, hr⟩ := h
  exact hr.invariant h0 (fun s e s' hi hs _ => hstep s e s' hi hs)

/-- Under an invariant, a condition that implies another one on every step does so
on whole runs. -/
theorem Run.mono_of_invariant {I : σ → Prop} {s t : σ} {es : List ε} (h : Run step Q s es t)
    (h0 : I s) (hstep : ∀ s e s', I s → step s e = some s' → I s')
    (hqr : ∀ s e s', I s → step s e = some s' → Q s e s' → R s e s') : Run step R s es t := by
  induction h with
  | nil s => exact .nil s
  | cons h hq _ ih => exact .cons h (hqr _ _ _ h0 h hq) (ih (hstep _ _ _ h0 h))

theorem Run.congr {I : σ → Prop} {s t : σ} {es : List ε} (h0 : I s)
    (hstep : ∀ s e s', I s → step s e = some s' → I s')
    (hqr : ∀ s e s', I s → step s e = some s' → (Q s e s' ↔ R s e s')) :
    Run step Q s es t ↔ Run step R s es t :=
  ⟨fun h => h.mono_of_invariant h0 hstep fun s e s' hi hs => (hqr s e s' hi hs).mp,
    fun h => h.mono_of_invariant h0 hstep fun s e s' hi hs => (hqr s e s' hi hs).mpr⟩

/-- A step on both sides of which P holds. -/
def Keeps (P : σ → Prop) : σ → ε → σ → Prop := fun s _ s' => P s ∧ P s'

/-- A property that holds at first holds throughout, or up to a first step after
which it does not. -/
theorem Run.keeps_or_first {P : σ → Prop} {s t : σ} {es : List ε} (h : Run step Q s es t)
    (hs : P s) :
    Run step (Keeps P) s es t ∨ ∃ es₁ e es₂ u u', es = es₁ ++ e :: es₂ ∧
      Run step (Keeps P) s es₁ u ∧ P u ∧ step u e = some u' ∧ Q u e u' ∧ ¬ P u' ∧
      Run step Q u' es₂ t := by
  induction h with
  | nil s => exact Or.inl (.nil s)
  | @cons s s' t e es h hq hr ih =>
    by_cases hs' : P s'
    · rcases ih hs' with hk | ⟨es₁, e', es₂, u, u', rfl, hk, hu⟩
      · exact Or.inl (.cons h ⟨hs, hs'⟩ hk)
      · exact Or.inr ⟨e :: es₁, e', es₂, u, u', rfl, .cons h ⟨hs, hs'⟩ hk, hu⟩
    · exact Or.inr ⟨[], e, es, s, s', rfl, .nil s, hs, h, hq, hs', hr⟩

/-- A property that holds at the end holds throughout, or from a last step before
which it does not. -/
theorem Run.keeps_or_last {P : σ → Prop} {s t : σ} {es : List ε} (h : Run step Q s es t)
    (ht : P t) :
    P s ∧ Run step (Keeps P) s es t ∨ ∃ es₁ e es₂ u u', es = es₁ ++ e :: es₂ ∧
      Run step Q s es₁ u ∧ ¬ P u ∧ step u e = some u' ∧ Q u e u' ∧ P u' ∧
      Run step (Keeps P) u' es₂ t := by
  induction h with
  | nil s => exact Or.inl ⟨ht, .nil s⟩
  | @cons s s' t e es h hq hr ih =>
    rcases ih ht with ⟨hs', hk⟩ | ⟨es₁, e', es₂, u, u', rfl, hr₁, hu⟩
    · by_cases hs : P s
      · exact Or.inl ⟨hs, .cons h ⟨hs, hs'⟩ hk⟩
      · exact Or.inr ⟨[], e, es, s, s', rfl, .nil s, hs, h, hq, hs', hk⟩
    · exact Or.inr ⟨e :: es₁, e', es₂, u, u', rfl, .cons h hq hr₁, hu⟩

/-- The state after the events, when all of them can happen. -/
def exec (step : σ → ε → Option σ) : σ → List ε → Option σ
  | s, [] => some s
  | s, e :: es => (step s e).bind (exec step · es)

theorem run_exec {s t : σ} {es : List ε} (h : exec step s es = some t) : Run step Free s es t := by
  induction es generalizing s with
  | nil => exact Option.some.inj h ▸ .nil s
  | cons e es ih =>
    obtain ⟨s', hs, hr⟩ := Option.bind_eq_some_iff.mp h
    exact .cons hs trivial (ih hr)

theorem reachable_of_exec {P : σ → Prop} {s : σ} {es : List ε} (h : ∃ t ∈ exec step s es, P t) :
    ∃ t, Reachable step s t ∧ P t := by
  obtain ⟨t, ht, hp⟩ := h
  exact ⟨t, ⟨es, run_exec ht⟩, hp⟩

/-- The step function that only takes the steps satisfying Q. -/
def guarded (step : σ → ε → Option σ) (Q : σ → ε → σ → Prop) [∀ s e s', Decidable (Q s e s')]
    (s : σ) (e : ε) : Option σ := (step s e).filter (Q s e ·)

theorem run_guarded [∀ s e s', Decidable (Q s e s')] {s t : σ} {es : List ε}
    (h : exec (guarded step Q) s es = some t) : Run step Q s es t := by
  induction es generalizing s with
  | nil => exact Option.some.inj h ▸ .nil s
  | cons e es ih =>
    obtain ⟨s', hs, hr⟩ := Option.bind_eq_some_iff.mp h
    obtain ⟨hs, hq⟩ := Option.filter_eq_some_iff.mp hs
    exact .cons hs (of_decide_eq_true hq) (ih hr)

end ProvenXv6.StepSystem
