import Mathlib.Data.Finset.Card
import ProvenXv6.WeakestPre

namespace ProvenXv6.Recording
open WeakestPre

variable {σ ρ ε α β : Type}

/-- A state with a record of what was noted, the oldest first. -/
structure Recorded (σ ρ : Type) where
  state : σ
  record : List ρ

/-- A computation in which nothing is noted. -/
def silent (m : Comp σ ε α) : Comp (Recorded σ ρ) ε α := fun s =>
  match m s.state with
  | .ok (a, t) => .ok (a, { s with state := t })
  | .error e => .error e

def note (x : ρ) : Comp (Recorded σ ρ) ε Unit := modify fun s => { s with record := s.record ++ [x] }

/-- Without the record m is m'. -/
def Erases (m : Comp (Recorded σ ρ) ε α) (m' : Comp σ ε α) : Prop :=
  ∀ s, (m s).map (fun r => (r.1, r.2.state)) = m' s.state

theorem erases_pure (a : α) : Erases (pure a : Comp (Recorded σ ρ) ε α) (pure a) := fun _ => rfl

theorem erases_throw (e : ε) : Erases (throw e : Comp (Recorded σ ρ) ε α) (throw e) := fun _ => rfl

theorem erases_silent (m : Comp σ ε α) : Erases (silent m : Comp (Recorded σ ρ) ε α) m := by
  intro s
  unfold silent
  cases hm : m s.state <;> rfl

theorem Erases.bind {m : Comp (Recorded σ ρ) ε α} {m' : Comp σ ε α} {f : α → Comp (Recorded σ ρ) ε β}
    {f' : α → Comp σ ε β} (h : Erases m m') (hf : ∀ a, Erases (f a) (f' a)) : Erases (m >>= f) (m' >>= f') := by
  intro s
  have hs := h s
  have hbind : (m >>= f) s = (m s).bind fun p => f p.1 p.2 := rfl
  have hbind' : (m' >>= f') s.state = (m' s.state).bind fun p => f' p.1 p.2 := rfl
  rw [hbind, hbind', ← hs]
  cases m s with
  | error e => rfl
  | ok p => exact hf p.1 p.2

theorem Erases.ite {c : Prop} [Decidable c] {m n : Comp (Recorded σ ρ) ε α} {m' n' : Comp σ ε α}
    (hm : c → Erases m m') (hn : ¬c → Erases n n') : Erases (if c then m else n) (if c then m' else n') := by
  split_ifs with hc
  · exact hm hc
  · exact hn hc

theorem erases_noted (m : Comp σ ε Unit) (x : ρ) :
    Erases (do silent m; note x : Comp (Recorded σ ρ) ε Unit) m := by
  intro s
  have hbind : (do silent m; note x : Comp (Recorded σ ρ) ε Unit) s =
      (silent m s).bind fun p => .ok ((), { p.2 with record := p.2.record ++ [x] }) := rfl
  rw [hbind]
  unfold silent
  cases m s.state <;> rfl

section Rules
variable {F : ε → Prop} {s : Recorded σ ρ}

@[simp] theorem wp_silent (m : Comp σ ε α) (Q : α → Recorded σ ρ → Prop) :
    wp F (silent m) Q s ↔ wp F m (fun a t => Q a { s with state := t }) s.state := by
  unfold wp silent
  cases m s.state <;> rfl

@[simp] theorem wp_note (x : ρ) (Q : Unit → Recorded σ ρ → Prop) :
    wp F (note x) Q s ↔ Q () { s with record := s.record ++ [x] } := Iff.rfl

theorem Erases.wp_iff {m : Comp (Recorded σ ρ) ε α} {m' : Comp σ ε α} (h : Erases m m') (Q : α → σ → Prop) :
    wp F m (fun a t => Q a t.state) s ↔ wp F m' Q s.state := by
  unfold wp
  rw [← h s]
  cases m s <;> rfl

end Rules

/-- From s to t only things in A are noted. -/
def Notes (A : ρ → Prop) (s t : Recorded σ ρ) : Prop := ∃ l, t.record = s.record ++ l ∧ ∀ x ∈ l, A x

section Notes
variable {A B : ρ → Prop} {s t u : Recorded σ ρ}

theorem Notes.of_eq (h : t.record = s.record) : Notes A s t :=
  ⟨[], h.trans (List.append_nil _).symm, fun _ hx => absurd hx List.not_mem_nil⟩

theorem Notes.trans (h : Notes A s t) (h' : Notes A t u) : Notes A s u := by
  obtain ⟨l, hl, hA⟩ := h
  obtain ⟨l', hl', hA'⟩ := h'
  refine ⟨l ++ l', by rw [hl', hl, List.append_assoc], fun x hx => ?_⟩
  exact (List.mem_append.mp hx).elim (hA x) (hA' x)

theorem Notes.mono (h : Notes A s t) (hAB : ∀ x, A x → B x) : Notes B s t := by
  obtain ⟨l, hl, hA⟩ := h
  exact ⟨l, hl, fun x hx => hAB x (hA x hx)⟩

theorem Notes.one {x : ρ} (h : t.record = s.record ++ [x]) (hx : A x) : Notes A s t :=
  ⟨[x], h, fun _ hy => List.mem_singleton.mp hy ▸ hx⟩

theorem Notes.card_le [DecidableEq ρ] {L : List ρ} (h : Notes (· ∈ L) s t) :
    ∃ l, t.record = s.record ++ l ∧ l.toFinset.card ≤ L.length := by
  obtain ⟨l, hl, hmem⟩ := h
  have hsub : l.toFinset ⊆ L.toFinset := fun x hx =>
    List.mem_toFinset.mpr (hmem x (List.mem_toFinset.mp hx))
  exact ⟨l, hl, (Finset.card_le_card hsub).trans (List.toFinset_card_le L)⟩

end Notes

end ProvenXv6.Recording
