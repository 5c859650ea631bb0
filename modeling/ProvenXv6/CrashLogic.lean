import Mathlib.Logic.Function.Basic
import Mathlib.Tactic.Common

/-! Programs that write to a disk block by block, and triples for them with a
crash condition. A program reads the disk and gives the list of its writes, or
none where its behaviour is undefined; a crash keeps some of the first writes. -/
namespace ProvenXv6.CrashLogic

variable {α β : Type*} [DecidableEq α]

def applyWrites (ws : List (α × β)) (d : α → β) : α → β :=
  ws.foldl (fun d w => Function.update d w.1 w.2) d

@[simp] theorem applyWrites_nil (d : α → β) : applyWrites [] d = d := rfl

@[simp] theorem applyWrites_cons (w : α × β) (ws : List (α × β)) (d : α → β) :
    applyWrites (w :: ws) d = applyWrites ws (Function.update d w.1 w.2) := rfl

theorem applyWrites_append (ws vs : List (α × β)) (d : α → β) :
    applyWrites (ws ++ vs) d = applyWrites vs (applyWrites ws d) :=
  List.foldl_append ..

abbrev Prog (α β : Type*) := (α → β) → Option (List (α × β))

def skip : Prog α β := fun _ => some []

/-- One block write, of a content read off the disk. -/
def write (a : α) (f : (α → β) → β) : Prog α β := fun d => some [(a, f d)]

def seq (p q : Prog α β) : Prog α β := fun d =>
  (p d).bind fun ws => (q (applyWrites ws d)).map (ws ++ ·)

/-- The bodies i, i+1, ... one after another, n of them. -/
def loopFrom (body : ℕ → Prog α β) : ℕ → ℕ → Prog α β
  | _, 0 => skip
  | i, n+1 => seq (body i) (loopFrom body (i+1) n)

def loop (n : ℕ) (body : ℕ → Prog α β) : Prog α β := loopFrom body 0 n

/-- From a disk that satisfies P the program is defined, every crash leaves a
disk that satisfies C, and its end one that satisfies Q. -/
def Triple (P : (α → β) → Prop) (p : Prog α β) (Q C : (α → β) → Prop) : Prop :=
  ∀ d, P d → ∃ ws, p d = some ws ∧ (∀ k, C (applyWrites (ws.take k) d)) ∧ Q (applyWrites ws d)

section Rules
variable {P P' Q Q' R C : (α → β) → Prop} {p q : Prog α β}

theorem Triple.weaken (h : Triple P p Q C) (hP : ∀ d, P' d → P d) (hQ : ∀ d, Q d → Q' d) :
    Triple P' p Q' C := by
  intro d hd
  obtain ⟨ws, hws, hC, hend⟩ := h d (hP d hd)
  exact ⟨ws, hws, hC, hQ _ hend⟩

theorem Triple.mono_crash {C' : (α → β) → Prop} (h : Triple P p Q C) (hC : ∀ d, C d → C' d) :
    Triple P p Q C' := by
  intro d hd
  obtain ⟨ws, hws, hcrash, hend⟩ := h d hd
  exact ⟨ws, hws, fun k => hC _ (hcrash k), hend⟩

theorem triple_read {γ : Type*} {f : (α → β) → Option γ} {r : γ → Prog α β} {x : γ}
    (hf : ∀ d, P d → f d = some x) (h : Triple P (r x) Q C) :
    Triple P (fun d => (f d).bind fun x => r x d) Q C := by
  intro d hd
  obtain ⟨ws, hws, hcrash, hend⟩ := h d hd
  refine ⟨ws, ?_, hcrash, hend⟩
  simp only [hf d hd, Option.bind_some, hws]

theorem triple_skip (hC : ∀ d, P d → C d) : Triple P (skip : Prog α β) P C := by
  intro d hd
  refine ⟨[], rfl, ?_, hd⟩
  intro k
  simpa using hC d hd

/-- A block write is atomic: the crash condition is needed before and after it. -/
theorem triple_write {a : α} {f : (α → β) → β} (hC : ∀ d, P d → C d)
    (h : ∀ d, P d → Q (Function.update d a (f d))) (hQ : ∀ d, Q d → C d) :
    Triple P (write a f) Q C := by
  intro d hd
  refine ⟨[(a, f d)], rfl, ?_, h d hd⟩
  intro k
  cases k with
  | zero => exact hC d hd
  | succ k =>
    rw [List.take_of_length_le (by simp)]
    exact hQ _ (h d hd)

theorem triple_seq (hp : Triple P p R C) (hq : Triple R q Q C) : Triple P (seq p q) Q C := by
  intro d hd
  obtain ⟨ws, hws, hCp, hR⟩ := hp d hd
  obtain ⟨vs, hvs, hCq, hQ⟩ := hq _ hR
  refine ⟨ws ++ vs, ?_, ?_, ?_⟩
  · simp only [seq, hws, hvs, Option.bind_some, Option.map_some]
  · intro k
    by_cases hk : k ≤ ws.length
    · rw [List.take_append_of_le_length hk]
      exact hCp k
    · -- the crash is in q, so all of p has been written
      have htake : (ws ++ vs).take k = ws ++ vs.take (k-ws.length) := by
        rw [List.take_append, List.take_of_length_le (by omega)]
      rw [htake, applyWrites_append]
      exact hCq _
  · rw [applyWrites_append]
    exact hQ

theorem triple_loop {body : ℕ → Prog α β} {n : ℕ} (I : ℕ → (α → β) → Prop)
    (hbody : ∀ i, i < n → Triple (I i) (body i) (I (i+1)) C) (hC : ∀ d, I n d → C d) :
    Triple (I 0) (loop n body) (I n) C := by
  have hfrom (m i : ℕ) (him : i+m = n) : Triple (I i) (loopFrom body i m) (I n) C := by
    induction m generalizing i with
    | zero =>
      obtain rfl : i = n := by omega
      exact triple_skip hC
    | succ m ih =>
      have hhead := hbody i (by omega)
      have htail := ih (i+1) (by omega)
      exact triple_seq hhead htail
  exact hfrom n 0 (by omega)

end Rules

/-- d' is reached from d by running p again and again, each time up to a crash. -/
inductive Reboots (p : Prog α β) (d : α → β) : (α → β) → Prop
  | refl : Reboots p d d
  | crash {d' : α → β} {ws : List (α × β)} (h : Reboots p d d') (hp : p d' = some ws) (k : ℕ) :
      Reboots p d (applyWrites (ws.take k) d')

/-- A program whose crash condition is its own precondition can be run again after
any number of crashes, and it completes with its postcondition. -/
theorem Triple.recovers {p : Prog α β} {Q C : (α → β) → Prop} (h : Triple C p Q C) {d d' : α → β}
    (hd : C d) (hr : Reboots p d d') : ∃ ws, p d' = some ws ∧ Q (applyWrites ws d') := by
  have hC : C d' := by
    induction hr with
    | refl => exact hd
    | crash _ hp k ih =>
      obtain ⟨ws', hws', hcrash, -⟩ := h _ ih
      obtain rfl := Option.some.inj (hp.symm.trans hws')
      exact hcrash k
  obtain ⟨ws, hws, -, hQ⟩ := h d' hC
  exact ⟨ws, hws, hQ⟩

end ProvenXv6.CrashLogic
