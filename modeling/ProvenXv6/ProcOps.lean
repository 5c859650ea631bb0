import ProvenXv6.ProcModel

namespace ProvenXv6.Ptable

namespace Kernel

@[simp] theorem modify_self (k : Kernel) (p : Slot) (f : Proc → Proc) :
    (k.modify p f).proc p = f (k.proc p) := Function.update_self ..

theorem modify_of_ne (k : Kernel) {p q : Slot} (f : Proc → Proc) (h : q ≠ p) :
    (k.modify p f).proc q = k.proc q := Function.update_of_ne h ..

theorem modify_keeps {α : Type} (g : Proc → α) (k : Kernel) (p : Slot) {f : Proc → Proc}
    (hf : ∀ e, g (f e) = g e) (q : Slot) : g ((k.modify p f).proc q) = g (k.proc q) := by
  by_cases hq : q = p
  · rw [hq, modify_self, hf]
  · rw [modify_of_ne k f hq]

@[simp] theorem modify_thread_state (k : Kernel) (p q : Slot) (t : Thread) :
    ((k.modify p (fun e => { e with thread := t })).proc q).state = (k.proc q).state :=
  k.modify_keeps Proc.state p (by intro _; rfl) q

@[simp] theorem modify_thread_priority (k : Kernel) (p q : Slot) (t : Thread) :
    ((k.modify p (fun e => { e with thread := t })).proc q).priority = (k.proc q).priority :=
  k.modify_keeps Proc.priority p (by intro _; rfl) q

theorem scan_some {k : Kernel} {test : Proc → Bool} {p : Slot} (h : k.scan test = some p) :
    test (k.proc p) = true := by
  have := List.find?_some h
  exact this

theorem scan_isSome {k : Kernel} {test : Proc → Bool} {p : Slot} (h : test (k.proc p) = true) :
    ∃ q, k.scan test = some q :=
  Option.isSome_iff_exists.mp (List.find?_isSome.mpr ⟨p, List.mem_finRange p, h⟩)

theorem pick_some {k : Kernel} {p : Slot} (h : k.pick = some p) :
    (k.proc p).state = .runnable ∧ (k.proc p).priority = k.minPriority := by
  simpa using scan_some h

theorem user_eq_some {k : Kernel} {p : Slot} (h : k.user = some p) :
    k.cpu = .running p ∧ (k.proc p).thread = .user := by
  unfold user at h
  split at h
  · split_ifs at h with ht
    obtain rfl := Option.some.inj h
    exact ⟨by assumption, ht⟩
  · cases h

theorem forking_eq_some {k : Kernel} {p np : Slot} (h : k.forking = some (p, np)) :
    k.cpu = .running p ∧ (k.proc p).thread = .fork np := by
  unfold forking at h
  split at h
  · split at h
    · cases h
      exact ⟨by assumption, by assumption⟩
    · cases h
  · cases h

theorem current_eq_some {k : Kernel} {p : Slot} (h : k.current = some p) :
    k.cpu = .running p := by
  unfold current at h
  split at h
  · cases h
    assumption
  · cases h

/-- A step that at most wakes sleeping processes at the current minimum. -/
structure Wakes (k k' : Kernel) : Prop where
  cpu : k'.cpu = k.cpu
  minPriority : k'.minPriority = k.minPriority
  initproc : k'.initproc = k.initproc
  thread : ∀ q, (k'.proc q).thread = (k.proc q).thread
  weight : ∀ q, (k'.proc q).weight = (k.proc q).weight
  proc : ∀ q, ((k'.proc q).state = (k.proc q).state ∧ (k'.proc q).priority = (k.proc q).priority) ∨
    ((k.proc q).state = .sleeping ∧ (k'.proc q).state = .runnable ∧
      (k'.proc q).priority = k.minPriority)

theorem Wakes.refl (k : Kernel) : Wakes k k :=
  ⟨rfl, rfl, rfl, fun _ => rfl, fun _ => rfl, fun _ => Or.inl ⟨rfl, rfl⟩⟩

theorem Wakes.trans {k₁ k₂ k₃ : Kernel} (h : Wakes k₁ k₂) (h' : Wakes k₂ k₃) : Wakes k₁ k₃ where
  cpu := h'.cpu.trans h.cpu
  minPriority := h'.minPriority.trans h.minPriority
  initproc := h'.initproc.trans h.initproc
  thread := fun q => (h'.thread q).trans (h.thread q)
  weight := fun q => (h'.weight q).trans (h.weight q)
  proc := by
    intro q
    rcases h.proc q with ⟨hs, hp⟩ | ⟨hq, hs, hp⟩ <;>
      rcases h'.proc q with ⟨hs', hp'⟩ | ⟨hq', hs', hp'⟩
    · exact Or.inl ⟨hs'.trans hs, hp'.trans hp⟩
    · exact Or.inr ⟨hs ▸ hq', hs', hp'.trans h.minPriority⟩
    · exact Or.inr ⟨hq, hs'.trans hs, hp'.trans hp⟩
    · rw [hs] at hq'
      cases hq'

theorem wakeup1_wakes (k : Kernel) (chan : Option Chan) : Wakes k (k.wakeup1 chan) := by
  refine ⟨rfl, rfl, rfl, ?_, ?_, ?_⟩ <;> intro q <;> simp only [wakeup1]
  · split_ifs <;> rfl
  · split_ifs <;> rfl
  · split_ifs with h
    · exact Or.inr ⟨h.1, rfl, rfl⟩
    · exact Or.inl ⟨rfl, rfl⟩

theorem modify_parent_wakes (k : Kernel) (p : Slot) (parent : Option Slot) :
    Wakes k (k.modify p (fun e => { e with parent := parent })) := by
  refine ⟨rfl, rfl, rfl, ?_, ?_, fun q => Or.inl ⟨?_, ?_⟩⟩
  · exact k.modify_keeps Proc.thread p (by intro _; rfl)
  · exact k.modify_keeps Proc.weight p (by intro _; rfl)
  · exact k.modify_keeps Proc.state p (by intro _; rfl) q
  · exact k.modify_keeps Proc.priority p (by intro _; rfl) q

theorem abandon_wakes (cur : Slot) (k : Kernel) (p : Slot) : Wakes k (abandon cur k p) := by
  unfold abandon
  split_ifs
  · dsimp only
    split_ifs
    · exact (modify_parent_wakes k p _).trans (wakeup1_wakes _ _)
    · exact modify_parent_wakes k p _
  · exact Wakes.refl k

theorem foldl_abandon_wakes (cur : Slot) (l : List Slot) (k : Kernel) :
    Wakes k (l.foldl (abandon cur) k) := by
  induction l generalizing k with
  | nil => exact Wakes.refl k
  | cons p l ih => exact (abandon_wakes cur k p).trans (ih _)

theorem wait_cases (k : Kernel) (p : Slot) :
    (∃ q, (k.proc q).state = .zombie ∧ k.wait p = k.modify q (fun e => { e with
      pid := 0, parent := none, killed := false, state := .unused })) ∨
    k.wait p = k ∨ k.wait p = k.goToSleep p (.proc p) .wait := by
  unfold wait
  split
  · rename_i q hq
    have := scan_some hq
    simp only [Bool.decide_and, Bool.and_eq_true, decide_eq_true_eq] at this
    exact Or.inl ⟨q, this.2, rfl⟩
  · split_ifs
    · exact Or.inr (Or.inl rfl)
    · exact Or.inr (Or.inr rfl)

theorem goToSleep_of_ne (k : Kernel) {p q : Slot} (chan : Chan) (thread : Thread) (h : q ≠ p) :
    (k.goToSleep p chan thread).proc q = k.proc q :=
  Function.update_of_ne h ..

theorem exit_cases {k k' : Kernel} {p : Slot} (h : k.exit p = some k') :
    ∃ k₁, k.Wakes k₁ ∧
      k' = { k₁.modify p (fun e => { e with state := .zombie }) with cpu := .switched p } := by
  unfold exit at h
  split_ifs at h
  exact ⟨_, (wakeup1_wakes k _).trans (foldl_abandon_wakes p _ _), (Option.some.inj h).symm⟩

/-- k' is k with p put on the CPU and its thread out of `sched`. -/
structure Resumed (k : Kernel) (p : Slot) (k' : Kernel) : Prop where
  cpu : k'.cpu = .running p
  minPriority : k'.minPriority = k.minPriority
  state : (k'.proc p).state = .running
  priority : (k'.proc p).priority = (k.proc p).priority
  weight : (k'.proc p).weight = (k.proc p).weight
  forking : ∀ np, (k'.proc p).thread = .fork np → (k.proc p).thread = .fork np
  others : ∀ q, q ≠ p → k'.proc q = k.proc q

theorem dispatch_cases (k : Kernel) (p : Slot) :
    ∃ k₁, Resumed k p k₁ ∧ (k.dispatch p = k₁ ∨ k.dispatch p = k₁.wait p) := by
  have hrun : Resumed k p
      { k.modify p (fun e => { e with state := .running }) with cpu := .running p } := by
    refine ⟨rfl, rfl, ?_, ?_, ?_, ?_, fun q hq => Function.update_of_ne hq ..⟩ <;> simp
  have htidy : Resumed k p (Kernel.modify { k.modify p (fun e => { e with state := .running }) with
      cpu := .running p } p (fun e => { e with chan := none, thread := .user })) := by
    refine ⟨rfl, rfl, ?_, ?_, ?_, ?_, ?_⟩
    · simp
    · simp
    · simp
    · simp
    · intro q hq
      rw [modify_of_ne _ _ hq]
      exact Function.update_of_ne hq ..
  unfold dispatch
  dsimp only
  split
  · exact ⟨_, hrun, Or.inl rfl⟩
  · exact ⟨_, hrun, Or.inl rfl⟩
  · exact ⟨_, htidy, Or.inl rfl⟩
  · exact ⟨_, htidy, Or.inr rfl⟩

end Kernel

end ProvenXv6.Ptable
