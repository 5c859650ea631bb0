import ProvenXv6.ProcInvariant
import ProvenXv6.ScanMin

namespace ProvenXv6.Ptable
open StepSystem ScanMin

def initSlot : Slot := ⟨0, NPROC_pos⟩

/-- The minimum is that of the RUNNABLE entries together with entry 0. -/
structure CachedWithInit (k : Kernel) : Prop where
  le_init : k.minPriority ≤ (k.proc initSlot).priority
  le : ∀ p, (k.proc p).state = .runnable → k.minPriority ≤ (k.proc p).priority
  attained : k.minPriority = (k.proc initSlot).priority ∨
    ∃ q, (k.proc q).state = .runnable ∧ (k.proc q).priority = k.minPriority

theorem cachedWithInit_minimum (k : Kernel) (cpu : Cpu) :
    CachedWithInit { k with minPriority := Version.built.minimum k, cpu := cpu } := by
  obtain ⟨hle, hall, hatt⟩ := foldl_least (fun p => (k.proc p).state = .runnable)
    (fun p => (k.proc p).priority) (List.finRange NPROC) (k.proc initSlot).priority
  refine ⟨hle, fun p => hall p (List.mem_finRange p), ?_⟩
  rcases hatt with h | ⟨q, -, hq, he⟩
  · exact Or.inl h
  · exact Or.inr ⟨q, hq, he⟩

theorem CachedWithInit.wakes {k k' : Kernel} (h : CachedWithInit k) (hw : k.Wakes k') :
    CachedWithInit k' := by
  refine ⟨?_, ?_, ?_⟩
  · rw [hw.minPriority]
    rcases hw.proc initSlot with ⟨-, he⟩ | ⟨-, -, he⟩ <;> rw [he]
    exact h.le_init
  · intro p hp
    rw [hw.minPriority]
    rcases hw.proc p with ⟨hs, he⟩ | ⟨-, -, he⟩ <;> rw [he]
    exact h.le p (hs ▸ hp)
  · rw [hw.minPriority]
    rcases h.attained with hm | ⟨q, hq, hm⟩
    · left
      rcases hw.proc initSlot with ⟨-, he⟩ | ⟨-, -, he⟩ <;> rw [he]
      exact hm
    · rcases hw.proc q with ⟨hs, he⟩ | ⟨hq', -⟩
      · exact Or.inr ⟨q, hs.trans hq, he.trans hm⟩
      · rw [hq] at hq'
        cases hq'

theorem cachedWithInit_userinit {k : Kernel} (h : Kernel.start.userinit = some k) :
    CachedWithInit k := by
  obtain ⟨-, hmin, hproc, hinit⟩ := userinit_start h
  refine ⟨by rw [initSlot, hinit, hmin], ?_, Or.inl (by rw [initSlot, hinit, hmin])⟩
  intro p hp
  by_cases hp0 : p = initSlot
  · rw [hp0, initSlot, hinit, hmin]
  · rw [hproc p hp0] at hp
    cases hp

theorem cachedWithInit_reachable {k : Kernel} (h : Reachable Version.built.step .start k) :
    k.cpu = .idle → CachedWithInit k :=
  idle_invariant (fun _ => cachedWithInit_userinit) (fun _ _ => CachedWithInit.wakes)
    cachedWithInit_minimum h

/-- The entry that the scheduler switches to exists and is RUNNABLE, and a
RUNNABLE process is not passed over. -/
def DispatchSafe (k : Kernel) : Prop :=
  (∀ i, Version.built.target k = some i → ∃ p : Slot, p.val = i ∧ (k.proc p).state = .runnable) ∧
  ((∃ q, (k.proc q).state = .runnable) → ∃ p, k.pick = some p)

theorem dispatchSafe_iff_pick (k : Kernel) : DispatchSafe k ↔ ∃ p, k.pick = some p := by
  constructor
  · intro h
    cases hpick : k.pick with
    | none =>
      obtain ⟨p, hp, -⟩ := h.1 NPROC (by simp [Version.target, hpick, Version.built])
      exact absurd p.isLt (by omega)
    | some p => exact ⟨p, rfl⟩
  · rintro ⟨p, hp⟩
    refine ⟨fun i hi => ⟨p, ?_, (Kernel.pick_some hp).1⟩, fun _ => ⟨p, hp⟩⟩
    simpa [Version.target, hp] using hi

/-- At every pick of every run the dispatch is safe exactly when some RUNNABLE
process has a priority that is at most that of entry 0. -/
theorem dispatchSafe_iff (es : List Event) (k : Kernel) (h : Run Version.built.step Free .start es k)
    (hc : k.cpu = .idle) :
    DispatchSafe k ↔ ∃ p, (k.proc p).state = .runnable ∧
      (k.proc p).priority ≤ (k.proc initSlot).priority := by
  have hk := cachedWithInit_reachable ⟨es, h⟩ hc
  rw [dispatchSafe_iff_pick]
  constructor
  · rintro ⟨p, hp⟩
    obtain ⟨hrun, hmin⟩ := Kernel.pick_some hp
    exact ⟨p, hrun, hmin ▸ hk.le_init⟩
  · rintro ⟨p, hrun, hle⟩
    have hatt : ∃ q, (k.proc q).state = .runnable ∧ (k.proc q).priority = k.minPriority := by
      rcases hk.attained with hm | hq
      · exact ⟨p, hrun, le_antisymm (hm ▸ hle) (hk.le p hrun)⟩
      · exact hq
    obtain ⟨q, hq, hm⟩ := hatt
    exact Kernel.scan_isSome (p := q) (by simp [hq, hm])

/-- After init alone has gone to sleep the scheduler switches to entry 64 of a
table of 64. Behind a sleeping init a RUNNABLE child is passed over as soon as it
has used more of the CPU than init. -/
theorem dispatch_behind_table :
    (∃ k, Reachable Version.built.step .start k ∧ k.cpu = .idle ∧
      Version.built.target k = some 64 ∧ ¬DispatchSafe k) ∧
    ∃ k, Reachable Version.built.step .start k ∧ k.cpu = .idle ∧
      (k.proc ⟨1, by decide⟩).state = .runnable ∧ k.pick = none ∧ ¬DispatchSafe k := by
  have hsleep : ∃ k ∈ exec Version.built.step .start [.userinit, .pick, .sleep (.addr 1), .sliceDone],
      k.cpu = .idle ∧ Version.built.target k = some 64 ∧ k.pick = none := by decide +kernel
  have hchild : ∃ k ∈ exec Version.built.step .start [.userinit, .pick, .fork, .forkDone, .wait,
      .sliceDone, .pick, .yield, .sliceDone, .pick, .yield, .sliceDone, .pick, .yield, .sliceDone],
      k.cpu = .idle ∧ (k.proc ⟨1, by decide⟩).state = .runnable ∧ k.pick = none := by decide +kernel
  have hunsafe {k : Kernel} (h : k.pick = none) : ¬DispatchSafe k := by
    simp [dispatchSafe_iff_pick, h]
  obtain ⟨k, hk, hc, ht, hp⟩ := reachable_of_exec hsleep
  obtain ⟨l, hl, hc', hs, hp'⟩ := reachable_of_exec hchild
  exact ⟨⟨k, hk, hc, ht, hunsafe hp⟩, l, hl, hc', hs, hp', hunsafe hp'⟩

/-- A first pick, with init RUNNABLE, is safe. -/
theorem dispatchSafe_iff_first_pick :
    ∃ k, Run Version.built.step Free .start [.userinit] k ∧ k.cpu = .idle ∧ DispatchSafe k := by
  have htrace : ∃ k ∈ exec Version.built.step .start [.userinit], k.cpu = .idle ∧
      (k.proc initSlot).state = .runnable := by decide +kernel
  obtain ⟨k, hk, hc, hs⟩ := htrace
  exact ⟨k, run_exec hk, hc,
    (dispatchSafe_iff [.userinit] k (run_exec hk) hc).mpr ⟨initSlot, hs, le_rfl⟩⟩

end ProvenXv6.Ptable
