import ProvenXv6.ProcInvariant
import ProvenXv6.ScanMin

namespace ProvenXv6.Ptable
open StepSystem ScanMin

/-- The minimum bounds every RUNNABLE priority, and one of them attains it. -/
structure Cached (k : Kernel) : Prop where
  le : ∀ p, (k.proc p).state = .runnable → k.minPriority ≤ (k.proc p).priority
  attained : ∀ p, (k.proc p).state = .runnable →
    ∃ q, (k.proc q).state = .runnable ∧ (k.proc q).priority = k.minPriority

/-- The update after a slice makes the cache right, whatever it held before. -/
theorem cached_minimum (k : Kernel) (cpu : Cpu) :
    Cached { k with minPriority := Version.update.minimum k, cpu := cpu } := by
  have hval (p : Slot) (hp : (k.proc p).state = .runnable) :
      (∀ q, (k.proc q).state = .runnable → Version.update.minimum k ≤ (k.proc q).priority) ∧
        ∃ q, (k.proc q).state = .runnable ∧ (k.proc q).priority = Version.update.minimum k := by
    obtain ⟨b, hb, hle, q, -, hq, he⟩ := foldl_least? (fun p => (k.proc p).state = .runnable)
      (fun p => (k.proc p).priority) (List.finRange NPROC) p (List.mem_finRange p) hp
    obtain rfl : Version.update.minimum k = b := by
      change _ = Option.getD (some b) k.minPriority
      rw [← hb]
      dsimp only [Version.update]
      congr 2
      funext m i
      cases m <;> rfl
    exact ⟨fun r => hle r (List.mem_finRange r), q, hq, he⟩
  exact ⟨fun p hp => (hval p hp).1 p hp, fun p hp => (hval p hp).2⟩

theorem Cached.wakes {k k' : Kernel} (h : Cached k) (hw : k.Wakes k') : Cached k' := by
  constructor
  · intro p hp
    rcases hw.proc p with ⟨hs, he⟩ | ⟨-, -, he⟩
    · rw [hw.minPriority, he]
      exact h.le p (hs ▸ hp)
    · rw [hw.minPriority, he]
  · intro p hp
    rcases hw.proc p with ⟨hs, -⟩ | ⟨-, hs, he⟩
    · obtain ⟨q, hq, hmin⟩ := h.attained p (hs ▸ hp)
      rcases hw.proc q with ⟨hs', he'⟩ | ⟨hq', -⟩
      · exact ⟨q, hs'.trans hq, by rw [he', hmin, hw.minPriority]⟩
      · rw [hq] at hq'
        cases hq'
    · exact ⟨p, hs, by rw [he, hw.minPriority]⟩

theorem Cached.pick {k : Kernel} (h : Cached k) {p : Slot} (hp : (k.proc p).state = .runnable) :
    ∃ q, k.pick = some q ∧ (k.proc q).state = .runnable ∧ (k.proc q).priority = k.minPriority := by
  obtain ⟨r, hr, hmin⟩ := h.attained p hp
  obtain ⟨q, hq⟩ : ∃ q, k.pick = some q := Kernel.scan_isSome (p := r) (by simp [hr, hmin])
  exact ⟨q, hq, Kernel.pick_some hq⟩

theorem cached_userinit {k : Kernel} (h : Kernel.start.userinit = some k) : Cached k := by
  obtain ⟨-, hmin, hproc, hinit⟩ := userinit_start h
  have honly : ∀ p, (k.proc p).state = .runnable → p = ⟨0, by decide⟩ := by
    intro p hp
    by_contra hne
    rw [hproc p hne] at hp
    cases hp
  constructor
  · intro p hp
    rw [honly p hp, hinit, hmin]
  · intro p hp
    exact ⟨p, hp, by rw [honly p hp, hinit, hmin]⟩

theorem cached_reachable {k : Kernel} (h : Reachable Version.update.step Kernel.start k) :
    k.cpu = .idle → Cached k :=
  idle_invariant (fun _ => cached_userinit) (fun _ _ => Cached.wakes) cached_minimum h

/-- At the pick loop a RUNNABLE process, if there is one, is found and switched
to, and no RUNNABLE process has a smaller priority than the one found. -/
theorem pick_least_runnable (k : Kernel) (h : Reachable Version.update.step Kernel.start k)
    (hc : k.cpu = .idle) (hrun : ∃ p, (k.proc p).state = .runnable) :
    ∃ p, k.pick = some p ∧ (k.proc p).state = .runnable ∧
      (∀ q, (k.proc q).state = .runnable → (k.proc p).priority ≤ (k.proc q).priority) ∧
      Version.update.step k .pick = some (k.dispatch p) := by
  have hk := cached_reachable h hc
  obtain ⟨q, hq⟩ := hrun
  obtain ⟨p, hpick, hp, hmin⟩ := hk.pick hq
  refine ⟨p, hpick, hp, fun r hr => hmin ▸ hk.le r hr, ?_⟩
  simp [Version.step, hc, Version.target, hpick]

/-- init has forked and yielded: both processes are RUNNABLE and the child, with
the smaller priority, is picked. -/
theorem pick_least_runnable_after_fork :
    ∃ k, Reachable Version.update.step Kernel.start k ∧ k.cpu = .idle ∧
      (k.proc ⟨0, by decide⟩).priority = 10000003 ∧ k.pick = some ⟨1, by decide⟩ ∧
      ∃ p, k.pick = some p ∧ (k.proc p).state = .runnable ∧
      (∀ q, (k.proc q).state = .runnable → (k.proc p).priority ≤ (k.proc q).priority) ∧
      Version.update.step k .pick = some (k.dispatch p) := by
  have htrace : ∃ k ∈ exec Version.update.step Kernel.start
      [.userinit, .pick, .fork, .forkDone, .yield, .sliceDone], k.cpu = .idle ∧
      (k.proc ⟨0, by decide⟩).priority = 10000003 ∧ k.pick = some ⟨1, by decide⟩ := by
    decide +kernel
  obtain ⟨k, hk, hc, hp, hpick⟩ := reachable_of_exec htrace
  exact ⟨k, hk, hc, hp, hpick,
    pick_least_runnable k hk hc ⟨⟨1, by decide⟩, (Kernel.pick_some hpick).1⟩⟩

end ProvenXv6.Ptable
