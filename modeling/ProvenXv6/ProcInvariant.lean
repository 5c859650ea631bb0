import ProvenXv6.ProcSteps

namespace ProvenXv6.Ptable
open StepSystem

variable {V : Version} {k k' : Kernel} {e : Event}

theorem userinit_start {k : Kernel} (h : Kernel.start.userinit = some k) :
    k.cpu = .idle ∧ k.minPriority = 3 ∧
      (∀ p, p ≠ ⟨0, by decide⟩ → k.proc p = Kernel.start.proc p) ∧
      k.proc ⟨0, by decide⟩ = ⟨.runnable, 1, none, none, false, 3, 1, .user⟩ := by
  have hscan : Kernel.scan { Kernel.start with minPriority := 3 } (fun p => p.state = .unused) =
      some ⟨0, by decide⟩ := by decide +kernel
  simp only [Kernel.userinit, Kernel.allocproc, hscan, Option.map_some] at h
  obtain rfl := Option.some.inj h
  refine ⟨rfl, rfl, fun p hp => ?_, ?_⟩
  · simp [Kernel.modify_of_ne _ _ hp]
  · simp [Kernel.start]

/-- No thread is inside `fork` in k' that was not there in k. -/
def NoNewFork (k k' : Kernel) : Prop :=
  ∀ p np, (k'.proc p).thread = .fork np → (k.proc p).thread = .fork np

theorem NoNewFork.trans {k₁ k₂ k₃ : Kernel} (h : NoNewFork k₁ k₂) (h' : NoNewFork k₂ k₃) :
    NoNewFork k₁ k₃ := fun p np hp => h p np (h' p np hp)

theorem noNewFork_update {p : Slot} {x : Proc} (hk : k'.proc = Function.update k.proc p x)
    (hx : ∀ np, x.thread = .fork np → (k.proc p).thread = .fork np) : NoNewFork k k' := by
  intro q np hq
  rw [hk] at hq
  by_cases hqp : q = p
  · subst hqp
    rw [Function.update_self] at hq
    exact hx np hq
  · rwa [Function.update_of_ne hqp] at hq

theorem noNewFork_wait (p : Slot) : NoNewFork k (k.wait p) := by
  rcases k.wait_cases p with ⟨r, -, h⟩ | h | h <;> rw [h]
  · exact noNewFork_update rfl (fun _ h => h)
  · exact fun _ _ h => h
  · exact noNewFork_update rfl (fun _ h => by cases h)

theorem Kernel.Resumed.noNewFork {p : Slot} (h : k.Resumed p k') : NoNewFork k k' := by
  intro q np hq
  by_cases hqp : q = p
  · subst hqp
    exact h.forking np hq
  · rwa [h.others q hqp] at hq

theorem noNewFork_dispatch (p : Slot) : NoNewFork k (k.dispatch p) := by
  obtain ⟨k₁, h, hk | hk⟩ := k.dispatch_cases p <;> rw [hk]
  · exact h.noNewFork
  · exact fun q np hq => h.noNewFork q np (noNewFork_wait p q np hq)

/-- A thread inside `fork` after a step was there before and is not the one that
just left, or has just allocated its child. -/
theorem step_thread (h : V.step k e = some k') {p np : Slot}
    (hf : (k'.proc p).thread = .fork np) :
    ((k.proc p).thread = .fork np ∧ (e = .forkFail ∨ e = .forkDone → k.cpu ≠ .running p)) ∨
    (e = .fork ∧ k.cpu = .running p ∧ (k.proc np).state = .unused ∧
      (k'.proc np).state = .embryo) := by
  have hold {e : Event} (he : e ≠ .forkFail ∧ e ≠ .forkDone) (hn : NoNewFork k k') :
      ((k.proc p).thread = .fork np ∧ (e = .forkFail ∨ e = .forkDone → k.cpu ≠ .running p)) :=
    ⟨hn p np hf, fun h => by rcases h with h | h <;> simp [h] at he⟩
  -- forkFail and forkDone put the thread of the process on the CPU back to user
  have leave {q nq : Slot} {f : Proc → Proc} (hq : k.forking = some (q, nq))
      (hth : ∀ e, (f e).thread = e.thread)
      (hf : (((k.modify nq f).modify q (fun e => { e with thread := .user })).proc p).thread =
        .fork np) : (k.proc p).thread = .fork np ∧ k.cpu ≠ .running p := by
    have hpq : p ≠ q := by
      rintro rfl
      simp at hf
    rw [Kernel.modify_of_ne _ _ hpq, k.modify_keeps Proc.thread nq hth] at hf
    refine ⟨hf, ?_⟩
    rw [(Kernel.forking_eq_some hq).1]
    simpa using Ne.symm hpq
  cases e with
  | userinit =>
    refine Or.inl (hold (by simp) ?_)
    simp only [Version.step] at h
    split_ifs at h
    obtain ⟨⟨q, k₁⟩, ha, rfl⟩ := Option.map_eq_some_iff.mp h
    have hk₁ : NoNewFork k k₁ := by
      obtain ⟨r, -, hr⟩ := Option.map_eq_some_iff.mp ha
      rw [← (Prod.mk.inj hr).2]
      exact noNewFork_update rfl (by intro _ h; exact h)
    exact hk₁.trans (noNewFork_update rfl (by intro _ h; exact h))
  | fork =>
    obtain ⟨q, hu, rfl⟩ := Option.map_eq_some_iff.mp h
    obtain ⟨hc, ht⟩ := Kernel.user_eq_some hu
    unfold Kernel.fork Kernel.allocproc at hf
    cases hscan : k.scan (fun p => p.state = .unused) with
    | none =>
      rw [hscan] at hf
      exact Or.inl ⟨hf, by simp⟩
    | some nq =>
      rw [hscan] at hf
      have hnq : (k.proc nq).state = .unused := by simpa using Kernel.scan_some hscan
      by_cases hpq : p = q
      · subst hpq
        obtain rfl : nq = np := by simpa using hf
        exact Or.inr ⟨rfl, hc, hnq, by simp [Kernel.fork, Kernel.allocproc, hscan]⟩
      · refine Or.inl ⟨?_, by simp⟩
        dsimp only [Option.map_some] at hf
        rw [Kernel.modify_of_ne _ _ hpq] at hf
        exact noNewFork_update (k := k) (by rfl) (by intro _ h; exact h) p np hf
  | forkFail =>
    obtain ⟨⟨q, nq⟩, hq, rfl⟩ := Option.map_eq_some_iff.mp h
    exact Or.inl ((leave hq (by intro _; rfl) hf).imp_right fun h _ => h)
  | forkDone =>
    obtain ⟨⟨q, nq⟩, hq, rfl⟩ := Option.map_eq_some_iff.mp h
    exact Or.inl ((leave hq (by intro _; rfl) hf).imp_right fun h _ => h)
  | exit =>
    obtain ⟨q, hu, hk⟩ := Option.bind_eq_some_iff.mp h
    obtain ⟨k₁, hw, rfl⟩ := Kernel.exit_cases hk
    have hk₁ : NoNewFork k k₁ := fun r nr hr => hw.thread r ▸ hr
    exact Or.inl (hold (by simp) (hk₁.trans (noNewFork_update rfl (by intro _ h; exact h))))
  | wait =>
    obtain ⟨q, hu, rfl⟩ := Option.map_eq_some_iff.mp h
    exact Or.inl (hold (by simp) (noNewFork_wait q))
  | sleep chan =>
    obtain ⟨q, hu, rfl⟩ := Option.map_eq_some_iff.mp h
    exact Or.inl (hold (by simp) (noNewFork_update rfl (fun _ h => by cases h)))
  | wakeup chan =>
    simp only [Version.step] at h
    split at h
    · obtain rfl := Option.some.inj h
      exact Or.inl (hold (by simp) fun r nr hr => (k.wakeup1_wakes _).thread r ▸ hr)
    · obtain rfl := Option.some.inj h
      exact Or.inl (hold (by simp) fun r nr hr => (k.wakeup1_wakes _).thread r ▸ hr)
    · cases h
  | kill pid =>
    obtain ⟨q, -, rfl⟩ := Option.map_eq_some_iff.mp h
    refine Or.inl (hold (by simp) ?_)
    unfold Kernel.kill
    split
    · exact fun _ _ h => h
    · exact noNewFork_update rfl (fun _ h => h)
  | yield =>
    obtain ⟨q, hu, rfl⟩ := Option.map_eq_some_iff.mp h
    exact Or.inl (hold (by simp) (noNewFork_update rfl (fun _ h => h)))
  | weightset w =>
    obtain ⟨q, -, rfl⟩ := Option.map_eq_some_iff.mp h
    exact Or.inl (hold (by simp) (noNewFork_update rfl (fun _ h => h)))
  | pick =>
    obtain ⟨-, ⟨-, rfl⟩ | ⟨q, hpick, rfl⟩⟩ := pick_cases h
    · exact Or.inl (hold (by simp) fun _ _ h => h)
    · exact Or.inl (hold (by simp) (noNewFork_dispatch q))
  | sliceDone =>
    refine Or.inl (hold (by simp) ?_)
    simp only [Version.step] at h
    split at h
    · unfold Version.sliceDone at h
      split_ifs at h
      rw [← Option.some.inj h]
      exact noNewFork_update rfl (fun _ h => h)
    · cases h

structure WF (k : Kernel) : Prop where
  boot : k.cpu = .boot → k = Kernel.start
  running : ∀ p, (k.proc p).state = .running ↔ k.cpu = .running p
  switched : ∀ p, k.cpu = .switched p → (k.proc p).state.OffCpu
  child : ∀ p np, (k.proc p).thread = .fork np → (k.proc np).state = .embryo
  owner : ∀ p q np, (k.proc p).thread = .fork np → (k.proc q).thread = .fork np → p = q

theorem wf_start : WF Kernel.start where
  boot := fun _ => rfl
  running := by simp [Kernel.start]
  switched := by simp [Kernel.start]
  child := by simp [Kernel.start]
  owner := by simp [Kernel.start]

theorem wf_userinit (h : Kernel.start.userinit = some k) : WF k := by
  obtain ⟨hidle, -, hproc, hinit⟩ := userinit_start h
  have hp (p : Slot) : (k.proc p).state ≠ .running ∧ (k.proc p).thread = .user := by
    by_cases hp : p = ⟨0, by decide⟩
    · rw [hp, hinit]
      simp
    · rw [hproc p hp]
      simp [Kernel.start]
  exact ⟨by simp [hidle], fun p => by simp [hidle, hp p], by simp [hidle], fun p => by simp [hp p],
    fun p => by simp [hp p]⟩

theorem WF.change (h : WF k) (hs : V.step k e = some k') (q : Slot) : Change k k' e q :=
  step_change hs (fun p hp => (h.running p).mpr hp) q

theorem WF.forking (h : WF k) {p np : Slot} (hf : k.forking = some (p, np)) :
    (k.proc np).state = .embryo := h.child p np (Kernel.forking_eq_some hf).2

theorem userinit_boot (h : V.step k .userinit = some k') : k.cpu = .boot := by
  simp only [Version.step] at h
  split_ifs at h with hc
  exact hc

theorem WF.userinit_cases (h : WF k) (hs : V.step k .userinit = some k') (q : Slot) :
    ((k'.proc q).state = .runnable ∧ (k'.proc q).priority = k'.minPriority) ∨
      (k'.proc q).state = .unused := by
  have hk : Kernel.start.userinit = some k' := by
    rw [← h.boot (userinit_boot hs)]
    simpa [Version.step, userinit_boot hs] using hs
  obtain ⟨-, hmin, hproc, hinit⟩ := userinit_start hk
  by_cases hq : q = ⟨0, by decide⟩
  · rw [hq, hinit, hmin]
    exact Or.inl ⟨rfl, rfl⟩
  · rw [hproc q hq]
    exact Or.inr rfl

theorem WF.to_running (h : WF k) (hs : V.step k e = some k') (hboot : k.cpu ≠ .boot) {q : Slot}
    (hq : (k'.proc q).state = .running) :
    (k.proc q).state = .running ∨ k'.cpu = .running q := by
  cases h.change hs q with
  | same hs' hp => exact Or.inl (hs' ▸ hq)
  | slice he hc hs' hp => exact Or.inl (hs' ▸ hq)
  | dispatched he hpick hs' hp =>
    rcases hs' with ⟨hc', -⟩ | ⟨-, hs'⟩
    · exact Or.inr hc'
    · rw [hs'] at hq
      cases hq
  | init he =>
    subst he
    exact absurd (userinit_boot hs) hboot
  | left hc hc' hs' hp => rw [hq] at hs'; simp [ProcState.OffCpu] at hs'
  | woken hq' hs' hp hm => rw [hs'] at hq; cases hq
  | alloc he hq' hs' hp => rw [hs'] at hq; cases hq
  | born he hf hs' hp => rw [hs'] at hq; cases hq
  | unborn he hf hs' hp => rw [hs'] at hq; cases hq
  | reaped hq' hs' hp => rw [hs'] at hq; cases hq
  | killed pid he hq' hk hs' hp => rw [hs'] at hq; cases hq

theorem WF.of_running (h : WF k) (hs : V.step k e = some k') {q : Slot}
    (hq : (k.proc q).state = .running) :
    (k'.proc q).state = .running ∨ k'.cpu = .switched q := by
  cases h.change hs q with
  | same hs' hp => exact Or.inl (hs'.trans hq)
  | slice he hc hs' hp => exact Or.inl (hs'.trans hq)
  | left hc hc' hs' hp => exact Or.inr hc'
  | dispatched he hpick hs' hp => rw [(Kernel.pick_some hpick).1] at hq; cases hq
  | init he =>
    subst he
    rw [h.boot (userinit_boot hs)] at hq
    cases hq
  | woken hq' hs' hp hm => rw [hq'] at hq; cases hq
  | alloc he hq' hs' hp => rw [hq'] at hq; cases hq
  | born he hf hs' hp =>
    obtain ⟨p, hf⟩ := hf
    rw [h.forking hf] at hq
    cases hq
  | unborn he hf hs' hp =>
    obtain ⟨p, hf⟩ := hf
    rw [h.forking hf] at hq
    cases hq
  | reaped hq' hs' hp => rw [hq'] at hq; cases hq
  | killed pid he hq' hk hs' hp => rw [hq'] at hq; cases hq

theorem WF.of_child (h : WF k) (hs : V.step k e = some k') {p np : Slot}
    (ht : (k.proc p).thread = .fork np) (hp : e = .forkFail ∨ e = .forkDone → k.cpu ≠ .running p) :
    (k'.proc np).state = .embryo := by
  have hnp := h.child p np ht
  have hown {q : Slot} (hf : k.forking = some (q, np)) : k.cpu = .running p := by
    obtain ⟨hc, hq⟩ := Kernel.forking_eq_some hf
    rw [hc, h.owner p q np ht hq]
  cases h.change hs np with
  | same hs' _ => exact hs'.trans hnp
  | slice he hc hs' _ => exact hs'.trans hnp
  | alloc he hq' hs' _ => exact hs'
  | left hc hc' hs' _ => rw [(h.running np).mpr hc] at hnp; cases hnp
  | dispatched he hpick hs' _ => rw [(Kernel.pick_some hpick).1] at hnp; cases hnp
  | init he =>
    subst he
    rw [h.boot (userinit_boot hs)] at hnp
    cases hnp
  | woken hq' hs' _ hm => rw [hq'] at hnp; cases hnp
  | born he hf hs' _ =>
    obtain ⟨q, hf⟩ := hf
    exact absurd (hown hf) (hp (Or.inr he))
  | unborn he hf hs' _ =>
    obtain ⟨q, hf⟩ := hf
    exact absurd (hown hf) (hp (Or.inl he))
  | reaped hq' hs' _ => rw [hq'] at hnp; cases hnp
  | killed pid he hq' hk hs' _ => rw [hq'] at hnp; cases hnp

theorem WF.child_step (h : WF k) (hs : V.step k e = some k') {p np : Slot}
    (ht : (k'.proc p).thread = .fork np) : (k'.proc np).state = .embryo := by
  rcases step_thread hs ht with ⟨ht, hp⟩ | ⟨-, -, -, hnp⟩
  · exact h.of_child hs ht hp
  · exact hnp

theorem WF.owner_step (h : WF k) (hs : V.step k e = some k') {p q np : Slot}
    (hp : (k'.proc p).thread = .fork np) (hq : (k'.proc q).thread = .fork np) : p = q := by
  rcases step_thread hs hp with ⟨hp, -⟩ | ⟨-, hcp, hnp, -⟩ <;>
    rcases step_thread hs hq with ⟨hq, -⟩ | ⟨-, hcq, hnq, -⟩
  · exact h.owner p q np hp hq
  · rw [h.child p np hp] at hnq
    cases hnq
  · rw [h.child q np hq] at hnp
    cases hnp
  · exact Cpu.running.inj (hcp.symm.trans hcq)

theorem WF.running_step (h : WF k) (hs : V.step k e = some k') (hboot : k.cpu ≠ .boot) (q : Slot) :
    (k'.proc q).state = .running ↔ k'.cpu = .running q := by
  constructor
  · intro hq
    rcases h.to_running hs hboot hq with hq' | hq'
    · have hc := (h.running q).mp hq'
      cases step_moves hs with
      | boot he hb hk => exact absurd hb hboot
      | stay hc' hm hb hidle => exact hc'.trans hc
      | leave p hp hc' hs' hm =>
        obtain rfl := Cpu.running.inj (hc.symm.trans hp)
        rw [hq] at hs'
        simp [ProcState.OffCpu] at hs'
      | pick p he hp hpick hc' hm => rw [hc] at hp; cases hp
      | slice p he hp hc' hk => rw [hc] at hp; cases hp
    · exact hq'
  · intro hq
    cases step_moves hs with
    | boot he hb hk => exact absurd hb hboot
    | stay hc' hm hb hidle =>
      rcases h.of_running hs ((h.running q).mpr (hc' ▸ hq)) with hq' | hq'
      · exact hq'
      · rw [hq] at hq'
        cases hq'
    | leave p hp hc' hs' hm => rw [hq] at hc'; cases hc'
    | pick p he hp hpick hc' hm =>
      rcases hc' with ⟨hc', hs'⟩ | ⟨hc', -⟩ <;> rw [hq] at hc'
      · exact Cpu.running.inj hc' ▸ hs'
      · cases hc'
    | slice p he hp hc' hk => rw [hq] at hc'; cases hc'

theorem cpu_step_ne_boot (hs : V.step k e = some k') (hboot : k.cpu ≠ .boot) : k'.cpu ≠ .boot := by
  cases step_moves hs with
  | boot he hc hk => exact absurd hc hboot
  | stay hc hm hb hidle => rwa [hc]
  | leave p hc hc' => simp [hc']
  | pick p he hc hpick hc' => rcases hc' with ⟨hc', -⟩ | ⟨hc', -⟩ <;> simp [hc']
  | slice p he hc hc' => simp [hc']

theorem step_of_switched (hs : V.step k e = some k') {p : Slot} (hc : k.cpu = .switched p) :
    e = .sliceDone := by
  cases e <;> simp [Version.step, hc, Kernel.user, Kernel.forking, Kernel.current] at hs ⊢

theorem sliceDone_idle (h : V.step k .sliceDone = some k') : k'.cpu = .idle := by
  simp only [Version.step] at h
  split at h
  · unfold Version.sliceDone at h
    split_ifs at h
    rw [← Option.some.inj h]
  · cases h

theorem switched_step (hs : V.step k e = some k') (hboot : k.cpu ≠ .boot) {p : Slot}
    (hp : k'.cpu = .switched p) : (k'.proc p).state.OffCpu := by
  cases step_moves hs with
  | boot he hc hk => exact absurd hc hboot
  | stay hc hm hb hidle =>
    obtain rfl := step_of_switched hs (hc ▸ hp)
    rw [sliceDone_idle hs] at hp
    cases hp
  | leave q hc hc' hs' =>
    obtain rfl := Cpu.switched.inj (hc'.symm.trans hp)
    exact hs'
  | pick q he hc hpick hc' =>
    rcases hc' with ⟨hc', -⟩ | ⟨hc', hs'⟩ <;> rw [hp] at hc'
    · cases hc'
    · obtain rfl := Cpu.switched.inj hc'
      exact Or.inl hs'
  | slice q he hc hc' => rw [hp] at hc'; cases hc'

theorem min_step (hs : V.step k e = some k') (hu : e ≠ .userinit) (hd : e ≠ .sliceDone) :
    k'.minPriority = k.minPriority := by
  cases step_moves hs with
  | boot he hc hk => exact absurd he hu
  | stay hc hm hb hidle => exact hm
  | leave p hc hc' hs' hm => exact hm
  | pick p he hc hpick hc' hm => exact hm
  | slice p he hc hc' hk => exact absurd he hd

theorem wf_step (h : WF k) (hs : V.step k e = some k') : WF k' := by
  by_cases hboot : k.cpu = .boot
  · cases step_moves hs with
    | boot he hc hk =>
      rw [h.boot hc] at hk
      exact wf_userinit hk
    | stay hc hm hb hidle => exact absurd hboot hb
    | leave p hc => rw [hboot] at hc; cases hc
    | pick p he hc => rw [hboot] at hc; cases hc
    | slice p he hc => rw [hboot] at hc; cases hc
  · exact ⟨fun hb => absurd hb (cpu_step_ne_boot hs hboot), h.running_step hs hboot,
      fun _ => switched_step hs hboot, fun _ _ => h.child_step hs, fun _ _ _ => h.owner_step hs⟩

theorem wf_reachable (h : Reachable V.step Kernel.start k) : WF k :=
  h.invariant wf_start (fun _ _ _ => wf_step)

/-- The rule for what holds whenever the scheduler is about to pick: the first
process brings it about, wakeups keep it, and the new minimum after a slice
restores it. -/
theorem idle_invariant {I : Kernel → Prop} (huserinit : ∀ k, Kernel.start.userinit = some k → I k)
    (hwakes : ∀ k k', I k → k.Wakes k' → I k')
    (hminimum : ∀ (k : Kernel) cpu, I { k with minPriority := V.minimum k, cpu := cpu })
    (h : Reachable V.step Kernel.start k) : k.cpu = .idle → I k := by
  have hboth : WF k ∧ (k.cpu = .idle → I k) := by
    apply h.invariant (I := fun k => WF k ∧ (k.cpu = .idle → I k)) ⟨wf_start, by simp [Kernel.start]⟩
    rintro k e k' ⟨hwf, hi⟩ hs
    refine ⟨wf_step hwf hs, fun hc' => ?_⟩
    cases step_moves hs with
    | boot he hc hk =>
      rw [hwf.boot hc] at hk
      exact huserinit k' hk
    | stay hc hm hboot hidle =>
      rw [hc] at hc'
      exact hwakes k k' (hi hc') (hidle hc')
    | leave p hc hs hs' hm => rw [hc'] at hs; cases hs
    | pick p he hc hpick hs hm => rcases hs with ⟨hs, -⟩ | ⟨hs, -⟩ <;> rw [hc'] at hs <;> cases hs
    | slice p he hc hs hk =>
      unfold Version.sliceDone at hk
      split_ifs at hk
      rw [← Option.some.inj hk]
      exact hminimum _ _
  exact hboth.2

end ProvenXv6.Ptable
