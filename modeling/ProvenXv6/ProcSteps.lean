import ProvenXv6.ProcOps

namespace ProvenXv6.Ptable

/-- The states in which a process calls `sched`. -/
def ProcState.OffCpu (s : ProcState) : Prop := s = .sleeping ∨ s = .runnable ∨ s = .zombie

/-- What a step can do to the state and the priority of entry q. -/
inductive Change (k k' : Kernel) (e : Event) (q : Slot) : Prop
  | same (hs : (k'.proc q).state = (k.proc q).state)
      (hp : (k'.proc q).priority = (k.proc q).priority)
  | woken (hq : (k.proc q).state = .sleeping) (hs : (k'.proc q).state = .runnable)
      (hp : (k'.proc q).priority = k.minPriority) (hm : k'.minPriority = k.minPriority)
  | init (he : e = .userinit)
  | alloc (he : e = .fork) (hq : (k.proc q).state = .unused) (hs : (k'.proc q).state = .embryo)
      (hp : (k'.proc q).priority = k.minPriority)
  | born (he : e = .forkDone) (hf : ∃ p, k.forking = some (p, q))
      (hs : (k'.proc q).state = .runnable) (hp : (k'.proc q).priority = (k.proc q).priority)
  | unborn (he : e = .forkFail) (hf : ∃ p, k.forking = some (p, q))
      (hs : (k'.proc q).state = .unused) (hp : (k'.proc q).priority = (k.proc q).priority)
  | left (hc : k.cpu = .running q) (hc' : k'.cpu = .switched q)
      (hs : (k'.proc q).state.OffCpu) (hp : (k'.proc q).priority = (k.proc q).priority)
  | reaped (hq : (k.proc q).state = .zombie) (hs : (k'.proc q).state = .unused)
      (hp : (k'.proc q).priority = (k.proc q).priority)
  | killed (pid : ℤ) (he : e = .kill pid) (hq : (k.proc q).state = .sleeping)
      (hk : k.scan (fun e => e.pid = pid) = some q) (hs : (k'.proc q).state = .runnable)
      (hp : (k'.proc q).priority = (k.proc q).priority)
  | dispatched (he : e = .pick) (hpick : k.pick = some q)
      (hs : k'.cpu = .running q ∧ (k'.proc q).state = .running ∨
        k'.cpu = .switched q ∧ (k'.proc q).state = .sleeping)
      (hp : (k'.proc q).priority = (k.proc q).priority)
  | slice (he : e = .sliceDone) (hc : k.cpu = .switched q)
      (hs : (k'.proc q).state = (k.proc q).state)
      (hp : (k'.proc q).priority =
        wrap32 ((k.proc q).priority+Int.tdiv TIME_SLICE (k.proc q).weight))

/-- How a step moves the CPU and the cached minimum. -/
inductive Moves (V : Version) (k k' : Kernel) (e : Event) : Prop
  | boot (he : e = .userinit) (hc : k.cpu = .boot) (hk : k.userinit = some k')
  | stay (hc : k'.cpu = k.cpu) (hm : k'.minPriority = k.minPriority) (hboot : k.cpu ≠ .boot)
      (hidle : k.cpu = .idle → k.Wakes k')
  | leave (p : Slot) (hc : k.cpu = .running p) (hc' : k'.cpu = .switched p)
      (hs : (k'.proc p).state.OffCpu) (hm : k'.minPriority = k.minPriority)
  | pick (p : Slot) (he : e = .pick) (hc : k.cpu = .idle) (hpick : k.pick = some p)
      (hc' : k'.cpu = .running p ∧ (k'.proc p).state = .running ∨
        k'.cpu = .switched p ∧ (k'.proc p).state = .sleeping)
      (hm : k'.minPriority = k.minPriority)
  | slice (p : Slot) (he : e = .sliceDone) (hc : k.cpu = .switched p) (hc' : k'.cpu = .idle)
      (hk : V.sliceDone k p = some k')

variable {V : Version} {k k' : Kernel} {e : Event}

theorem Change.of_eq {q : Slot} (h : k'.proc q = k.proc q) : Change k k' e q :=
  .same (by rw [h]) (by rw [h])

theorem Kernel.Wakes.change (h : k.Wakes k') (q : Slot) : Change k k' e q := by
  rcases h.proc q with ⟨hs, hp⟩ | ⟨hq, hs, hp⟩
  · exact .same hs hp
  · exact .woken hq hs hp h.minPriority

theorem change_wait (p q : Slot) (hc : k.cpu = .running p) : Change k (k.wait p) e q := by
  rcases k.wait_cases p with ⟨r, hr, h⟩ | h | h <;> rw [h]
  · by_cases hq : q = r
    · subst hq
      exact .reaped hr (by simp) (by simp)
    · exact .of_eq (k.modify_of_ne _ hq)
  · exact .of_eq rfl
  · by_cases hq : q = p
    · subst hq
      exact .left hc rfl (by simp [Kernel.goToSleep, ProcState.OffCpu]) (by simp [Kernel.goToSleep])
    · exact .of_eq (k.goToSleep_of_ne _ _ hq)

theorem change_exit (p q : Slot) (hc : k.cpu = .running p) (hp : (k.proc p).state = .running)
    (h : k.exit p = some k') : Change k k' e q := by
  obtain ⟨k₁, hw, hk⟩ := k.exit_cases h
  obtain rfl := hk
  by_cases hq : q = p
  · subst hq
    rcases hw.proc q with ⟨-, h⟩ | ⟨h, -⟩
    · exact .left hc rfl (by simp [ProcState.OffCpu]) (by simpa using h)
    · rw [hp] at h
      cases h
  · have hk : (k₁.modify p (fun e => { e with state := .zombie })).proc q = k₁.proc q :=
      k₁.modify_of_ne _ hq
    rcases hw.proc q with ⟨hs, hp⟩ | ⟨hq, hs, hp⟩
    · exact .same (by rw [← hs, ← hk]) (by rw [← hp, ← hk])
    · exact .woken hq (by rw [← hs, ← hk]) (by rw [← hp, ← hk]) hw.minPriority

theorem pick_cases (h : V.step k .pick = some k') :
    k.cpu = .idle ∧ ((k.pick = none ∧ k' = k) ∨ ∃ p, k.pick = some p ∧ k' = k.dispatch p) := by
  simp only [Version.step] at h
  split_ifs at h with hc
  refine ⟨hc, ?_⟩
  unfold Version.target at h
  cases hpick : k.pick with
  | none =>
    simp only [hpick] at h
    cases hn : V.notices <;> simp [hn] at h
    exact Or.inl ⟨rfl, h.symm⟩
  | some p => exact Or.inr ⟨p, rfl, by simpa [hpick] using h.symm⟩

theorem Kernel.Resumed.change {p : Slot} (h : k.Resumed p k') (hpick : k.pick = some p) (q : Slot) :
    Change k k' .pick q := by
  by_cases hq : q = p
  · subst hq
    exact .dispatched rfl hpick (Or.inl ⟨h.cpu, h.state⟩) h.priority
  · exact .of_eq (h.others q hq)

theorem change_dispatch (p q : Slot) (hpick : k.pick = some p) :
    Change k (k.dispatch p) .pick q := by
  obtain ⟨k₁, h, hk | hk⟩ := k.dispatch_cases p <;> rw [hk]
  · exact h.change hpick q
  · rcases k₁.wait_cases p with ⟨r, hr, hw⟩ | hw | hw <;> rw [hw]
    · have hrp : r ≠ p := by
        rintro rfl
        rw [h.state] at hr
        cases hr
      by_cases hq : q = r
      · subst hq
        rw [h.others q hrp] at hr
        exact .reaped hr (by simp) (by simp [h.others q hrp])
      · by_cases hqp : q = p
        · subst hqp
          have hk₁ := k₁.modify_of_ne (fun e => { e with
            pid := 0, parent := none, killed := false, state := .unused }) hq
          exact .dispatched rfl hpick (Or.inl ⟨h.cpu, by rw [hk₁, h.state]⟩) (by rw [hk₁, h.priority])
        · exact .of_eq ((k₁.modify_of_ne _ hq).trans (h.others q hqp))
    · exact h.change hpick q
    · by_cases hq : q = p
      · subst hq
        refine .dispatched rfl hpick (Or.inr ⟨rfl, ?_⟩) ?_ <;> simp [Kernel.goToSleep, h.priority]
      · exact .of_eq ((k₁.goToSleep_of_ne _ _ hq).trans (h.others q hq))

theorem change_fork (p q : Slot) : Change k (k.fork p) .fork q := by
  unfold Kernel.fork Kernel.allocproc
  cases hscan : k.scan (fun p => p.state = .unused) with
  | none => exact .of_eq rfl
  | some np =>
    have hnp : (k.proc np).state = .unused := by simpa using Kernel.scan_some hscan
    dsimp only [Option.map_some]
    by_cases hq : q = np
    · subst hq
      exact .alloc rfl hnp (by simp) (by simp)
    · exact .same (by simp [Kernel.modify_of_ne _ _ hq]) (by simp [Kernel.modify_of_ne _ _ hq])

theorem change_forkFail {p np : Slot} (h : k.forking = some (p, np)) (q : Slot) :
    Change k (k.forkFail p np) .forkFail q := by
  unfold Kernel.forkFail
  by_cases hq : q = np
  · subst hq
    exact .unborn rfl ⟨p, h⟩ (by simp) (by simp)
  · exact .same (by simp [Kernel.modify_of_ne _ _ hq]) (by simp [Kernel.modify_of_ne _ _ hq])

theorem change_forkDone {p np : Slot} (h : k.forking = some (p, np)) (q : Slot) :
    Change k (k.forkDone p np) .forkDone q := by
  unfold Kernel.forkDone
  by_cases hq : q = np
  · subst hq
    exact .born rfl ⟨p, h⟩ (by simp) (by simp)
  · exact .same (by simp [Kernel.modify_of_ne _ _ hq]) (by simp [Kernel.modify_of_ne _ _ hq])

theorem change_kill (pid : ℤ) (q : Slot) : Change k (k.kill pid) (.kill pid) q := by
  unfold Kernel.kill
  split
  · exact .of_eq rfl
  · rename_i r hr
    by_cases hq : q = r
    · subst hq
      by_cases hs : (k.proc q).state = .sleeping
      · exact .killed pid rfl hs hr (by simp [hs]) (by simp)
      · exact .same (by simp [hs]) (by simp)
    · exact .of_eq (k.modify_of_ne _ hq)

theorem change_sliceDone {p : Slot} (hc : k.cpu = .switched p) (h : V.sliceDone k p = some k')
    (q : Slot) : Change k k' .sliceDone q := by
  unfold Version.sliceDone at h
  split_ifs at h
  obtain rfl := Option.some.inj h
  by_cases hq : q = p
  · subst hq
    exact .slice rfl hc (by simp) (by simp)
  · exact .of_eq (Function.update_of_ne hq ..)

/-- Every step does to every entry one of the things listed in `Change`. -/
theorem step_change (h : V.step k e = some k')
    (hrun : ∀ p, k.cpu = .running p → (k.proc p).state = .running) (q : Slot) : Change k k' e q := by
  cases e with
  | userinit => exact .init rfl
  | fork =>
    obtain ⟨p, -, rfl⟩ := Option.map_eq_some_iff.mp h
    exact change_fork p q
  | forkFail =>
    obtain ⟨⟨p, np⟩, hf, rfl⟩ := Option.map_eq_some_iff.mp h
    exact change_forkFail hf q
  | forkDone =>
    obtain ⟨⟨p, np⟩, hf, rfl⟩ := Option.map_eq_some_iff.mp h
    exact change_forkDone hf q
  | exit =>
    obtain ⟨p, hu, hk⟩ := Option.bind_eq_some_iff.mp h
    obtain ⟨hc, -⟩ := Kernel.user_eq_some hu
    exact change_exit p q hc (hrun p hc) hk
  | wait =>
    obtain ⟨p, hu, rfl⟩ := Option.map_eq_some_iff.mp h
    exact change_wait p q (Kernel.user_eq_some hu).1
  | sleep chan =>
    obtain ⟨p, hu, rfl⟩ := Option.map_eq_some_iff.mp h
    by_cases hq : q = p
    · subst hq
      refine .left (Kernel.user_eq_some hu).1 rfl ?_ ?_ <;> simp [Kernel.goToSleep, ProcState.OffCpu]
    · exact .of_eq (k.goToSleep_of_ne _ _ hq)
  | wakeup chan =>
    simp only [Version.step] at h
    split at h
    · obtain rfl := Option.some.inj h
      exact (k.wakeup1_wakes _).change q
    · obtain rfl := Option.some.inj h
      exact (k.wakeup1_wakes _).change q
    · cases h
  | kill pid =>
    obtain ⟨p, -, rfl⟩ := Option.map_eq_some_iff.mp h
    exact change_kill pid q
  | yield =>
    obtain ⟨p, hu, rfl⟩ := Option.map_eq_some_iff.mp h
    by_cases hq : q = p
    · subst hq
      refine .left (Kernel.current_eq_some hu) rfl ?_ ?_ <;> simp [Kernel.yield, ProcState.OffCpu]
    · exact .of_eq (Function.update_of_ne hq ..)
  | weightset w =>
    obtain ⟨p, -, rfl⟩ := Option.map_eq_some_iff.mp h
    exact .same (k.modify_keeps Proc.state p (by intro _; rfl) q)
      (k.modify_keeps Proc.priority p (by intro _; rfl) q)
  | pick =>
    obtain ⟨-, ⟨-, rfl⟩ | ⟨p, hpick, rfl⟩⟩ := pick_cases h
    · exact .of_eq rfl
    · exact change_dispatch p q hpick
  | sliceDone =>
    simp only [Version.step] at h
    split at h
    · exact change_sliceDone (by assumption) h q
    · cases h

theorem Moves.of_running {p : Slot} (hp : k.cpu = .running p) (hc : k'.cpu = k.cpu)
    (hm : k'.minPriority = k.minPriority) : Moves V k k' e :=
  .stay hc hm (by simp [hp]) (by simp [hp])

theorem moves_fork {p : Slot} (hp : k.cpu = .running p) : Moves V k (k.fork p) e := by
  unfold Kernel.fork Kernel.allocproc
  cases k.scan (fun p => p.state = .unused) with
  | none => exact .of_running hp rfl rfl
  | some np => exact .of_running hp rfl rfl

theorem moves_wait {p : Slot} (hp : k.cpu = .running p) : Moves V k (k.wait p) e := by
  rcases k.wait_cases p with ⟨r, -, h⟩ | h | h <;> rw [h]
  · exact .of_running hp rfl rfl
  · exact .of_running hp rfl rfl
  · exact .leave p hp rfl (by simp [Kernel.goToSleep, ProcState.OffCpu]) rfl

theorem moves_kill {p : Slot} (pid : ℤ) (hp : k.cpu = .running p) : Moves V k (k.kill pid) e := by
  unfold Kernel.kill
  split <;> exact .of_running hp rfl rfl

theorem moves_dispatch {p : Slot} (hc : k.cpu = .idle) (hpick : k.pick = some p) :
    Moves V k (k.dispatch p) .pick := by
  obtain ⟨k₁, h, hk | hk⟩ := k.dispatch_cases p <;> rw [hk]
  · exact .pick p rfl hc hpick (Or.inl ⟨h.cpu, h.state⟩) h.minPriority
  · rcases k₁.wait_cases p with ⟨r, hr, hw⟩ | hw | hw <;> rw [hw]
    · have hrp : p ≠ r := by
        rintro rfl
        rw [h.state] at hr
        cases hr
      refine .pick p rfl hc hpick (Or.inl ⟨h.cpu, ?_⟩) h.minPriority
      rw [k₁.modify_of_ne _ hrp, h.state]
    · exact .pick p rfl hc hpick (Or.inl ⟨h.cpu, h.state⟩) h.minPriority
    · exact .pick p rfl hc hpick (Or.inr ⟨rfl, by simp [Kernel.goToSleep]⟩) h.minPriority

/-- Every step moves the CPU and the minimum as listed in `Moves`. -/
theorem step_moves (h : V.step k e = some k') : Moves V k k' e := by
  cases e with
  | userinit =>
    simp only [Version.step] at h
    split_ifs at h with hc
    exact .boot rfl hc h
  | fork =>
    obtain ⟨p, hu, rfl⟩ := Option.map_eq_some_iff.mp h
    exact moves_fork (Kernel.user_eq_some hu).1
  | forkFail =>
    obtain ⟨⟨p, np⟩, hf, rfl⟩ := Option.map_eq_some_iff.mp h
    exact .of_running (Kernel.forking_eq_some hf).1 rfl rfl
  | forkDone =>
    obtain ⟨⟨p, np⟩, hf, rfl⟩ := Option.map_eq_some_iff.mp h
    exact .of_running (Kernel.forking_eq_some hf).1 rfl rfl
  | exit =>
    obtain ⟨p, hu, hk⟩ := Option.bind_eq_some_iff.mp h
    obtain ⟨k₁, hw, rfl⟩ := Kernel.exit_cases hk
    exact .leave p (Kernel.user_eq_some hu).1 rfl (by simp [ProcState.OffCpu]) hw.minPriority
  | wait =>
    obtain ⟨p, hu, rfl⟩ := Option.map_eq_some_iff.mp h
    exact moves_wait (Kernel.user_eq_some hu).1
  | sleep chan =>
    obtain ⟨p, hu, rfl⟩ := Option.map_eq_some_iff.mp h
    exact .leave p (Kernel.user_eq_some hu).1 rfl (by simp [Kernel.goToSleep, ProcState.OffCpu]) rfl
  | wakeup chan =>
    simp only [Version.step] at h
    split at h
    · obtain rfl := Option.some.inj h
      exact .stay rfl rfl (by simp_all) (fun _ => k.wakeup1_wakes _)
    · obtain rfl := Option.some.inj h
      exact .stay rfl rfl (by simp_all) (fun _ => k.wakeup1_wakes _)
    · cases h
  | kill pid =>
    obtain ⟨p, hu, rfl⟩ := Option.map_eq_some_iff.mp h
    exact moves_kill pid (Kernel.user_eq_some hu).1
  | yield =>
    obtain ⟨p, hu, rfl⟩ := Option.map_eq_some_iff.mp h
    exact .leave p (Kernel.current_eq_some hu) rfl (by simp [Kernel.yield, ProcState.OffCpu]) rfl
  | weightset w =>
    obtain ⟨p, hu, rfl⟩ := Option.map_eq_some_iff.mp h
    exact .of_running (Kernel.user_eq_some hu).1 rfl rfl
  | pick =>
    obtain ⟨hc, ⟨-, rfl⟩ | ⟨p, hpick, rfl⟩⟩ := pick_cases h
    · exact .stay rfl rfl (by simp [hc]) (fun _ => .refl _)
    · exact moves_dispatch hc hpick
  | sliceDone =>
    simp only [Version.step] at h
    split at h
    · rename_i p hc
      refine .slice p rfl hc ?_ h
      unfold Version.sliceDone at h
      split_ifs at h
      rw [← Option.some.inj h]
    · cases h

end ProvenXv6.Ptable
