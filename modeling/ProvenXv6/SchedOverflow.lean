import Mathlib.Algebra.Order.BigOperators.Group.List
import ProvenXv6.SchedBuilt
import ProvenXv6.SchedFairness

namespace ProvenXv6.Ptable
open StepSystem

/-- Every weight in use is between 1 and `TIME_SLICE`. -/
def WeightsOk (k : Kernel) : Prop :=
  ∀ p, (k.proc p).state ≠ .unused → 1 ≤ (k.proc p).weight ∧ (k.proc p).weight ≤ TIME_SLICE

/-- What the event adds to the priority of the process that leaves the CPU. -/
def charge (k : Kernel) (e : Event) : ℤ :=
  match e, k.cpu with
  | .sliceDone, .switched p => TIME_SLICE/(k.proc p).weight
  | _, _ => 0

/-- What the events have added to priorities since k. -/
def charged : Kernel → List Event → ℤ
  | _, [] => 0
  | k, e :: es => charge k e+((Version.update.step k e).map (charged · es)).getD 0

/-- The update of p after its slice stays in the range of an `int`, and p then
compares with every other process as the exact sum does. -/
def InOrder (k : Kernel) (p : Slot) : Prop :=
  (-2^31 ≤ (k.proc p).priority+TIME_SLICE/(k.proc p).weight ∧
    (k.proc p).priority+TIME_SLICE/(k.proc p).weight < 2^31) ∧
  ∀ k', Version.update.step k .sliceDone = some k' → ∀ q, q ≠ p →
    ((k'.proc q).priority ≤ (k'.proc p).priority ↔
      (k.proc q).priority ≤ (k.proc p).priority+TIME_SLICE/(k.proc p).weight)

/-- All priorities and the cached minimum are between 0 and b. -/
structure Within (b : ℤ) (k : Kernel) : Prop where
  priority : ∀ p, 0 ≤ (k.proc p).priority ∧ (k.proc p).priority ≤ b
  minPriority : 0 ≤ k.minPriority ∧ k.minPriority ≤ b

theorem Within.mono {b c : ℤ} {k : Kernel} (h : Within b k) (hbc : b ≤ c) : Within c k where
  priority := fun p => ⟨(h.priority p).1, (h.priority p).2.trans hbc⟩
  minPriority := ⟨h.minPriority.1, h.minPriority.2.trans hbc⟩

theorem within_start : Within 3 .start where
  priority := by simp [Kernel.start]
  minPriority := by simp [Kernel.start]

theorem minimum_mem (k : Kernel) :
    Version.update.minimum k = k.minPriority ∨ ∃ p, Version.update.minimum k = (k.proc p).priority := by
  by_cases h : ∃ p, (k.proc p).state = .runnable
  · obtain ⟨p, hp⟩ := h
    obtain ⟨q, -, hq⟩ := (cached_minimum k .idle).attained p hp
    exact Or.inr ⟨q, hq.symm⟩
  · have hnone (p : Slot) : (k.proc p).state ≠ .runnable := fun hp => h ⟨p, hp⟩
    left
    simp [Version.update, hnone]

section Step
variable {b : ℤ} {k k' : Kernel} {e : Event}

theorem charge_of_ne (h : e ≠ .sliceDone) : charge k e = 0 := by
  unfold charge
  split
  · exact absurd rfl h
  · rfl

theorem charge_sliceDone {p : Slot} (hc : k.cpu = .switched p) :
    charge k .sliceDone = TIME_SLICE/(k.proc p).weight := by
  simp [charge, hc]

theorem WF.weight_switched (hwf : WF k) (hw : WeightsOk k) {p : Slot} (hc : k.cpu = .switched p) :
    1 ≤ (k.proc p).weight := by
  refine (hw p fun hp => ?_).1
  have := hwf.switched p hc
  simp [hp, ProcState.OffCpu] at this

theorem charge_nonneg (hwf : WF k) (hw : WeightsOk k) (e : Event) : 0 ≤ charge k e := by
  unfold charge
  split
  · rename_i p hc
    exact share_nonneg (hwf.weight_switched hw hc)
  · exact le_rfl

theorem Within.userinit (h : Kernel.start.userinit = some k) : Within 3 k := by
  obtain ⟨-, hmin, hproc, hinit⟩ := userinit_start h
  refine ⟨fun p => ?_, by omega⟩
  by_cases hp : p = initSlot
  · rw [hp, initSlot, hinit]
    decide
  · rw [hproc p hp]
    simp [Kernel.start]

theorem sliceDone_minPriority {p : Slot} (hs : Version.update.sliceDone k p = some k') :
    k'.minPriority = Version.update.minimum { k with proc := k'.proc } := by
  unfold Version.sliceDone at hs
  split_ifs at hs
  obtain rfl := Option.some.inj hs
  rfl

/-- A slice moves one priority, by the charge, and the minimum stays among the
priorities. -/
theorem Within.slice (h : Within b k) {p : Slot} (hs : Version.update.sliceDone k p = some k')
    (hc : 0 ≤ TIME_SLICE/(k.proc p).weight)
    (hb : b+TIME_SLICE/(k.proc p).weight < 2^31) : Within (b+TIME_SLICE/(k.proc p).weight) k' := by
  have hp := h.priority p
  have hpriority (q : Slot) : 0 ≤ (k'.proc q).priority ∧
      (k'.proc q).priority ≤ b+TIME_SLICE/(k.proc p).weight := by
    by_cases hq : q = p
    · rw [hq, sliceDone_priority hs (by omega) (by omega)]
      omega
    · rw [(sliceDone_spec hs).2 q hq]
      have := h.priority q
      omega
  refine ⟨hpriority, ?_⟩
  rw [sliceDone_minPriority hs]
  -- the minimum is taken from the priorities, or kept when nobody is RUNNABLE
  rcases minimum_mem { k with proc := k'.proc } with hm | ⟨q, hm⟩ <;> rw [hm]
  · have := h.minPriority
    exact ⟨this.1, this.2.trans (by omega)⟩
  · exact hpriority q

theorem sliceDone_cases {V : Version} (h : V.step k .sliceDone = some k') :
    ∃ p, k.cpu = .switched p ∧ V.sliceDone k p = some k' := by
  simp only [Version.step] at h
  split at h
  · exact ⟨_, by assumption, h⟩
  · cases h

theorem Within.step (h : Within b k) (hb : 3 ≤ b) (hwf : WF k) (hw : WeightsOk k)
    (hs : Version.update.step k e = some k') (hlim : b+charge k e < 2^31) :
    Within (b+charge k e) k' := by
  by_cases he : e = .sliceDone
  · subst he
    obtain ⟨p, hc, hk⟩ := sliceDone_cases hs
    have hnonneg := charge_nonneg hwf hw .sliceDone
    rw [charge_sliceDone hc] at hlim hnonneg ⊢
    exact h.slice hk hnonneg hlim
  · rw [charge_of_ne he, add_zero] at hlim ⊢
    by_cases hu : e = .userinit
    · subst hu
      have hk : Kernel.start.userinit = some k' := by
        rw [← hwf.boot (userinit_boot hs)]
        simpa [Version.step, userinit_boot hs] using hs
      exact (Within.userinit hk).mono hb
    · refine ⟨fun q => ?_, by rw [min_step hs hu he]; exact h.minPriority⟩
      cases hwf.change hs q with
      | same hs' hp => rw [hp]; exact h.priority q
      | woken hq' hs' hp hm => rw [hp]; exact h.minPriority
      | init he => exact absurd he hu
      | alloc he hq' hs' hp => rw [hp]; exact h.minPriority
      | born he hf hs' hp => rw [hp]; exact h.priority q
      | unborn he hf hs' hp => rw [hp]; exact h.priority q
      | left hc hc' hs' hp => rw [hp]; exact h.priority q
      | reaped hq' hs' hp => rw [hp]; exact h.priority q
      | killed pid he hq' hk hs' hp => rw [hp]; exact h.priority q
      | dispatched he hpick hs' hp => rw [hp]; exact h.priority q
      | slice he' hc hs' hp => exact absurd he' he

end Step

theorem charged_cons {k k' : Kernel} {e : Event} (hs : Version.update.step k e = some k')
    (es : List Event) : charged k (e :: es) = charge k e+charged k' es := by
  simp [charged, hs]

theorem charged_append {Q : Kernel → Event → Kernel → Prop} {s t : Kernel} {es : List Event}
    (hr : Run Version.update.step Q s es t) (fs : List Event) :
    charged s (es ++ fs) = charged s es+charged t fs := by
  induction hr with
  | nil s => simp [charged]
  | cons hs _ _ ih => rw [List.cons_append, charged_cons hs, charged_cons hs, ih, add_assoc]

theorem charged_nonneg {s t : Kernel} {es : List Event} (hwf : WF s) (hw : WeightsOk s)
    (hr : Run Version.update.step (fun _ _ k' => WeightsOk k') s es t) : 0 ≤ charged s es := by
  induction hr with
  | nil s => exact le_rfl
  | cons hs hq _ ih =>
    rw [charged_cons hs]
    exact add_nonneg (charge_nonneg hwf hw _) (ih (wf_step hwf hs) hq)

theorem Within.run {b : ℤ} {s t : Kernel} {es : List Event} (h : Within b s) (hb : 3 ≤ b)
    (hwf : WF s) (hw : WeightsOk s)
    (hr : Run Version.update.step (fun _ _ k' => WeightsOk k') s es t)
    (hlim : b+charged s es < 2^31) : Within (b+charged s es) t := by
  induction hr generalizing b with
  | nil s => simpa [charged] using h
  | @cons s s' t e es hs hq hr ih =>
    have hfirst := charge_nonneg hwf hw e
    have hrest := charged_nonneg (wf_step hwf hs) hq hr
    rw [charged_cons hs, ← add_assoc] at hlim ⊢
    exact ih (h.step hb hwf hw hs (by omega)) (by omega) (wf_step hwf hs) hq hlim

/-- init alone in the table, with priority x and weight w. -/
def initAlone (state : ProcState) (cpu : Cpu) (x w : ℤ) : Kernel where
  proc := Function.update Kernel.start.proc initSlot ⟨state, 1, none, none, false, x, w, .user⟩
  minPriority := x
  initproc := some initSlot
  weight := 2
  nextpid := 2
  cpu := cpu

theorem initAlone_only {state : ProcState} {cpu : Cpu} {x w : ℤ} {p : Slot}
    (hp : ((initAlone state cpu x w).proc p).state ≠ .unused) : p = initSlot := by
  by_contra hne
  simp [initAlone, hne, Kernel.start] at hp

theorem initAlone_weightsOk (state : ProcState) (cpu : Cpu) (x : ℤ) {w : ℤ}
    (hw : 1 ≤ w ∧ w ≤ TIME_SLICE) : WeightsOk (initAlone state cpu x w) := by
  intro p hp
  rw [initAlone_only hp]
  simpa [initAlone] using hw

theorem initAlone_userinit :
    Version.update.step .start .userinit = some (initAlone .runnable .idle 3 1) := by
  have hscan : Kernel.scan { Kernel.start with minPriority := 3 } (fun p => p.state = .unused) =
      some initSlot := by decide +kernel
  simp only [Version.step, Kernel.userinit, Kernel.allocproc, hscan, Option.map_some]
  simp [Kernel.modify, initAlone, Kernel.start, wrap32]

theorem initAlone_pick (x w : ℤ) :
    Version.update.step (initAlone .runnable .idle x w) .pick =
      some (initAlone .running (.running initSlot) x w) := by
  obtain ⟨p, hp⟩ : ∃ p, (initAlone .runnable .idle x w).pick = some p :=
    Kernel.scan_isSome (p := initSlot) (by simp [initAlone])
  obtain rfl := initAlone_only (by rw [(Kernel.pick_some hp).1]; simp)
  have hidle : (initAlone .runnable .idle x w).cpu = .idle := rfl
  simp only [Version.step, Version.target, hp, hidle]
  simp [Kernel.dispatch, Kernel.modify, initAlone]

theorem initAlone_weightset (x w : ℤ) {v : ℤ} (hv : 1 ≤ v) :
    Version.update.step (initAlone .running (.running initSlot) x w) (.weightset v) =
      some (initAlone .running (.running initSlot) x v) := by
  have hv0 : v ≠ 0 := by omega
  simp [Version.step, Version.update, Kernel.user, Kernel.modify, initAlone, hv0]

theorem initAlone_yield (x w : ℤ) :
    Version.update.step (initAlone .running (.running initSlot) x w) .yield =
      some (initAlone .runnable (.switched initSlot) x w) := by
  simp [Version.step, Kernel.current, Kernel.yield, Kernel.modify, initAlone]

theorem initAlone_minimum (cpu : Cpu) {k : Kernel} {x w : ℤ}
    (h : k.proc = (initAlone .runnable cpu x w).proc) : Version.update.minimum k = x := by
  have hinit : k.proc initSlot = ⟨.runnable, 1, none, none, false, x, w, .user⟩ := by
    simp [h, initAlone]
  obtain ⟨p, hp, hmin⟩ := (cached_minimum k .idle).attained initSlot (by simp [hinit])
  dsimp only at hp hmin
  rw [h] at hp
  obtain rfl := initAlone_only (p := p) (by rw [hp]; simp)
  rw [← hmin, hinit]

theorem initAlone_sliceDone {x w : ℤ} (hw : 1 ≤ w) (hx : 0 ≤ x) (hlim : x+TIME_SLICE/w < 2^31) :
    Version.update.step (initAlone .runnable (.switched initSlot) x w) .sliceDone =
      some (initAlone .runnable .idle (x+TIME_SLICE/w) w) := by
  have hnonneg := share_nonneg hw
  have hw0 : w ≠ 0 := by omega
  have hproc : (initAlone .runnable (.switched initSlot) x w).modify initSlot (fun e => { e with
      priority := wrap32 (e.priority+Int.tdiv TIME_SLICE e.weight) }) =
      { initAlone .runnable (.switched initSlot) (x+TIME_SLICE/w) w with minPriority := x } := by
    simp [Kernel.modify, initAlone, tdiv_share, wrap32_of_fits (x := x+TIME_SLICE/w) (by omega) hlim]
  have hweight : ((initAlone .runnable (.switched initSlot) x w).proc initSlot).weight ≠ 0 := by
    simpa [initAlone] using hw0
  have hcpu : (initAlone .runnable (.switched initSlot) x w).cpu = .switched initSlot := rfl
  have hmin : Version.update.minimum { initAlone .runnable (.switched initSlot) (x+TIME_SLICE/w) w with
      minPriority := x } = x+TIME_SLICE/w := initAlone_minimum (.switched initSlot) rfl
  simp only [Version.step, hcpu, Version.sliceDone, if_neg hweight, hproc, hmin]
  rfl

/-- init sets its weight to each of the values in turn and uses one slice with it. -/
def rounds (ws : List ℤ) : List Event := ws.flatMap fun w => [.pick, .weightset w, .yield, .sliceDone]

theorem initAlone_rounds (ws : List ℤ) {x w : ℤ} (hw : 1 ≤ w ∧ w ≤ TIME_SLICE) (hx : 0 ≤ x)
    (hws : ∀ v ∈ ws, 1 ≤ v ∧ v ≤ TIME_SLICE) (hlim : x+(ws.map (TIME_SLICE/·)).sum < 2^31) :
    ∃ v, (1 ≤ v ∧ v ≤ TIME_SLICE) ∧
      Run Version.update.step (fun _ _ k' => WeightsOk k') (initAlone .runnable .idle x w) (rounds ws)
        (initAlone .runnable .idle (x+(ws.map (TIME_SLICE/·)).sum) v) ∧
      charged (initAlone .runnable .idle x w) (rounds ws) = (ws.map (TIME_SLICE/·)).sum := by
  induction ws generalizing x w with
  | nil => exact ⟨w, hw, by simpa [rounds] using Run.nil _, rfl⟩
  | cons v ws ih =>
    obtain ⟨hv, hws⟩ := List.forall_mem_cons.mp hws
    have hrest : 0 ≤ (ws.map (TIME_SLICE/·)).sum := by
      apply List.sum_nonneg
      rintro c hc
      obtain ⟨u, hu, rfl⟩ := List.mem_map.mp hc
      exact share_nonneg (hws u hu).1
    have hfirst := share_nonneg hv.1
    rw [List.map_cons, List.sum_cons, ← add_assoc] at hlim
    obtain ⟨u, hu, hrun, hcharged⟩ := ih (x := x+TIME_SLICE/v) hv (by omega) hws hlim
    have hslice := initAlone_sliceDone hv.1 hx (by omega)
    refine ⟨u, hu, ?_, ?_⟩
    · rw [List.map_cons, List.sum_cons, ← add_assoc]
      exact .cons (initAlone_pick x w) (initAlone_weightsOk _ _ _ hw)
        (.cons (initAlone_weightset x w hv.1) (initAlone_weightsOk _ _ _ hv)
        (.cons (initAlone_yield x v) (initAlone_weightsOk _ _ _ hv)
        (.cons hslice (initAlone_weightsOk _ _ _ hv) hrun)))
    · change charged _ (_ :: _ :: _ :: _ :: rounds ws) = _
      rw [charged_cons (initAlone_pick x w), charged_cons (initAlone_weightset x w hv.1),
        charged_cons (initAlone_yield x v), charged_cons hslice, hcharged]
      simp [charge, initAlone]

/-- The run in which init, alone, uses up the slices of ws and is then preempted
once more with weight v. -/
theorem run_initAlone (ws : List ℤ) {v : ℤ} (hws : ∀ w ∈ ws, 1 ≤ w ∧ w ≤ TIME_SLICE)
    (hv : 1 ≤ v ∧ v ≤ TIME_SLICE) (hlim : 3+(ws.map (TIME_SLICE/·)).sum < 2^31) :
    ∃ es, Run Version.update.step (fun _ _ k' => WeightsOk k') .start es
        (initAlone .runnable (.switched initSlot) (3+(ws.map (TIME_SLICE/·)).sum) v) ∧
      charged .start es = (ws.map (TIME_SLICE/·)).sum := by
  have hone : (1 : ℤ) ≤ 1 ∧ (1 : ℤ) ≤ TIME_SLICE := by decide
  obtain ⟨w, hw, hrun, hcharged⟩ := initAlone_rounds ws hone (x := 3) (by decide) hws hlim
  have hpick := initAlone_pick (3+(ws.map (TIME_SLICE/·)).sum) w
  have hset := initAlone_weightset (3+(ws.map (TIME_SLICE/·)).sum) w hv.1
  have hyield := initAlone_yield (3+(ws.map (TIME_SLICE/·)).sum) v
  refine ⟨.userinit :: (rounds ws ++ [.pick, .weightset v, .yield]), ?_, ?_⟩
  · refine .cons initAlone_userinit (initAlone_weightsOk _ _ _ hone) (hrun.append ?_)
    exact .cons hpick (initAlone_weightsOk _ _ _ hw) (.cons hset (initAlone_weightsOk _ _ _ hv)
      (.cons hyield (initAlone_weightsOk _ _ _ hv) (.nil _)))
  · rw [charged_cons initAlone_userinit, charged_append hrun, hcharged, charged_cons hpick,
      charged_cons hset, charged_cons hyield]
    simp [charge, charged]

theorem not_inOrder_initAlone {x w : ℤ} (h : 2^31 ≤ x+TIME_SLICE/w) :
    ¬InOrder (initAlone .runnable (.switched initSlot) x w) initSlot := by
  rintro ⟨⟨-, hhi⟩, -⟩
  simp only [initAlone, Function.update_self] at hhi
  omega

/-- Every update whose run has charged at most the budget, this update included,
is in order, exactly when the budget added to the first priority 3 does not leave
the range of an `int`. -/
theorem inOrder_within_budget_iff (budget : ℤ) :
    (∀ es k p, Run Version.update.step (fun _ _ k' => WeightsOk k') .start es k →
      k.cpu = .switched p → charged .start es+TIME_SLICE/(k.proc p).weight ≤ budget → InOrder k p) ↔
      3+budget < 2^31 := by
  constructor
  · intro h
    by_contra hbudget
    -- 214 slices of weight 1 and five lighter ones end exactly at 2^31
    obtain ⟨es, hrun, hcharged⟩ := run_initAlone (List.replicate 214 1 ++ [2, 5, 21, 1342])
      (v := 2500000) (by decide +kernel) (by decide) (by decide +kernel)
    have hsum : ((List.replicate 214 (1 : ℤ) ++ [2, 5, 21, 1342]).map (TIME_SLICE/·)).sum =
        2147483641 := by decide +kernel
    rw [hsum] at hrun hcharged
    refine not_inOrder_initAlone ?_ (h es _ initSlot hrun rfl ?_)
    · decide
    · simp only [initAlone, Function.update_self, hcharged]
      have : TIME_SLICE/2500000 = 4 := by decide
      omega
  · intro hbudget es k p hrun hc hcharged
    have hreach : Reachable Version.update.step .start k :=
      ⟨es, hrun.mono fun _ _ _ _ _ => trivial⟩
    have hwf := wf_reachable hreach
    have hk : WeightsOk k := hrun.invariant (I := WeightsOk) (by simp [WeightsOk, Kernel.start])
      fun _ _ _ _ _ h => h
    have hnonneg := charge_nonneg hwf hk .sliceDone
    rw [charge_sliceDone hc] at hnonneg
    have hwithin := within_start.run le_rfl wf_start (by simp [WeightsOk, Kernel.start]) hrun (by omega)
    have hp := hwithin.priority p
    refine ⟨⟨by omega, by omega⟩, fun k' hs q hq => ?_⟩
    obtain ⟨r, hr, hk'⟩ := sliceDone_cases hs
    obtain rfl := Cpu.switched.inj (hr.symm.trans hc)
    rw [sliceDone_priority hk' (by omega) (by omega), (sliceDone_spec hk').2 q hq]

/-- The 215th slice of init, alone and with weight 1, makes its priority negative. -/
theorem priority_wraps_at_slice_215 :
    ∃ es k k', Run Version.update.step (fun _ _ k' => WeightsOk k') .start es k ∧
      k.cpu = .switched initSlot ∧ (k.proc initSlot).priority = 2140000003 ∧
      (k.proc initSlot).weight = 1 ∧ ¬InOrder k initSlot ∧
      Version.update.step k .sliceDone = some k' ∧ (k'.proc initSlot).priority = -2144967293 := by
  obtain ⟨es, hrun, -⟩ := run_initAlone (List.replicate 214 1) (v := 1) (by decide +kernel)
    (by decide) (by decide +kernel)
  have hsum : 3+((List.replicate 214 (1 : ℤ)).map (TIME_SLICE/·)).sum = 2140000003 := by
    decide +kernel
  rw [hsum] at hrun
  refine ⟨es, _, _, hrun, rfl, rfl, rfl, not_inOrder_initAlone (by decide), rfl, ?_⟩
  decide +kernel

end ProvenXv6.Ptable
