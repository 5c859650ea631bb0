import ProvenXv6.SmpInvariant

namespace ProvenXv6.Smp
open StepSystem
open Ptable (NPROC Slot ProcState)

/-- Entry p holds a process: it is neither UNUSED nor EMBRYO. -/
def Live (p : Slot) (t : Table) : Prop := Alive (t.proc p).state ∨ (t.proc p).state = .zombie

/-- The argument of the last successful `trace` call of p. -/
def lastMask (p : Slot) (as : List Action) : Option (BitVec 32) :=
  (as.filterMap (·.mask p)).getLast?

/-- The step from t to t' makes entry p a process, with mask m: the mask of its
parent, or 0 for the first process. -/
inductive Creates (p : Slot) (m : BitVec 32) (t : Table) (a : Action) (t' : Table) : Prop
  | userinit (ha : a = .userinit) (hi : t'.initproc = some p) (hm : m = 0)
      (ht : (t'.proc p).trace = m)
  | fork (q : Slot) (ha : a = .forkDone q) (hq : t.running q = some (.fork p))
      (hpar : (t'.proc p).parent = some q) (hm : m = (t.proc q).trace)
      (ht : (t'.proc p).trace = m)

variable {t t' : Table} {a : Action} {p : Slot}

theorem lastMask_cons (p : Slot) (a : Action) (as : List Action) :
    lastMask p (a :: as) = (lastMask p as).or (a.mask p) := by
  unfold lastMask
  cases h : a.mask p with
  | none => simp [h]
  | some m => simp [h, List.getLast?_cons]

theorem mask_step (h : WF t) (hp : Live p t) (hs : step t a = some t') :
    (t'.proc p).trace = (a.mask p).getD (t.proc p).trace := by
  have quiet {t₁ : Table} (hq : Quiet t a t₁) :
      (t₁.proc p).trace = (a.mask p).getD (t.proc p).trace := by
    -- the mask that `allocproc` clears is that of an EMBRYO
    refine (hq.stays p).trace.resolve_right ?_
    rintro ⟨r, -, hr⟩
    have hem := h.embryo r p hr
    simp [Live, Alive, hem] at hp
  cases step_change hs with
  | quiet hq => exact quiet hq
  | userinit r ha hinit hr hi ht =>
    simp [Live, Alive, h.boot hinit p] at hp
  | alloc r np ha hr hnp hi ht => grind
  | unborn r np ha hr hth ht => grind [Table.forkFail]
  | born r np ha hr ht =>
    have hnp := h.embryo_of_running hr rfl
    grind [Table.forkDone, Live]
  | exit r ha hr ht =>
    obtain ⟨-, -, ht⟩ := Table.exit_spec ht
    grind
  | sleep r n ha hr ht => grind [Table.goToSleep]
  | wait r t₁ hw hr ht =>
    rw [← quiet hw.quiet]
    rcases t₁.wait_cases r with ⟨q, hq, hwait⟩ | hwait | ⟨hq, hwait⟩
    · grind
    · grind
    · grind [Table.goToSleep]

theorem mask_run {as : List Action} (hwf : WF t) (h : Run step (Keeps (Live p)) t as t') :
    (t'.proc p).trace = (lastMask p as).getD (t.proc p).trace := by
  induction h with
  | nil t => rfl
  | cons hs hk hr ih =>
    rw [ih (wf_step hwf hs), mask_step hwf hk.1 hs, lastMask_cons]
    cases lastMask p _ with
    | none => simp
    | some m => rfl

/-- Only `userinit` and a `fork` that succeeds make an entry a process. -/
theorem creates_of_step (hs : step t a = some t') (hp : ¬ Live p t) (hp' : Live p t') :
    ∃ m, Creates p m t a t' := by
  cases step_change hs with
  | quiet hq => grind [Live, (hq.stays p).life]
  | userinit r ha hinit hr hi ht =>
    obtain rfl : p = r := by grind [Live]
    exact ⟨0, .userinit ha hi rfl (by grind)⟩
  | alloc r np ha hr hnp hi ht => grind [Live]
  | unborn r np ha hr hth ht => grind [Live, Table.forkFail]
  | born r np ha hr ht =>
    obtain rfl : p = np := by grind [Live, Table.forkDone]
    have hpr : p ≠ r := by grind [Live]
    exact ⟨_, .fork r ha hr (by grind [Table.forkDone]) rfl (by grind [Table.forkDone])⟩
  | exit r ha hr ht =>
    obtain ⟨-, -, ht⟩ := Table.exit_spec ht
    grind [Live]
  | sleep r n ha hr ht => grind [Live, Table.goToSleep]
  | wait r t₁ hw hr ht =>
    have hp₁ : ¬ Live p t₁ := by grind [Live, (hw.quiet.stays p).life]
    rcases t₁.wait_cases r with ⟨q, hq, hwait⟩ | hwait | ⟨hq, hwait⟩
    · grind [Live]
    · grind [Live]
    · grind [Live, Table.goToSleep]

/-- The mask of a process is what its last successful `trace` call set, or what it
was created with; a step that is not such a call leaves it unchanged. -/
theorem trace_mask_history (as : List Action) (t : Table) (h : Run step Free .start as t)
    (p : Slot) (hp : Live p t) :
    (∃ bs b cs u u' m, as = bs ++ b :: cs ∧ Run step Free .start bs u ∧ ¬ Live p u ∧
      step u b = some u' ∧ Creates p m u b u' ∧ Run step (Keeps (Live p)) u' cs t ∧
      (t.proc p).trace = (lastMask p cs).getD m) ∧
    ∀ a t', step t a = some t' → a.mask p = none → (t'.proc p).trace = (t.proc p).trace := by
  have hwf : WF t := wf_reachable ⟨as, h⟩
  constructor
  · -- the last step before which the entry held no process created this one
    rcases h.keeps_or_last hp with ⟨hstart, -⟩ | ⟨bs, b, cs, u, u', has, hbs, hu, hb, -, hu', hcs⟩
    · simp [Live, Alive, Table.start] at hstart
    · obtain ⟨m, hm⟩ := creates_of_step hb hu hu'
      have htrace : (u'.proc p).trace = m := by
        cases hm with
        | userinit ha hi hm ht => exact ht
        | fork q ha hq hpar hm ht => exact ht
      have hlast := mask_run (wf_step (wf_reachable ⟨bs, hbs⟩) hb) hcs
      exact ⟨bs, b, cs, u, u', m, has, hbs, hu, hb, hm, hcs, htrace ▸ hlast⟩
  · intro a t' hs ha
    rw [mask_step hwf hp hs, ha, Option.getD_none]

/-- The child of init after init has set its own mask. -/
theorem trace_mask_history_child :
    ∃ t, Run step Free .start [.userinit, .dispatch 0, .trace 0 (some 2), .back 0, .fork 0,
        .kalloc 0, .forkDone 0] t ∧ Live 1 t ∧ (t.proc 1).trace = 2 ∧
      ∀ a t', step t a = some t' → a.mask 1 = none → (t'.proc 1).trace = 2 := by
  have hex : ∃ t ∈ exec step .start [.userinit, .dispatch 0, .trace 0 (some 2), .back 0, .fork 0,
      .kalloc 0, .forkDone 0], (t.proc 1).state = .runnable ∧ (t.proc 1).trace = 2 := by
    decide +kernel
  obtain ⟨t, ht, hs, hm⟩ := hex
  have hlive : Live 1 t := Or.inl (Or.inr (Or.inl hs))
  refine ⟨t, run_exec ht, hlive, hm, fun a t' hstep ha => ?_⟩
  rw [(trace_mask_history _ t (run_exec ht) 1 hlive).2 a t' hstep ha, hm]

end ProvenXv6.Smp
