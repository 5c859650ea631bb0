import ProvenXv6.StepSystem
import ProvenXv6.SmpOps

namespace ProvenXv6.Smp
open StepSystem
open Ptable (NPROC Slot ProcState Chan wrap32)

/-- Every process has a parent that is alive, a process inside `fork` owns its
EMBRYO entry, and a process asleep in `wait` has no exited child. -/
structure WF (t : Table) : Prop where
  boot : t.initproc = none → ∀ p, (t.proc p).state = .unused
  init : ∀ p, t.initproc = some p → Alive (t.proc p).state ∧ (t.proc p).parent = none
  quiet : ∀ p, (t.proc p).thread ≠ .run → Alive (t.proc p).state
  embryo : ∀ p np, (t.proc p).thread.child = some np → (t.proc np).state = .embryo
  owner : ∀ p q np, (t.proc p).thread.child = some np → (t.proc q).thread.child = some np → p = q
  orphan : ∀ p, (t.proc p).state = .unused ∨ (t.proc p).state = .embryo → (t.proc p).parent = none
  parent : ∀ p, Alive (t.proc p).state ∨ (t.proc p).state = .zombie → t.initproc ≠ some p →
    ∃ q, (t.proc p).parent = some q ∧ q ≠ p ∧ Alive (t.proc q).state
  asleep : ∀ p, (t.proc p).state = .sleeping →
    (t.proc p).thread = .wait ∧ (t.proc p).chan = some (.proc p) ∨
    (t.proc p).thread = .sleep ∧ ∃ n, (t.proc p).chan = some (.addr n)
  waiting : ∀ p z, (t.proc p).state = .sleeping → (t.proc p).thread = .wait →
    (t.proc z).state = .zombie → (t.proc z).parent ≠ some p

variable {t t' : Table} {a : Action} {p np q : Slot}

theorem Stays.state {e : Proc} (h : Stays t a q e) (hq : ¬ Alive (t.proc q).state) :
    e.state = (t.proc q).state := by
  rcases h.life with ⟨hs, -⟩ | ⟨hs, -⟩
  · exact hs
  · exact absurd hs hq

theorem WF.start : WF Table.start := by
  constructor <;> simp [Table.start, Alive, Thread.child]

theorem WF.embryo_of_running (h : WF t) {th : Thread} (hp : t.running p = some th)
    (hth : th.child = some np) : (t.proc np).state = .embryo := by
  refine h.embryo p np ?_
  rw [(Table.running_eq_some.mp hp).2, hth]

theorem WF.parent_step (h : WF t) (hi : t'.initproc = t.initproc)
    (hal : ∀ q, Alive (t.proc q).state → Alive (t'.proc q).state)
    (hp : Alive (t.proc p).state ∨ (t.proc p).state = .zombie)
    (hpar : (t'.proc p).parent = (t.proc p).parent) (hinit : t'.initproc ≠ some p) :
    ∃ q, (t'.proc p).parent = some q ∧ q ≠ p ∧ Alive (t'.proc q).state := by
  obtain ⟨q, hq, hne, hlive⟩ := h.parent p hp (hi ▸ hinit)
  exact ⟨q, hpar.trans hq, hne, hal q hlive⟩

theorem WF.quiet_step (h : WF t) (hq : Quiet t a t') : WF t' := by
  have hi := hq.initproc
  have hpar (p : Slot) := (hq.stays p).parent
  have hchild (p : Slot) := (hq.stays p).child
  have hlife (p : Slot) := (hq.stays p).life
  constructor
  · grind [h.boot]
  · grind [h.init]
  · grind [h.quiet]
  · grind [h.embryo]
  · grind [h.owner]
  · grind [h.orphan]
  · exact fun p hp => h.parent_step hi (by grind) (by grind) (hpar p)
  · grind [h.asleep]
  · grind [h.waiting]

/-- A step of the running process p that touches the entry np of no process alive beside its own. -/
structure Touches (p np : Slot) (t t' : Table) : Prop where
  running : (t.proc p).state = .running
  initproc : t'.initproc = t.initproc
  same : ∀ r, r ≠ p → r ≠ np → t'.proc r = t.proc r
  alive : Alive (t'.proc p).state
  parent : (t'.proc p).parent = (t.proc p).parent
  child : ∀ c, (t'.proc p).thread.child = some c → c = np ∧ (t'.proc np).state = .embryo
  asleep : (t'.proc p).state = .sleeping →
    (t'.proc p).thread = .wait ∧ (t'.proc p).chan = some (.proc p) ∧ t.exited p = none ∨
    (t'.proc p).thread = .sleep ∧ ∃ n, (t'.proc p).chan = some (.addr n)
  owned : (t.proc np).state = .embryo → (t.proc p).thread.child = some np
  entry : np ≠ p → ¬Alive (t.proc np).state ∧ (t'.proc np).thread = .run ∧
    (((t'.proc np).state = .unused ∨ (t'.proc np).state = .embryo) ∧ (t'.proc np).parent = none ∨
      (t'.proc np).state = .runnable ∧ (t'.proc np).parent = some p)

/-- The other processes keep their children, and np is none of them. -/
theorem Touches.others (ht : Touches p np t t') (h : WF t) {r c : Slot} (hr : r ≠ p)
    (hc : (t'.proc r).thread.child = some c) :
    (t.proc r).thread.child = some c ∧ c ≠ np ∧ t'.proc c = t.proc c := by
  have hp := ht.running
  have hrn : r ≠ np := by
    rintro rfl
    rw [(ht.entry hr).2.1] at hc
    cases hc
  rw [ht.same r hr hrn] at hc
  have hembryo := h.embryo r c hc
  have hcn : c ≠ np := fun he => hr (h.owner r p c hc (he ▸ ht.owned (he ▸ hembryo)))
  exact ⟨hc, hcn, ht.same c (by grind) hcn⟩

theorem WF.frame (h : WF t) (ht : Touches p np t t') : WF t' := by
  have hothers {r c : Slot} := ht.others (r := r) (c := c) h
  obtain ⟨hp, hi, hsame, halive, hpar, hchild, hsleep, howned, hentry⟩ := ht
  constructor
  · grind [h.boot]
  · intro r hr
    have hinit := h.init r (hi ▸ hr)
    grind
  · grind [h.quiet]
  · intro r c hc
    by_cases hr : r = p
    · subst hr
      obtain ⟨rfl, hc⟩ := hchild c hc
      exact hc
    · obtain ⟨hold, -, heq⟩ := hothers hr hc
      exact heq ▸ h.embryo r c hold
  · intro r r' c hc hc'
    by_cases hr : r = p
    · by_contra hne
      exact (hothers (fun he => hne (hr.trans he.symm)) hc').2.1 (hchild c (hr ▸ hc)).1
    · by_cases hr' : r' = p
      · exact absurd (hchild c (hr' ▸ hc')).1 (hothers hr hc).2.1
      · exact h.owner r r' c (hothers hr hc).1 (hothers hr' hc').1
  · grind [h.orphan]
  · intro r hr hinit
    by_cases hrn : r = np ∧ np ≠ p
    · exact ⟨p, by grind, by grind, halive⟩
    · exact h.parent_step hi (by grind) (by grind) (by grind) hinit
  · intro r hr
    have hasleep := h.asleep r
    grind
  · intro r z hr hth hz
    have hzp : z ≠ p ∧ z ≠ np := by grind
    rw [hsame z hzp.1 hzp.2] at hz ⊢
    by_cases hrp : r = p
    · -- p has looked for an exited child
      have hnone := Table.exited_none (t := t) (p := p)
      grind
    · rw [hsame r hrp (by grind)] at hr hth
      exact h.waiting r z hr hth hz

theorem WF.forkFail (h : WF t) (hp : (t.proc p).state = .running)
    (hth : (t.proc p).thread.child = some np) : WF (t.forkFail p np) := by
  have hnp := h.embryo p np hth
  have hthread := h.quiet np
  have horphan := h.orphan np
  refine h.frame (?_ : Touches p np t _)
  unfold Table.forkFail
  constructor <;> grind

theorem WF.forkDone (h : WF t) (hp : t.running p = some (.fork np)) : WF (t.forkDone p np) := by
  have hnp := h.embryo_of_running hp rfl
  have hthread := h.quiet np
  obtain ⟨hp, hth⟩ := Table.running_eq_some.mp hp
  refine h.frame (?_ : Touches p np t _)
  unfold Table.forkDone
  constructor <;> grind

theorem WF.goToSleep (h : WF t) {chan : Chan} {th : Thread} (hp : t.running p = some .run)
    (hth : th = .sleep ∧ (∃ n, chan = .addr n) ∨
      th = .wait ∧ chan = .proc p ∧ t.exited p = none) : WF (t.goToSleep p chan th) := by
  obtain ⟨hp, -⟩ := Table.running_eq_some.mp hp
  refine h.frame (?_ : Touches p p t _)
  unfold Table.goToSleep
  constructor <;> grind

theorem WF.reap (h : WF t) (hp : t.running p = some .run) (hq : t.exited p = some q) (v : ℤ) :
    WF ((t.modify q (fun e => { e with
      pid := 0, parent := none, killed := false, state := .unused })).setThread p (.ret v)) := by
  have hthread := h.quiet q
  obtain ⟨hp, -⟩ := Table.running_eq_some.mp hp
  obtain ⟨hpar, hz⟩ := Table.exited_some hq
  refine h.frame (?_ : Touches p q t _)
  constructor <;> grind

/-- The parent of p is woken, and init if it gets an exited child: the only
processes that have an exited child after the step and did not have it before. -/
theorem WF.exit (h : WF t) (hp : t.running p = some .run) (hs : t.exit p = some t') : WF t' := by
  obtain ⟨hp, hth⟩ := Table.running_eq_some.mp hp
  obtain ⟨hinit, hi, ht⟩ := Table.exit_spec hs
  obtain ⟨i, hti⟩ : ∃ i, t.initproc = some i := by
    cases hti : t.initproc with
    | none => simp [h.boot hti p] at hp
    | some i => exact ⟨i, rfl⟩
  constructor
  · have hboot := h.boot
    grind
  · have hinit := h.init
    grind
  · have hquiet := h.quiet
    grind
  · have hembryo := h.embryo
    grind
  · have howner := h.owner
    grind
  · have horphan := h.orphan
    grind
  · intro r hr hne
    have hstays (q : Slot) (hq : q ≠ p) (hal : Alive (t.proc q).state) :
        Alive (t'.proc q).state := by grind
    have hri : t.initproc ≠ some r := hi ▸ hne
    obtain ⟨q, hq, hqr, hal⟩ := h.parent r (by grind) hri
    by_cases hqp : q = p
    · -- an abandoned child goes to init
      have hip : i ≠ p := fun hip => hinit (hip ▸ hti)
      exact ⟨i, by grind, fun hir => hri (hir ▸ hti), hstays i hip (h.init i hti).1⟩
    · exact ⟨q, by grind, hqr, hstays q hqp hal⟩
  · have hasleep := h.asleep
    grind
  · intro r z hr hth hz hpar
    -- r slept through the exit, so it is neither the parent of p nor an init that
    -- gets an exited child of p
    have hrp : r ≠ p := by grind
    have hrt : (t.proc r).state = .sleeping ∧ ¬ t.Calls p (t.proc r).chan := by grind
    have hchan : (t.proc r).chan = some (.proc r) := by grind [h.asleep r hrt.1]
    obtain ⟨hnp, hni⟩ := not_or.mp hrt.2
    obtain ⟨q, hq, hqp, -⟩ := h.parent p (Or.inl (Or.inr (Or.inr hp))) hinit
    by_cases hzp : z = p
    · grind
    · have hzt : (t.proc z).state = .zombie := by grind
      have hleaves : (t.proc z).parent = some p → t.Leaves p (List.finRange NPROC) :=
        fun hzpar => ⟨z, List.mem_finRange z, hzt, hzpar⟩
      have hold := h.waiting r z hrt.1 (by grind) hzt
      grind

theorem WF.alloc (h : WF t) (hp : t.running p = some .run) (hnp : (t.proc np).state = .unused)
    (hi : t'.initproc = t.initproc)
    (ht : ∀ q, t'.proc q = if q = p then { t.proc p with thread := .alloc np }
      else if q = np then { t.proc np with state := .embryo, pid := t.nextpid, thread := .run }
      else t.proc q) : WF t' := by
  have horphan := h.orphan np
  obtain ⟨hp, hth⟩ := Table.running_eq_some.mp hp
  refine h.frame (?_ : Touches p np t _)
  constructor <;> grind

theorem WF.userinit (h : WF t) (hinit : t.initproc = none) (hi : t'.initproc = some p)
    (ht : ∀ q, t'.proc q = if q = p then { t.proc p with
      state := .runnable, pid := t.nextpid, trace := 0, thread := .run } else t.proc q) : WF t' := by
  -- nothing is in use before
  have hboot := h.boot hinit
  have hquiet := h.quiet
  have horphan := h.orphan
  constructor <;> grind

theorem WF.wait (h : WF t) (hp : t.running p = some .run) : WF (t.wait p) := by
  rcases t.wait_cases p with ⟨q, hq, hw⟩ | hw | ⟨hq, hw⟩ <;> rw [hw]
  · exact h.reap hp hq _
  · exact h.quiet_step (a := .wait p)
      (quiet_setThread (fun _ => rfl) (Table.running_eq_some.mp hp).1 rfl fun _ => rfl)
  · exact h.goToSleep hp (Or.inr ⟨rfl, rfl, hq⟩)

theorem wf_step (h : WF t) (hs : step t a = some t') : WF t' := by
  cases step_change hs with
  | quiet hq => exact h.quiet_step hq
  | userinit p ha hinit hp hi ht => exact h.userinit hinit hi ht
  | alloc p np ha hp hnp hi ht => exact h.alloc hp hnp hi ht
  | unborn p np ha hp hth ht => exact ht ▸ h.forkFail hp hth
  | born p np ha hp ht => exact ht ▸ h.forkDone hp
  | exit p ha hp ht => exact h.exit hp ht
  | sleep p n ha hp ht => exact ht ▸ h.goToSleep hp (Or.inl ⟨rfl, n, rfl⟩)
  | wait p t₁ hw hp ht => exact ht ▸ (h.quiet_step hw.quiet).wait hp

theorem wf_reachable (h : Reachable step Table.start t) : WF t :=
  h.invariant .start fun _ _ _ => wf_step

end ProvenXv6.Smp
