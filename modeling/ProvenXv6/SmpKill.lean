import Mathlib.Data.Set.Basic
import ProvenXv6.SmpInvariant

namespace ProvenXv6.Smp
open StepSystem
open Ptable (NPROC Slot ProcState)

/-- The state of the entry that a `kill` call finds. -/
def Table.hit (t : Table) : Action → Option ProcState
  | .kill _ pid => (t.target pid).map fun q => (t.proc q).state
  | _ => none

def KillsIn (S : Set ProcState) (t : Table) (a : Action) (_ : Table) : Prop := ∀ s ∈ t.hit a, s ∈ S

/-- A `kill` call of p that returns 0 has found an entry that is not UNUSED, and no
call writes an UNUSED entry. -/
structure KillOk (t : Table) (p : Slot) (pid : ℤ) (t' : Table) : Prop where
  found : (t'.proc p).thread = .ret 0 → ∃ q, (t.proc q).state ≠ .unused ∧ (t.proc q).pid = pid
  unused : ∀ q, (t.proc q).state = .unused → t'.proc q = t.proc q

/-- The `fork` of p that has come to the end of `allocproc` in t succeeds. -/
def Forks (S : Set ProcState) (t : Table) (p : Slot) : Prop :=
  ∃ fs u u', Run step (KillsIn S) t fs u ∧ .copyuvmFail p ∉ fs ∧ .forkDone p ∉ fs ∧
    step u (.forkDone p) = some u'

/-- Every step in every run whose `kill` calls find entries in the states of S: a
`kill` call is as it should be, and a new process is not killed when `allocproc` ends. -/
def KillSafe (S : Set ProcState) : Prop :=
  ∀ es t a t', Run step (KillsIn S) .start es t → step t a = some t' → KillsIn S t a t' →
    (∀ p pid, a = .kill p pid → KillOk t p pid t') ∧
    ∀ p np, a = .kalloc p → t.running p = some (.alloc np) → Forks S t' p →
      (t'.proc np).killed = false

def Unkilled (t : Table) : Prop :=
  ∀ q, (t.proc q).state = .unused ∨ (t.proc q).state = .embryo → (t.proc q).killed = false

variable {t t' : Table} {a : Action} {S : Set ProcState}

theorem KillsIn.not_strikes (h : KillsIn S t a t') (hS : .unused ∉ S ∧ .embryo ∉ S) {q : Slot}
    (hq : (t.proc q).state = .unused ∨ (t.proc q).state = .embryo) : ¬ t.Strikes a q := by
  intro hs
  cases a with
  | kill p pid =>
    have hin : (t.proc q).state ∈ S := h _ (by simp [Table.hit, show t.target pid = some q from hs])
    rcases hq with hq | hq
    · exact hS.1 (hq ▸ hin)
    · exact hS.2 (hq ▸ hin)
  | fault p => grind
  | _ => exact hs

theorem Unkilled.quiet (hu : Unkilled t) (hS : .unused ∉ S ∧ .embryo ∉ S) (hk : KillsIn S t a t')
    {t₁ : Table} (hq : Quiet t a t₁) : Unkilled t₁ := by
  intro q hstate
  have hstays := hq.stays q
  have hold : (t.proc q).state = .unused ∨ (t.proc q).state = .embryo := by grind [hstays.life]
  exact (hstays.killed.resolve_right (hk.not_strikes hS hold)).trans (hu q hold)

theorem unkilled_step (h : WF t) (hu : Unkilled t) (hS : .unused ∉ S ∧ .embryo ∉ S)
    (hs : step t a = some t') (hk : KillsIn S t a t') : Unkilled t' := by
  cases step_change hs with
  | quiet hq => exact hu.quiet hS hk hq
  | userinit r ha hinit hr hi ht => exact fun q hq => by grind [hu q]
  | alloc r np ha hr hnp hi ht => exact fun q hq => by grind [hu q]
  | unborn r np ha hr hth ht =>
    have hnp := h.embryo r np hth
    exact fun q hq => by grind [Table.forkFail, hu q]
  | born r np ha hr ht => exact fun q hq => by grind [Table.forkDone, hu q]
  | exit r ha hr ht =>
    obtain ⟨-, -, ht⟩ := Table.exit_spec ht
    exact fun q hq => by grind [hu q]
  | sleep r n ha hr ht => exact fun q hq => by grind [Table.goToSleep, hu q]
  | wait r t₁ hw hr ht =>
    have hu₁ : Unkilled t₁ := hu.quiet hS hk hw.quiet
    intro q hq
    rcases t₁.wait_cases r with ⟨z, hz, hwait⟩ | hwait | ⟨hz, hwait⟩
    · grind [hu₁ q]
    · grind [hu₁ q]
    · grind [Table.goToSleep, hu₁ q]

theorem unkilled_run {es : List Action} (hS : .unused ∉ S ∧ .embryo ∉ S)
    (h : Run step (KillsIn S) .start es t) : Unkilled t := by
  have hboth : WF t ∧ Unkilled t := by
    refine h.invariant (I := fun t => WF t ∧ Unkilled t) ⟨.start, fun _ _ => rfl⟩ ?_
    rintro s a s' ⟨hwf, hu⟩ hs hk
    exact ⟨wf_step hwf hs, unkilled_step hwf hu hS hs hk⟩
  exact hboth.2

theorem kill_ok (hS : .unused ∉ S) {p : Slot} {pid : ℤ} (hs : step t (.kill p pid) = some t')
    (hk : KillsIn S t (.kill p pid) t') : KillOk t p pid t' := by
  simp only [step] at hs
  split_ifs at hs with hp
  obtain ⟨hp, -⟩ := Table.running_eq_some.mp hp
  obtain rfl := Option.some.inj hs
  unfold Table.kill
  cases hr : t.target pid with
  | none => exact ⟨fun h => by grind, fun q hq => by grind⟩
  | some r =>
    have hin : (t.proc r).state ∈ S := hk _ (by simp [Table.hit, hr])
    have hne : (t.proc r).state ≠ .unused := fun h => hS (h ▸ hin)
    have hpid : (t.proc r).pid = pid := by simpa using Table.scan_some hr
    exact ⟨fun _ => ⟨r, hne, hpid⟩, fun q hq => by grind⟩

/-- The actions that leave init and its first child RUNNING. -/
def twoRunning : List Action :=
  [.userinit, .dispatch 0, .fork 0, .kalloc 0, .forkDone 0, .back 0, .dispatch 1]

/-- `kill` is as it should be in every run exactly when no call finds an entry that
is UNUSED or EMBRYO. -/
theorem killSafe_iff (S : Set ProcState) : KillSafe S ↔ .unused ∉ S ∧ .embryo ∉ S := by
  have hrun (s : ProcState) (hs : s ∈ S) {t t' : Table} {as : List Action}
      (h : exec (guarded step fun t a _ => ∀ s' ∈ t.hit a, s' = s) t as = some t') :
      Run step (KillsIn S) t as t' :=
    (run_guarded h).mono fun t a t' _ hq s' hs' => hq s' hs' ▸ hs
  constructor
  · intro h
    constructor
    · intro hS
      -- an entry that was never used has pid 0
      have hex : ∃ t ∈ exec (guarded step fun t a _ => ∀ s ∈ t.hit a, s = .unused) .start
          [.userinit, .dispatch 0], ∃ t' ∈ step t (.kill 0 0),
          (∀ s ∈ t.hit (.kill 0 0), s = .unused) ∧ (t.proc 1).state = .unused ∧
          (t'.proc 1).killed ≠ (t.proc 1).killed := by decide +kernel
      obtain ⟨t, ht, t', ht', hit, hu, hne⟩ := hex
      have hk := (h _ t _ t' (hrun _ hS ht) ht' fun s hs => hit s hs ▸ hS).1 0 0 rfl
      exact hne (by rw [hk.unused 1 hu])
    · intro hS
      -- the child kills the EMBRYO that init is filling in
      have hex : ∃ t ∈ exec (guarded step fun t a _ => ∀ s ∈ t.hit a, s = .embryo) .start
          (twoRunning ++ [.fork 0, .kill 1 3]), ∃ t' ∈ step t (.kalloc 0),
          t.running 0 = some (.alloc 2) ∧ (t'.proc 2).killed = true ∧
          (step t' (.forkDone 0)).isSome := by decide +kernel
      obtain ⟨t, ht, t', ht', hp, hkilled, hdone⟩ := hex
      obtain ⟨u, hu⟩ := Option.isSome_iff_exists.mp hdone
      have hforks : Forks S t' 0 := ⟨[], t', u, .nil t', List.not_mem_nil, List.not_mem_nil, hu⟩
      have hk := (h _ t _ t' (hrun _ hS ht) ht' (by simp [KillsIn, Table.hit])).2 0 2 rfl hp hforks
      rw [hkilled] at hk
      cases hk
  · rintro hS es t a t' hr hs hk
    refine ⟨?_, ?_⟩
    · rintro p pid rfl
      exact kill_ok hS.1 hs hk
    · rintro p np rfl hp -
      have hwf : WF t := wf_reachable ⟨es, hr.mono fun _ _ _ _ _ => trivial⟩
      have hnp := hwf.embryo_of_running hp rfl
      have hnp' : (t'.proc np).killed = (t.proc np).killed := by
        simp only [step, hp] at hs
        grind [Table.kalloc]
      exact hnp'.trans (unkilled_run hS hr np (Or.inr hnp))

/-- init calls `kill` with pid 0, which no process has: it returns 0 and marks an
UNUSED entry, and the child that the next `fork` puts there is killed from the start. -/
theorem kill_zero_marks_unused :
    ∃ t t₁ u u₁ v, Reachable step .start t ∧ step t (.kill 0 0) = some t₁ ∧
      (t₁.proc 0).thread = .ret 0 ∧ (∀ q, (t.proc q).state ≠ .unused → (t.proc q).pid ≠ 0) ∧
      (t.proc 1).state = .unused ∧ (t.proc 1).killed = false ∧ (t₁.proc 1).killed = true ∧
      Run step Free t₁ [.back 0, .fork 0] u ∧ step u (.kalloc 0) = some u₁ ∧
      (u₁.proc 1).killed = true ∧ step u₁ (.forkDone 0) = some v ∧
      (v.proc 1).state = .runnable := by
  have hex : ∃ t ∈ exec step .start [.userinit, .dispatch 0], ∃ t₁ ∈ step t (.kill 0 0),
      ∃ u ∈ exec step t₁ [.back 0, .fork 0], ∃ u₁ ∈ step u (.kalloc 0),
      ∃ v ∈ step u₁ (.forkDone 0), (t₁.proc 0).thread = .ret 0 ∧
      (∀ q, (t.proc q).state ≠ .unused → (t.proc q).pid ≠ 0) ∧ (t.proc 1).state = .unused ∧
      (t.proc 1).killed = false ∧ (t₁.proc 1).killed = true ∧ (u₁.proc 1).killed = true ∧
      (v.proc 1).state = .runnable := by decide +kernel
  obtain ⟨t, ht, t₁, ht₁, u, hu, u₁, hu₁, v, hv, hret, hpid, hstate, hk, hk₁, hku, hstatev⟩ := hex
  exact ⟨t, t₁, u, u₁, v, ⟨_, run_exec ht⟩, ht₁, hret, hpid, hstate, hk, hk₁, run_exec hu, hu₁, hku,
    hv, hstatev⟩

end ProvenXv6.Smp
