import Mathlib.Data.Fintype.Basic
import ProvenXv6.SmpModel

namespace ProvenXv6.Smp
open Ptable (NPROC Slot ProcState Chan wrap32)

attribute [ext] Proc

@[grind] def Alive (s : ProcState) : Prop := s = .sleeping ∨ s = .runnable ∨ s = .running

/-- The entry that a process inside `fork` is filling in. -/
@[grind] def Thread.child : Thread → Option Slot
  | .alloc np => some np
  | .fork np => some np
  | _ => none

namespace Table

variable (t : Table)

@[grind =]
theorem modify_proc (p : Slot) (f : Proc → Proc) (q : Slot) :
    (t.modify p f).proc q = if q = p then f (t.proc p) else t.proc q := by
  by_cases h : q = p
  · subst h
    simp [modify]
  · simp [modify, h]

@[simp, grind =]
theorem modify_initproc (p : Slot) (f : Proc → Proc) : (t.modify p f).initproc = t.initproc := rfl

theorem modify_modify (p : Slot) (f g : Proc → Proc) :
    (t.modify p f).modify p g = t.modify p (fun e => g (f e)) := by
  simp [modify]

@[grind =]
theorem setThread_proc (p : Slot) (th : Thread) (q : Slot) :
    (t.setThread p th).proc q = if q = p then { t.proc p with thread := th } else t.proc q :=
  t.modify_proc p _ q

@[simp, grind =]
theorem setThread_initproc (p : Slot) (th : Thread) :
    (t.setThread p th).initproc = t.initproc := rfl

variable {t}

theorem scan_some {test : Proc → Bool} {p : Slot} (h : t.scan test = some p) :
    test (t.proc p) = true :=
  List.find?_some (p := fun p => test (t.proc p)) h

theorem scan_none {test : Proc → Bool} (h : t.scan test = none) (p : Slot) :
    test (t.proc p) = false := by
  simpa using List.find?_eq_none.mp h p (List.mem_finRange p)

theorem exited_some {p q : Slot} (h : t.exited p = some q) :
    (t.proc q).parent = some p ∧ (t.proc q).state = .zombie := by
  simpa using scan_some h

theorem exited_none {p : Slot} (h : t.exited p = none) (z : Slot)
    (hz : (t.proc z).state = .zombie) : (t.proc z).parent ≠ some p := by
  intro hp
  simpa [hp, hz] using scan_none h z

@[grind =]
theorem running_eq_some {p : Slot} {th : Thread} :
    t.running p = some th ↔ (t.proc p).state = .running ∧ (t.proc p).thread = th := by
  unfold running
  split_ifs with h <;> simp [h]

@[grind =]
theorem wakeup1_proc (t : Table) (chan : Option Chan) (q : Slot) :
    (t.wakeup1 chan).proc q =
      if (t.proc q).state = .sleeping ∧ (t.proc q).chan = chan then
        { t.proc q with state := .runnable } else t.proc q := rfl

@[simp, grind =]
theorem wakeup1_initproc (t : Table) (chan : Option Chan) :
    (t.wakeup1 chan).initproc = t.initproc := rfl

@[simp]
theorem abandon_initproc (t : Table) (p z : Slot) : (abandon p t z).initproc = t.initproc := by
  unfold abandon
  dsimp only
  split_ifs <;> rfl

theorem abandon_proc (t : Table) (p z q : Slot) :
    (abandon p t z).proc q =
      { t.proc q with
        parent := if q = z ∧ (t.proc q).parent = some p then t.initproc else (t.proc q).parent
        state := if (t.proc q).state = .sleeping ∧ (t.proc q).chan = t.initproc.map .proc ∧
          (t.proc z).state = .zombie ∧ (t.proc z).parent = some p then .runnable
          else (t.proc q).state } := by
  unfold abandon
  apply Proc.ext <;> grind

/-- p has an exited child among the entries of l. -/
def Leaves (t : Table) (p : Slot) (l : List Slot) : Prop :=
  ∃ z ∈ l, (t.proc z).state = .zombie ∧ (t.proc z).parent = some p

instance (p : Slot) (l : List Slot) : Decidable (t.Leaves p l) :=
  inferInstanceAs (Decidable (∃ z ∈ l, _))

theorem leaves_abandon (p z : Slot) (l : List Slot) (h : ¬ t.Leaves p [z]) :
    (abandon p t z).Leaves p l ↔ t.Leaves p l := by
  have hz : ¬ ((t.proc z).state = .zombie ∧ (t.proc z).parent = some p) := by
    simpa [Leaves] using h
  unfold Leaves
  refine exists_congr fun w => and_congr_right fun _ => ?_
  rw [abandon_proc]
  grind

theorem foldl_abandon (p : Slot) (l : List Slot) (t : Table) :
    (l.foldl (abandon p) t).initproc = t.initproc ∧ ∀ q, (l.foldl (abandon p) t).proc q =
      { t.proc q with
        parent := if q ∈ l ∧ (t.proc q).parent = some p then t.initproc else (t.proc q).parent
        state := if (t.proc q).state = .sleeping ∧ (t.proc q).chan = t.initproc.map .proc ∧
          t.Leaves p l then .runnable else (t.proc q).state } := by
  induction l generalizing t with
  | nil => simp [Leaves]
  | cons z l ih =>
    obtain ⟨hi, hp⟩ := ih (abandon p t z)
    rw [List.foldl_cons]
    refine ⟨hi.trans (t.abandon_initproc p z), fun q => ?_⟩
    have hl : t.Leaves p (z :: l) ↔ t.Leaves p [z] ∨ t.Leaves p l := by simp [Leaves]
    have hz : t.Leaves p [z] ↔ (t.proc z).state = .zombie ∧ (t.proc z).parent = some p := by
      simp [Leaves]
    -- an init woken by z is no longer SLEEPING for the entries of l
    have ha := t.abandon_proc p z q
    have hla := leaves_abandon (t := t) p z l
    rw [hp q, abandon_initproc]
    apply Proc.ext <;> grind

/-- A process asleep on the channel is woken by the exit of p: the channel is the
parent of p, or init when it gets an exited child of p. -/
def Calls (t : Table) (p : Slot) (chan : Option Chan) : Prop :=
  chan = (t.proc p).parent.map .proc ∨
    chan = t.initproc.map .proc ∧ t.Leaves p (List.finRange NPROC)

instance (p : Slot) (chan : Option Chan) : Decidable (t.Calls p chan) :=
  inferInstanceAs (Decidable (_ ∨ _))

theorem exit_spec {t' : Table} {p : Slot} (h : t.exit p = some t') :
    t.initproc ≠ some p ∧ t'.initproc = t.initproc ∧ ∀ q, t'.proc q =
      { t.proc q with
        parent := if (t.proc q).parent = some p then t.initproc else (t.proc q).parent
        state := if q = p then .zombie
          else if (t.proc q).state = .sleeping ∧ t.Calls p (t.proc q).chan then .runnable
          else (t.proc q).state } := by
  unfold exit at h
  split_ifs at h with hinit
  dsimp only at h
  obtain ⟨hi, hp⟩ := foldl_abandon p (List.finRange NPROC) (t.wakeup1 ((t.proc p).parent.map .proc))
  -- waking the parent makes and unmakes no exited child
  have hl : (t.wakeup1 ((t.proc p).parent.map .proc)).Leaves p (List.finRange NPROC) ↔
      t.Leaves p (List.finRange NPROC) := by
    unfold Leaves
    refine exists_congr fun w => and_congr_right fun _ => ?_
    rw [wakeup1_proc]
    grind
  generalize (List.finRange NPROC).foldl (abandon p) (t.wakeup1 ((t.proc p).parent.map .proc)) = t₁
    at h hi hp
  obtain rfl := Option.some.inj h
  refine ⟨hinit, hi, fun q => ?_⟩
  have hq := hp q
  have hmem := List.mem_finRange q
  rw [modify_proc]
  apply Proc.ext <;> grind [Calls]

theorem wait_cases (t : Table) (p : Slot) :
    (∃ q, t.exited p = some q ∧ t.wait p = (t.modify q (fun e => { e with
      pid := 0, parent := none, killed := false, state := .unused })).setThread p
      (.ret (t.proc q).pid)) ∨
    t.wait p = t.setThread p (.ret (-1)) ∨
    t.exited p = none ∧ t.wait p = t.goToSleep p (.proc p) .wait := by
  unfold wait
  cases h : t.exited p with
  | some q => exact Or.inl ⟨q, rfl, rfl⟩
  | none =>
    dsimp only
    split_ifs
    · exact Or.inr (Or.inl rfl)
    · exact Or.inr (Or.inr ⟨rfl, rfl⟩)

end Table

/-- The thread is inside one of the functions that a system call calls. -/
@[grind] def Thread.busy : Thread → Bool
  | .run => false
  | .sleep => false
  | _ => true

/-- The process q calls one of those functions. -/
@[grind] def Action.Calls (a : Action) (q : Slot) : Prop :=
  match a with
  | .fork p => p = q
  | .wait p => p = q
  | .kill p _ => p = q
  | .trace p _ => p = q
  | .other p _ => p = q
  | _ => False

/-- The mask that a successful `trace` call of q sets. -/
@[grind] def Action.mask (a : Action) (q : Slot) : Option (BitVec 32) :=
  match a with
  | .trace p arg => if p = q then arg else none
  | _ => none

/-- The step marks q killed. -/
@[grind] def Table.Strikes (t : Table) (a : Action) (q : Slot) : Prop :=
  match a with
  | .kill _ pid => t.target pid = some q
  | .fault p => p = q ∧ (t.proc q).state = .running
  | _ => False

/-- Entry q still holds the same process under the same parent, in the same state
or up when it was alive. -/
structure Stays (t : Table) (a : Action) (q : Slot) (e : Proc) : Prop where
  pid : e.pid = (t.proc q).pid
  parent : e.parent = (t.proc q).parent
  child : e.thread.child = none ∨ e.thread.child = (t.proc q).thread.child
  busy : e.thread.busy → (t.proc q).thread.busy ∨ a.Calls q
  life : e.state = (t.proc q).state ∧ e.chan = (t.proc q).chan ∧ e.thread = (t.proc q).thread ∨
    Alive (t.proc q).state ∧ (e.state = .runnable ∨ e.state = .running)
  killed : e.killed = (t.proc q).killed ∨ t.Strikes a q
  trace : e.trace = (a.mask q).getD (t.proc q).trace ∨
    ∃ p, a = .kalloc p ∧ (t.proc p).thread.child = some q

structure Quiet (t : Table) (a : Action) (t' : Table) : Prop where
  initproc : t'.initproc = t.initproc
  stays : ∀ q, Stays t a q (t'.proc q)

/-- The process p comes to the loop of `wait` in t₁: it calls it, or it was asleep
there. -/
inductive Waits (t : Table) (a : Action) (p : Slot) (t₁ : Table) : Prop
  | call (ha : a = .wait p) (ht : t₁ = t)
  | wake (ha : a = .dispatch p) (hp : (t.proc p).state = .runnable)
      (hth : (t.proc p).thread = .wait)
      (ht : t₁ = t.modify p (fun e => { e with state := .running, chan := none, thread := .run }))

inductive Change (t : Table) (a : Action) (t' : Table) : Prop
  | quiet (h : Quiet t a t')
  | userinit (p : Slot) (ha : a = .userinit) (hi : t.initproc = none)
      (hp : (t.proc p).state = .unused) (hi' : t'.initproc = some p)
      (ht : ∀ q, t'.proc q = if q = p then { t.proc p with
        state := .runnable, pid := t.nextpid, trace := 0, thread := .run } else t.proc q)
  | alloc (p np : Slot) (ha : a = .fork p) (hp : t.running p = some .run)
      (hnp : (t.proc np).state = .unused) (hi : t'.initproc = t.initproc)
      (ht : ∀ q, t'.proc q = if q = p then { t.proc p with thread := .alloc np }
        else if q = np then { t.proc np with state := .embryo, pid := t.nextpid, thread := .run }
        else t.proc q)
  | unborn (p np : Slot) (ha : a = .kallocFail p ∨ a = .copyuvmFail p)
      (hp : (t.proc p).state = .running) (hth : (t.proc p).thread.child = some np)
      (ht : t' = t.forkFail p np)
  | born (p np : Slot) (ha : a = .forkDone p) (hp : t.running p = some (.fork np))
      (ht : t' = t.forkDone p np)
  | exit (p : Slot) (ha : a = .exit p) (hp : t.running p = some .run) (ht : t.exit p = some t')
  | sleep (p : Slot) (n : ℕ) (ha : a = .sleep p n) (hp : t.running p = some .run)
      (ht : t' = t.goToSleep p (.addr n) .sleep)
  | wait (p : Slot) (t₁ : Table) (hw : Waits t a p t₁) (hp : t₁.running p = some .run)
      (ht : t' = t₁.wait p)

variable {t t' : Table} {a : Action}

theorem stays_refl {q : Slot} (ha : a.mask q = none) : Stays t a q (t.proc q) := by
  refine ⟨rfl, rfl, Or.inr rfl, Or.inl, Or.inl ⟨rfl, rfl, rfl⟩, Or.inl rfl, Or.inl ?_⟩
  rw [ha, Option.getD_none]

theorem stays_up {q : Slot} {s : ProcState} {chan : Option Chan} {th : Thread}
    (ha : a.mask q = none) (hq : Alive (t.proc q).state) (hs : s = .runnable ∨ s = .running)
    (hth : th = (t.proc q).thread ∨ th.child = none ∧ (th.busy → a.Calls q)) :
    Stays t a q { t.proc q with state := s, chan := chan, thread := th } := by
  refine ⟨rfl, rfl, ?_, fun hb => ?_, Or.inr ⟨hq, hs⟩, Or.inl rfl, Or.inl ?_⟩
  · exact hth.symm.imp And.left (congrArg Thread.child)
  · rcases hth with hth | hth
    · exact Or.inl (hth ▸ hb)
    · exact Or.inr (hth.2 hb)
  · rw [ha, Option.getD_none]

theorem quiet_refl (ha : ∀ q, a.mask q = none) : Quiet t a t := ⟨rfl, fun q => stays_refl (ha q)⟩

theorem quiet_modify {p : Slot} {f : Proc → Proc} (ha : ∀ q, q ≠ p → a.mask q = none)
    (h : Stays t a p (f (t.proc p))) : Quiet t a (t.modify p f) := by
  refine ⟨rfl, fun q => ?_⟩
  rw [Table.modify_proc]
  split_ifs with hq
  · exact hq ▸ h
  · exact stays_refl (ha q hq)

theorem quiet_setThread {p : Slot} {th : Thread} (ha : ∀ q, a.mask q = none)
    (hp : (t.proc p).state = .running) (hth : th.child = none) (hb : th.busy → a.Calls p) :
    Quiet t a (t.setThread p th) := by
  have hup : Alive (t.proc p).state := Or.inr (Or.inr hp)
  exact quiet_modify (fun q _ => ha q) (stays_up (ha p) hup (Or.inr hp) (Or.inr ⟨hth, hb⟩))

theorem quiet_wakeup1 (t : Table) (chan : Chan) :
    Quiet t (.wakeup chan) (t.wakeup1 (some chan)) := by
  refine ⟨rfl, fun q => ⟨?_, ?_, ?_, ?_, ?_, ?_, ?_⟩⟩ <;> grind

theorem quiet_kalloc {p np : Slot} (hp : t.running p = some (.alloc np)) :
    Quiet t (.kalloc p) (t.kalloc p np) := by
  unfold Table.kalloc
  refine ⟨rfl, fun q => ⟨?_, ?_, ?_, ?_, ?_, ?_, ?_⟩⟩ <;> grind

theorem quiet_kill {p : Slot} (pid : ℤ) (hp : t.running p = some .run) :
    Quiet t (.kill p pid) (t.kill p pid) := by
  unfold Table.kill
  cases hr : t.target pid with
  | none => exact quiet_setThread (fun _ => rfl) (Table.running_eq_some.mp hp).1 rfl fun _ => rfl
  | some r =>
    refine ⟨rfl, fun q => ⟨?_, ?_, ?_, ?_, ?_, ?_, ?_⟩⟩ <;> grind

theorem quiet_sysTrace {p : Slot} (arg : Option (BitVec 32)) (hp : t.running p = some .run) :
    Quiet t (.trace p arg) (t.sysTrace p arg) := by
  unfold Table.sysTrace
  cases arg with
  | none =>
    exact quiet_setThread (fun q => by grind) (Table.running_eq_some.mp hp).1 rfl fun _ => rfl
  | some m =>
    refine ⟨rfl, fun q => ⟨?_, ?_, ?_, ?_, ?_, ?_, ?_⟩⟩ <;> grind

theorem change_fork {p : Slot} (hp : t.running p = some .run) :
    Change t (.fork p) (t.fork p) := by
  unfold Table.fork Table.allocproc
  cases hs : t.scan (fun e => e.state = .unused) with
  | none =>
    exact .quiet (quiet_setThread (fun _ => rfl) (Table.running_eq_some.mp hp).1 rfl fun _ => rfl)
  | some np =>
    have hnp : (t.proc np).state = .unused := by simpa using Table.scan_some hs
    refine .alloc p np rfl hp hnp rfl fun q => ?_
    grind

theorem Waits.quiet {p : Slot} {t₁ : Table} (h : Waits t a p t₁) : Quiet t a t₁ := by
  cases h with
  | call ha ht =>
    subst ha ht
    exact quiet_refl fun _ => rfl
  | wake ha hp hth ht =>
    subst ha ht
    have hup : Alive (t.proc p).state := Or.inr (Or.inl hp)
    exact quiet_modify (fun _ _ => rfl) (stays_up rfl hup (Or.inr rfl) (Or.inr ⟨rfl, nofun⟩))

theorem change_dispatch {p : Slot} (hp : (t.proc p).state = .runnable) :
    Change t (.dispatch p) (t.dispatch p) := by
  unfold Table.dispatch
  have hself : (t.modify p (fun e => { e with state := .running })).proc p =
      { t.proc p with state := .running } := by rw [Table.modify_proc, if_pos rfl]
  have hup : Alive (t.proc p).state := Or.inr (Or.inl hp)
  cases hth : (t.proc p).thread with
  | wait =>
    refine .wait p _ (.wake rfl hp hth rfl) ?_ ?_
    · grind
    · simp only [hself, hth, Table.modify_modify]
  | sleep =>
    simp only [hself, hth, Table.modify_modify]
    exact .quiet (quiet_modify (fun _ _ => rfl)
      (stays_up rfl hup (Or.inr rfl) (Or.inr ⟨rfl, nofun⟩)))
  | _ =>
    simp only [hself, hth]
    exact .quiet (quiet_modify (fun _ _ => rfl) (stays_up rfl hup (Or.inr rfl) (Or.inl rfl)))

/-- Every step does one of the things listed in `Change`. -/
theorem step_change (h : step t a = some t') : Change t a t' := by
  cases a with
  | userinit =>
    simp only [step] at h
    split_ifs at h with hi
    unfold Table.userinit Table.allocproc at h
    cases hs : t.scan (fun e => e.state = .unused) with
    | none => simp [hs] at h
    | some p =>
      have hp : (t.proc p).state = .unused := by simpa using Table.scan_some hs
      simp only [hs, Option.map_some, Option.some.injEq] at h
      subst h
      refine .userinit p rfl hi hp rfl fun q => ?_
      grind
  | fork p =>
    simp only [step] at h
    split_ifs at h with hp
    exact Option.some.inj h ▸ change_fork hp
  | kalloc p =>
    simp only [step] at h
    split at h
    · rename_i np hp
      exact Option.some.inj h ▸ .quiet (quiet_kalloc hp)
    · cases h
  | kallocFail p =>
    simp only [step] at h
    split at h
    · rename_i np hp
      obtain ⟨hp, hth⟩ := Table.running_eq_some.mp hp
      exact .unborn p np (Or.inl rfl) hp (by rw [hth]; rfl) (Option.some.inj h).symm
    · cases h
  | copyuvmFail p =>
    simp only [step] at h
    split at h
    · rename_i np hp
      obtain ⟨hp, hth⟩ := Table.running_eq_some.mp hp
      exact .unborn p np (Or.inr rfl) hp (by rw [hth]; rfl) (Option.some.inj h).symm
    · cases h
  | forkDone p =>
    simp only [step] at h
    split at h
    · rename_i np hp
      exact .born p np rfl hp (Option.some.inj h).symm
    · cases h
  | exit p =>
    simp only [step] at h
    split_ifs at h with hp
    exact .exit p rfl hp h
  | wait p =>
    simp only [step] at h
    split_ifs at h with hp
    exact .wait p t (.call rfl rfl) hp (Option.some.inj h).symm
  | sleep p n =>
    simp only [step] at h
    split_ifs at h with hp
    exact .sleep p n rfl hp (Option.some.inj h).symm
  | wakeup chan => exact Option.some.inj h ▸ .quiet (quiet_wakeup1 t chan)
  | kill p pid =>
    simp only [step] at h
    split_ifs at h with hp
    exact Option.some.inj h ▸ .quiet (quiet_kill pid hp)
  | trace p arg =>
    simp only [step] at h
    split_ifs at h with hp
    exact Option.some.inj h ▸ .quiet (quiet_sysTrace arg hp)
  | other p v =>
    simp only [step] at h
    split_ifs at h with hp
    exact Option.some.inj h ▸ .quiet
      (quiet_setThread (fun _ => rfl) (Table.running_eq_some.mp hp).1 rfl fun _ => rfl)
  | fault p =>
    simp only [step] at h
    split_ifs at h with hp
    exact Option.some.inj h ▸ .quiet (quiet_modify (fun _ _ => rfl)
      ⟨rfl, rfl, Or.inr rfl, Or.inl, Or.inl ⟨rfl, rfl, rfl⟩,
        Or.inr ⟨rfl, (Table.running_eq_some.mp hp).1⟩, Or.inl rfl⟩)
  | back p =>
    simp only [step] at h
    split at h
    · rename_i v hp
      exact Option.some.inj h ▸ .quiet
        (quiet_setThread (fun _ => rfl) (Table.running_eq_some.mp hp).1 rfl nofun)
    · cases h
  | yield p =>
    simp only [step] at h
    split_ifs at h with hp
    obtain ⟨th, hp⟩ := Option.isSome_iff_exists.mp hp
    have hup : Alive (t.proc p).state := Or.inr (Or.inr (Table.running_eq_some.mp hp).1)
    exact Option.some.inj h ▸ .quiet
      (quiet_modify (fun _ _ => rfl) (stays_up rfl hup (Or.inl rfl) (Or.inl rfl)))
  | dispatch p =>
    simp only [step] at h
    split_ifs at h with hp
    exact Option.some.inj h ▸ change_dispatch hp

end ProvenXv6.Smp
