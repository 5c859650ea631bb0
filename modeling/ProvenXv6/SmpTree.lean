import ProvenXv6.SmpInvariant

namespace ProvenXv6.Smp
open StepSystem
open Ptable (NPROC Slot ProcState)

/-- Every process other than init has a parent, not itself, that is alive. -/
def Table.Tree (t : Table) : Prop :=
  ∀ p, Alive (t.proc p).state ∨ (t.proc p).state = .zombie → t.initproc ≠ some p →
    ∃ q, (t.proc p).parent = some q ∧ q ≠ p ∧ Alive (t.proc q).state

def Exited (p : Slot) (pid : ℤ) (t : Table) : Prop :=
  (t.proc p).state = .zombie ∧ (t.proc p).pid = pid

/-- The step is one of a `wait` call of q: the call itself, or q going on inside it. -/
def InWait (t : Table) (a : Action) (q : Slot) : Prop :=
  a = .wait q ∨ a = .dispatch q ∧ (t.proc q).thread = .wait

/-- The step ends a `wait` call of the parent of p, which returns the pid of p. -/
structure Reaps (p : Slot) (pid : ℤ) (t : Table) (a : Action) (t' : Table) : Prop where
  exited : Exited p pid t
  parent : ∃ q, (t.proc p).parent = some q ∧ InWait t a q ∧ (t'.proc q).thread = .ret pid
  unused : (t'.proc p).state = .unused

/-- What the actions bs do with an exited process p: it stays, or one step reaps it,
and then the entry is not ZOMBIE again before another process in it exits. -/
inductive Grave (p : Slot) (pid : ℤ) (t : Table) (bs : List Action) (t' : Table) : Prop
  | rests (h : Run step (Keeps (Exited p pid)) t bs t')
  | reaped (cs : List Action) (b : Action) (ds : List Action) (u u' : Table)
      (hbs : bs = cs ++ b :: ds) (hcs : Run step (Keeps (Exited p pid)) t cs u)
      (hb : step u b = some u') (hreap : Reaps p pid u b u') (hds : Run step Free u' ds t')
      (honce : ∀ ds₁ ds₂ v, ds = ds₁ ++ ds₂ → .exit p ∉ ds₁ → Run step Free u' ds₁ v →
        (v.proc p).state ≠ .zombie)

variable {t t' : Table} {a : Action} {p : Slot} {pid : ℤ}

theorem Waits.inWait {t₁ : Table} (h : Waits t a p t₁) : InWait t a p := by
  cases h with
  | call ha ht => exact Or.inl ha
  | wake ha hp hth ht => exact Or.inr ⟨ha, hth⟩

theorem Quiet.exited (h : Quiet t a t') (he : Exited p pid t) : Exited p pid t' := by
  refine ⟨((h.stays p).state ?_).trans he.1, (h.stays p).pid.trans he.2⟩
  simp [he.1, Alive]

theorem exited_step (h : WF t) (hs : step t a = some t') (he : Exited p pid t) :
    Exited p pid t' ∨ Reaps p pid t a t' := by
  obtain ⟨hz, hpid⟩ := he
  cases step_change hs with
  | quiet hq => exact Or.inl (hq.exited ⟨hz, hpid⟩)
  | userinit r ha hinit hr hi ht => simp [h.boot hinit p] at hz
  | alloc r np ha hr hnp hi ht => exact Or.inl (by grind [Exited])
  | unborn r np ha hr hth ht =>
    have hnp := h.embryo r np hth
    exact Or.inl (by grind [Exited, Table.forkFail])
  | born r np ha hr ht =>
    have hnp := h.embryo_of_running hr rfl
    exact Or.inl (by grind [Exited, Table.forkDone])
  | exit r ha hr ht =>
    obtain ⟨-, -, ht⟩ := Table.exit_spec ht
    exact Or.inl (by grind [Exited])
  | sleep r n ha hr ht => exact Or.inl (by grind [Exited, Table.goToSleep])
  | wait r t₁ hw hr ht =>
    obtain ⟨hz₁, hpid₁⟩ := hw.quiet.exited ⟨hz, hpid⟩
    rcases t₁.wait_cases r with ⟨q, hq, hwait⟩ | hwait | ⟨hq, hwait⟩
    · -- the entry found is p or another exited child of r
      obtain ⟨hpar, hzq⟩ := Table.exited_some hq
      by_cases hqp : q = p
      · subst hqp
        right
        have hparent : (t.proc q).parent = some r := (hw.quiet.stays q).parent ▸ hpar
        exact ⟨⟨hz, hpid⟩, ⟨r, hparent, hw.inWait, by grind⟩, by grind⟩
      · exact Or.inl (by grind [Exited])
    · exact Or.inl (by grind [Exited])
    · exact Or.inl (by grind [Exited, Table.goToSleep])

theorem zombie_step (hs : step t a = some t') (hz : (t'.proc p).state = .zombie) :
    (t.proc p).state = .zombie ∨ a = .exit p := by
  cases step_change hs with
  | quiet hq => exact Or.inl (by grind [(hq.stays p).life])
  | userinit r ha hinit hr hi ht => exact Or.inl (by grind)
  | alloc r np ha hr hnp hi ht => exact Or.inl (by grind)
  | unborn r np ha hr hth ht => exact Or.inl (by grind [Table.forkFail])
  | born r np ha hr ht => exact Or.inl (by grind [Table.forkDone])
  | exit r ha hr ht =>
    obtain ⟨-, -, ht⟩ := Table.exit_spec ht
    by_cases hrp : p = r
    · exact Or.inr (hrp ▸ ha)
    · exact Or.inl (by grind)
  | sleep r n ha hr ht => exact Or.inl (by grind [Table.goToSleep])
  | wait r t₁ hw hr ht =>
    have hz₁ : (t₁.proc p).state = .zombie := by
      rcases t₁.wait_cases r with ⟨q, hq, hwait⟩ | hwait | ⟨hq, hwait⟩
      · grind
      · grind
      · grind [Table.goToSleep]
    exact Or.inl (by grind [(hw.quiet.stays p).life])

theorem zombie_of_run {bs : List Action} (h : Run step Free t bs t') (hbs : .exit p ∉ bs)
    (hz : (t.proc p).state ≠ .zombie) : (t'.proc p).state ≠ .zombie := by
  refine h.mem.invariant (I := fun t => (t.proc p).state ≠ .zombie) hz ?_
  rintro s a s' hz hs ⟨-, ha⟩ hz'
  rcases zombie_step hs hz' with h | h
  · exact hz h
  · exact hbs (h ▸ ha)

theorem grave_of_run {bs : List Action} (hwf : WF t) (he : Exited p pid t)
    (h : Run step Free t bs t') : Grave p pid t bs t' := by
  rcases h.keeps_or_first he with hk | ⟨cs, b, ds, u, u', hbs, hcs, hu, hb, -, hu', hds⟩
  · exact .rests hk
  · have hwfu : WF u := hcs.invariant hwf fun _ _ _ hwf hs _ => wf_step hwf hs
    have hreap := (exited_step hwfu hb hu).resolve_left hu'
    refine .reaped cs b ds u u' hbs hcs hb hreap hds fun ds₁ _ v _ hexit hv => ?_
    exact zombie_of_run hv hexit (by simp [hreap.unused])

/-- In every reachable table every process has a parent that is alive, and from
any `exit` step on the exited process stays until its parent at that time reaps it,
once. -/
theorem process_tree_and_reaping :
    (∀ t, Reachable step .start t → t.Tree) ∧
    ∀ t₀ t₁ t₂ p bs, Reachable step .start t₀ → step t₀ (.exit p) = some t₁ →
      Run step Free t₁ bs t₂ →
      Exited p (t₀.proc p).pid t₁ ∧ Grave p (t₀.proc p).pid t₁ bs t₂ := by
  refine ⟨fun t h => (wf_reachable h).parent, ?_⟩
  intro t₀ t₁ t₂ p bs h₀ hexit hrun
  have he : Exited p (t₀.proc p).pid t₁ := by
    simp only [step] at hexit
    split_ifs at hexit
    obtain ⟨-, -, ht⟩ := Table.exit_spec hexit
    simp [Exited, ht]
  exact ⟨he, grave_of_run (wf_reachable (h₀.next hexit)) he hrun⟩

/-- init forks a child, which exits and is reaped by init. -/
theorem process_tree_and_reaping_first_child :
    ∃ t₀ t₁ t₂, Reachable step .start t₀ ∧ step t₀ (.exit 1) = some t₁ ∧
      Run step Free t₁ [.dispatch 0, .wait 0] t₂ ∧ t₂.Tree ∧ (t₂.proc 1).state = .unused ∧
      Grave 1 (t₀.proc 1).pid t₁ [.dispatch 0, .wait 0] t₂ := by
  have hrun : ∃ t₀ ∈ exec step .start [.userinit, .dispatch 0, .fork 0, .kalloc 0, .forkDone 0,
      .back 0, .yield 0, .dispatch 1], ∃ t₁ ∈ step t₀ (.exit 1),
      ∃ t₂ ∈ exec step t₁ [.dispatch 0, .wait 0], (t₂.proc 1).state = .unused := by
    decide +kernel
  obtain ⟨t₀, h₀, t₁, h₁, t₂, h₂, hu⟩ := hrun
  have h₀ : Reachable step .start t₀ := ⟨_, run_exec h₀⟩
  have h₂ := run_exec h₂
  have hgrave := (process_tree_and_reaping.2 t₀ t₁ t₂ 1 _ h₀ h₁ h₂).2
  obtain ⟨as, hr⟩ := h₀.next h₁
  exact ⟨t₀, t₁, t₂, h₀, h₁, h₂, process_tree_and_reaping.1 t₂ ⟨_, hr.append h₂⟩, hu, hgrave⟩

/-- No lost wakeup: a process asleep in `wait` has no exited child. -/
theorem asleep_in_wait_no_zombie (t : Table) (h : Reachable step .start t) (p z : Slot)
    (hp : (t.proc p).state = .sleeping) (hchan : (t.proc p).chan = some (.proc p))
    (hz : (t.proc z).state = .zombie) : (t.proc z).parent ≠ some p := by
  have hwf := wf_reachable h
  refine hwf.waiting p z hp ?_ hz
  -- a driver or a lock sleeps on an address, never on an entry of the table
  rcases hwf.asleep p hp with ⟨hth, -⟩ | ⟨-, n, hn⟩
  · exact hth
  · rw [hchan] at hn
    cases hn

/-- init sleeps in `wait` while its grandchild is ZOMBIE. -/
theorem asleep_in_wait_no_zombie_grandchild :
    ∃ t, Reachable step .start t ∧ (t.proc 0).state = .sleeping ∧
      (t.proc 0).chan = some (.proc 0) ∧ (t.proc 2).state = .zombie ∧
      (t.proc 2).parent ≠ some 0 := by
  have hrun : ∃ t ∈ exec step .start [.userinit, .dispatch 0, .fork 0, .kalloc 0, .forkDone 0,
      .back 0, .wait 0, .dispatch 1, .fork 1, .kalloc 1, .forkDone 1, .dispatch 2, .exit 2],
      (t.proc 0).state = .sleeping ∧ (t.proc 0).chan = some (.proc 0) ∧
      (t.proc 2).state = .zombie := by decide +kernel
  obtain ⟨t, ht, hp, hchan, hz⟩ := reachable_of_exec hrun
  exact ⟨t, ht, hp, hchan, hz, asleep_in_wait_no_zombie t ht 0 2 hp hchan hz⟩

end ProvenXv6.Smp
