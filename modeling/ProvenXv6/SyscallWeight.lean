import Mathlib.Algebra.Group.Int.Defs
import ProvenXv6.SchedBuilt

namespace ProvenXv6.Ptable
open StepSystem

namespace Kernel

def doWeightset (k : Kernel) (p : Slot) (weight : ℤ) : Kernel :=
  k.modify p (fun e => { e with weight := weight })

/-- The argument is none when `argint` finds it outside the memory of the process. -/
def sysWeightset (k : Kernel) (p : Slot) (arg : Option ℤ) : Kernel × ℤ :=
  match arg with
  | none => (k, -1)
  | some weight => (k.doWeightset p weight, 0)

/-- The end of `syscall`, after the handler has returned eax: the state and what
the process sees. -/
def syscallTail (k : Kernel) (p : Slot) (eax : ℤ) : Kernel × ℤ :=
  if (k.proc p).weight ≠ 0 then (k.doWeightset p (k.proc p).weight, eax) else (k, -1)

def weightsetCall (k : Kernel) (p : Slot) (arg : Option ℤ) : Kernel × ℤ :=
  let (k, eax) := k.sysWeightset p arg
  k.syscallTail p eax

theorem doWeightset_same (k : Kernel) (p : Slot) : k.doWeightset p (k.proc p).weight = k := by
  simp [doWeightset, modify]

theorem syscallTail_state (k : Kernel) (p : Slot) (eax : ℤ) : (k.syscallTail p eax).1 = k := by
  unfold syscallTail
  split_ifs
  · exact k.doWeightset_same p
  · rfl

theorem weightsetCall_none (k : Kernel) (p : Slot) : (k.weightsetCall p none).1 = k :=
  k.syscallTail_state p _

theorem weightsetCall_some (k : Kernel) (p : Slot) (w : ℤ) :
    k.weightsetCall p (some w) = (k.doWeightset p w, if w = 0 then -1 else 0) := by
  refine Prod.ext (syscallTail_state _ p _) ?_
  simp [weightsetCall, sysWeightset, syscallTail, doWeightset]
  split_ifs <;> rfl

end Kernel

/-- The step of the scheduler model for `weightset` is the whole system call. -/
theorem step_weightset (k : Kernel) (w : ℤ) :
    Version.built.step k (.weightset w) = k.user.map fun p => (k.weightsetCall p (some w)).1 := by
  simp only [Kernel.weightsetCall_some]
  rfl

/-- A `weightset` call of k with an argument from A that fails leaves the weight
as it was, and no process has weight 0 when its slice is charged. -/
structure WeightSafe (A : Set ℤ) (k : Kernel) : Prop where
  unchanged : ∀ p arg, k.user = some p → (∀ w, arg = some w → w ∈ A) →
    (k.weightsetCall p arg).2 < 0 → ((k.weightsetCall p arg).1.proc p).weight = (k.proc p).weight
  nonzero : ∀ p, k.cpu = .switched p → (k.proc p).weight ≠ 0

/-- Every value that the step passes to `weightset` is in A. -/
def ArgsIn (A : Set ℤ) (_ : Kernel) (e : Event) (_ : Kernel) : Prop := ∀ w, e = .weightset w → w ∈ A

section Step
variable {V : Version} {k k' : Kernel} {e : Event}

theorem allocproc_spec {np : Slot} (h : k.allocproc = some (np, k')) :
    (k.proc np).state = .unused ∧ (k'.proc np).weight = k.weight ∧
      k'.weight = wrap32 (k.weight+1) ∧ ∀ q, q ≠ np → k'.proc q = k.proc q := by
  obtain ⟨p, hp, he⟩ := Option.map_eq_some_iff.mp h
  obtain ⟨rfl, rfl⟩ := Prod.mk.inj he
  refine ⟨by simpa using Kernel.scan_some hp, by simp, rfl, fun q hq => ?_⟩
  exact Function.update_of_ne hq ..

/-- The weights of the entries and the counter for new ones are those of k. -/
structure SameWeights (k k' : Kernel) : Prop where
  counter : k'.weight = k.weight
  entry : ∀ q, (k'.proc q).weight = (k.proc q).weight

theorem SameWeights.refl (k : Kernel) : SameWeights k k := ⟨rfl, fun _ => rfl⟩

theorem SameWeights.trans {k₁ k₂ k₃ : Kernel} (h : SameWeights k₁ k₂) (h' : SameWeights k₂ k₃) :
    SameWeights k₁ k₃ :=
  ⟨h'.counter.trans h.counter, fun q => (h'.entry q).trans (h.entry q)⟩

theorem sameWeights_update {p : Slot} {x : Proc} (hk : k'.proc = Function.update k.proc p x)
    (hx : x.weight = (k.proc p).weight) (hc : k'.weight = k.weight) : SameWeights k k' := by
  refine ⟨hc, fun q => ?_⟩
  rw [hk]
  by_cases hq : q = p
  · rw [hq, Function.update_self, hx]
  · rw [Function.update_of_ne hq]

theorem sameWeights_modify (k : Kernel) (p : Slot) {f : Proc → Proc}
    (hf : ∀ e, (f e).weight = e.weight) : SameWeights k (k.modify p f) :=
  sameWeights_update rfl (hf _) rfl

theorem sameWeights_wait (p : Slot) : SameWeights k (k.wait p) := by
  rcases k.wait_cases p with ⟨r, -, h⟩ | h | h <;> rw [h]
  · exact sameWeights_update rfl rfl rfl
  · exact .refl k
  · exact sameWeights_update rfl rfl rfl

theorem sameWeights_dispatch (p : Slot) : SameWeights k (k.dispatch p) := by
  have hrun : SameWeights k
      { k.modify p (fun e => { e with state := .running }) with cpu := .running p } :=
    sameWeights_update rfl rfl rfl
  unfold Kernel.dispatch
  dsimp only
  split
  · exact hrun
  · exact hrun
  · exact hrun.trans (sameWeights_update rfl rfl rfl)
  · refine (hrun.trans ?_).trans (sameWeights_wait p)
    exact sameWeights_modify _ p (by intro _; rfl)

theorem counter_foldl_abandon (cur : Slot) (l : List Slot) (k : Kernel) :
    (l.foldl (Kernel.abandon cur) k).weight = k.weight := by
  induction l generalizing k with
  | nil => rfl
  | cons p l ih =>
    rw [List.foldl_cons, ih]
    unfold Kernel.abandon
    dsimp only
    split_ifs <;> rfl

theorem sameWeights_exit {p : Slot} (h : k.exit p = some k') : SameWeights k k' := by
  have hw := (k.wakeup1_wakes ((k.proc p).parent.map .proc)).trans
    (Kernel.foldl_abandon_wakes p (List.finRange NPROC) _)
  have hc := counter_foldl_abandon p (List.finRange NPROC)
    (k.wakeup1 ((k.proc p).parent.map .proc))
  unfold Kernel.exit at h
  split_ifs at h
  dsimp only at h
  generalize (List.finRange NPROC).foldl (Kernel.abandon p) _ = k₁ at h hw hc
  obtain rfl := Option.some.inj h
  refine SameWeights.trans ⟨hc, hw.weight⟩ ?_
  exact sameWeights_update rfl rfl rfl

/-- What a step can do to the weights and to the counter that `allocproc` takes
them from. -/
inductive Weighs (V : Version) (k k' : Kernel) (e : Event) : Prop
  | keep (h : SameWeights k k') (he : e = .userinit ∨ e = .fork → k' = k)
  | alloc (np : Slot) (he : e = .userinit ∨ e = .fork) (hc : k'.weight = wrap32 (k.weight+1))
      (hnp : (k'.proc np).weight = k.weight)
      (hq : ∀ q, q ≠ np → (k'.proc q).weight = (k.proc q).weight ∧
        (k'.proc q).state = (k.proc q).state)
  | set (p : Slot) (w : ℤ) (he : e = .weightset w) (hc : k'.weight = k.weight)
      (hp : (k'.proc p).weight = V.weightset (k.proc p).weight w)
      (hq : ∀ q, q ≠ p → (k'.proc q).weight = (k.proc q).weight)

theorem step_weighs (h : V.step k e = some k') : Weighs V k k' e := by
  cases e with
  | userinit =>
    simp only [Version.step] at h
    split_ifs at h
    obtain ⟨⟨np, k₁⟩, ha, rfl⟩ := Option.map_eq_some_iff.mp h
    obtain ⟨-, hnp, hc, hq⟩ := allocproc_spec ha
    refine .alloc np (Or.inl rfl) hc (by simpa using hnp) fun q hne => ?_
    simp [Kernel.modify_of_ne _ _ hne, hq q hne]
  | fork =>
    obtain ⟨p, -, rfl⟩ := Option.map_eq_some_iff.mp h
    unfold Kernel.fork
    cases ha : k.allocproc with
    | none => exact .keep (.refl k) (fun _ => rfl)
    | some r =>
      obtain ⟨np, k₁⟩ := r
      obtain ⟨-, hnp, hc, hq⟩ := allocproc_spec ha
      have hw (q : Slot) := k₁.modify_keeps Proc.weight p
        (f := fun e => { e with thread := .fork np }) (by intro _; rfl) q
      refine .alloc np (Or.inr rfl) hc ((hw np).trans hnp) fun q hne => ?_
      dsimp only
      rw [hw q, Kernel.modify_thread_state, hq q hne]
      exact ⟨rfl, rfl⟩
  | forkFail =>
    obtain ⟨⟨p, np⟩, -, rfl⟩ := Option.map_eq_some_iff.mp h
    exact .keep ((sameWeights_modify k np (by intro _; rfl)).trans
      (sameWeights_modify _ p (by intro _; rfl))) (by simp)
  | forkDone =>
    obtain ⟨⟨p, np⟩, -, rfl⟩ := Option.map_eq_some_iff.mp h
    exact .keep ((sameWeights_modify k np (by intro _; rfl)).trans
      (sameWeights_modify _ p (by intro _; rfl))) (by simp)
  | exit =>
    obtain ⟨p, -, hk⟩ := Option.bind_eq_some_iff.mp h
    exact .keep (sameWeights_exit hk) (by simp)
  | wait =>
    obtain ⟨p, -, rfl⟩ := Option.map_eq_some_iff.mp h
    exact .keep (sameWeights_wait p) (by simp)
  | sleep chan =>
    obtain ⟨p, -, rfl⟩ := Option.map_eq_some_iff.mp h
    exact .keep (sameWeights_update rfl rfl rfl) (by simp)
  | wakeup chan =>
    have hk : k' = k.wakeup1 (some chan) := by
      simp only [Version.step] at h
      split at h
      · exact (Option.some.inj h).symm
      · exact (Option.some.inj h).symm
      · cases h
    rw [hk]
    exact .keep ⟨rfl, (k.wakeup1_wakes _).weight⟩ (by simp)
  | kill pid =>
    obtain ⟨p, -, rfl⟩ := Option.map_eq_some_iff.mp h
    unfold Kernel.kill
    split
    · exact .keep (.refl k) (by simp)
    · exact .keep (sameWeights_update rfl rfl rfl) (by simp)
  | yield =>
    obtain ⟨p, -, rfl⟩ := Option.map_eq_some_iff.mp h
    exact .keep (sameWeights_update rfl rfl rfl) (by simp)
  | weightset w =>
    obtain ⟨p, -, rfl⟩ := Option.map_eq_some_iff.mp h
    exact .set p w rfl rfl (by simp) (fun q hq => by rw [k.modify_of_ne _ hq])
  | pick =>
    obtain ⟨-, ⟨-, rfl⟩ | ⟨p, -, rfl⟩⟩ := pick_cases h
    · exact .keep (.refl _) (by simp)
    · exact .keep (sameWeights_dispatch p) (by simp)
  | sliceDone =>
    simp only [Version.step] at h
    split at h
    · unfold Version.sliceDone at h
      split_ifs at h
      rw [← Option.some.inj h]
      exact .keep (sameWeights_update rfl rfl rfl) (by simp)
    · cases h

/-- Every entry in use has a weight other than 0. -/
def NonzeroWeights (k : Kernel) : Prop := ∀ q, (k.proc q).state ≠ .unused → (k.proc q).weight ≠ 0

theorem WF.used_before (hwf : WF k) (hs : V.step k e = some k') {q : Slot}
    (hq : (k'.proc q).state ≠ .unused) (he : e ≠ .userinit ∧ e ≠ .fork) :
    (k.proc q).state ≠ .unused := by
  intro hu
  cases hwf.change hs q with
  | same hs' _ => exact hq (hs'.trans hu)
  | slice _ _ hs' _ => exact hq (hs'.trans hu)
  | init h => exact he.1 h
  | alloc h => exact he.2 h
  | woken h => rw [hu] at h; cases h
  | killed pid _ h => rw [hu] at h; cases h
  | reaped h => rw [hu] at h; cases h
  | unborn _ _ hs' => exact hq hs'
  | left hc => rw [(hwf.running q).mpr hc] at hu; cases hu
  | dispatched _ hpick => rw [(Kernel.pick_some hpick).1] at hu; cases hu
  | born _ hf =>
    obtain ⟨p, hf⟩ := hf
    rw [hwf.forking hf] at hu
    cases hu

theorem NonzeroWeights.step (h : NonzeroWeights k) (hwf : WF k)
    (hs : Version.built.step k e = some k')
    (hcounter : e = .userinit ∨ e = .fork → k.weight ≠ 0) (hargs : e ≠ .weightset 0) :
    NonzeroWeights k' := by
  intro q hq
  cases step_weighs hs with
  | keep hw he =>
    -- an entry in use after the step was in use before it, unless the step is a
    -- `fork` that found no entry
    by_cases hev : e = .userinit ∨ e = .fork
    · rw [he hev] at hq ⊢
      exact h q hq
    · rw [hw.entry]
      exact h q (hwf.used_before hs hq (not_or.mp hev))
  | alloc np he hc hnp hother =>
    by_cases hqnp : q = np
    · rw [hqnp, hnp]
      exact hcounter he
    · rw [(hother q hqnp).1]
      exact h q ((hother q hqnp).2 ▸ hq)
  | set p w he hc hp hother =>
    by_cases hqp : q = p
    · rw [hqp, hp]
      rintro (rfl : w = 0)
      exact hargs he
    · rw [hother q hqp]
      exact h q (hwf.used_before hs hq (by simp [he]))

theorem wrap32_wrap32_add (x : ℤ) : wrap32 (wrap32 x+1) = wrap32 (x+1) := Int.bmod_add_bmod

theorem wrap32_ne_zero {x : ℤ} (h : 0 < x) (h' : x < 2^32) : wrap32 x ≠ 0 := by
  intro h0
  have := Int.dvd_of_bmod_eq_zero h0
  omega

theorem counter_step {a : ℕ} (ha : k.weight = wrap32 (a+1)) (hs : V.step k e = some k') :
    k'.weight = wrap32 (a+1) ∨
      (e = .userinit ∨ e = .fork) ∧ k'.weight = wrap32 ((a+1 : ℕ)+1) := by
  cases step_weighs hs with
  | keep hw he => exact Or.inl (hw.counter.trans ha)
  | alloc np he hc hnp hother =>
    refine Or.inr ⟨he, ?_⟩
    rw [hc, ha, wrap32_wrap32_add]
    push_cast
    rfl
  | set p w he hc hp hother => exact Or.inl (hc.trans ha)

/-- Along a run that passes no 0 to `weightset`, no entry in use gets weight 0 before
the counter has gone round. -/
theorem NonzeroWeights.run {A : Set ℤ} (h0 : 0 ∉ A) {s t : Kernel} {es : List Event} {a : ℕ}
    (hr : Run Version.built.step (ArgsIn A) s es t) (hs : NonzeroWeights s) (hwf : WF s)
    (hboot : s.cpu ≠ .boot) (ha : s.weight = wrap32 (a+1)) (hlim : a+es.count .fork < 2^32) :
    NonzeroWeights t := by
  induction hr generalizing a with
  | nil s => exact hs
  | @cons s s' t e es h hq _ ih =>
    have huserinit : e ≠ .userinit := by
      rintro rfl
      exact hboot (userinit_boot h)
    have hargs : e ≠ .weightset 0 := fun he => h0 (hq 0 he)
    have hnext := hs.step hwf h (by
      rintro (he | rfl)
      · exact absurd he huserinit
      · rw [ha]
        rw [List.count_cons_self] at hlim
        exact wrap32_ne_zero (by omega) (by omega)) hargs
    have hboot' := cpu_step_ne_boot h hboot
    rcases counter_step ha h with hc | ⟨he, hc⟩
    · refine ih hnext (wf_step hwf h) hboot' hc ?_
      have := List.count_le_count_cons (a := Event.fork) (b := e) (l := es)
      omega
    · obtain rfl := he.resolve_left huserinit
      rw [List.count_cons_self] at hlim
      exact ih hnext (wf_step hwf h) hboot' hc (by omega)

end Step

theorem nonzeroWeights_start : NonzeroWeights .start := by simp [NonzeroWeights, Kernel.start]

theorem nonzeroWeights_of_run {A : Set ℤ} (h0 : 0 ∉ A) {es : List Event} {k : Kernel}
    (hr : Run Version.built.step (ArgsIn A) .start es k) (hlim : es.count .fork+1 < 2^32) :
    NonzeroWeights k := by
  -- the first step is `userinit`, which takes weight 1
  obtain _ | @⟨_, k', _, e, es, h, hq, hr⟩ := hr
  · exact nonzeroWeights_start
  · cases step_moves h with
    | boot he hc hk =>
      subst he
      have hk' := nonzeroWeights_start.step wf_start h (by simp [Kernel.start]) (by simp)
      rw [List.count_cons_of_ne (by simp)] at hlim
      have hcpu : k'.cpu ≠ .boot := by simp [(userinit_start hk).1]
      rcases counter_step (k := .start) (a := 0) rfl h with ha | ⟨-, ha⟩
      · exact hk'.run h0 hr (wf_userinit hk) hcpu ha (by omega)
      · exact hk'.run h0 hr (wf_userinit hk) hcpu ha (by omega)
    | stay hc hm hb => exact absurd rfl hb
    | leave p hc => cases hc
    | pick p he hc => cases hc
    | slice p he hc => cases hc

theorem one_lt_NPROC : 1 < NPROC := by decide

def childSlot : Slot := ⟨1, one_lt_NPROC⟩

/-- init is running and has only made forks that failed: entry 1 holds what they
left behind. -/
def forkLoop (child : Proc) (nextpid weight : ℤ) : Kernel where
  proc := Function.update (Function.update Kernel.start.proc initSlot
    ⟨.running, 1, none, none, false, 3, 1, .user⟩) childSlot child
  minPriority := 3
  initproc := some initSlot
  weight := weight
  nextpid := nextpid
  cpu := .running initSlot

theorem forkLoop_scan {child : Proc} (hc : child.state = .unused) (nextpid weight : ℤ) :
    (forkLoop child nextpid weight).scan (fun p => p.state = .unused) = some childSlot := by
  have hrange : List.finRange NPROC = initSlot :: childSlot :: (List.finRange NPROC).drop 2 := by
    decide +kernel
  have hne : initSlot ≠ childSlot := by decide
  rw [Kernel.scan, hrange, List.find?_cons_of_neg (by simp [forkLoop, hne]),
    List.find?_cons_of_pos (by simp [forkLoop, hc])]

theorem forkLoop_boot :
    exec Version.built.step .start [.userinit, .pick] =
      some (forkLoop (Kernel.start.proc childSlot) 2 2) := by
  have hfields : ∃ k ∈ exec Version.built.step .start [.userinit, .pick],
      (∀ p, k.proc p = (forkLoop (Kernel.start.proc childSlot) 2 2).proc p) ∧ k.minPriority = 3 ∧
      k.initproc = some initSlot ∧ k.weight = 2 ∧ k.nextpid = 2 ∧ k.cpu = .running initSlot := by
    decide +kernel
  obtain ⟨⟨proc, _, _, _, _, _⟩, hk, hproc, rfl, rfl, rfl, rfl, rfl⟩ := hfields
  obtain rfl : proc = _ := funext hproc
  exact hk

/-- A fork that fails uses up a pid and a weight. -/
theorem forkLoop_fail (child : Proc) (hc : child.state = .unused) (nextpid weight : ℤ) :
    exec Version.built.step (forkLoop child nextpid weight) [.fork, .forkFail] =
      some (forkLoop { child with pid := nextpid, priority := 3, weight := weight }
        (wrap32 (nextpid+1)) (wrap32 (weight+1))) := by
  have hne : initSlot ≠ childSlot := by decide
  have hfork : Version.built.step (forkLoop child nextpid weight) .fork =
      some ((forkLoop child nextpid weight).fork initSlot) := by
    simp [Version.step, Kernel.user, forkLoop, hne]
  simp only [exec, hfork, Option.bind_some, Kernel.fork, Kernel.allocproc, forkLoop_scan hc,
    Option.map_some]
  simp [Version.step, Kernel.forking, Kernel.modify, Kernel.forkFail, forkLoop, hne, hne.symm, hc,
    Function.update_comm]

theorem run_forkLoop (i : ℕ) :
    ∃ es, es.count .fork = i+1 ∧ (∀ w, .weightset w ∉ es) ∧
      Run Version.built.step Free .start es (forkLoop
        ⟨.unused, wrap32 (i+2), none, none, false, 3, wrap32 (i+2), .user⟩
        (wrap32 (i+3)) (wrap32 (i+3))) := by
  induction i with
  | zero =>
    refine ⟨[.userinit, .pick] ++ [.fork, .forkFail], rfl, by simp, ?_⟩
    exact (run_exec forkLoop_boot).append (run_exec (forkLoop_fail _ rfl 2 2))
  | succ i ih =>
    obtain ⟨es, hcount, hset, hrun⟩ := ih
    have hnext := run_exec (forkLoop_fail ⟨.unused, wrap32 (i+2), none, none, false, 3,
      wrap32 (i+2), .user⟩ rfl (wrap32 (i+3)) (wrap32 (i+3)))
    refine ⟨es ++ [.fork, .forkFail], by simp [hcount], by simpa using hset, ?_⟩
    have hpid : (i+3 : ℤ) = (i+1 : ℕ)+2 := by omega
    have hweight : wrap32 (wrap32 (i+3)+1) = wrap32 ((i+1 : ℕ)+3) := by
      rw [wrap32_wrap32_add]
      congr 1
    rw [hweight, hpid] at hnext
    rw [hpid] at hrun
    exact hrun.append hnext

theorem Run.argsIn {V : Version} {A : Set ℤ} {s t : Kernel} {es : List Event}
    (h : Run V.step Free s es t) (hes : ∀ w, .weightset w ∈ es → w ∈ A) :
    Run V.step (ArgsIn A) s es t :=
  h.mem.mono fun _ _ _ _ hmem w he => hes w (he ▸ hmem.2)

/-- Over all runs with at most n forks and with `weightset` arguments from A: a
failing `weightset` call changes no weight and no slice is charged to weight 0,
exactly when 0 is not in A and the weights of the n forks do not come round to 0. -/
theorem weightSafe_iff (A : Set ℤ) (n : ℕ) :
    (∀ es k, Run Version.built.step (ArgsIn A) .start es k → es.count .fork ≤ n → WeightSafe A k) ↔
      0 ∉ A ∧ n+1 < 2^32 := by
  constructor
  · intro h
    constructor
    · intro h0
      have hrun := Run.argsIn (A := A) (run_exec forkLoop_boot) (by simp)
      have hsafe := (h _ _ hrun (by simp)).unchanged initSlot (some 0) rfl (by rintro w ⟨⟩; exact h0)
      rw [Kernel.weightsetCall_some] at hsafe
      have := hsafe (by decide)
      have hne : initSlot ≠ childSlot := by decide
      simp [Kernel.doWeightset, forkLoop, hne] at this
    · by_contra hn
      obtain ⟨es, hcount, hset, hrun⟩ := run_forkLoop (2^32-3)
      -- the next fork gets weight 0, and its child is picked before init
      have hlast : ∃ k ∈ exec Version.built.step
          (forkLoop ⟨.unused, -1, none, none, false, 3, -1, .user⟩ 0 0)
          [.fork, .forkDone, .yield, .sliceDone, .pick, .yield],
          k.cpu = .switched childSlot ∧ (k.proc childSlot).weight = 0 := by decide +kernel
      obtain ⟨k, hk, hc, hw⟩ := hlast
      have hpid : wrap32 ((2^32-3 : ℕ)+2) = -1 := by decide
      have hnext : wrap32 ((2^32-3 : ℕ)+3) = 0 := by decide
      rw [hpid, hnext] at hrun
      have hrun := Run.argsIn (A := A) (hrun.append (run_exec hk))
        (by simpa using fun w hw => absurd hw (hset w))
      refine (h _ _ hrun ?_).nonzero childSlot hc hw
      rw [List.count_append, hcount]
      have : List.count Event.fork [.fork, .forkDone, .yield, .sliceDone, .pick, .yield] = 1 := rfl
      omega
  · rintro ⟨h0, hn⟩ es k hrun hes
    have hnonzero := nonzeroWeights_of_run h0 hrun (by omega)
    have hwf := wf_reachable ⟨es, hrun.mono fun _ _ _ _ _ => trivial⟩
    refine ⟨fun p arg _ hA hneg => ?_, fun p hc => hnonzero p fun hu => ?_⟩
    · cases arg with
      | none => rw [Kernel.weightsetCall_none]
      | some w =>
        have hw : w ≠ 0 := fun hw => h0 (hw ▸ hA w rfl)
        rw [Kernel.weightsetCall_some, if_neg hw] at hneg
        simp at hneg
    · have := hwf.switched p hc
      simp [hu, ProcState.OffCpu] at this

/-- init calls `weightset` with 0: it sees -1, its weight is 0, and the end of its
slice divides by it. -/
theorem weightset_zero_divides :
    ∃ k k', Reachable Version.built.step .start k ∧ k.user = some initSlot ∧
      (k.proc initSlot).weight = 1 ∧ (k.weightsetCall initSlot (some 0)).2 = -1 ∧
      ((k.weightsetCall initSlot (some 0)).1.proc initSlot).weight = 0 ∧
      Run Version.built.step Free k [.weightset 0, .yield] k' ∧ k'.cpu = .switched initSlot ∧
      (k'.proc initSlot).weight = 0 ∧ Version.built.step k' .sliceDone = none := by
  have hset : ∃ k' ∈ exec Version.built.step (forkLoop (Kernel.start.proc childSlot) 2 2)
      [.weightset 0, .yield], k'.cpu = .switched initSlot ∧ (k'.proc initSlot).weight = 0 ∧
      (Version.built.step k' .sliceDone).isNone := by decide +kernel
  obtain ⟨k', hk', hc, hw, hnone⟩ := hset
  refine ⟨_, k', ⟨_, run_exec forkLoop_boot⟩, rfl, rfl, rfl, rfl, run_exec hk', hc, hw, ?_⟩
  exact Option.isNone_iff_eq_none.mp hnone

end ProvenXv6.Ptable
