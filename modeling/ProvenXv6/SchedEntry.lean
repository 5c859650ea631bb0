import ProvenXv6.SchedMinimum

namespace ProvenXv6.Ptable
open StepSystem

/-- The kernel with two values remembered for each entry: the minimum at the time
of its last `allocproc`, and its priority at the end of its last slice. -/
structure Traced where
  kernel : Kernel
  born : Slot → ℤ
  left : Slot → ℤ

def Traced.start : Traced := ⟨.start, fun _ => 0, fun _ => 0⟩

def Version.traced (V : Version) (s : Traced) (e : Event) : Option Traced :=
  (V.step s.kernel e).map fun k => {
    kernel := k
    born := fun q => if (s.kernel.proc q).state = .unused ∧ (k.proc q).state = .embryo then
      s.kernel.minPriority else s.born q
    left := fun q => if e = .sliceDone ∧ s.kernel.cpu = .switched q then (k.proc q).priority
      else s.left q }

/-- Whoever the step adds to the run queue has the current minimum. -/
def EntersAtMin (k : Kernel) (_ : Event) (k' : Kernel) : Prop :=
  ∀ q, (k.proc q).state ≠ .runnable → (k.proc q).state ≠ .running →
    (k'.proc q).state = .runnable → (k'.proc q).priority = k'.minPriority

/-- A child is added while the minimum is that of its `allocproc`, and a sleeping
process is killed while the minimum is the priority it went to sleep with. -/
def Timely (s : Traced) (e : Event) (_ : Traced) : Prop :=
  (e = .forkDone → ∀ p np, s.kernel.forking = some (p, np) → s.kernel.minPriority = s.born np) ∧
  ∀ pid q, e = .kill pid → s.kernel.scan (fun e => e.pid = pid) = some q →
    (s.kernel.proc q).state = .sleeping → s.kernel.minPriority = s.left q

/-- What is remembered is what the entry still holds. -/
structure Remembers (s : Traced) : Prop where
  wf : WF s.kernel
  embryo : ∀ q, (s.kernel.proc q).state = .embryo → (s.kernel.proc q).priority = s.born q
  sleeping : ∀ q, (s.kernel.proc q).state = .sleeping → s.kernel.cpu ≠ .switched q →
    (s.kernel.proc q).priority = s.left q

theorem remembers_start : Remembers .start where
  wf := wf_start
  embryo := by simp [Traced.start, Kernel.start]
  sleeping := by simp [Traced.start, Kernel.start]

section Step
variable {V : Version} {s s' : Traced} {e : Event}

theorem traced_cases (h : V.traced s e = some s') :
    V.step s.kernel e = some s'.kernel ∧
    (∀ q, s'.born q = if (s.kernel.proc q).state = .unused ∧ (s'.kernel.proc q).state = .embryo then
      s.kernel.minPriority else s.born q) ∧
    ∀ q, s'.left q = if e = .sliceDone ∧ s.kernel.cpu = .switched q then
      (s'.kernel.proc q).priority else s.left q := by
  obtain ⟨k, hk, rfl⟩ := Option.map_eq_some_iff.mp h
  exact ⟨hk, fun _ => rfl, fun _ => rfl⟩

theorem Remembers.embryo_step (hi : Remembers s) (h : V.traced s e = some s') {q : Slot}
    (hq : (s'.kernel.proc q).state = .embryo) : (s'.kernel.proc q).priority = s'.born q := by
  obtain ⟨hs, hborn, -⟩ := traced_cases h
  -- an entry that was EMBRYO already keeps both its priority and what is remembered
  have hold (hst : (s.kernel.proc q).state = .embryo)
      (hp : (s'.kernel.proc q).priority = (s.kernel.proc q).priority) :
      (s'.kernel.proc q).priority = s'.born q := by
    rw [hborn q, hst, hp, hi.embryo q hst]
    simp
  cases hi.wf.change hs q with
  | same hs' hp => exact hold (hs' ▸ hq) hp
  | alloc he hq' hs' hp => rw [hborn q, hp, if_pos ⟨hq', hs'⟩]
  | slice he hc hs' hp =>
    have := hi.wf.switched q hc
    rw [← hs', hq] at this
    simp [ProcState.OffCpu] at this
  | left hc hc' hs' hp =>
    rw [hq] at hs'
    simp [ProcState.OffCpu] at hs'
  | init he =>
    subst he
    rcases hi.wf.userinit_cases hs q with ⟨h, -⟩ | h <;> rw [hq] at h <;> cases h
  | dispatched he hpick hs' hp => rcases hs' with ⟨-, hs'⟩ | ⟨-, hs'⟩ <;> rw [hq] at hs' <;> cases hs'
  | woken hq' hs' hp hm => rw [hq] at hs'; cases hs'
  | born he hf hs' hp => rw [hq] at hs'; cases hs'
  | unborn he hf hs' hp => rw [hq] at hs'; cases hs'
  | reaped hq' hs' hp => rw [hq] at hs'; cases hs'
  | killed pid he hq' hk hs' hp => rw [hq] at hs'; cases hs'

theorem Remembers.sleeping_step (hi : Remembers s) (h : V.traced s e = some s') {q : Slot}
    (hq : (s'.kernel.proc q).state = .sleeping) (hc : s'.kernel.cpu ≠ .switched q) :
    (s'.kernel.proc q).priority = s'.left q := by
  obtain ⟨hs, -, hleft⟩ := traced_cases h
  by_cases hslice : e = .sliceDone ∧ s.kernel.cpu = .switched q
  · rw [hleft q, if_pos hslice]
  · have hold : s.kernel.cpu ≠ .switched q := fun hcq => hslice ⟨step_of_switched hs hcq, hcq⟩
    rw [hleft q, if_neg hslice]
    cases hi.wf.change hs q with
    | same hs' hp => rw [hp, hi.sleeping q (hs' ▸ hq) hold]
    | slice he hcq hs' hp => exact absurd hcq hold
    | left hcq hc' hs' hp => exact absurd hc' hc
    | dispatched he hpick hs' hp =>
      rcases hs' with ⟨-, hs'⟩ | ⟨hc', -⟩
      · rw [hq] at hs'
        cases hs'
      · exact absurd hc' hc
    | init he =>
      subst he
      rcases hi.wf.userinit_cases hs q with ⟨h, -⟩ | h <;> rw [hq] at h <;> cases h
    | woken hq' hs' hp hm => rw [hq] at hs'; cases hs'
    | alloc he hq' hs' hp => rw [hq] at hs'; cases hs'
    | born he hf hs' hp => rw [hq] at hs'; cases hs'
    | unborn he hf hs' hp => rw [hq] at hs'; cases hs'
    | reaped hq' hs' hp => rw [hq] at hs'; cases hs'
    | killed pid he hq' hk hs' hp => rw [hq] at hs'; cases hs'

theorem remembers_step (hi : Remembers s) (h : V.traced s e = some s') : Remembers s' :=
  ⟨wf_step hi.wf (traced_cases h).1, fun _ => hi.embryo_step h, fun _ => hi.sleeping_step h⟩

/-- One step breaks the rule for the run queue exactly when it is late. -/
theorem entersAtMin_iff_timely (hi : Remembers s) (h : V.traced s e = some s') :
    EntersAtMin s.kernel e s'.kernel ↔ Timely s e s' := by
  obtain ⟨hs, -, -⟩ := traced_cases h
  constructor
  · intro hq
    constructor
    · rintro rfl p np hf
      have hnp := hi.wf.forking hf
      have hk : s'.kernel = s.kernel.forkDone p np := by
        simpa [Version.step, hf] using hs.symm
      have := hq np (by simp [hnp]) (by simp [hnp]) (by rw [hk]; simp [Kernel.forkDone])
      rw [min_step hs (by simp) (by simp), hk] at this
      rw [← hi.embryo np hnp, ← this]
      simp [Kernel.forkDone]
    · rintro pid q rfl hscan hsl
      obtain ⟨p, hu, hk⟩ := Option.map_eq_some_iff.mp hs
      have hc := (Kernel.user_eq_some hu).1
      have hk : s'.kernel.proc q = { s.kernel.proc q with killed := true, state := .runnable } := by
        rw [← hk]
        simp [Kernel.kill, hscan, hsl]
      have := hq q (by simp [hsl]) (by simp [hsl]) (by rw [hk])
      rw [min_step hs (by simp) (by simp), hk] at this
      rw [← hi.sleeping q hsl (by simp [hc]), ← this]
  · rintro ⟨hfork, hkill⟩ q hnr hnr' hq
    cases hi.wf.change hs q with
    | woken hq' hs' hp hm => rw [hp, hm]
    | init he =>
      subst he
      rcases hi.wf.userinit_cases hs q with ⟨-, h⟩ | h
      · exact h
      · rw [hq] at h
        cases h
    | born he hf hs' hp =>
      subst he
      obtain ⟨p, hf⟩ := hf
      rw [hp, hi.embryo q (hi.wf.forking hf), min_step hs (by simp) (by simp), hfork rfl p q hf]
    | killed pid he hq' hk hs' hp =>
      subst he
      obtain ⟨p, hu, -⟩ := Option.map_eq_some_iff.mp hs
      have hc := (Kernel.user_eq_some hu).1
      rw [hp, hi.sleeping q hq' (by simp [hc]), min_step hs (by simp) (by simp),
        hkill pid q rfl hk hq']
    | same hs' hp => exact absurd (hs' ▸ hq) hnr
    | slice he hc hs' hp => exact absurd (hs' ▸ hq) hnr
    | left hc hc' hs' hp => exact absurd ((hi.wf.running q).mpr hc) hnr'
    | alloc he hq' hs' hp => rw [hq] at hs'; cases hs'
    | unborn he hf hs' hp => rw [hq] at hs'; cases hs'
    | reaped hq' hs' hp => rw [hq] at hs'; cases hs'
    | dispatched he hpick hs' hp =>
      rcases hs' with ⟨-, hs'⟩ | ⟨-, hs'⟩ <;> rw [hq] at hs' <;> cases hs'

end Step

theorem run_traced {V : Version} {Q : Kernel → Event → Kernel → Prop} {s : Traced} {es : List Event}
    {k : Kernel} : Run V.step Q s.kernel es k ↔
      ∃ t, t.kernel = k ∧ Run V.traced (fun s e s' => Q s.kernel e s'.kernel) s es t := by
  constructor
  · intro h
    induction es generalizing s with
    | nil =>
      cases h
      exact ⟨s, rfl, .nil s⟩
    | cons e es ih =>
      obtain _ | @⟨_, k', _, _, _, hs, hq, hr⟩ := h
      obtain ⟨s', ht, rfl⟩ : ∃ s', V.traced s e = some s' ∧ s'.kernel = k' :=
        ⟨_, by rw [Version.traced, hs, Option.map_some], rfl⟩
      obtain ⟨t, hk, hrt⟩ := ih hr
      exact ⟨t, hk, .cons ht hq hrt⟩
  · rintro ⟨t, rfl, h⟩
    induction h with
    | nil s => exact .nil _
    | cons h hq _ ih => exact .cons (traced_cases h).1 hq ih

/-- In every run: all entries into the run queue are at the current minimum if
and only if no child is added after the minimum has left the value of its
`allocproc` and no sleeping process is killed while the minimum differs from the
priority it went to sleep with. -/
theorem run_entersAtMin_iff_timely (es : List Event) (k : Kernel) :
    Run Version.update.step EntersAtMin .start es k ↔
      ∃ t, t.kernel = k ∧ Run Version.update.traced Timely .start es t := by
  rw [show Kernel.start = Traced.start.kernel from rfl, run_traced]
  refine exists_congr fun t => and_congr_right fun _ => ?_
  exact Run.congr remembers_start (fun _ _ _ => remembers_step) fun _ _ _ => entersAtMin_iff_timely

/-- The child sleeps at 5000003 while init moves the minimum to 10000003; `kill`
makes it RUNNABLE with the old priority. A child whose parent is preempted inside
`fork` is as late. -/
theorem kill_and_fork_enter_below_min :
    (∃ k k', Reachable Version.update.step .start k ∧
      Version.update.step k (.kill 2) = some k' ∧
      (k.proc ⟨1, by decide⟩).state = .sleeping ∧ (k'.proc ⟨1, by decide⟩).state = .runnable ∧
      (k'.proc ⟨1, by decide⟩).priority = 5000003 ∧ k'.minPriority = 10000003) ∧
    ∃ k k', Reachable Version.update.step .start k ∧
      Version.update.step k .forkDone = some k' ∧
      (k.proc ⟨1, by decide⟩).state = .embryo ∧ (k'.proc ⟨1, by decide⟩).state = .runnable ∧
      (k'.proc ⟨1, by decide⟩).priority = 3 ∧ k'.minPriority = 10000003 := by
  have hkill : ∃ k ∈ exec Version.update.step .start [.userinit, .pick, .fork, .forkDone, .yield,
      .sliceDone, .pick, .sleep (.addr 5), .sliceDone, .pick],
      ∃ k' ∈ Version.update.step k (.kill 2),
      (k.proc ⟨1, by decide⟩).state = .sleeping ∧ (k'.proc ⟨1, by decide⟩).state = .runnable ∧
      (k'.proc ⟨1, by decide⟩).priority = 5000003 ∧ k'.minPriority = 10000003 := by decide +kernel
  have hfork : ∃ k ∈ exec Version.update.step .start [.userinit, .pick, .fork, .yield, .sliceDone,
      .pick], ∃ k' ∈ Version.update.step k .forkDone,
      (k.proc ⟨1, by decide⟩).state = .embryo ∧ (k'.proc ⟨1, by decide⟩).state = .runnable ∧
      (k'.proc ⟨1, by decide⟩).priority = 3 ∧ k'.minPriority = 10000003 := by decide +kernel
  obtain ⟨k, hk, k', hstep, h⟩ := reachable_of_exec hkill
  obtain ⟨l, hl, l', hstep', h'⟩ := reachable_of_exec hfork
  exact ⟨⟨k, k', hk, hstep, h⟩, l, l', hl, hstep', h'⟩

end ProvenXv6.Ptable
