import ProvenXv6.SchedFairness
import ProvenXv6.SyscallWeight

namespace ProvenXv6.Ptable
open StepSystem

/-- `sys_weightset` of 'update scheduler'. The argument is none when `argint` finds it outside
the memory of the process. -/
def Update.sysWeightset (k : Kernel) (p : Slot) (arg : Option ℤ) : Kernel × ℤ :=
  match arg with
  | none => (k, -1)
  | some weight => if weight = 0 then (k, -1) else (k.doWeightset p weight, weight)

/-- The step of the scheduler model for `weightset` is the whole system call. -/
theorem step_update_weightset (k : Kernel) (w : ℤ) :
    Version.update.step k (.weightset w) = k.user.map fun p => (Update.sysWeightset k p (some w)).1 := by
  have hset (p : Slot) : k.modify p (fun e => { e with weight := Version.update.weightset e.weight w }) =
      (Update.sysWeightset k p (some w)).1 := by
    by_cases hw : w = 0
    · simp [Update.sysWeightset, Version.update, hw, Kernel.modify]
    · simp [Update.sysWeightset, Version.update, hw, Kernel.doWeightset]
  simp only [Version.step, hset]

/-- In every later state in which p leaves the CPU with weight w, the update after `swtch`
increases its priority, if the sum is in the range of an `int`. -/
def LaterIncrease (k : Kernel) (p : Slot) (w : ℤ) : Prop :=
  ∀ es k₁ k₂, Run Version.update.step Free k es k₁ → k₁.cpu = .switched p → (k₁.proc p).weight = w →
    Version.update.step k₁ .sliceDone = some k₂ → Fits p k₁ .sliceDone →
    (k₁.proc p).priority < (k₂.proc p).priority

/-- What a caller of `weightset` can rely on: a negative result leaves the weight, any other is
the weight from now on. -/
structure WeightsetContract (k : Kernel) (p : Slot) (arg : Option ℤ) : Prop where
  failed : (Update.sysWeightset k p arg).2 < 0 →
    ((Update.sysWeightset k p arg).1.proc p).weight = (k.proc p).weight
  done : 0 ≤ (Update.sysWeightset k p arg).2 →
    arg = some (Update.sysWeightset k p arg).2 ∧
    ((Update.sysWeightset k p arg).1.proc p).weight = (Update.sysWeightset k p arg).2 ∧
    LaterIncrease (Update.sysWeightset k p arg).1 p (Update.sysWeightset k p arg).2

theorem sliceDone_of_step {k k' : Kernel} {p : Slot} (hc : k.cpu = .switched p)
    (hs : Version.update.step k .sliceDone = some k') : Version.update.sliceDone k p = some k' := by
  simpa only [Version.step, hc] using hs

theorem laterIncrease_of_slice {w : ℤ} (h1 : 1 ≤ w) (hw : w ≤ TIME_SLICE) (k : Kernel) (p : Slot) :
    LaterIncrease k p w := by
  intro es k₁ k₂ _ hc hk hs hfits
  have hpos : 0+1 ≤ TIME_SLICE/w := Int.le_ediv_of_mul_le (by omega) (by omega)
  obtain ⟨hlo, hhi⟩ := hfits rfl hc
  rw [sliceDone_priority (sliceDone_of_step hc hs) hlo hhi, hk]
  omega

/-- The end of the present slice charges nothing to a weight above the time slice. -/
theorem not_laterIncrease {k : Kernel} {p : Slot} (hp : k.user = some p)
    (hlo : -2^31 ≤ (k.proc p).priority) (hhi : (k.proc p).priority < 2^31) {w : ℤ} (hw : TIME_SLICE < w)
    (hk : (k.proc p).weight = w) : ¬LaterIncrease k p w := by
  intro h
  have hcpu : k.cpu = .running p := (Kernel.user_eq_some hp).1
  have hyield : Version.update.step k .yield = some (k.yield p) := by
    simp [Version.step, Kernel.current, hcpu]
  have hprio : ((k.yield p).proc p).priority = (k.proc p).priority := by simp [Kernel.yield]
  have hweight : ((k.yield p).proc p).weight = w := by simp [Kernel.yield, hk]
  have hzero : TIME_SLICE/w = 0 := Int.ediv_eq_zero_of_lt (by decide) hw
  have hw0 : ((k.yield p).proc p).weight ≠ 0 := by
    rw [hweight]
    have : (0 : ℤ) < TIME_SLICE := by decide
    omega
  obtain ⟨k₂, hslice⟩ : ∃ k₂, Version.update.sliceDone (k.yield p) p = some k₂ :=
    ⟨_, if_neg hw0⟩
  have hfits : Fits p (k.yield p) .sliceDone := by
    intro _ _
    rw [hprio, hweight, hzero]
    exact ⟨by omega, by omega⟩
  have hlt := h [.yield] _ k₂ (.cons hyield trivial (.nil _)) rfl hweight hslice hfits
  rw [sliceDone_priority hslice (hfits rfl rfl).1 (hfits rfl rfl).2, hweight, hzero] at hlt
  omega

/-- The contract holds exactly for the arguments 0 and 1 up to the time slice, and for a negative
one that is the weight already. -/
theorem weightset_contract_iff (k : Kernel) (p : Slot) (hp : k.user = some p)
    (hlo : -2^31 ≤ (k.proc p).priority) (hhi : (k.proc p).priority < 2^31) (arg : Option ℤ) :
    WeightsetContract k p arg ↔
      ∀ w, arg = some w → w = 0 ∨ 1 ≤ w ∧ w ≤ TIME_SLICE ∨ w < 0 ∧ (k.proc p).weight = w := by
  cases arg with
  | none =>
    refine ⟨fun _ w hw => (Option.some_ne_none w hw.symm).elim, fun _ => ⟨fun _ => rfl, fun h => ?_⟩⟩
    exact absurd h (show ¬(0 : ℤ) ≤ -1 by decide)
  | some w =>
    by_cases hw : w = 0
    · subst hw
      refine ⟨fun _ w hw => Or.inl (Option.some.inj hw).symm, fun _ => ⟨fun _ => rfl, fun h => ?_⟩⟩
      exact absurd h (show ¬(0 : ℤ) ≤ -1 by decide)
    · have hcall : Update.sysWeightset k p (some w) = (k.doWeightset p w, w) := if_neg hw
      have hweight : ((k.doWeightset p w).proc p).weight = w := by simp [Kernel.doWeightset]
      have hprio : ((k.doWeightset p w).proc p).priority = (k.proc p).priority := by
        simp [Kernel.doWeightset]
      have huser : (k.doWeightset p w).user = some p := by
        obtain ⟨hc, ht⟩ := Kernel.user_eq_some hp
        simp [Kernel.user, Kernel.doWeightset, Kernel.modify, hc, ht]
      constructor
      · rintro ⟨hfailed, hdone⟩ w' hw'
        obtain rfl := Option.some.inj hw'
        rw [hcall] at hfailed hdone
        by_cases hneg : w < 0
        · exact Or.inr (Or.inr ⟨hneg, (hfailed hneg).symm.trans hweight⟩)
        · refine Or.inr (Or.inl ⟨by omega, ?_⟩)
          by_contra hlt
          exact not_laterIncrease huser (by rwa [hprio]) (by rwa [hprio]) (not_le.mp hlt) hweight
            (hdone (by omega)).2.2
      · intro h
        rcases h w rfl with h0 | ⟨h1, hle⟩ | ⟨hneg, hsame⟩
        · exact absurd h0 hw
        · constructor
          · rw [hcall]
            intro hneg
            exact absurd hneg (by omega)
          · rw [hcall]
            exact fun _ => ⟨rfl, hweight, laterIncrease_of_slice h1 hle _ _⟩
        · constructor
          · rw [hcall]
            exact fun _ => hweight.trans hsame.symm
          · rw [hcall]
            intro hpos
            exact absurd hpos (by omega)

theorem weightset_contract_iff_three :
    WeightsetContract (forkLoop (Kernel.start.proc childSlot) 2 2) initSlot (some 3) := by
  refine (weightset_contract_iff _ _ rfl (by decide) (by decide) (some 3)).mpr ?_
  rintro w ⟨⟩
  exact Or.inr (Or.inl (by decide))

/-- A process sets its weight to -1: the result looks like a failure, but the weight has changed.
With a weight above the time slice the priority is 3 before and after the slice. -/
theorem weightset_negative_sets :
    (∃ k, Reachable Version.update.step .start k ∧ k.user = some initSlot ∧ (k.proc initSlot).weight = 1 ∧
      (Update.sysWeightset k initSlot (some (-1))).2 = -1 ∧
      ((Update.sysWeightset k initSlot (some (-1))).1.proc initSlot).weight = -1) ∧
    ∃ k, k ∈ exec Version.update.step .start [.userinit, .pick, .weightset 10000001, .yield, .sliceDone] ∧
      (k.proc initSlot).priority = 3 := by
  have hboot : ∃ k ∈ exec Version.update.step .start [.userinit, .pick],
      k.user = some initSlot ∧ (k.proc initSlot).weight = 1 := by decide +kernel
  obtain ⟨k, hk, huser, hweight⟩ := reachable_of_exec hboot
  refine ⟨⟨k, hk, huser, hweight, rfl, by simp [Update.sysWeightset, Kernel.doWeightset]⟩, ?_⟩
  have hslice : ∃ k ∈ exec Version.update.step .start [.userinit, .pick, .weightset 10000001, .yield, .sliceDone],
      (k.proc initSlot).priority = 3 := by decide +kernel
  exact hslice

end ProvenXv6.Ptable
