import Mathlib.Algebra.BigOperators.Ring.Finset
import Mathlib.Algebra.Order.BigOperators.Group.Finset
import Mathlib.Data.Fintype.Fin
import ProvenXv6.SchedOverflow

namespace ProvenXv6.Ptable
open StepSystem

/-- The slices of at least σ that bring a process from priority x past P. -/
def turns (P σ x : ℤ) : ℕ := ((P-x)/σ+1).toNat

theorem turns_antitone {P σ x y : ℤ} (hσ : 1 ≤ σ) (h : x ≤ y) : turns P σ y ≤ turns P σ x := by
  have := Int.ediv_le_ediv (c := σ) (by omega) (show P-y ≤ P-x by omega)
  unfold turns
  omega

theorem turns_pos {P σ x : ℤ} (hσ : 1 ≤ σ) (h : x ≤ P) : 1 ≤ turns P σ x := by
  have := Int.ediv_nonneg (show 0 ≤ P-x by omega) (show 0 ≤ σ by omega)
  unfold turns
  omega

theorem turns_slice {P σ x d : ℤ} (hσ : 1 ≤ σ) (hd : σ ≤ d) :
    turns P σ (x+d)+1 ≤ max 1 (turns P σ x) := by
  have hstep : (P-(x+d))/σ+1 ≤ (P-x)/σ := by
    rw [← Int.add_mul_ediv_right _ _ (by omega : σ ≠ 0)]
    exact Int.ediv_le_ediv (by omega) (by omega)
  unfold turns
  omega

def Waits (p : Slot) (k : Kernel) : Prop := (k.proc p).state = .runnable ∧ ¬OnCpu k p

def Ready (k : Kernel) (p : Slot) : Prop := (k.proc p).state = .runnable ∨ OnCpu k p

instance (k : Kernel) (p : Slot) : Decidable (OnCpu k p) := by
  unfold OnCpu
  infer_instance

instance (k : Kernel) (p : Slot) : Decidable (Ready k p) := by
  unfold Ready
  infer_instance

instance (p : Slot) (k : Kernel) : Decidable (Waits p k) := by
  unfold Waits
  infer_instance

def rivals (i : Slot) (k : Kernel) : ℕ := ((Finset.univ.erase i).filter (Ready k)).card

/-- The processes other than i that the step makes ready. -/
def arrived (i : Slot) (k k' : Kernel) : ℕ :=
  ((Finset.univ.erase i).filter fun q => ¬Ready k q ∧ Ready k' q).card

/-- The processes other than i that are created or woken along the events. -/
def arrivals (i : Slot) : Kernel → List Event → ℕ
  | _, [] => 0
  | k, e :: es => ((Version.update.step k e).map fun k' =>
      arrived i k k'+arrivals i k' es).getD 0

/-- The slice that ends is of a process of weight 1 to W and does not overflow. -/
def Paced (W : ℤ) (k : Kernel) (e : Event) : Prop :=
  ∀ q, Fits q k e ∧
    (e = .sliceDone → k.cpu = .switched q → 1 ≤ (k.proc q).weight ∧ (k.proc q).weight ≤ W)

instance (W : ℤ) (k : Kernel) (e : Event) : Decidable (Paced W k e) := by
  unfold Paced
  infer_instance

/-- A step during which i waits. -/
structure Passes (i : Slot) (W : ℤ) (k : Kernel) (e : Event) (k' : Kernel) : Prop where
  before : Waits i k
  after : Waits i k'
  paced : Paced W k e

instance (i : Slot) (W : ℤ) (k : Kernel) (e : Event) (k' : Kernel) : Decidable (Passes i W k e k') :=
  decidable_of_iff (Waits i k ∧ Waits i k' ∧ Paced W k e)
    ⟨fun h => ⟨h.1, h.2.1, h.2.2⟩, fun h => ⟨h.1, h.2, h.3⟩⟩

/-- No priority in use is below lo. -/
structure Above (lo : ℤ) (k : Kernel) : Prop where
  minPriority : lo ≤ k.minPriority
  priority : ∀ q, (k.proc q).state ≠ .unused → lo ≤ (k.proc q).priority

/-- The turns that q may still take before a process at priority P; a process on
the CPU has its current one. -/
def turnsOf (P σ : ℤ) (k : Kernel) (q : Slot) : ℕ :=
  if OnCpu k q then max 1 (turns P σ (k.proc q).priority)
  else if (k.proc q).state = .runnable then turns P σ (k.proc q).priority else 0

section Step
variable {i : Slot} {W P lo σ : ℤ} {k k' : Kernel} {e : Event}

theorem turnsOf_le (P σ : ℤ) (k : Kernel) (q : Slot) : turnsOf P σ k q ≤ max 1 (turns P σ (k.proc q).priority) := by
  unfold turnsOf
  split_ifs <;> omega

theorem turnsOf_of_not_ready {q : Slot} (h : ¬Ready k q) : turnsOf P σ k q = 0 := by
  rw [Ready, not_or] at h
  rw [turnsOf, if_neg h.2, if_neg h.1]

theorem WF.ready_inUse (hwf : WF k) {q : Slot} (h : Ready k q) : (k.proc q).state ≠ .unused := by
  intro hq
  rcases h with h | h | h
  · rw [hq] at h
    cases h
  · rw [(hwf.running q).mpr h] at hq
    cases hq
  · have := hwf.switched q h
    simp [hq, ProcState.OffCpu] at this

theorem WF.ready_competes (hwf : WF k) (hs : Version.update.step k e = some k') {q : Slot}
    (hq : Ready k q) (hne : ¬(e = .sliceDone ∧ k.cpu = .switched q)) :
    Competes q (k.proc q).weight k := by
  refine ⟨?_, rfl⟩
  rcases hq with hq | hq | hq
  · exact Or.inl hq
  · exact Or.inr ((hwf.running q).mpr hq)
  · exact absurd ⟨step_of_switched hs hq, hq⟩ hne

theorem Paced.priority (hp : Paced W k e) (hσ : σ = TIME_SLICE/W) {q : Slot}
    (hs : Version.update.step k e = some k') (he : e = .sliceDone) (hc : k.cpu = .switched q) :
    (k'.proc q).priority = (k.proc q).priority+TIME_SLICE/(k.proc q).weight ∧
      σ ≤ TIME_SLICE/(k.proc q).weight := by
  subst he
  obtain ⟨hfits, hw⟩ := hp q
  obtain ⟨hlo, hhi⟩ := hfits rfl hc
  obtain ⟨hw1, hwW⟩ := hw rfl hc
  have hk : Version.update.sliceDone k q = some k' := by simpa [Version.step, hc] using hs
  refine ⟨sliceDone_priority hk hlo hhi, ?_⟩
  rw [hσ, Int.le_ediv_iff_mul_le (by omega)]
  calc TIME_SLICE/W*(k.proc q).weight ≤ TIME_SLICE/W*W :=
        mul_le_mul_of_nonneg_left hwW (share_nonneg (by omega))
    _ ≤ TIME_SLICE := Int.ediv_mul_le _ (by omega)

/-- What one step costs: a slice of q uses up a turn of q, and only an arrival
brings new turns. -/
theorem turnsOf_step (hk : Reachable Version.update.step Kernel.start k)
    (hs : Version.update.step k e = some k') (hp : Passes i W k e k') (hσ : σ = TIME_SLICE/W)
    (hσ1 : 1 ≤ σ) (hlo : Above lo k') (hP : (k.proc i).priority = P) (hloP : lo ≤ P) (q : Slot) :
    turnsOf P σ k' q+(if e = .sliceDone ∧ k.cpu = .switched q then 1 else 0) ≤
      turnsOf P σ k q+(if ¬Ready k q ∧ Ready k' q then 1 else 0)*turns P σ lo := by
  have hwf := wf_reachable hk
  have hon : k.cpu = .switched q → OnCpu k q := Or.inr
  by_cases hq' : Ready k' q
  · by_cases hq : Ready k q
    · rw [if_neg (by tauto : ¬(¬Ready k q ∧ Ready k' q))]
      by_cases hslice : e = .sliceDone ∧ k.cpu = .switched q
      · -- q goes back into the table with a higher priority
        obtain ⟨hprio, hshare⟩ := hp.paced.priority hσ hs hslice.1 hslice.2
        have hidle := sliceDone_idle (hslice.1 ▸ hs)
        rw [if_pos hslice, turnsOf, turnsOf, if_neg (by simp [OnCpu, hidle]), if_pos (hon hslice.2),
          hprio]
        have := turns_slice (P := P) (x := (k.proc q).priority) hσ1 hshare
        split_ifs <;> omega
      · have hcomp := hwf.ready_competes hs hq hslice
        rw [if_neg hslice, turnsOf, turnsOf, priority_of_not_slice hwf hs hcomp hslice]
        by_cases hc : OnCpu k q
        · rw [if_pos hc]
          split_ifs <;> omega
        · rw [if_neg hc, if_pos (hq.resolve_right hc)]
          by_cases hc' : OnCpu k' q
          · -- q is dispatched while i waits, so it is not behind i
            have hne : e ≠ .sliceDone := by
              rintro rfl
              rw [OnCpu, sliceDone_idle hs] at hc'
              simp at hc'
            have hle := (onCpu_step hk hs hne ⟨Or.inl hp.before.1, rfl⟩ hc').resolve_left hc
            have := turns_pos hσ1 (hP ▸ hle)
            rw [if_pos hc']
            omega
          · rw [if_neg hc']
            split_ifs <;> omega
    · rw [if_neg fun h => hq (Or.inr (hon h.2)), if_pos ⟨hq, hq'⟩, turnsOf_of_not_ready hq]
      have hle := hlo.priority q ((wf_step hwf hs).ready_inUse hq')
      have := turnsOf_le P σ k' q
      have := turns_antitone (P := P) hσ1 hle
      have := turns_pos hσ1 hloP
      omega
  · rw [turnsOf_of_not_ready hq', if_neg (by tauto : ¬(¬Ready k q ∧ Ready k' q))]
    split_ifs with hslice
    · rw [turnsOf, if_pos (hon hslice.2)]
      omega
    · omega

theorem Above.step (h : Above lo k) (hwf : WF k) (hs : Version.update.step k e = some k')
    (hp : Paced W k e) (hboot : k.cpu ≠ .boot) : Above lo k' := by
  have hu : e ≠ .userinit := by
    rintro rfl
    exact hboot (userinit_boot hs)
  have hprio (q : Slot) (hq : (k'.proc q).state ≠ .unused) : lo ≤ (k'.proc q).priority := by
    have hkeep (hin : (k.proc q).state ≠ .unused)
        (hpr : (k'.proc q).priority = (k.proc q).priority) : lo ≤ (k'.proc q).priority :=
      hpr ▸ h.priority q hin
    cases hwf.change hs q with
    | same hs' hpr => exact hkeep (hs' ▸ hq) hpr
    | woken hq' hs' hpr hm => exact hpr ▸ h.minPriority
    | init he => exact absurd he hu
    | alloc he hq' hs' hpr => exact hpr ▸ h.minPriority
    | born he hf hs' hpr =>
      obtain ⟨p, hf⟩ := hf
      exact hkeep (by simp [hwf.forking hf]) hpr
    | unborn he hf hs' hpr => exact absurd hs' hq
    | left hc hc' hs' hpr => exact hkeep (by simp [(hwf.running q).mpr hc]) hpr
    | reaped hq' hs' hpr => exact absurd hs' hq
    | killed pid he hq' hk hs' hpr => exact hkeep (by simp [hq']) hpr
    | dispatched he hpick hs' hpr => exact hkeep (by simp [(Kernel.pick_some hpick).1]) hpr
    | slice he hc hs' hpr =>
      obtain ⟨hpr, -⟩ := hp.priority rfl hs he hc
      have := h.priority q (hs' ▸ hq)
      have := share_nonneg ((hp q).2 he hc).1
      omega
  refine ⟨?_, hprio⟩
  by_cases he : e = .sliceDone
  · subst he
    obtain ⟨p, hc, hk⟩ := sliceDone_cases hs
    rw [sliceDone_minPriority hk]
    by_cases hrun : ∃ q, (k'.proc q).state = .runnable
    · obtain ⟨q, hq⟩ := hrun
      obtain ⟨r, hr, hmin⟩ := (cached_minimum { k with proc := k'.proc } .idle).attained q hq
      change (k'.proc r).state = _ at hr
      change (k'.proc r).priority = Version.update.minimum { k with proc := k'.proc } at hmin
      exact hmin ▸ hprio r (by simp [hr])
    · have hnone (p : Slot) : (k'.proc p).state ≠ .runnable := fun hp => hrun ⟨p, hp⟩
      simpa [Version.update, hnone] using h.minPriority
  · rw [min_step hs hu he]
    exact h.minPriority

theorem Waits.not_boot (h : Waits i k) (hwf : WF k) : k.cpu ≠ .boot := by
  intro hc
  have := h.1
  rw [hwf.boot hc] at this
  cases this

def allTurns (i : Slot) (P σ : ℤ) (k : Kernel) : ℕ := ∑ q ∈ Finset.univ.erase i, turnsOf P σ k q

theorem allTurns_step (hk : Reachable Version.update.step Kernel.start k)
    (hs : Version.update.step k e = some k') (hp : Passes i W k e k') (hσ : σ = TIME_SLICE/W)
    (hσ1 : 1 ≤ σ) (hlo : Above lo k') (hP : (k.proc i).priority = P) (hloP : lo ≤ P) :
    allTurns i P σ k'+(if e = .sliceDone then 1 else 0) ≤
      allTurns i P σ k+arrived i k k'*turns P σ lo := by
  have hsum := Finset.sum_le_sum fun q (_ : q ∈ Finset.univ.erase i) =>
    turnsOf_step hk hs hp hσ hσ1 hlo hP hloP q
  rw [Finset.sum_add_distrib, Finset.sum_add_distrib, ← Finset.sum_mul, ← Finset.card_filter,
    ← Finset.card_filter] at hsum
  refine le_trans (Nat.add_le_add_left ?_ _) hsum
  split_ifs with he
  · -- the slice that ends is not one of i
    subst he
    obtain ⟨q, hc, -⟩ := sliceDone_cases hs
    have hqi : q ≠ i := by
      rintro rfl
      exact hp.before.2 (Or.inr hc)
    exact Finset.card_pos.mpr ⟨q, by simp [hqi, hc]⟩
  · exact Nat.zero_le _

end Step

theorem arrivals_cons {i : Slot} {k k' : Kernel} {e : Event}
    (hs : Version.update.step k e = some k') (es : List Event) :
    arrivals i k (e :: es) = arrived i k k'+arrivals i k' es := by
  simp [arrivals, hs]

theorem allTurns_run {i : Slot} {W P lo σ : ℤ} {s t : Kernel} {es : List Event}
    (hk : Reachable Version.update.step Kernel.start s) (hσ : σ = TIME_SLICE/W) (hσ1 : 1 ≤ σ)
    (hlo : Above lo s) (hP : (s.proc i).priority = P) (hloP : lo ≤ P)
    (hr : Run Version.update.step (Passes i W) s es t) :
    allTurns i P σ t+es.count .sliceDone ≤ allTurns i P σ s+arrivals i s es*turns P σ lo := by
  induction hr with
  | nil s => simp
  | @cons s s' t e es hs hq _ ih =>
    have hwf := wf_reachable hk
    have hlo' := hlo.step hwf hs hq.paced (hq.before.not_boot hwf)
    have hP' : (s'.proc i).priority = P := by
      rw [← hP]
      exact priority_of_not_slice hwf hs ⟨Or.inl hq.before.1, rfl⟩
        fun h => hq.before.2 (Or.inr h.2)
    have hone := allTurns_step hk hs hq hσ hσ1 hlo' hP hloP
    have := ih (hk.next hs) hlo' hP'
    rw [arrivals_cons hs, List.count_cons, Nat.add_mul]
    simp only [beq_iff_eq]
    omega

/-- As long as a process waits, the slices of all the others together are at most
the ready and the arriving processes times the turns that one process can take
from the lowest priority in use up to the one of the waiting process. -/
theorem wait_bounded (i : Slot) (W lo : ℤ) (hW : 1 ≤ W ∧ W ≤ TIME_SLICE) (s t : Kernel)
    (es : List Event) (hs : Reachable Version.update.step Kernel.start s) (hi : Waits i s)
    (hlo : Above lo s) (hr : Run Version.update.step (Passes i W) s es t) :
    (es.count .sliceDone:ℤ) ≤
      (rivals i s+arrivals i s es)*(((s.proc i).priority-lo)/(TIME_SLICE/W)+1) := by
  have hσ1 : 1 ≤ TIME_SLICE/W := by
    rw [Int.le_ediv_iff_mul_le (by omega)]
    omega
  have hloP : lo ≤ (s.proc i).priority := hlo.priority i (by simp [hi.1])
  have hrun := allTurns_run hs rfl hσ1 hlo rfl hloP hr
  have hstart : allTurns i (s.proc i).priority (TIME_SLICE/W) s ≤
      rivals i s*turns (s.proc i).priority (TIME_SLICE/W) lo := by
    rw [rivals, Finset.card_filter, Finset.sum_mul]
    refine Finset.sum_le_sum fun q _ => ?_
    split_ifs with hq
    · have hle := hlo.priority q ((wf_reachable hs).ready_inUse hq)
      have := turnsOf_le (s.proc i).priority (TIME_SLICE/W) s q
      have := turns_antitone (P := (s.proc i).priority) hσ1 hle
      have := turns_pos hσ1 hloP
      omega
    · rw [turnsOf_of_not_ready hq]
      exact Nat.zero_le _
  have hturns : (turns (s.proc i).priority (TIME_SLICE/W) lo:ℤ) =
      ((s.proc i).priority-lo)/(TIME_SLICE/W)+1 := by
    have := turns_pos hσ1 hloP
    unfold turns at this ⊢
    omega
  rw [← hturns]
  have hall : es.count .sliceDone ≤
      (rivals i s+arrivals i s es)*turns (s.proc i).priority (TIME_SLICE/W) lo := by
    rw [Nat.add_mul]
    omega
  exact_mod_cast hall

/-- The child of init waits while init ends the slice in which it forked: one
rival, one slice. -/
theorem wait_bounded_child :
    ∃ s, Reachable Version.update.step Kernel.start s ∧ rivals ⟨1, by decide⟩ s = 1 ∧
      arrivals ⟨1, by decide⟩ s [.yield, .sliceDone] = 0 ∧
      (([Event.yield, .sliceDone].count .sliceDone:ℕ):ℤ) ≤
        ((1:ℕ)+(0:ℕ))*(((s.proc ⟨1, by decide⟩).priority-3)/(TIME_SLICE/1)+1) := by
  have htrace : ∃ s ∈ exec Version.update.step Kernel.start [.userinit, .pick, .fork, .forkDone],
      Waits ⟨1, by decide⟩ s ∧ 3 ≤ s.minPriority ∧
      (∀ q, (s.proc q).state ≠ .unused → 3 ≤ (s.proc q).priority) ∧
      rivals ⟨1, by decide⟩ s = 1 ∧ arrivals ⟨1, by decide⟩ s [.yield, .sliceDone] = 0 ∧
      (exec (guarded Version.update.step (Passes ⟨1, by decide⟩ 1)) s
        [.yield, .sliceDone]).isSome := by
    decide +kernel
  obtain ⟨s, hs, hi, hmin, hprio, hriv, harr, hrun⟩ := reachable_of_exec htrace
  obtain ⟨t, ht⟩ := Option.isSome_iff_exists.mp hrun
  have := wait_bounded ⟨1, by decide⟩ 1 3 (by decide) s t _ hs hi ⟨hmin, hprio⟩ (run_guarded ht)
  rw [hriv, harr] at this
  exact ⟨s, hs, hriv, harr, this⟩

end ProvenXv6.Ptable
