import Mathlib.Algebra.Order.Group.Unbundled.Abs
import Mathlib.Tactic.Linarith
import Mathlib.Tactic.Ring
import ProvenXv6.SchedMinimum

namespace ProvenXv6.Ptable
open StepSystem

variable {V : Version} {k k' : Kernel} {e : Event}

/-- p is RUNNABLE or RUNNING with weight w. -/
structure Competes (p : Slot) (w : ℤ) (k : Kernel) : Prop where
  queued : (k.proc p).state = .runnable ∨ (k.proc p).state = .running
  weight : (k.proc p).weight = w

/-- The priority that p gets at the end of a slice is in the range of an `int`. -/
def Fits (p : Slot) (k : Kernel) (e : Event) : Prop :=
  e = .sliceDone → k.cpu = .switched p →
    -2^31 ≤ (k.proc p).priority+TIME_SLICE/(k.proc p).weight ∧
      (k.proc p).priority+TIME_SLICE/(k.proc p).weight < 2^31

/-- A step at whose both ends p competes with weight w, without overflow. -/
structure Steady (p : Slot) (w : ℤ) (k : Kernel) (e : Event) (k' : Kernel) : Prop where
  before : Competes p w k
  after : Competes p w k'
  fits : Fits p k e

instance (p : Slot) (w : ℤ) (k : Kernel) : Decidable (Competes p w k) :=
  decidable_of_iff (((k.proc p).state = .runnable ∨ (k.proc p).state = .running) ∧
    (k.proc p).weight = w) ⟨fun h => ⟨h.1, h.2⟩, fun h => ⟨h.1, h.2⟩⟩

instance (p : Slot) (k : Kernel) (e : Event) : Decidable (Fits p k e) := by
  unfold Fits
  infer_instance

instance (p : Slot) (w : ℤ) (k : Kernel) (e : Event) (k' : Kernel) : Decidable (Steady p w k e k') :=
  decidable_of_iff (Competes p w k ∧ Competes p w k' ∧ Fits p k e)
    ⟨fun h => ⟨h.1, h.2.1, h.2.2⟩, fun h => ⟨h.1, h.2, h.3⟩⟩

def slices (V : Version) (p : Slot) : Kernel → List Event → ℕ
  | _, [] => 0
  | k, e :: es => (if e = .sliceDone ∧ k.cpu = .switched p then 1 else 0) +
      ((V.step k e).map (slices V p · es)).getD 0

theorem wrap32_of_fits {x : ℤ} (h : -2^31 ≤ x) (h' : x < 2^31) : wrap32 x = x :=
  Int.bmod_eq_of_le (by omega) (by omega)

theorem sliceDone_spec {p : Slot} (h : V.sliceDone k p = some k') :
    (k'.proc p).priority = wrap32 ((k.proc p).priority+Int.tdiv TIME_SLICE (k.proc p).weight) ∧
      ∀ q, q ≠ p → k'.proc q = k.proc q := by
  unfold Version.sliceDone at h
  split_ifs at h
  obtain rfl := Option.some.inj h
  exact ⟨by simp, fun q hq => Function.update_of_ne hq ..⟩

theorem share_nonneg {w : ℤ} (hw : 1 ≤ w) : 0 ≤ TIME_SLICE/w :=
  Int.ediv_nonneg (by decide) (by omega)

theorem tdiv_share (w : ℤ) : Int.tdiv TIME_SLICE w = TIME_SLICE/w :=
  Int.tdiv_eq_ediv_of_nonneg (by decide)

theorem sliceDone_priority {p : Slot} (h : V.sliceDone k p = some k')
    (hlo : -2^31 ≤ (k.proc p).priority+TIME_SLICE/(k.proc p).weight)
    (hhi : (k.proc p).priority+TIME_SLICE/(k.proc p).weight < 2^31) :
    (k'.proc p).priority = (k.proc p).priority+TIME_SLICE/(k.proc p).weight := by
  rw [(sliceDone_spec h).1, tdiv_share, wrap32_of_fits hlo hhi]

theorem priority_of_not_slice (hwf : WF k) (h : V.step k e = some k') {q : Slot} {w : ℤ}
    (hq : Competes q w k) (hne : ¬(e = .sliceDone ∧ k.cpu = .switched q)) :
    (k'.proc q).priority = (k.proc q).priority := by
  have hcomp : ∀ st, (k.proc q).state = st → st = .runnable ∨ st = .running := by
    rintro st rfl
    exact hq.queued
  cases hwf.change h q with
  | same hs hp => exact hp
  | left hc hc' hs hp => exact hp
  | dispatched he hpick hs hp => exact hp
  | slice he hc hs hp => exact absurd ⟨he, hc⟩ hne
  | init he =>
    subst he
    have := hcomp .unused (by rw [hwf.boot (userinit_boot h)]; rfl)
    simp at this
  | woken hq' hs hp hm => simpa using hcomp _ hq'
  | alloc he hq' hs hp => simpa using hcomp _ hq'
  | born he hf hs hp => exact hp
  | unborn he hf hs hp => exact hp
  | reaped hq' hs hp => exact hp
  | killed pid he hq' hk hs hp => exact hp

theorem priority_of_slice {p : Slot} {w : ℤ} (h : V.step k .sliceDone = some k')
    (hc : k.cpu = .switched p) (hp : Steady p w k .sliceDone k') :
    (k'.proc p).priority = (k.proc p).priority+TIME_SLICE/w := by
  have hk : V.sliceDone k p = some k' := by simpa [Version.step, hc] using h
  obtain ⟨hlo, hhi⟩ := hp.fits rfl hc
  rw [sliceDone_priority hk hlo hhi, hp.before.weight]

theorem priority_run {p : Slot} {w : ℤ} {s t : Kernel} {es : List Event} (hwf : WF s)
    (hr : Run V.step (Steady p w) s es t) :
    (t.proc p).priority = (s.proc p).priority+slices V p s es*(TIME_SLICE/w) := by
  induction hr with
  | nil s => simp [slices]
  | cons h hq _ ih =>
    rw [ih (wf_step hwf h)]
    simp only [slices, h, Option.map_some, Option.getD_some]
    split_ifs with hs
    · obtain ⟨rfl, hc⟩ := hs
      rw [priority_of_slice h hc hq]
      push_cast
      ring
    · rw [priority_of_not_slice hwf h hq.before hs, zero_add]

def OnCpu (k : Kernel) (p : Slot) : Prop := k.cpu = .running p ∨ k.cpu = .switched p

/-- The priorities of i and j differ by at most M, and whoever has the CPU is
not ahead of the other. -/
structure Balanced (i j : Slot) (M : ℤ) (k : Kernel) : Prop where
  near : |(k.proc i).priority-(k.proc j).priority| ≤ M
  left : OnCpu k i → (k.proc i).priority ≤ (k.proc j).priority
  right : OnCpu k j → (k.proc j).priority ≤ (k.proc i).priority

theorem onCpu_step (hk : Reachable Version.update.step Kernel.start k)
    (h : Version.update.step k e = some k') (hne : e ≠ .sliceDone) {p q : Slot} {w : ℤ}
    (hq : Competes q w k) (hp : OnCpu k' p) :
    OnCpu k p ∨ (k.proc p).priority ≤ (k.proc q).priority := by
  cases step_moves h with
  | boot he hc hk' =>
    have hwf := wf_reachable hk
    rw [hwf.boot hc] at hk'
    rw [OnCpu, (userinit_start hk').1] at hp
    simp at hp
  | stay hc hm hboot hidle =>
    rw [OnCpu, hc] at hp
    exact Or.inl hp
  | leave r hc hc' hs hm =>
    rw [OnCpu, hc'] at hp
    simp only [reduceCtorEq, false_or, Cpu.switched.injEq] at hp
    exact Or.inl (Or.inl (hp ▸ hc))
  | pick r he hc hpick hc' hm =>
    obtain rfl : r = p := by
      rcases hc' with ⟨hc', -⟩ | ⟨hc', -⟩ <;> rw [OnCpu, hc'] at hp <;> simpa using hp
    right
    rw [(Kernel.pick_some hpick).2]
    refine (cached_reachable hk hc).le q (hq.queued.resolve_right fun hrun => ?_)
    rw [((wf_reachable hk).running q).mp hrun] at hc
    cases hc
  | slice r he hc hc' hk' => exact absurd he hne

theorem Balanced.symm {i j : Slot} {M : ℤ} (h : Balanced i j M k) : Balanced j i M k :=
  ⟨abs_sub_comm (k.proc i).priority _ ▸ h.near, h.right, h.left⟩

theorem Balanced.slice {i j : Slot} {wi wj M : ℤ} (hb : Balanced i j M k) (hij : i ≠ j)
    (hsi : 0 ≤ TIME_SLICE/wi ∧ TIME_SLICE/wi ≤ M) (hwf : WF k)
    (h : V.step k .sliceDone = some k') (hc : k.cpu = .switched i)
    (hi : Steady i wi k .sliceDone k') (hj : Competes j wj k) :
    |(k'.proc i).priority-(k'.proc j).priority| ≤ M := by
  have hcj : k.cpu ≠ .switched j := by
    rw [hc]
    simpa using hij
  have hle := hb.left (Or.inr hc)
  have hnear := abs_le.mp hb.near
  rw [priority_of_slice h hc hi, priority_of_not_slice hwf h hj (fun hs => hcj hs.2)]
  exact abs_le.mpr ⟨by linarith, by linarith⟩

theorem balanced_step {i j : Slot} {wi wj M : ℤ} (hij : i ≠ j)
    (hsi : 0 ≤ TIME_SLICE/wi ∧ TIME_SLICE/wi ≤ M) (hsj : 0 ≤ TIME_SLICE/wj ∧ TIME_SLICE/wj ≤ M)
    (hk : Reachable Version.update.step Kernel.start k) (h : Version.update.step k e = some k')
    (hi : Steady i wi k e k') (hj : Steady j wj k e k') (hb : Balanced i j M k) :
    Balanced i j M k' := by
  have hwf := wf_reachable hk
  by_cases he : e = .sliceDone
  · subst he
    have hidle : ∀ q, ¬OnCpu k' q := by
      intro q
      simp [OnCpu, sliceDone_idle h]
    refine ⟨?_, fun hon => absurd hon (hidle i), fun hon => absurd hon (hidle j)⟩
    by_cases hci : k.cpu = .switched i
    · exact hb.slice hij hsi hwf h hci hi hj.before
    · by_cases hcj : k.cpu = .switched j
      · rw [abs_sub_comm]
        exact hb.symm.slice hij.symm hsj hwf h hcj hj hi.before
      · rw [priority_of_not_slice hwf h hi.before (fun hs => hci hs.2),
          priority_of_not_slice hwf h hj.before (fun hs => hcj hs.2)]
        exact hb.near
  · have hpi := priority_of_not_slice hwf h hi.before (fun hs => he hs.1)
    have hpj := priority_of_not_slice hwf h hj.before (fun hs => he hs.1)
    refine ⟨by rw [hpi, hpj]; exact hb.near, fun hon => ?_, fun hon => ?_⟩
    · rw [hpi, hpj]
      rcases onCpu_step hk h he hj.before hon with hon | hle
      · exact hb.left hon
      · exact hle
    · rw [hpi, hpj]
      rcases onCpu_step hk h he hi.before hon with hon | hle
      · exact hb.right hon
      · exact hle

/-- However long two processes compete with fixed weights from equal priorities,
the slices they have completed, weighted by their lengths, differ by at most one
slice length. -/
theorem weighted_fairness (i j : Slot) (wi wj : ℤ) (hwi : 1 ≤ wi ∧ wi ≤ TIME_SLICE)
    (hwj : 1 ≤ wj ∧ wj ≤ TIME_SLICE) (s t : Kernel) (es : List Event)
    (hs : Reachable Version.update.step Kernel.start s)
    (heq : (s.proc i).priority = (s.proc j).priority)
    (hr : Run Version.update.step (fun k e k' => Steady i wi k e k' ∧ Steady j wj k e k') s es t) :
    |(slices Version.update i s es:ℤ)*(TIME_SLICE/wi)-slices Version.update j s es*(TIME_SLICE/wj)|
      ≤ max (TIME_SLICE/wi) (TIME_SLICE/wj) := by
  have hpi := priority_run (wf_reachable hs) (hr.mono fun _ _ _ _ h => h.1)
  have hpj := priority_run (wf_reachable hs) (hr.mono fun _ _ _ _ h => h.2)
  by_cases hij : i = j
  · subst hij
    cases hr with
    | nil s => simp [slices, share_nonneg hwi.1]
    | cons h hq hr =>
      obtain rfl : wi = wj := hq.1.before.weight.symm.trans hq.2.before.weight
      simp [share_nonneg hwi.1]
  · have hinv := hr.invariant (I := fun k => Reachable Version.update.step Kernel.start k ∧
        Balanced i j (max (TIME_SLICE/wi) (TIME_SLICE/wj)) k)
      ⟨hs, by simp [heq, share_nonneg hwi.1], fun _ => heq.le, fun _ => heq.ge⟩
      (fun k e k' hk h hq => ⟨hk.1.next h, balanced_step hij ⟨share_nonneg hwi.1, le_max_left _ _⟩
        ⟨share_nonneg hwj.1, le_max_right _ _⟩ hk.1 h hq.1 hq.2 hk.2⟩)
    have hnear := hinv.2.near
    rw [hpi, hpj, heq, add_sub_add_left_eq_sub] at hnear
    exact hnear

/-- init, of weight 1, and its child, of weight 2, from the end of `fork` to the
third pick: one slice against two. -/
theorem weighted_fairness_init_child :
    ∃ s, Reachable Version.update.step Kernel.start s ∧
      slices Version.update ⟨0, by decide⟩ s
        [.yield, .sliceDone, .pick, .yield, .sliceDone, .pick, .yield, .sliceDone, .pick] = 1 ∧
      slices Version.update ⟨1, by decide⟩ s
        [.yield, .sliceDone, .pick, .yield, .sliceDone, .pick, .yield, .sliceDone, .pick] = 2 ∧
      |((1:ℕ):ℤ)*(TIME_SLICE/1)-(2:ℕ)*(TIME_SLICE/2)| ≤ max (TIME_SLICE/1) (TIME_SLICE/2) := by
  have htrace : ∃ s ∈ exec Version.update.step Kernel.start [.userinit, .pick, .fork, .forkDone],
      (s.proc ⟨0, by decide⟩).priority = (s.proc ⟨1, by decide⟩).priority ∧
      slices Version.update ⟨0, by decide⟩ s
        [.yield, .sliceDone, .pick, .yield, .sliceDone, .pick, .yield, .sliceDone, .pick] = 1 ∧
      slices Version.update ⟨1, by decide⟩ s
        [.yield, .sliceDone, .pick, .yield, .sliceDone, .pick, .yield, .sliceDone, .pick] = 2 ∧
      (exec (guarded Version.update.step fun k e k' =>
        Steady ⟨0, by decide⟩ 1 k e k' ∧ Steady ⟨1, by decide⟩ 2 k e k') s
        [.yield, .sliceDone, .pick, .yield, .sliceDone, .pick, .yield, .sliceDone, .pick]).isSome := by
    decide +kernel
  obtain ⟨s, hs, heq, hi, hj, hrun⟩ := reachable_of_exec htrace
  obtain ⟨t, ht⟩ := Option.isSome_iff_exists.mp hrun
  have := weighted_fairness ⟨0, by decide⟩ ⟨1, by decide⟩ 1 2 (by decide) (by decide) s t _ hs heq
    (run_guarded ht)
  rw [hi, hj] at this
  exact ⟨s, hs, hi, hj, this⟩

end ProvenXv6.Ptable
