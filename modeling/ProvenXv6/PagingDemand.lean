import Mathlib.Data.Fintype.Fin
import ProvenXv6.PagingSound

namespace ProvenXv6.Paging

/-- While a frame is free nothing has been evicted: every referenced page is resident. -/
def Covered {pfNum : ℕ} {Aux : Type} (refs : List Psr) (k : ℕ) (s : Sim pfNum Aux) : Prop :=
  s.occupied < pfNum → ∀ p ∈ pages refs k, ∃ f : Fin pfNum, f.val < s.occupied ∧ s.pageFrame f = p

section Lookup
variable {pfNum : ℕ} {Aux : Type} {refs : List Psr} {k : ℕ} {r : Psr} {s : Sim pfNum Aux}

/-- Apart from -1, and once no frame is free, the extra frame that the lookup
reads makes no difference. -/
theorem checkHit_occupied (h : Framed refs k s) (hreal : r.data ≠ -1 ∨ s.occupied = pfNum)
    {f : Fin pfNum} (hf : s.pageFrame f = r.data) : f.val < s.occupied := by
  by_contra hn
  rcases hreal with hne | ho
  · exact hne (hf.symm.trans (h.free f (not_lt.mp hn)))
  · have := f.isLt
    omega

theorem checkHit_none_iff_absent (h : Framed refs k s) (hreal : r.data ≠ -1 ∨ s.occupied = pfNum) :
    checkHit r.data s.pageFrame s.occupied = none ↔ ¬∃ f, s.pageFrame f = r.data := by
  rw [checkHit_none_iff]
  constructor
  · rintro hnone ⟨f, hf⟩
    have hlt := checkHit_occupied h hreal hf
    refine hnone f ?_ hf
    unfold scanned
    split_ifs <;> omega
  · intro hno f _ hf
    exact hno ⟨f, hf⟩

end Lookup

section Pages
variable {pfNum : ℕ} (P : Policy pfNum) {refs : List Psr}

theorem covered_start : Covered refs 0 P.start := fun _ p hp => absurd hp (by simp [pages])

theorem covered_step {k : ℕ} {r : Psr} {s s' : Sim pfNum P.Aux} (hr : refs[k]? = some r)
    (h : Framed refs k s) (hc : Covered refs k s) (hreal : r.data ≠ -1 ∨ s.occupied = pfNum)
    (hs : P.step refs k r s = some s') : Covered refs (k+1) s' := by
  rcases P.step_cases hs with ⟨f, hhit, rfl⟩ | ⟨ho, hmiss, rfl⟩ | ⟨ho, hmiss, index, aux, _, rfl⟩
  · intro ho p hp
    rcases (mem_pages_succ hr p).mp hp with hp | rfl
    · exact hc ho p hp
    · have hf := (checkHit_some hhit).2
      exact ⟨f, checkHit_occupied h hreal hf, hf⟩
  · intro _ p hp
    rcases (mem_pages_succ hr p).mp hp with hp | rfl
    · obtain ⟨f, hf, he⟩ := hc ho p hp
      have hne : f ≠ ⟨s.occupied, ho⟩ := fun hh => by
        have := congrArg Fin.val hh
        dsimp only at this
        omega
      exact ⟨f, Nat.lt_succ_of_lt hf, by dsimp only; rw [Function.update_of_ne hne]; exact he⟩
    · exact ⟨⟨s.occupied, ho⟩, Nat.lt_succ_self _, Function.update_self ..⟩
  · intro hlt
    dsimp only at hlt
    omega

theorem data_ne_neg_one (hrefs : ∀ r ∈ refs, r.data ≠ -1) {k : ℕ} {r : Psr}
    (hr : refs[k]? = some r) : r.data ≠ -1 := hrefs r (List.mem_of_getElem? hr)

theorem covered_stateAt (hrefs : ∀ r ∈ refs, r.data ≠ -1) {k : ℕ} {s : Sim pfNum P.Aux}
    (h : P.stateAt refs k = some s) : Covered refs k s := by
  have hboth : Framed refs k s ∧ Covered refs k s := by
    refine P.stateAt_invariant (fun k s => Framed refs k s ∧ Covered refs k s)
      ⟨framed_start P refs, covered_start P⟩ ?_ h
    intro k s r s' hr hi hs
    exact ⟨framed_step P hr hi.1 hs,
      covered_step P hr hi.1 hi.2 (Or.inl (data_ne_neg_one hrefs hr)) hs⟩
  exact hboth.2

end Pages

def Sim.resident {pfNum : ℕ} {Aux : Type} (s : Sim pfNum Aux) : Finset ℤ :=
  (Finset.univ.filter (fun f : Fin pfNum => f.val < s.occupied)).image s.pageFrame

theorem Sim.mem_resident {pfNum : ℕ} {Aux : Type} (s : Sim pfNum Aux) (p : ℤ) :
    p ∈ s.resident ↔ ∃ f : Fin pfNum, f.val < s.occupied ∧ s.pageFrame f = p := by
  simp only [resident, Finset.mem_image, Finset.mem_filter, Finset.mem_univ, true_and]

theorem Policy.start_resident {pfNum : ℕ} (P : Policy pfNum) : P.start.resident = ∅ := by
  apply Finset.eq_empty_of_forall_notMem
  intro p hp
  obtain ⟨f, hf, _⟩ := (P.start.mem_resident p).mp hp
  exact Nat.not_lt_zero _ hf

theorem Framed.card_resident {pfNum : ℕ} {Aux : Type} {refs : List Psr} {k : ℕ}
    {s : Sim pfNum Aux} (h : Framed refs k s) : s.resident.card = s.occupied := by
  have hinj : Set.InjOn s.pageFrame (Finset.univ.filter (fun f : Fin pfNum => f.val < s.occupied)) := by
    intro f hf g hg he
    simp only [Finset.coe_filter, Finset.mem_univ, true_and, Set.mem_ofPred_eq] at hf hg
    exact h.distinct f g hf hg he
  rw [Sim.resident, Finset.card_image_of_injOn hinj, Fin.card_filter_val_lt]
  exact Nat.min_eq_right s.occupied_le

theorem occupied_eq_min {pfNum : ℕ} {Aux : Type} {refs : List Psr} {k : ℕ} {s : Sim pfNum Aux}
    (h : Framed refs k s) (hc : Covered refs k s) :
    s.occupied = min pfNum (pages refs k).toFinset.card := by
  have hsub : s.resident ⊆ (pages refs k).toFinset := by
    intro p hp
    obtain ⟨f, hf, rfl⟩ := (s.mem_resident p).mp hp
    exact List.mem_toFinset.mpr (h.referenced f hf)
  have hle := Finset.card_le_card hsub
  rw [h.card_resident] at hle
  by_cases ho : s.occupied < pfNum
  · have hsup : (pages refs k).toFinset ⊆ s.resident := by
      intro p hp
      exact (s.mem_resident p).mpr (hc ho p (List.mem_toFinset.mp hp))
    have hge := Finset.card_le_card hsup
    rw [h.card_resident] at hge
    omega
  · have := s.occupied_le
    omega

/-- Part (a) of the invariant: occupied frames, free frames and their number. -/
structure FramesOk {pfNum : ℕ} {Aux : Type} (refs : List Psr) (k : ℕ) (s : Sim pfNum Aux) : Prop where
  distinct : ∀ f g : Fin pfNum, f.val < s.occupied → g.val < s.occupied →
    s.pageFrame f = s.pageFrame g → f = g
  free : ∀ f : Fin pfNum, s.occupied ≤ f.val → s.pageFrame f = -1
  occupied : s.occupied = min pfNum (pages refs k).toFinset.card

/-- What a step does to the frames and to the fault count when it references page. -/
structure DemandStep {pfNum : ℕ} {Aux : Type} (page : ℤ) (s s' : Sim pfNum Aux) : Prop where
  fault : s'.pageFault = s.pageFault + if ∃ f, s.pageFrame f = page then 0 else 1
  loaded : ∃! f, s'.pageFrame f = page
  hit : (∃ f, s.pageFrame f = page) → s'.pageFrame = s.pageFrame
  miss : (¬∃ f, s.pageFrame f = page) → ∃! f, s'.pageFrame f ≠ s.pageFrame f

theorem demandStep_store {pfNum : ℕ} {Aux : Type} {page : ℤ} {s s' : Sim pfNum Aux}
    (hno : ¬∃ f, s.pageFrame f = page) (index : Fin pfNum)
    (hframe : s'.pageFrame = Function.update s.pageFrame index page)
    (hfault : s'.pageFault = s.pageFault+1) : DemandStep page s s' := by
  have hne (f : Fin pfNum) (hf : s'.pageFrame f = page) : f = index := by
    by_contra hn
    rw [hframe, Function.update_of_ne hn] at hf
    exact hno ⟨f, hf⟩
  constructor
  · simp only [hno, ↓reduceIte, hfault]
  · exact ⟨index, by rw [hframe]; exact Function.update_self .., hne⟩
  · exact fun hyes => absurd hyes hno
  · intro _
    refine ⟨index, ?_, ?_⟩
    · dsimp only
      rw [hframe, Function.update_self]
      exact fun hh => hno ⟨index, hh.symm⟩
    · intro f hf
      by_contra hn
      exact hf (by rw [hframe, Function.update_of_ne hn])

theorem demandStep_of_step {pfNum : ℕ} (P : Policy pfNum) {refs : List Psr}
    (hrefs : ∀ r ∈ refs, r.data ≠ -1) {k : ℕ} {r : Psr} {s s' : Sim pfNum P.Aux}
    (hr : refs[k]? = some r) (h : Framed refs k s) (hs : P.step refs k r s = some s') :
    DemandStep r.data s s' := by
  have hreal : r.data ≠ -1 ∨ s.occupied = pfNum := Or.inl (data_ne_neg_one hrefs hr)
  have habs := checkHit_none_iff_absent h hreal
  rcases P.step_cases hs with ⟨f, hhit, rfl⟩ | ⟨ho, hmiss, rfl⟩ | ⟨ho, hmiss, index, aux, _, rfl⟩
  · have hf := (checkHit_some hhit).2
    have hyes : ∃ f, s.pageFrame f = r.data := ⟨f, hf⟩
    constructor
    · simp only [hyes, ↓reduceIte, Nat.add_zero]
    · refine ⟨f, hf, ?_⟩
      intro g hg
      exact h.distinct g f (checkHit_occupied h hreal hg) (checkHit_occupied h hreal hf)
        (hg.trans hf.symm)
    · exact fun _ => rfl
    · exact fun hno => absurd hyes hno
  · exact demandStep_store (habs.mp hmiss) _ rfl rfl
  · exact demandStep_store (habs.mp hmiss) _ rfl rfl

/-- Demand paging for every simulator and every step of its run. -/
theorem simulators_demand_paging (pfNum : ℕ) (hpf : 1 ≤ pfNum) (P : Policy pfNum)
    (hP : P ∈ simulators pfNum) (refs : List Psr) (hrefs : ∀ r ∈ refs, r.data ≠ -1)
    (k : ℕ) (hk : k < refs.length) :
    ∃ s s', P.stateAt refs k = some s ∧ P.stateAt refs (k+1) = some s' ∧
      FramesOk refs k s ∧ FramesOk refs (k+1) s' ∧ DemandStep refs[k].data s s' := by
  obtain ⟨Ok, hsound⟩ := simulators_sound hpf P hP
  obtain ⟨s', hs', _⟩ := hsound.stateAt refs (show k+1 ≤ refs.length by omega)
  obtain ⟨s, r, hs, hr, hstep⟩ := (P.stateAt_succ_iff).mp hs'
  have hok (j : ℕ) (t : Sim pfNum P.Aux) (ht : P.stateAt refs j = some t) : FramesOk refs j t := by
    have hf := framed_stateAt P ht
    exact ⟨hf.distinct, hf.free, occupied_eq_min hf (covered_stateAt P hrefs ht)⟩
  have hrk : r = refs[k] := by
    rw [List.getElem?_eq_getElem hk, Option.some.injEq] at hr
    exact hr.symm
  refine ⟨s, s', hs, hs', hok k s hs, hok (k+1) s' hs', ?_⟩
  exact hrk ▸ demandStep_of_step P hrefs hr (framed_stateAt P hs) hstep

theorem simulators_demand_paging_sc :
    ∃ s s', (sc 1).stateAt [⟨7, 0⟩, ⟨8, 1⟩] 1 = some s ∧
      (sc 1).stateAt [⟨7, 0⟩, ⟨8, 1⟩] 2 = some s' ∧
      FramesOk [⟨7, 0⟩, ⟨8, 1⟩] 1 s ∧ FramesOk [⟨7, 0⟩, ⟨8, 1⟩] 2 s' ∧ DemandStep 8 s s' :=
  simulators_demand_paging 1 le_rfl (sc 1) (by simp [simulators]) [⟨7, 0⟩, ⟨8, 1⟩]
    (by decide) 1 (by decide)

end ProvenXv6.Paging
