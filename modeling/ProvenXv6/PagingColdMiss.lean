import ProvenXv6.PagingDemand
import ProvenXv6.PagingEntry

namespace ProvenXv6.Paging

/-- The distinct pages among the first k references. -/
def distinct (refs : List Psr) (k : ℕ) : ℕ := (pages refs k).toFinset.card

/-- The first reference to every page is counted as a fault, there are as many
faults as pages at least, and no more of them when all the pages fit. -/
structure ColdMiss {pfNum : ℕ} (P : Policy pfNum) (refs : List Psr) : Prop where
  first : ∀ k r, refs[k]? = some r → r.data ∉ pages refs k → ∃ s s',
    P.stateAt refs k = some s ∧ P.stateAt refs (k+1) = some s' ∧ s'.pageFault = s.pageFault+1
  total : ∃ t, P.run refs = some t ∧ distinct refs refs.length ≤ t.pageFault ∧
    (distinct refs refs.length ≤ pfNum → t.pageFault = distinct refs refs.length)

/-- Page -1 is only referenced after as many distinct pages as there are frames. -/
def LateMark (pfNum : ℕ) (refs : List Psr) : Prop :=
  ∀ k r, refs[k]? = some r → r.data = -1 → pfNum ≤ distinct refs k

theorem distinct_succ_of_mem {refs : List Psr} {k : ℕ} {r : Psr} (hr : refs[k]? = some r)
    (h : r.data ∈ pages refs k) : distinct refs (k+1) = distinct refs k := by
  rw [distinct, distinct, pages_succ hr, List.toFinset_append]
  congr 1
  exact Finset.union_eq_left.mpr (by simpa using h)

theorem distinct_succ_of_notMem {refs : List Psr} {k : ℕ} {r : Psr} (hr : refs[k]? = some r)
    (h : r.data ∉ pages refs k) : distinct refs (k+1) = distinct refs k+1 := by
  rw [distinct, distinct, pages_succ hr, List.toFinset_append,
    Finset.card_union_of_disjoint (by simpa using h)]
  rfl

theorem distinct_mono (refs : List Psr) {j k : ℕ} (h : j ≤ k) : distinct refs j ≤ distinct refs k := by
  apply Finset.card_le_card
  intro p hp
  rw [List.mem_toFinset] at hp ⊢
  exact ((List.take_sublist_take_left h).map Psr.data).subset hp

theorem exists_first_reference (refs : List Psr) (k : ℕ) (r : Psr) (hr : refs[k]? = some r) :
    ∃ j r', j ≤ k ∧ refs[j]? = some r' ∧ r'.data = r.data ∧ r'.data ∉ pages refs j := by
  induction k using Nat.strong_induction_on generalizing r with
  | _ k ih =>
    by_cases hp : r.data ∈ pages refs k
    · obtain ⟨q, hq, hdata⟩ := List.mem_map.mp hp
      obtain ⟨i, hi⟩ := List.mem_iff_getElem?.mp hq
      obtain ⟨hik, hi⟩ : i < k ∧ refs[i]? = some q := by
        rw [List.getElem?_take] at hi
        split_ifs at hi with h
        exact ⟨h, hi⟩
      obtain ⟨j, r', hj, hr', he, hfirst⟩ := ih i hik q hi
      exact ⟨j, r', by omega, hr', he.trans hdata, hfirst⟩
    · exact ⟨k, r, le_rfl, hr, rfl, hp⟩

section Step
variable {pfNum : ℕ} {refs : List Psr} {k : ℕ} {r : Psr}

theorem Framed.resident_subset {Aux : Type} {s : Sim pfNum Aux} (h : Framed refs k s) :
    s.resident ⊆ (pages refs k).toFinset := by
  intro p hp
  obtain ⟨f, hf, rfl⟩ := (s.mem_resident p).mp hp
  exact List.mem_toFinset.mpr (h.referenced f hf)

theorem occupied_le_distinct {Aux : Type} {s : Sim pfNum Aux} (h : Framed refs k s) :
    s.occupied ≤ distinct refs k :=
  h.card_resident ▸ Finset.card_le_card h.resident_subset

variable (P : Policy pfNum) {s s' : Sim pfNum P.Aux}

/-- While a frame is free, a reference to -1 finds it. -/
theorem pageFault_of_mark (h : Framed refs k s) (ho : s.occupied < pfNum) (hr : r.data = -1)
    (hs : P.step refs k r s = some s') : s'.pageFault = s.pageFault ∧ s'.occupied = s.occupied := by
  have hfound : checkHit r.data s.pageFrame s.occupied ≠ none := by
    rw [Ne, checkHit_none_iff, hr]
    intro hnone
    exact hnone ⟨s.occupied, ho⟩ (by simp [scanned, ho]) (h.free _ le_rfl)
  rcases P.step_cases hs with ⟨f, hhit, rfl⟩ | ⟨ho, hmiss, rfl⟩ | ⟨ho, hmiss, index, aux, _, rfl⟩
  · exact ⟨rfl, rfl⟩
  · exact absurd hmiss hfound
  · exact absurd hmiss hfound

theorem pageFault_of_first (h : Framed refs k s) (hreal : r.data ≠ -1 ∨ s.occupied = pfNum)
    (hfirst : r.data ∉ pages refs k) (hs : P.step refs k r s = some s') :
    s'.pageFault = s.pageFault+1 := by
  have hmiss : checkHit r.data s.pageFrame s.occupied = none := by
    rw [checkHit_none_iff_absent h hreal]
    rintro ⟨f, hf⟩
    exact hfirst (hf ▸ h.referenced f (checkHit_occupied h hreal hf))
  rcases P.step_cases hs with ⟨f, hhit, rfl⟩ | ⟨ho, -, rfl⟩ | ⟨ho, -, index, aux, _, rfl⟩
  · rw [hmiss] at hhit
    cases hhit
  · rfl
  · rfl

theorem pageFault_of_resident (h : Framed refs k s) (hreal : r.data ≠ -1 ∨ s.occupied = pfNum)
    (hin : r.data ∈ s.resident) (hs : P.step refs k r s = some s') : s'.pageFault = s.pageFault := by
  obtain ⟨f, -, hf⟩ := (s.mem_resident _).mp hin
  have habs := checkHit_none_iff_absent h hreal
  rcases P.step_cases hs with ⟨f, hhit, rfl⟩ | ⟨ho, hmiss, rfl⟩ | ⟨ho, hmiss, index, aux, _, rfl⟩
  · rfl
  · exact absurd ⟨f, hf⟩ (habs.mp hmiss)
  · exact absurd ⟨f, hf⟩ (habs.mp hmiss)

theorem pageFault_mono (hs : P.step refs k r s = some s') : s.pageFault ≤ s'.pageFault := by
  rcases P.step_cases hs with ⟨f, hhit, rfl⟩ | ⟨ho, -, rfl⟩ | ⟨ho, -, index, aux, _, rfl⟩
  · exact le_rfl
  · exact Nat.le_succ _
  · exact Nat.le_succ _

end Step

/-- The invariant on strings that come late to -1: the frames hold every page
while one is free, and the faults are at least the pages, exactly the pages as
long as these fit. -/
structure Counted {pfNum : ℕ} {Aux : Type} (refs : List Psr) (k : ℕ) (s : Sim pfNum Aux) : Prop where
  framed : Framed refs k s
  covered : Covered refs k s
  le : distinct refs k ≤ s.pageFault
  eq : distinct refs k ≤ pfNum → s.pageFault = distinct refs k

section Late
variable {pfNum : ℕ} (P : Policy pfNum) {refs : List Psr} (hlate : LateMark pfNum refs)
include hlate

theorem Counted.real {k : ℕ} {r : Psr} {s : Sim pfNum P.Aux} (h : Counted refs k s)
    (hr : refs[k]? = some r) : r.data ≠ -1 ∨ s.occupied = pfNum := by
  by_cases hm : r.data = -1
  · right
    have hd : pfNum ≤ (pages refs k).toFinset.card := hlate k r hr hm
    rw [occupied_eq_min h.framed h.covered, Nat.min_eq_left hd]
  · exact Or.inl hm

theorem Counted.step {k : ℕ} {r : Psr} {s s' : Sim pfNum P.Aux} (h : Counted refs k s)
    (hr : refs[k]? = some r) (hs : P.step refs k r s = some s') : Counted refs (k+1) s' := by
  have hreal := h.real P hlate hr
  have hle := h.le
  refine ⟨framed_step P hr h.framed hs, covered_step P hr h.framed h.covered hreal hs, ?_, ?_⟩
  · by_cases hp : r.data ∈ pages refs k
    · rw [distinct_succ_of_mem hr hp]
      exact hle.trans (pageFault_mono P hs)
    · rw [distinct_succ_of_notMem hr hp, pageFault_of_first P h.framed hreal hp hs]
      omega
  · intro hd
    by_cases hp : r.data ∈ pages refs k
    · rw [distinct_succ_of_mem hr hp] at hd ⊢
      -- all the pages so far are resident, since there is a frame for each of them
      have hall : s.resident = (pages refs k).toFinset := by
        apply Finset.eq_of_subset_of_card_le h.framed.resident_subset
        rw [h.framed.card_resident, occupied_eq_min h.framed h.covered]
        exact le_min hd le_rfl
      rw [pageFault_of_resident P h.framed hreal (by rw [hall]; simpa using hp) hs, h.eq hd]
    · rw [distinct_succ_of_notMem hr hp] at hd ⊢
      rw [pageFault_of_first P h.framed hreal hp hs, h.eq (by omega)]

theorem counted_stateAt {k : ℕ} {s : Sim pfNum P.Aux} (h : P.stateAt refs k = some s) :
    Counted refs k s :=
  P.stateAt_invariant (fun k s => Counted refs k s)
    ⟨framed_start P refs, covered_start P, Nat.le_refl 0, fun _ => rfl⟩
    (fun _ _ _ _ hr hi hs => hi.step P hlate hr hs) h

end Late

/-- On every string each simulator has its cold misses exactly when the string
comes late to page -1. -/
theorem coldMiss_iff_lateMark (pfNum : ℕ) (hpf : 1 ≤ pfNum) (P : Policy pfNum)
    (hP : P ∈ simulators pfNum) (refs : List Psr) : ColdMiss P refs ↔ LateMark pfNum refs := by
  obtain ⟨Ok, hsound⟩ := simulators_sound hpf P hP
  constructor
  · intro h k r hr hm
    by_contra hk
    -- the first reference to -1 is at k or before, so that a frame is still free there
    obtain ⟨j, r', hj, hr', he, hfirst⟩ := exists_first_reference refs k r hr
    obtain ⟨s, s', hs, hs', hfault⟩ := h.first j r' hr' hfirst
    obtain ⟨s₀, r₀, hs₀, hr₀, hstep⟩ := (P.stateAt_succ_iff).mp hs'
    obtain rfl := Option.some.inj (hs.symm.trans hs₀)
    obtain rfl := Option.some.inj (hr'.symm.trans hr₀)
    have hf := framed_stateAt P hs
    have hfree : s.occupied < pfNum := by
      have := occupied_le_distinct hf
      have := distinct_mono refs hj
      omega
    have := (pageFault_of_mark P hf hfree (he.trans hm) hstep).1
    omega
  · intro hlate
    refine ⟨fun k r hr hfirst => ?_, ?_⟩
    · obtain ⟨s', hs', -⟩ := hsound.stateAt refs
        (show k+1 ≤ refs.length from (List.getElem?_eq_some_iff.mp hr).1)
      obtain ⟨s, r', hs, hr', hstep⟩ := (P.stateAt_succ_iff).mp hs'
      obtain rfl := Option.some.inj (hr.symm.trans hr')
      have hc := counted_stateAt P hlate hs
      exact ⟨s, s', hs, hs', pageFault_of_first P hc.framed (hc.real P hlate hr) hfirst hstep⟩
    · obtain ⟨t, ht, -⟩ := hsound.stateAt refs le_rfl
      have hc := counted_stateAt P hlate ht
      exact ⟨t, ht, hc.le, hc.eq⟩

theorem pageFault_marks {pfNum : ℕ} (hpf : 0 < pfNum) (P : Policy pfNum) {refs : List Psr}
    (hrefs : ∀ r ∈ refs, r.data = -1) {k : ℕ} {s : Sim pfNum P.Aux}
    (h : P.stateAt refs k = some s) : s.pageFault = 0 := by
  have hinv : Framed refs k s ∧ s.pageFault = 0 ∧ s.occupied = 0 := by
    refine P.stateAt_invariant (fun k s => Framed refs k s ∧ s.pageFault = 0 ∧ s.occupied = 0)
      ⟨framed_start P refs, rfl, rfl⟩ ?_ h
    rintro k s r s' hr ⟨hf, hfault, ho⟩ hs
    obtain ⟨hfault', ho'⟩ := pageFault_of_mark P hf (by omega) (hrefs r (List.mem_of_getElem? hr)) hs
    exact ⟨framed_step P hr hf hs, hfault'.trans hfault, ho'.trans ho⟩
  exact hinv.2.1

/-- A file of 499 references to page -1 is loaded, and no simulator counts a fault. -/
theorem no_fault_on_marks :
    ∃ file refs, getDataEntry file = some refs ∧ distinct refs refs.length = 1 ∧
      ∀ P ∈ simulators 3, ¬ColdMiss P refs ∧ ∃ t, P.run refs = some t ∧ t.pageFault = 0 := by
  obtain ⟨n, hn⟩ : ∃ n : ℕ, n = 499 := ⟨499, rfl⟩
  obtain ⟨refs, hmark⟩ : ∃ refs, refs = List.replicate n (⟨-1, 0⟩ : Psr) := ⟨_, rfl⟩
  have hrefs : ∀ r ∈ refs, r = ⟨-1, 0⟩ := fun r hr => List.eq_of_mem_replicate (hmark ▸ hr)
  have hlen : refs.length = n := by rw [hmark, List.length_replicate]
  obtain ⟨file, hfile⟩ := (exists_getDataEntry_iff refs).mpr
    ⟨by omega, by rw [hlen, hn]; decide, fun r hr => by rw [hrefs r hr]; simp [IsInt]⟩
  have hdistinct : distinct refs refs.length = 1 := by
    rw [distinct, pages, List.take_length, hmark, List.map_replicate,
      List.toFinset_replicate_of_ne_zero (by omega)]
    rfl
  refine ⟨file, refs, hfile, hdistinct, fun P hP => ?_⟩
  obtain ⟨Ok, hsound⟩ := simulators_sound (by decide) P hP
  obtain ⟨t, ht, -⟩ := hsound.stateAt refs le_rfl
  have hfault := pageFault_marks (by decide) P (fun r hr => by rw [hrefs r hr]) ht
  refine ⟨fun hcold => ?_, t, ht, hfault⟩
  obtain ⟨t', ht', hle, -⟩ := hcold.total
  obtain rfl := Option.some.inj (ht.symm.trans ht')
  omega

/-- Four pages, the last of them -1, in three frames. -/
theorem coldMiss_iff_lateMark_four_pages :
    LateMark 3 [⟨1, 0⟩, ⟨2, 0⟩, ⟨3, 0⟩, ⟨-1, 1⟩] ∧
      ColdMiss (sc 3) [⟨1, 0⟩, ⟨2, 0⟩, ⟨3, 0⟩, ⟨-1, 1⟩] := by
  have hlate : LateMark 3 [⟨1, 0⟩, ⟨2, 0⟩, ⟨3, 0⟩, ⟨-1, 1⟩] := by
    intro k r hr hm
    have hk : k < 4 := (List.getElem?_eq_some_iff.mp hr).1
    interval_cases k <;> obtain rfl := Option.some.inj hr
    · exact absurd hm (by decide)
    · exact absurd hm (by decide)
    · exact absurd hm (by decide)
    · decide
  exact ⟨hlate, (coldMiss_iff_lateMark 3 (by decide) (sc 3) (by simp [simulators]) _).mpr hlate⟩

end ProvenXv6.Paging
