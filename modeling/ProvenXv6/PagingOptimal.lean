import ProvenXv6.DemandPaging
import ProvenXv6.PagingDemand

namespace ProvenXv6.Paging
open DemandPaging

/-- The page numbers referenced from step k on. -/
def suffix (refs : List Psr) (k : ℕ) : List ℤ := (refs.drop k).map Psr.data

theorem suffix_cons {refs : List Psr} {k : ℕ} {r : Psr} (h : refs[k]? = some r) :
    suffix refs k = r.data :: suffix refs (k+1) := by
  obtain ⟨hk, rfl⟩ := List.getElem?_eq_some_iff.mp h
  simp only [suffix, List.drop_eq_getElem_cons hk, List.map_cons]

theorem suffix_length (refs : List Psr) : suffix refs refs.length = [] := by
  simp only [suffix, List.drop_length, List.map_nil]

/-- The forward search computes the position of the next use. -/
theorem searchAft_eq (refs : List Psr) (p : ℤ) (start : ℕ) :
    searchAft refs p start =
      if p ∈ suffix refs start then some (start+(suffix refs start).idxOf p) else none := by
  unfold searchAft
  generalize hm : refs.length-start = m
  induction m generalizing start with
  | zero =>
    have hnil : suffix refs start = [] := by
      simp only [suffix, List.drop_eq_nil_of_le (show refs.length ≤ start by omega), List.map_nil]
    simp only [List.range'_zero, List.find?_nil, hnil, List.not_mem_nil, ↓reduceIte]
  | succ m ih =>
    have hr : refs[start]? = some refs[start] := List.getElem?_eq_getElem (by omega)
    rw [List.range'_succ, List.find?_cons, suffix_cons hr, hr, Option.map_some]
    by_cases he : refs[start].data = p
    · simp only [he, decide_true, List.mem_cons_self, ↓reduceIte, List.idxOf_cons_self, Nat.add_zero]
    · have hne : some refs[start].data ≠ some p := by simpa using he
      simp only [hne, decide_false, List.mem_cons, Ne.symm he, false_or, ih (start+1) (by omega),
        List.idxOf_cons_ne _ he]
      congr 2
      omega

/-- The chosen frame holds a page whose next use is farthest ahead, counting a
page that is not used again as used after the end. -/
theorem findFarthestAftLoop_spec {pfNum : ℕ} {refs : List Psr} {start : ℕ}
    (hstart : start ≤ refs.length) (pageFrame : Fin pfNum → ℤ) (l : List (Fin pfNum)) (max : ℕ)
    (maxIdx : Option (Fin pfNum)) (hnone : maxIdx = none → max = start)
    (hsome : ∀ m, maxIdx = some m → max = start+(suffix refs start).idxOf (pageFrame m))
    {f : Fin pfNum} (h : findFarthestAftLoop refs start pageFrame l max maxIdx = some f) :
    max ≤ start+(suffix refs start).idxOf (pageFrame f) ∧
      ∀ g ∈ l, (suffix refs start).idxOf (pageFrame g) ≤ (suffix refs start).idxOf (pageFrame f) := by
  induction l generalizing max maxIdx with
  | nil =>
    refine ⟨?_, fun g hg => absurd hg List.not_mem_nil⟩
    simp only [findFarthestAftLoop] at h
    cases maxIdx with
    | none => exact (hnone rfl).le.trans (Nat.le_add_right _ _)
    | some m =>
      obtain rfl : m = f := by simpa using h
      exact (hsome m rfl).le
  | cons i l ih =>
    unfold findFarthestAftLoop at h
    rw [searchAft_eq] at h
    by_cases hi : pageFrame i ∈ suffix refs start
    · simp only [hi, ↓reduceIte] at h
      split_ifs at h with hj
      · obtain ⟨hmax, hl⟩ := ih _ _ (by simp) (by simp) h
        refine ⟨by omega, ?_⟩
        intro g hg
        rcases List.mem_cons.mp hg with rfl | hg
        · omega
        · exact hl g hg
      · obtain ⟨hmax, hl⟩ := ih _ _ hnone hsome h
        refine ⟨hmax, ?_⟩
        intro g hg
        rcases List.mem_cons.mp hg with rfl | hg
        · omega
        · exact hl g hg
    · -- the early return: nothing lies farther than a page that is not used again
      simp only [hi, ↓reduceIte, hstart, Option.some.injEq] at h
      subst h
      have hend := List.idxOf_eq_length hi
      have hle (p : ℤ) : (suffix refs start).idxOf p ≤ (suffix refs start).length :=
        List.idxOf_le_length
      refine ⟨?_, fun g _ => hend ▸ hle _⟩
      cases maxIdx with
      | none => rw [hnone rfl]; omega
      | some m =>
        rw [hsome m rfl, hend]
        have := hle (pageFrame m)
        omega

theorem findFarthestAftIdx_spec {pfNum : ℕ} {refs : List Psr} {start : ℕ}
    (hstart : start ≤ refs.length) {pageFrame : Fin pfNum → ℤ} {f : Fin pfNum}
    (h : findFarthestAftIdx refs start pageFrame = some f) (g : Fin pfNum) :
    (suffix refs start).idxOf (pageFrame g) ≤ (suffix refs start).idxOf (pageFrame f) :=
  (findFarthestAftLoop_spec hstart pageFrame _ start none (fun _ => rfl) (by simp) h).2 g
    (List.mem_finRange g)

section Resident
variable {pfNum : ℕ} {Aux : Type} {refs : List Psr} {k : ℕ}

theorem resident_cold (s : Sim pfNum Aux) (ho : s.occupied < pfNum) (p : ℤ) (n : ℕ) (aux : Aux) :
    Sim.resident { s with
      pageFault := n
      pageFrame := Function.update s.pageFrame ⟨s.occupied, ho⟩ p
      occupied := s.occupied+1
      occupied_le := ho
      aux := aux } = insert p s.resident := by
  ext q
  simp only [Sim.mem_resident, Finset.mem_insert]
  constructor
  · rintro ⟨f, hf, he⟩
    by_cases hn : f = ⟨s.occupied, ho⟩
    · rw [hn, Function.update_self] at he
      exact Or.inl he.symm
    · rw [Function.update_of_ne hn] at he
      have : f.val ≠ s.occupied := fun hh => hn (Fin.ext hh)
      exact Or.inr ⟨f, by omega, he⟩
  · rintro (rfl | ⟨f, hf, he⟩)
    · exact ⟨⟨s.occupied, ho⟩, Nat.lt_succ_self _, Function.update_self ..⟩
    · have hn : f ≠ ⟨s.occupied, ho⟩ := fun hh => by
        have := congrArg Fin.val hh
        dsimp only at this
        omega
      exact ⟨f, Nat.lt_succ_of_lt hf, by rw [Function.update_of_ne hn]; exact he⟩

theorem resident_replace {s : Sim pfNum Aux} (h : Framed refs k s) (ho : s.occupied = pfNum)
    (index : Fin pfNum) (p : ℤ) (n : ℕ) (aux : Aux) :
    Sim.resident { s with
      pageFault := n
      pageFrame := Function.update s.pageFrame index p
      aux := aux } = insert p (s.resident.erase (s.pageFrame index)) := by
  have hlt (f : Fin pfNum) : f.val < s.occupied := by rw [ho]; exact f.isLt
  ext q
  simp only [Sim.mem_resident, Finset.mem_insert, Finset.mem_erase]
  constructor
  · rintro ⟨f, hf, he⟩
    by_cases hn : f = index
    · rw [hn, Function.update_self] at he
      exact Or.inl he.symm
    · rw [Function.update_of_ne hn] at he
      refine Or.inr ⟨?_, f, hlt f, he⟩
      rintro rfl
      exact hn (h.distinct f index (hlt f) (hlt index) he)
  · rintro (rfl | ⟨hq, f, hf, he⟩)
    · exact ⟨index, hlt index, Function.update_self ..⟩
    · have hn : f ≠ index := fun hh => hq (hh ▸ he.symm)
      exact ⟨f, hf, by rw [Function.update_of_ne hn]; exact he⟩

end Resident

theorem step_resident {pfNum : ℕ} (P : Policy pfNum) {refs : List Psr}
    (hrefs : ∀ r ∈ refs, r.data ≠ -1) {k : ℕ} {r : Psr} {s s' : Sim pfNum P.Aux}
    (hr : refs[k]? = some r) (h : Framed refs k s) (hs : P.step refs k r s = some s') :
    (r.data ∈ s.resident ∧ s'.resident = s.resident ∧ s'.pageFault = s.pageFault) ∨
    (r.data ∉ s.resident ∧ s.resident.card < pfNum ∧ s'.resident = insert r.data s.resident ∧
      s'.pageFault = s.pageFault+1) ∨
    (r.data ∉ s.resident ∧ s.resident.card = pfNum ∧ ∃ index aux,
      P.replace refs k r { s with aux := P.tick s.aux, pageFault := s.pageFault+1 } =
        some (index, aux) ∧
      s.pageFrame index ∈ s.resident ∧
      s'.resident = insert r.data (s.resident.erase (s.pageFrame index)) ∧
      s'.pageFault = s.pageFault+1) := by
  have hreal : r.data ≠ -1 ∨ s.occupied = pfNum := Or.inl (data_ne_neg_one hrefs hr)
  have habs := checkHit_none_iff_absent h hreal
  have hnot (hmiss : checkHit r.data s.pageFrame s.occupied = none) : r.data ∉ s.resident := by
    intro hin
    obtain ⟨f, _, he⟩ := (s.mem_resident _).mp hin
    exact habs.mp hmiss ⟨f, he⟩
  rcases P.step_cases hs with ⟨f, hhit, rfl⟩ | ⟨ho, hmiss, rfl⟩ | ⟨ho, hmiss, index, aux, he, rfl⟩
  · have hf := (checkHit_some hhit).2
    exact Or.inl ⟨(s.mem_resident _).mpr ⟨f, checkHit_occupied h hreal hf, hf⟩, rfl, rfl⟩
  · refine Or.inr (Or.inl ⟨hnot hmiss, h.card_resident ▸ ho, ?_, rfl⟩)
    exact resident_cold s ho _ _ _
  · refine Or.inr (Or.inr ⟨hnot hmiss, h.card_resident.trans ho, index, aux, he, ?_, ?_, rfl⟩)
    · exact (s.mem_resident _).mpr ⟨index, by rw [ho]; exact index.isLt, rfl⟩
    · exact resident_replace h ho index _ _ _

/-- From the end of a run backwards: a relation between resident set, remaining
string and remaining faults that every step extends holds from the start. -/
theorem run_suffix_induction {pfNum : ℕ} (P : Policy pfNum) {refs : List Psr}
    (R : Finset ℤ → List ℤ → ℕ → Prop) (hnil : ∀ S, R S [] 0)
    (hstep : ∀ k r s s' c, refs[k]? = some r → P.stateAt refs k = some s →
      P.step refs k r s = some s' → R s'.resident (suffix refs (k+1)) c →
      ∃ d, s'.pageFault+c = s.pageFault+d ∧ R s.resident (r.data :: suffix refs (k+1)) d)
    {t : Sim pfNum P.Aux} (ht : P.run refs = some t) :
    R ∅ (suffix refs 0) t.pageFault := by
  have hback (m k : ℕ) (s : Sim pfNum P.Aux) (hk : k+m = refs.length)
      (hs : P.stateAt refs k = some s) :
      ∃ c, t.pageFault = s.pageFault+c ∧ R s.resident (suffix refs k) c := by
    induction m generalizing k s with
    | zero =>
      obtain rfl : k = refs.length := by omega
      have : s = t := by
        rw [Policy.run, hs] at ht
        simpa using ht
      exact ⟨0, by rw [this]; rfl, by rw [suffix_length]; exact hnil _⟩
    | succ m ih =>
      have hr : refs[k]? = some refs[k] := List.getElem?_eq_getElem (by omega)
      have hnext : ∃ s', P.stateAt refs (k+1) = some s' := by
        by_contra hno
        push Not at hno
        have hdead (j : ℕ) : P.stateAt refs (k+1+j) = none := by
          induction j with
          | zero => exact Option.eq_none_iff_forall_ne_some.mpr hno
          | succ j ihj =>
            rw [← Nat.add_assoc]
            simp only [Policy.stateAt, ihj, Option.bind_eq_bind, Option.bind_none]
        rw [Policy.run, show refs.length = k+1+m by omega, hdead m] at ht
        cases ht
      obtain ⟨s', hs'⟩ := hnext
      obtain ⟨s₀, r₀, hs₀, hr₀, hst⟩ := (P.stateAt_succ_iff).mp hs'
      obtain rfl : s₀ = s := by simpa [hs] using hs₀.symm
      obtain ⟨c, hc, hR⟩ := ih (k+1) s' (by omega) hs'
      obtain ⟨d, hd, hR'⟩ := hstep k r₀ s₀ s' c hr₀ hs hst hR
      exact ⟨d, by omega, by rw [suffix_cons hr₀]; exact hR'⟩
  obtain ⟨c, hc, hR⟩ := hback refs.length 0 P.start (Nat.zero_add _) rfl
  rw [P.start_resident, show c = t.pageFault by rw [hc]; exact (Nat.zero_add c).symm] at hR
  exact hR

theorem serves_of_run {pfNum : ℕ} (P : Policy pfNum) {refs : List Psr}
    (hrefs : ∀ r ∈ refs, r.data ≠ -1) {t : Sim pfNum P.Aux} (ht : P.run refs = some t) :
    Serves pfNum ∅ (suffix refs 0) t.pageFault := by
  apply run_suffix_induction P (Serves pfNum) Serves.nil ?_ ht
  intro k r s s' c hr hs hst hR
  have hf := framed_stateAt P hs
  have hcard : s'.resident.card ≤ pfNum := by
    rw [(framed_step P hr hf hst).card_resident]
    exact s'.occupied_le
  refine ⟨_, ?_, Serves.cons (S := s.resident) ?_ ?_ hcard hR⟩
  · rcases step_resident P hrefs hr hf hst with ⟨hin, _, he⟩ | ⟨hin, _, _, he⟩ | ⟨hin, _, _, _, _, _, _, he⟩
      <;> simp only [hin, ↓reduceIte, he] <;> omega
  · rcases step_resident P hrefs hr hf hst with ⟨hin, he, _⟩ | ⟨_, _, he, _⟩ | ⟨_, _, _, _, _, _, he, _⟩
    · rw [he]; exact hin
    · rw [he]; exact Finset.mem_insert_self _ _
    · rw [he]; exact Finset.mem_insert_self _ _
  · rcases step_resident P hrefs hr hf hst with ⟨_, he, _⟩ | ⟨_, _, he, _⟩ | ⟨_, _, _, _, _, _, he, _⟩
    · rw [he]; exact Finset.subset_insert _ _
    · rw [he]
    · rw [he]; exact Finset.insert_subset_insert _ (Finset.erase_subset _ _)

theorem farthest_of_optimal {pfNum : ℕ} {refs : List Psr} (hrefs : ∀ r ∈ refs, r.data ≠ -1)
    {t : Sim pfNum (optimal pfNum).Aux} (ht : (optimal pfNum).run refs = some t) :
    Farthest pfNum ∅ (suffix refs 0) t.pageFault := by
  apply run_suffix_induction (optimal pfNum) (Farthest pfNum) Farthest.nil ?_ ht
  intro k r s s' c hr hs hst hR
  have hf := framed_stateAt (optimal pfNum) hs
  rcases step_resident (optimal pfNum) hrefs hr hf hst with
    ⟨hin, he, hp⟩ | ⟨hin, hc, he, hp⟩ | ⟨hin, hc, index, aux, hrep, hv, he, hp⟩
  · rw [he] at hR
    exact ⟨c, by omega, .hit hin hR⟩
  · rw [he] at hR
    exact ⟨c+1, by omega, .load hin hc hR⟩
  · rw [he] at hR
    refine ⟨c+1, by omega, .evict hin hc.ge hv ?_ hR⟩
    intro u hu
    obtain ⟨g, _, rfl⟩ := (s.mem_resident u).mp hu
    have hk : k+1 ≤ refs.length := (List.getElem?_eq_some_iff.mp hr).1
    simp only [optimal, Option.bind_eq_bind, Option.bind_eq_some_iff, Option.some.injEq] at hrep
    obtain ⟨tmp, htmp, he⟩ := hrep
    cases he
    exact findFarthestAftIdx_spec hk htmp g

/-- Belady: `optimal` faults no more often than any demand-paging schedule with
the same number of frames, hence no more often than any of the simulators. -/
theorem optimal_is_optimal (pfNum : ℕ) (hpf : 1 ≤ pfNum) (refs : List Psr)
    (hrefs : ∀ r ∈ refs, r.data ≠ -1) :
    ∃ s, (optimal pfNum).run refs = some s ∧
      (∀ S : Schedule pfNum (refs.map Psr.data),
        s.pageFault ≤ faults S.resident (refs.map Psr.data)) ∧
      ∀ P ∈ simulators pfNum, ∃ t, P.run refs = some t ∧ s.pageFault ≤ t.pageFault := by
  obtain ⟨s, hs, _⟩ := (optimal_sound hpf).stateAt refs le_rfl
  have hfar := farthest_of_optimal hrefs hs
  refine ⟨s, hs, ?_, ?_⟩
  · intro S
    exact farthest_le_serves hfar S.serves
  · intro P hP
    obtain ⟨Ok, hsound⟩ := simulators_sound hpf P hP
    obtain ⟨t, ht, _⟩ := hsound.stateAt refs le_rfl
    exact ⟨t, ht, farthest_le_serves hfar (serves_of_run P hrefs ht)⟩

theorem optimal_is_optimal_two_frames :
    ∃ s, (optimal 2).run [⟨1, 0⟩, ⟨2, 0⟩, ⟨3, 1⟩, ⟨1, 0⟩] = some s ∧
      (∀ S : Schedule 2 ([1, 2, 3, 1] : List ℤ), s.pageFault ≤ faults S.resident [1, 2, 3, 1]) ∧
      ∀ P ∈ simulators 2, ∃ t, P.run [⟨1, 0⟩, ⟨2, 0⟩, ⟨3, 1⟩, ⟨1, 0⟩] = some t ∧
        s.pageFault ≤ t.pageFault :=
  optimal_is_optimal 2 (by decide) [⟨1, 0⟩, ⟨2, 0⟩, ⟨3, 1⟩, ⟨1, 0⟩] (by decide)

end ProvenXv6.Paging
