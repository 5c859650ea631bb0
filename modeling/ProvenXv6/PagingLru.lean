import ProvenXv6.PagingOptimal
import ProvenXv6.Recency

namespace ProvenXv6.Paging
open ScanMin Recency

theorem searchBack_succ {refs : List Psr} {k : ℕ} {r : Psr} (hr : refs[k]? = some r) (p : ℤ) :
    searchBack refs p (k+1) = if r.data = p then some k else searchBack refs p k := by
  unfold searchBack
  rw [List.range_succ, List.reverse_append, List.reverse_singleton, List.singleton_append,
    List.find?_cons, hr, Option.map_some]
  by_cases he : r.data = p
  · simp only [he, decide_true, ↓reduceIte]
  · have hne : some r.data ≠ some p := by simpa using he
    simp only [hne, decide_false, he, ↓reduceIte]

/-- The simulation: equal frames and counts, and each counter of an occupied
frame is one past the last position of its page. -/
structure LruRel {pfNum : ℕ} (refs : List Psr) (k : ℕ) (s : Sim pfNum (lru pfNum).Aux)
    (t : Sim pfNum (lru2 pfNum).Aux) : Prop where
  frames : s.pageFrame = t.pageFrame
  faults : s.pageFault = t.pageFault
  occupied : s.occupied = t.occupied
  cnt : t.aux.cnt = k
  counter : ∀ f : Fin pfNum, f.val < t.occupied →
    ∃ j, searchBack refs (t.pageFrame f) k = some j ∧ t.aux.counter f = j+1

theorem counter_use {pfNum : ℕ} {refs : List Psr} {k : ℕ} {r : Psr} (hr : refs[k]? = some r)
    (pageFrame : Fin pfNum → ℤ) (counter : Fin pfNum → ℕ) (f g : Fin pfNum)
    (hf : g = f → pageFrame g = r.data) (hg : g ≠ f → pageFrame g ≠ r.data)
    (hold : g ≠ f → ∃ j, searchBack refs (pageFrame g) k = some j ∧ counter g = j+1) :
    ∃ j, searchBack refs (pageFrame g) (k+1) = some j ∧ Function.update counter f (k+1) g = j+1 := by
  rw [searchBack_succ hr]
  by_cases hgf : g = f
  · refine ⟨k, ?_, ?_⟩
    · rw [if_pos (hf hgf).symm]
    · rw [hgf, Function.update_self]
  · obtain ⟨j, hj, hc⟩ := hold hgf
    refine ⟨j, ?_, ?_⟩
    · rw [if_neg (fun hh => hg hgf hh.symm)]
      exact hj
    · rw [Function.update_of_ne hgf]
      exact hc

theorem counter_store {pfNum : ℕ} {refs : List Psr} {k : ℕ} {r : Psr} (hr : refs[k]? = some r)
    {t : Sim pfNum (lru2 pfNum).Aux} (hmiss : checkHit r.data t.pageFrame t.occupied = none)
    (hc : ∀ f : Fin pfNum, f.val < t.occupied →
      ∃ j, searchBack refs (t.pageFrame f) k = some j ∧ t.aux.counter f = j+1)
    (index g : Fin pfNum) (hg : g ≠ index → g.val < t.occupied) :
    ∃ j, searchBack refs (Function.update t.pageFrame index r.data g) (k+1) = some j ∧
      Function.update t.aux.counter index (k+1) g = j+1 := by
  have hnot := (checkHit_none_iff _ _ _).mp hmiss
  have hscan (f : Fin pfNum) (hf : f.val < t.occupied) : t.pageFrame f ≠ r.data := by
    apply hnot
    unfold scanned
    split_ifs <;> omega
  apply counter_use hr _ _ index g
  · rintro rfl
    exact Function.update_self ..
  · intro hne
    rw [Function.update_of_ne hne]
    exact hscan g (hg hne)
  · intro hne
    rw [Function.update_of_ne hne]
    exact hc g (hg hne)

theorem lruRel_victim {pfNum : ℕ} (hpf : 0 < pfNum) {refs : List Psr} {k : ℕ}
    {s : Sim pfNum (lru pfNum).Aux} {t : Sim pfNum (lru2 pfNum).Aux} (h : LruRel refs k s t)
    (ho : t.occupied = pfNum) :
    findFarthestIdx refs k s.pageFrame = some (scanMin t.aux.counter ⟨0, hpf⟩) := by
  have hlt (f : Fin pfNum) : f.val < t.occupied := by rw [ho]; exact f.isLt
  choose distance hd hcount using fun f => h.counter f (hlt f)
  simp only [findFarthestIdx, frameIdx_of_lt hpf, Option.bind_eq_bind, Option.bind_some, h.frames]
  rw [scanMin?_some _ distance hd]
  congr 1
  apply scanMin_congr
  intro i j
  rw [hcount, hcount]
  omega

theorem lruRel_step {pfNum : ℕ} (hpf : 0 < pfNum) {refs : List Psr} {k : ℕ} {r : Psr}
    (hr : refs[k]? = some r) {s s' : Sim pfNum (lru pfNum).Aux} {t t' : Sim pfNum (lru2 pfNum).Aux}
    (hf : Framed refs k t) (h : LruRel refs k s t) (hs : (lru pfNum).step refs k r s = some s')
    (ht : (lru2 pfNum).step refs k r t = some t') : LruRel refs (k+1) s' t' := by
  have hcheck : checkHit r.data s.pageFrame s.occupied = checkHit r.data t.pageFrame t.occupied := by
    rw [h.frames, h.occupied]
  obtain rfl : t.aux.cnt = k := h.cnt
  rcases (lru2 pfNum).step_cases ht with
    ⟨f, hhit, rfl⟩ | ⟨ho, hmiss, rfl⟩ | ⟨ho, hmiss, index, aux, hrep, rfl⟩
  · -- a hit: the frame used is occupied, or is the free frame that -1 is found in
    rcases (lru pfNum).step_cases hs with ⟨f', _, rfl⟩ | ⟨_, hm, _⟩ | ⟨_, hm, _⟩
    · obtain ⟨hscan, hpage⟩ := checkHit_some hhit
      refine ⟨h.frames, h.faults, h.occupied, rfl, ?_⟩
      intro g hg
      have huse := counter_use hr t.pageFrame t.aux.counter f g
        (fun hgf => hgf ▸ hpage) ?_ (fun _ => h.counter g hg)
      · exact huse
      · intro hgf he
        by_cases hfo : f.val < t.occupied
        · exact hgf (hf.distinct g f hg hfo (he.trans hpage.symm))
        · have hfree := hf.free f (not_lt.mp hfo)
          exact hf.real (lt_of_le_of_lt (not_lt.mp hfo) f.isLt) g hg
            (he.trans (hpage.symm.trans hfree))
    · rw [hcheck, hhit] at hm
      cases hm
    · rw [hcheck, hhit] at hm
      cases hm
  · rcases (lru pfNum).step_cases hs with ⟨f', hh, _⟩ | ⟨ho', _, rfl⟩ | ⟨ho', _⟩
    · rw [hcheck, hmiss] at hh
      cases hh
    · have hidx : (⟨s.occupied, ho'⟩ : Fin pfNum) = ⟨t.occupied, ho⟩ := Fin.ext h.occupied
      refine ⟨?_, congrArg (· + 1) h.faults, congrArg (· + 1) h.occupied, rfl, ?_⟩
      · dsimp only
        rw [h.frames, hidx]
      · intro g hg
        have hstore := counter_store hr hmiss h.counter ⟨t.occupied, ho⟩ g (by
          intro hne
          have : g.val ≠ t.occupied := fun hh => hne (Fin.ext hh)
          dsimp only at hg
          omega)
        exact hstore
    · rw [h.occupied] at ho'
      omega
  · rcases (lru pfNum).step_cases hs with ⟨f', hh, _⟩ | ⟨ho', _⟩ | ⟨ho', _, index', aux', hrep', rfl⟩
    · rw [hcheck, hmiss] at hh
      cases hh
    · rw [h.occupied] at ho'
      omega
    · simp only [lru, lruRel_victim hpf h ho, Option.bind_eq_bind, Option.bind_some,
        Option.some.injEq] at hrep'
      simp only [lru2, frameIdx_of_lt hpf, Option.bind_eq_bind, Option.bind_some,
        Option.some.injEq] at hrep
      cases hrep
      cases hrep'
      refine ⟨?_, congrArg (· + 1) h.faults, h.occupied, rfl, ?_⟩
      · dsimp only
        rw [h.frames]
      · intro g _
        have hstore := counter_store hr hmiss h.counter (scanMin t.aux.counter ⟨0, hpf⟩) g
          (fun _ => by rw [ho]; exact g.isLt)
        exact hstore

theorem lruRel_stateAt {pfNum : ℕ} (hpf : 0 < pfNum) (refs : List Psr) {k : ℕ}
    (hk : k ≤ refs.length) :
    ∃ s t, (lru pfNum).stateAt refs k = some s ∧ (lru2 pfNum).stateAt refs k = some t ∧
      LruRel refs k s t := by
  induction k with
  | zero =>
    exact ⟨_, _, rfl, rfl, rfl, rfl, rfl, rfl, fun _ hf => absurd hf (Nat.not_lt_zero _)⟩
  | succ k ih =>
    obtain ⟨s, t, hs, ht, hrel⟩ := ih (by omega)
    obtain ⟨s', hs', _⟩ := (lru_sound hpf).stateAt refs hk
    obtain ⟨t', ht', _⟩ := (lru2_sound hpf).stateAt refs hk
    obtain ⟨s₀, r, hs₀, hr, hstep⟩ := ((lru pfNum).stateAt_succ_iff).mp hs'
    obtain ⟨t₀, r', ht₀, hr', hstep'⟩ := ((lru2 pfNum).stateAt_succ_iff).mp ht'
    obtain rfl : s₀ = s := by simpa [hs] using hs₀.symm
    obtain rfl : t₀ = t := by simpa [ht] using ht₀.symm
    obtain rfl : r' = r := by simpa [hr] using hr'.symm
    exact ⟨s', t', hs', ht', lruRel_step hpf hr (framed_stateAt _ ht) hrel hstep hstep'⟩

/-- The two implementations agree after every step, for arbitrary page numbers,
and the backward search assigns every distance that it compares. -/
theorem lru_agrees_with_lru2 (pfNum : ℕ) (hpf : 1 ≤ pfNum) (refs : List Psr) (k : ℕ)
    (hk : k ≤ refs.length) :
    ∃ s t, (lru pfNum).stateAt refs k = some s ∧ (lru2 pfNum).stateAt refs k = some t ∧
      s.pageFrame = t.pageFrame ∧ s.pageFault = t.pageFault ∧
      (∀ r, refs[k]? = some r → checkHit r.data s.pageFrame s.occupied =
        checkHit r.data t.pageFrame t.occupied) ∧
      (s.occupied = pfNum → ∀ f, (searchBack refs (s.pageFrame f) k).isSome) := by
  obtain ⟨s, t, hs, ht, h⟩ := lruRel_stateAt hpf refs hk
  refine ⟨s, t, hs, ht, h.frames, h.faults, ?_, ?_⟩
  · intro r _
    rw [h.frames, h.occupied]
  · intro ho f
    have hf := framed_stateAt (lru pfNum) hs
    exact Option.isSome_iff_exists.mpr
      (searchBack_isSome (hf.referenced f (by rw [ho]; exact f.isLt)))

theorem lru_agrees_with_lru2_free_mark :
    ∃ s t, (lru 2).stateAt [⟨-1, 0⟩, ⟨5, 0⟩, ⟨-1, 1⟩] 3 = some s ∧
      (lru2 2).stateAt [⟨-1, 0⟩, ⟨5, 0⟩, ⟨-1, 1⟩] 3 = some t ∧
      s.pageFrame = t.pageFrame ∧ s.pageFault = t.pageFault ∧
      (∀ r, [(⟨-1, 0⟩ : Psr), ⟨5, 0⟩, ⟨-1, 1⟩][3]? = some r →
        checkHit r.data s.pageFrame s.occupied = checkHit r.data t.pageFrame t.occupied) ∧
      (s.occupied = 2 → ∀ f, (searchBack [⟨-1, 0⟩, ⟨5, 0⟩, ⟨-1, 1⟩] (s.pageFrame f) 3).isSome) :=
  lru_agrees_with_lru2 2 (by decide) [⟨-1, 0⟩, ⟨5, 0⟩, ⟨-1, 1⟩] 3 (by decide)

theorem searchBack_eq_idxOf {refs : List Psr} {p : ℤ} {k j : ℕ} (hk : k ≤ refs.length)
    (h : searchBack refs p k = some j) : j+(pages refs k).reverse.idxOf p+1 = k := by
  induction k with
  | zero => cases h
  | succ k ih =>
    have hr : refs[k]? = some refs[k] := List.getElem?_eq_getElem (by omega)
    rw [searchBack_succ hr] at h
    rw [pages_succ hr, List.reverse_append, List.reverse_singleton, List.singleton_append]
    split_ifs at h with he
    · cases h
      rw [he, List.idxOf_cons_self]
    · rw [List.idxOf_cons_ne _ he]
      have := ih (by omega) h
      omega

/-- The frame that `lru` replaces holds the least recently used resident page. -/
theorem lru_victim_least_recent {pfNum : ℕ} {refs : List Psr} {k : ℕ} (hk : k ≤ refs.length)
    {pageFrame : Fin pfNum → ℤ} (hmem : ∀ f, pageFrame f ∈ pages refs k) {index : Fin pfNum}
    (h : findFarthestIdx refs k pageFrame = some index) (g : Fin pfNum) :
    (pages refs k).reverse.idxOf (pageFrame g) ≤ (pages refs k).reverse.idxOf (pageFrame index) := by
  obtain ⟨distance, hd, he⟩ := findFarthestIdx_eq (Nat.pos_of_ne_zero fun h0 => (h0 ▸ g).elim0) hmem
  rw [he, Option.some.injEq] at h
  have hle := scanMin_le distance ⟨0, Nat.pos_of_ne_zero fun h0 => (h0 ▸ g).elim0⟩ g
  rw [h] at hle
  have h1 := searchBack_eq_idxOf hk (hd g)
  have h2 := searchBack_eq_idxOf hk (hd index)
  omega

theorem lru_resident_eq_top {pfNum : ℕ} {refs : List Psr} (hrefs : ∀ r ∈ refs, r.data ≠ -1)
    {k : ℕ} {s : Sim pfNum (lru pfNum).Aux} (h : (lru pfNum).stateAt refs k = some s) :
    s.resident = top pfNum (pages refs k) := by
  have hboth : Framed refs k s ∧ s.resident = top pfNum (pages refs k) := by
    refine (lru pfNum).stateAt_invariant
      (fun k s => Framed refs k s ∧ s.resident = top pfNum (pages refs k)) ?_ ?_ h
    · refine ⟨framed_start _ refs, ?_⟩
      rw [show pages refs 0 = [] by simp [pages], top_nil]
      exact (lru pfNum).start_resident
    · rintro k s r s' hr ⟨hf, hi⟩ hs
      refine ⟨framed_step _ hr hf hs, ?_⟩
      rw [pages_succ hr]
      rcases step_resident (lru pfNum) hrefs hr hf hs with
        ⟨hin, he, _⟩ | ⟨hin, hc, he, _⟩ | ⟨hin, hc, index, aux, hrep, hv, he, _⟩
      · rw [he, hi, top_concat_of_mem (hi ▸ hin)]
      · rw [he, hi, top_concat_of_room (hi ▸ hin) (hi ▸ hc)]
      · have hk := (List.getElem?_eq_some_iff.mp hr).1
        have hall (f : Fin pfNum) : f.val < s.occupied := by
          rw [← hf.card_resident, hc]
          exact f.isLt
        simp only [lru, Option.bind_eq_bind, Option.bind_eq_some_iff, Option.some.injEq] at hrep
        obtain ⟨idx, hidx, heq⟩ := hrep
        cases heq
        rw [he, hi]
        refine (top_concat_of_full (hi ▸ hin) (hi ▸ hc) (hi ▸ hv) ?_).symm
        intro u hu
        rw [← hi] at hu
        obtain ⟨g, _, rfl⟩ := (s.mem_resident u).mp hu
        exact lru_victim_least_recent hk.le (fun f => hf.referenced f (hall f)) hidx g
  exact hboth.2

/-- Inclusion: with more frames `lru` keeps a larger set of pages after every
step, and therefore never faults more often. -/
theorem lru_inclusion (n m : ℕ) (hn : 1 ≤ n) (hnm : n ≤ m) (refs : List Psr)
    (hrefs : ∀ r ∈ refs, r.data ≠ -1) (k : ℕ) (hk : k ≤ refs.length) :
    ∃ s t, (lru n).stateAt refs k = some s ∧ (lru m).stateAt refs k = some t ∧
      s.resident ⊆ t.resident ∧ t.pageFault ≤ s.pageFault := by
  induction k with
  | zero => exact ⟨_, _, rfl, rfl, by rw [Policy.start_resident]; exact Finset.empty_subset _, le_rfl⟩
  | succ k ih =>
    obtain ⟨s, t, hs, ht, hsub, hle⟩ := ih (by omega)
    obtain ⟨s', hs', _⟩ := (lru_sound (show 0 < n by omega)).stateAt refs hk
    obtain ⟨t', ht', _⟩ := (lru_sound (show 0 < m by omega)).stateAt refs hk
    refine ⟨s', t', hs', ht', ?_, ?_⟩
    · rw [lru_resident_eq_top hrefs hs', lru_resident_eq_top hrefs ht']
      exact top_mono hnm _
    · obtain ⟨s₀, r, hs₀, hr, hstep⟩ := ((lru n).stateAt_succ_iff).mp hs'
      obtain ⟨t₀, r', ht₀, hr', hstep'⟩ := ((lru m).stateAt_succ_iff).mp ht'
      obtain rfl : s₀ = s := by simpa [hs] using hs₀.symm
      obtain rfl : t₀ = t := by simpa [ht] using ht₀.symm
      obtain rfl : r' = r := by simpa [hr] using hr'.symm
      have hdecide : r'.data ∈ s₀.resident → r'.data ∈ t₀.resident := fun hh => hsub hh
      rcases step_resident (lru n) hrefs hr (framed_stateAt _ hs) hstep with
          ⟨h1, _, e1⟩ | ⟨h1, _, _, e1⟩ | ⟨h1, _, _, _, _, _, _, e1⟩ <;>
        rcases step_resident (lru m) hrefs hr (framed_stateAt _ ht) hstep' with
          ⟨h2, _, e2⟩ | ⟨h2, _, _, e2⟩ | ⟨h2, _, _, _, _, _, _, e2⟩ <;>
        first | omega | exact absurd (hdecide h1) h2

theorem lru_inclusion_two_three :
    ∃ s t, (lru 2).stateAt [⟨1, 0⟩, ⟨2, 0⟩, ⟨3, 0⟩, ⟨1, 0⟩] 4 = some s ∧
      (lru 3).stateAt [⟨1, 0⟩, ⟨2, 0⟩, ⟨3, 0⟩, ⟨1, 0⟩] 4 = some t ∧
      s.resident ⊆ t.resident ∧ t.pageFault ≤ s.pageFault :=
  lru_inclusion 2 3 (by decide) (by decide) [⟨1, 0⟩, ⟨2, 0⟩, ⟨3, 0⟩, ⟨1, 0⟩] (by decide) 4 (by decide)

end ProvenXv6.Paging
