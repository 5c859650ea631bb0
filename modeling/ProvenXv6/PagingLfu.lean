import ProvenXv6.PagingUses

namespace ProvenXv6.Paging
open ScanMin

section
variable {pfNum : ℕ} (P : Policy pfNum) (refs : List Psr)

/-- The references to frame f below step k, to whatever page it held. -/
def frameUses : ℕ → Fin pfNum → ℕ
  | 0, _ => 0
  | k+1, f => frameUses k f +
      if (P.stateAt refs (k+1)).any fun s => decide ((refs[k]?).map Psr.data = some (s.pageFrame f)) then 1 else 0

/-- The references to the page of frame f since it was loaded. -/
def pageUses (k : ℕ) (s : Sim pfNum P.Aux) (f : Fin pfNum) : ℕ := (uses P refs k (s.pageFrame f)).length

/-- The references to frame f that were to pages it held before. -/
def earlierUses (k : ℕ) (s : Sim pfNum P.Aux) (f : Fin pfNum) : ℕ := frameUses P refs k f-pageUses P refs k s f

/-- The first of the least used pages lies in the first of the frames with the fewest references,
those to earlier pages counted. -/
def LeastInBoth (k : ℕ) (s : Sim pfNum P.Aux) : Prop :=
  ∀ f, FirstMin (pageUses P refs k s) f → FirstMin (fun g => pageUses P refs k s g+earlierUses P refs k s g) f

end

variable {pfNum : ℕ} {P : Policy pfNum} {refs : List Psr} {k : ℕ} {r : Psr} {s s' : Sim pfNum P.Aux}

theorem frameUses_succ (hr : refs[k]? = some r) (hs' : P.stateAt refs (k+1) = some s') {index : Fin pfNum}
    (hindex : ∀ g, s'.pageFrame g = r.data ↔ g = index) (g : Fin pfNum) :
    frameUses P refs (k+1) g = frameUses P refs k g + if g = index then 1 else 0 := by
  have hg : r.data = s'.pageFrame g ↔ g = index := eq_comm.trans (hindex g)
  simp only [frameUses, hs', hr, Option.any_some, Option.map_some, Option.some.injEq, decide_eq_true_eq, hg]

def counters (s : Sim pfNum (lfu pfNum).Aux) : Fin pfNum → ℕ := s.aux

/-- The counters of `lfu` count the references to the frames, those to the page that is
in it among them. -/
structure Counts {pfNum : ℕ} (refs : List Psr) (k : ℕ) (s : Sim pfNum (lfu pfNum).Aux) : Prop where
  counter : ∀ f, counters s f = frameUses (lfu pfNum) refs k f
  le : ∀ f : Fin pfNum, f.val < s.occupied → pageUses (lfu pfNum) refs k s f ≤ frameUses (lfu pfNum) refs k f

section
variable {s s' : Sim pfNum (lfu pfNum).Aux}

theorem Counts.use (h : Counts refs k s) (hr : refs[k]? = some r) (hs' : (lfu pfNum).stateAt refs (k+1) = some s')
    (index : Fin pfNum) (hindex : ∀ g, s'.pageFrame g = r.data ↔ g = index)
    (haux : counters s' = Function.update (counters s) index (counters s index+1))
    (hle : ∀ g : Fin pfNum, g.val < s'.occupied → pageUses (lfu pfNum) refs (k+1) s' g ≤
      if g = index then frameUses (lfu pfNum) refs k g+1 else frameUses (lfu pfNum) refs k g) :
    Counts refs (k+1) s' := by
  refine ⟨?_, ?_⟩
  · intro g
    rw [frameUses_succ hr hs' hindex, haux]
    by_cases hg : g = index
    · rw [hg, Function.update_self, if_pos rfl, h.counter]
    · rw [Function.update_of_ne hg, if_neg hg, h.counter, Nat.add_zero]
  · intro g hg
    have hg' := hle g hg
    rw [frameUses_succ hr hs' hindex]
    split_ifs at hg' ⊢
    · exact hg'
    · exact hg'

theorem Counts.step (hpf : 0 < pfNum) (h : Counts refs k s) (hs : (lfu pfNum).stateAt refs k = some s)
    (hr : refs[k]? = some r) (hreal : r.data ≠ -1) (hstep : (lfu pfNum).step refs k r s = some s') :
    Counts refs (k+1) s' := by
  have hframed := framed_stateAt (lfu pfNum) hs
  have hs' := (lfu pfNum).stateAt_succ_iff.mpr ⟨s, r, hs, hr, hstep⟩
  have habsent := checkHit_none_iff_absent hframed (Or.inl hreal)
  -- what a store of the page in frame index leaves in the frames
  have hstore (hmiss : checkHit r.data s.pageFrame s.occupied = none) (index g : Fin pfNum) :
      Function.update s.pageFrame index r.data g = r.data ↔ g = index := by
    by_cases hg : g = index
    · rw [hg, Function.update_self]
      exact iff_of_true rfl rfl
    · rw [Function.update_of_ne hg]
      exact iff_of_false (fun he => habsent.mp hmiss ⟨g, he⟩) hg
  have huses (hmiss : checkHit r.data s.pageFrame s.occupied = none) (index g : Fin pfNum)
      (hg : g ≠ index → g.val < s.occupied) :
      (uses (lfu pfNum) refs (k+1) (Function.update s.pageFrame index r.data g)).length ≤
        if g = index then frameUses (lfu pfNum) refs k g+1 else frameUses (lfu pfNum) refs k g := by
    rw [uses_store hr hs hreal hmiss]
    split_ifs with hgi
    · rw [List.length_singleton]
      omega
    · exact h.le g (hg hgi)
  rcases (lfu pfNum).step_cases hstep with ⟨f, hhit, rfl⟩ | ⟨ho, hmiss, rfl⟩ | ⟨ho, hmiss, index, aux, hrep, rfl⟩
  · have hf := (checkHit_some hhit).2
    refine h.use hr hs' f ?_ rfl ?_
    · intro g
      refine ⟨fun he => ?_, fun he => he ▸ hf⟩
      exact hframed.distinct g f (checkHit_occupied hframed (Or.inl hreal) he)
        (checkHit_occupied hframed (Or.inl hreal) hf) (he.trans hf.symm)
    · intro g hg
      have hg : g.val < s.occupied := hg
      unfold pageUses
      rw [uses_hit hr hs hreal hhit hg]
      split_ifs
      · rw [List.length_append, List.length_singleton]
        exact Nat.add_le_add_right (h.le g hg) 1
      · exact h.le g hg
  · refine h.use hr hs' _ (hstore hmiss _) rfl fun g hg => huses hmiss _ g ?_
    intro hne
    have hg : g.val < s.occupied+1 := hg
    have : g.val ≠ s.occupied := fun he => hne (Fin.ext he)
    omega
  · simp only [lfu, frameIdx_of_lt hpf, Option.bind_eq_bind, Option.bind_some, Option.some.injEq] at hrep
    obtain ⟨rfl, rfl⟩ := Prod.mk.inj hrep
    refine h.use hr hs' _ (hstore hmiss _) rfl fun g _ => huses hmiss _ g fun _ => ?_
    rw [ho]
    exact g.isLt

theorem counts_stateAt (hpf : 0 < pfNum) (hrefs : ∀ r ∈ refs, r.data ≠ -1)
    (h : (lfu pfNum).stateAt refs k = some s) : Counts refs k s := by
  have hboth : (lfu pfNum).stateAt refs k = some s ∧ Counts refs k s := by
    refine (lfu pfNum).stateAt_invariant
      (fun k s => (lfu pfNum).stateAt refs k = some s ∧ Counts refs k s) ?_ ?_ h
    · exact ⟨rfl, fun _ => rfl, fun _ hf => absurd hf (Nat.not_lt_zero _)⟩
    · intro k s r s' hr hi hstep
      exact ⟨(lfu pfNum).stateAt_succ_iff.mpr ⟨s, r, hi.1, hr, hstep⟩,
        hi.2.step hpf hi.1 hr (data_ne_neg_one hrefs hr) hstep⟩
  exact hboth.2

end

/-- At a fault with all frames occupied `lfu` replaces the first of the frames with the
fewest references. The page in it is the first of those with the fewest references since
they were loaded if and only if the first of these is in such a frame. -/
theorem lfu_replaces_least_used (pfNum : ℕ) (hpf : 1 ≤ pfNum) (refs : List Psr) (hrefs : ∀ r ∈ refs, r.data ≠ -1)
    (k : ℕ) (hk : k < refs.length) :
    ∃ s s', (lfu pfNum).stateAt refs k = some s ∧ (lfu pfNum).stateAt refs (k+1) = some s' ∧
      (s.occupied = pfNum → refs[k].data ∉ s.resident → ∃ index, Replaces (lfu pfNum) refs k s s' index ∧
        FirstMin (frameUses (lfu pfNum) refs k) index ∧
        (FirstMin (pageUses (lfu pfNum) refs k s) index ↔ LeastInBoth (lfu pfNum) refs k s)) := by
  obtain ⟨s, s', hs, hs', -, hreplaces⟩ := (lfu_sound hpf).replaces hrefs hk
  refine ⟨s, s', hs, hs', ?_⟩
  intro hfull hmiss
  obtain ⟨index, aux, hrep, hreplaced⟩ := hreplaces hfull hmiss
  have hcounts := counts_stateAt hpf hrefs hs
  have hfirst : FirstMin (frameUses (lfu pfNum) refs k) index := by
    simp only [lfu, frameIdx_of_lt hpf, Option.bind_eq_bind, Option.bind_some, Option.some.injEq, id_eq] at hrep
    have hmin := firstMin_scanMin_zero (counters s) hpf
    rw [show scanMin (counters s) ⟨0, hpf⟩ = index from (Prod.mk.inj hrep).1] at hmin
    rwa [funext hcounts.counter] at hmin
  -- all frames are occupied, so no count of a page exceeds that of its frame
  have hsum : (fun g => pageUses (lfu pfNum) refs k s g+earlierUses (lfu pfNum) refs k s g) =
      frameUses (lfu pfNum) refs k := by
    funext g
    have hle := hcounts.le g (by rw [hfull]; exact g.isLt)
    unfold earlierUses
    omega
  refine ⟨index, hreplaced, hfirst, ?_, ?_⟩
  · intro hpage f hf
    rw [hsum, hf.unique hpage]
    exact hfirst
  · intro hboth
    have hleast := firstMin_scanMin_zero (pageUses (lfu pfNum) refs k s) hpf
    have hframe := hboth _ hleast
    rw [hsum] at hframe
    rwa [hfirst.unique hframe]

/-- Page 3 has replaced page 1 and was used again: the frame of page 2 has the fewest references
in both counts. -/
theorem lfu_replaces_least_used_second :
    ∃ s s' index, Replaces (lfu 2) [⟨1, 0⟩, ⟨2, 0⟩, ⟨3, 0⟩, ⟨3, 0⟩, ⟨4, 0⟩] 4 s s' index ∧
      FirstMin (pageUses (lfu 2) [⟨1, 0⟩, ⟨2, 0⟩, ⟨3, 0⟩, ⟨3, 0⟩, ⟨4, 0⟩] 4 s) index ∧
      earlierUses (lfu 2) [⟨1, 0⟩, ⟨2, 0⟩, ⟨3, 0⟩, ⟨3, 0⟩, ⟨4, 0⟩] 4 s 0 = 1 := by
  obtain ⟨s, s', hs, -, h⟩ := lfu_replaces_least_used 2 (by decide)
    [⟨1, 0⟩, ⟨2, 0⟩, ⟨3, 0⟩, ⟨3, 0⟩, ⟨4, 0⟩] (by decide) 4 (by decide)
  have hstate : ∀ t ∈ (lfu 2).stateAt [⟨1, 0⟩, ⟨2, 0⟩, ⟨3, 0⟩, ⟨3, 0⟩, ⟨4, 0⟩] 4, t.occupied = 2 ∧
      4 ∉ t.resident ∧ LeastInBoth (lfu 2) [⟨1, 0⟩, ⟨2, 0⟩, ⟨3, 0⟩, ⟨3, 0⟩, ⟨4, 0⟩] 4 t ∧
      earlierUses (lfu 2) [⟨1, 0⟩, ⟨2, 0⟩, ⟨3, 0⟩, ⟨3, 0⟩, ⟨4, 0⟩] 4 t 0 = 1 := by
    unfold LeastInBoth FirstMin
    decide
  obtain ⟨hfull, hmiss, hboth, hearlier⟩ := hstate s hs
  obtain ⟨index, hrep, -, hiff⟩ := h hfull hmiss
  exact ⟨s, s', index, hrep, hiff.mpr hboth, hearlier⟩

/-- The counts of two replaced pages in frame 1 reach the three references to page 1. Page 1
is replaced, though the page in frame 1 was referenced once. -/
theorem lfu_keeps_counter_of_replaced :
    ∃ s s', Replaces (lfu 2) [⟨1, 0⟩, ⟨1, 0⟩, ⟨1, 0⟩, ⟨2, 0⟩, ⟨3, 0⟩, ⟨4, 0⟩, ⟨5, 0⟩] 6 s s' 0 ∧
      pageUses (lfu 2) [⟨1, 0⟩, ⟨1, 0⟩, ⟨1, 0⟩, ⟨2, 0⟩, ⟨3, 0⟩, ⟨4, 0⟩, ⟨5, 0⟩] 6 s 0 = 3 ∧
      pageUses (lfu 2) [⟨1, 0⟩, ⟨1, 0⟩, ⟨1, 0⟩, ⟨2, 0⟩, ⟨3, 0⟩, ⟨4, 0⟩, ⟨5, 0⟩] 6 s 1 = 1 := by
  exact ⟨_, _, ⟨rfl, rfl, rfl, by decide⟩, by decide, by decide⟩

end ProvenXv6.Paging
