import ProvenXv6.PagingDemand

namespace ProvenXv6.Paging

section
variable {pfNum : ℕ} (P : Policy pfNum) (refs : List Psr)

/-- Page p is resident after k references. -/
def residentAt (k : ℕ) (p : ℤ) : Bool := (P.stateAt refs k).any fun s => decide (p ∈ s.resident)

/-- The steps below k that referenced page p since it was last loaded, the load first. -/
def uses : ℕ → ℤ → List ℕ
  | 0, _ => []
  | k+1, p =>
    if (refs[k]?).map Psr.data = some p then
      if residentAt P refs k p then uses k p ++ [k] else [k]
    else uses k p

end

variable {pfNum : ℕ} {P : Policy pfNum} {refs : List Psr} {k : ℕ} {r : Psr} {s s' : Sim pfNum P.Aux}

theorem uses_succ (hr : refs[k]? = some r) (hs : P.stateAt refs k = some s) (p : ℤ) :
    uses P refs (k+1) p =
      if r.data = p then if p ∈ s.resident then uses P refs k p ++ [k] else [k] else uses P refs k p := by
  simp only [uses, hr, Option.map_some, Option.some.injEq, residentAt, hs, Option.any_some, decide_eq_true_eq]

theorem mem_resident_of_hit (hs : P.stateAt refs k = some s) (hreal : r.data ≠ -1) {f : Fin pfNum}
    (hf : s.pageFrame f = r.data) : r.data ∈ s.resident :=
  (s.mem_resident _).mpr ⟨f, checkHit_occupied (framed_stateAt P hs) (Or.inl hreal) hf, hf⟩

theorem notMem_resident_of_miss (hs : P.stateAt refs k = some s) (hreal : r.data ≠ -1)
    (hmiss : checkHit r.data s.pageFrame s.occupied = none) : r.data ∉ s.resident := by
  intro hres
  obtain ⟨f, -, hf⟩ := (s.mem_resident _).mp hres
  exact (checkHit_none_iff_absent (framed_stateAt P hs) (Or.inl hreal)).mp hmiss ⟨f, hf⟩

theorem uses_hit (hr : refs[k]? = some r) (hs : P.stateAt refs k = some s) (hreal : r.data ≠ -1) {f g : Fin pfNum}
    (hhit : checkHit r.data s.pageFrame s.occupied = some f) (hg : g.val < s.occupied) :
    uses P refs (k+1) (s.pageFrame g) =
      if g = f then uses P refs k (s.pageFrame g) ++ [k] else uses P refs k (s.pageFrame g) := by
  have hf := (checkHit_some hhit).2
  have hframed := framed_stateAt P hs
  have hfo := checkHit_occupied hframed (Or.inl hreal) hf
  rw [uses_succ hr hs]
  by_cases hgf : g = f
  · subst hgf
    rw [if_pos hf.symm, if_pos rfl, if_pos]
    rw [hf]
    exact mem_resident_of_hit hs hreal hf
  · rw [if_neg hgf, if_neg]
    intro he
    exact hgf (hframed.distinct g f hg hfo (he.symm.trans hf.symm))

theorem uses_store (hr : refs[k]? = some r) (hs : P.stateAt refs k = some s) (hreal : r.data ≠ -1)
    (hmiss : checkHit r.data s.pageFrame s.occupied = none) (index g : Fin pfNum) :
    uses P refs (k+1) (Function.update s.pageFrame index r.data g) =
      if g = index then [k] else uses P refs k (s.pageFrame g) := by
  have hno := (checkHit_none_iff_absent (framed_stateAt P hs) (Or.inl hreal)).mp hmiss
  rw [uses_succ hr hs]
  by_cases hgi : g = index
  · rw [hgi, Function.update_self, if_pos rfl, if_pos rfl, if_neg (notMem_resident_of_miss hs hreal hmiss)]
  · rw [Function.update_of_ne hgi, if_neg hgi, if_neg]
    exact fun he => hno ⟨g, he.symm⟩

/-- A fault when every frame is occupied, and the frame that it replaces. -/
structure Replaces (P : Policy pfNum) (refs : List Psr) (k : ℕ) (s s' : Sim pfNum P.Aux) (index : Fin pfNum) :
    Prop where
  before : P.stateAt refs k = some s
  after : P.stateAt refs (k+1) = some s'
  full : s.occupied = pfNum
  changed : s'.pageFrame index ≠ s.pageFrame index

/-- Each reference to a page that is not in the occupied frames replaces one of them, the
one that the simulator chooses. -/
theorem Policy.Sound.replaces {Ok : P.Aux → Prop} (hP : P.Sound Ok) (hrefs : ∀ r ∈ refs, r.data ≠ -1)
    (hk : k < refs.length) :
    ∃ s s', P.stateAt refs k = some s ∧ P.stateAt refs (k+1) = some s' ∧ Ok s.aux ∧
      (s.occupied = pfNum → refs[k].data ∉ s.resident → ∃ index aux,
        P.replace refs k refs[k] { s with aux := P.tick s.aux, pageFault := s.pageFault+1 } = some (index, aux) ∧
        Replaces P refs k s s' index) := by
  obtain ⟨s', hs', -⟩ := hP.stateAt refs (show k+1 ≤ refs.length by omega)
  obtain ⟨s, hs, hok⟩ := hP.stateAt refs hk.le
  obtain ⟨t, r, ht, hr, hstep⟩ := P.stateAt_succ_iff.mp hs'
  obtain rfl : t = s := Option.some.inj (ht.symm.trans hs)
  obtain rfl : refs[k] = r := Option.some.inj ((List.getElem?_eq_getElem hk).symm.trans hr)
  have hreal := data_ne_neg_one hrefs hr
  refine ⟨t, s', hs, hs', hok, ?_⟩
  intro hfull hmiss
  rcases P.step_cases hstep with ⟨f, hhit, -⟩ | ⟨ho, -⟩ | ⟨-, -, index, aux, hrep, rfl⟩
  · exact absurd (mem_resident_of_hit hs hreal (checkHit_some hhit).2) hmiss
  · omega
  · refine ⟨index, aux, hrep, hs, hs', hfull, ?_⟩
    show Function.update t.pageFrame index refs[k].data index ≠ t.pageFrame index
    rw [Function.update_self]
    exact fun he => hmiss (mem_resident_of_hit hs hreal he.symm)

end ProvenXv6.Paging
