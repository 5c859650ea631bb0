import ProvenXv6.PagingUses

namespace ProvenXv6.Paging
open ScanMin

section
variable {pfNum : ℕ} (P : Policy pfNum) (refs : List Psr)

/-- The accesses to page p since it was last loaded, the load first. -/
def accesses (k : ℕ) (p : ℤ) : List ℤ := (uses P refs k p).filterMap fun i => (refs[i]?).map Psr.rw

end

section
variable {pfNum : ℕ} {P : Policy pfNum} {refs : List Psr} {k : ℕ} {r : Psr} {s : Sim pfNum P.Aux}

theorem accesses_hit (hr : refs[k]? = some r) (hs : P.stateAt refs k = some s) (hreal : r.data ≠ -1)
    {f g : Fin pfNum} (hhit : checkHit r.data s.pageFrame s.occupied = some f) (hg : g.val < s.occupied) :
    accesses P refs (k+1) (s.pageFrame g) =
      if g = f then accesses P refs k (s.pageFrame g) ++ [r.rw] else accesses P refs k (s.pageFrame g) := by
  unfold accesses
  rw [uses_hit hr hs hreal hhit hg]
  split_ifs
  · rw [List.filterMap_append, List.filterMap_cons_some (by rw [hr, Option.map_some]), List.filterMap_nil]
  · rfl

theorem accesses_store (hr : refs[k]? = some r) (hs : P.stateAt refs k = some s) (hreal : r.data ≠ -1)
    (hmiss : checkHit r.data s.pageFrame s.occupied = none) (index g : Fin pfNum) :
    accesses P refs (k+1) (Function.update s.pageFrame index r.data g) =
      if g = index then [r.rw] else accesses P refs k (s.pageFrame g) := by
  unfold accesses
  rw [uses_store hr hs hreal hmiss]
  split_ifs
  · rw [List.filterMap_cons_some (by rw [hr, Option.map_some]), List.filterMap_nil]
  · rfl

end

variable {pfNum : ℕ} {refs : List Psr} {k : ℕ} {r : Psr} {s s' : Sim pfNum (esc pfNum).Aux}

def escAux (s : Sim pfNum (esc pfNum).Aux) : EscAux pfNum := s.aux

/-- What the bits and the counter of frame f say of its page: the read bit that it was
loaded by a read, the write bit that it was not only read once, the counter when it was
last used. -/
structure EscFrame (refs : List Psr) (k : ℕ) (s : Sim pfNum (esc pfNum).Aux) (f : Fin pfNum) : Prop where
  used : accesses (esc pfNum) refs k (s.pageFrame f) ≠ []
  rbit : (escAux s).rbit f = if (accesses (esc pfNum) refs k (s.pageFrame f)).head? = some 0 then 1 else 0
  wbit : (escAux s).wbit f = if accesses (esc pfNum) refs k (s.pageFrame f) = [0] then 0 else 1
  counter : (uses (esc pfNum) refs k (s.pageFrame f)).getLast?.map (· + 1) = some ((escAux s).counter f)

structure EscHistory (refs : List Psr) (k : ℕ) (s : Sim pfNum (esc pfNum).Aux) : Prop where
  cnt : (escAux s).cnt = k
  frame : ∀ f : Fin pfNum, f.val < s.occupied → EscFrame refs k s f

theorem EscFrame.keep {f : Fin pfNum} (h : EscFrame refs k s f)
    (hacc : accesses (esc pfNum) refs (k+1) (s'.pageFrame f) = accesses (esc pfNum) refs k (s.pageFrame f))
    (huses : uses (esc pfNum) refs (k+1) (s'.pageFrame f) = uses (esc pfNum) refs k (s.pageFrame f))
    (hr : (escAux s').rbit f = (escAux s).rbit f) (hw : (escAux s').wbit f = (escAux s).wbit f)
    (hc : (escAux s').counter f = (escAux s).counter f) : EscFrame refs (k+1) s' f := by
  refine ⟨?_, ?_, ?_, ?_⟩
  · rw [hacc]
    exact h.used
  · rw [hacc, hr]
    exact h.rbit
  · rw [hacc, hw]
    exact h.wbit
  · rw [huses, hc]
    exact h.counter

theorem EscFrame.load {f : Fin pfNum} (hacc : accesses (esc pfNum) refs (k+1) (s'.pageFrame f) = [r.rw])
    (huses : uses (esc pfNum) refs (k+1) (s'.pageFrame f) = [k])
    (hr : (escAux s').rbit f = if r.rw = 0 then 1 else 0) (hw : (escAux s').wbit f = if r.rw = 0 then 0 else 1)
    (hc : (escAux s').counter f = k+1) : EscFrame refs (k+1) s' f := by
  refine ⟨?_, ?_, ?_, ?_⟩
  · rw [hacc]
    exact List.cons_ne_nil _ _
  · rw [hacc, hr]
    simp only [List.head?_cons, Option.some.injEq]
  · rw [hacc, hw]
    simp only [List.cons.injEq, and_true]
  · rw [huses, hc]
    rfl

theorem EscHistory.hit (h : EscHistory refs k s) (hs : (esc pfNum).stateAt refs k = some s) (hr : refs[k]? = some r)
    (hreal : r.data ≠ -1) {f : Fin pfNum} (hhit : checkHit r.data s.pageFrame s.occupied = some f) :
    EscHistory refs (k+1) { s with aux := (esc pfNum).hit ((esc pfNum).tick s.aux) f } := by
  refine ⟨congrArg (· + 1) h.cnt, ?_⟩
  intro g hg
  have hg : g.val < s.occupied := hg
  have hacc := accesses_hit hr hs hreal hhit hg
  have huses := uses_hit hr hs hreal hhit hg
  have hold := h.frame g hg
  by_cases hgf : g = f
  · subst hgf
    rw [if_pos rfl] at hacc huses
    -- the list of accesses was not empty, so its head stays and it has two elements now
    refine ⟨?_, ?_, ?_, ?_⟩
    · exact hacc ▸ List.append_ne_nil_of_right_ne_nil _ (List.cons_ne_nil _ _)
    · show (escAux s).rbit g = if (accesses (esc pfNum) refs (k+1) (s.pageFrame g)).head? = some 0 then 1 else 0
      rw [hacc, List.head?_append_of_ne_nil _ hold.used]
      exact hold.rbit
    · show Function.update (escAux s).wbit g 1 g =
        if accesses (esc pfNum) refs (k+1) (s.pageFrame g) = [0] then 0 else 1
      rw [Function.update_self, hacc, if_neg]
      intro he
      have hlen := congrArg List.length he
      rw [List.length_append] at hlen
      exact hold.used (List.length_eq_zero_iff.mp (by simpa using hlen))
    · show (uses (esc pfNum) refs (k+1) (s.pageFrame g)).getLast?.map (· + 1) =
        some (Function.update (escAux s).counter g ((escAux s).cnt+1) g)
      rw [Function.update_self, huses, List.getLast?_append, h.cnt]
      rfl
  · rw [if_neg hgf] at hacc huses
    exact hold.keep hacc huses rfl (Function.update_of_ne hgf ..) (Function.update_of_ne hgf ..)

theorem EscHistory.store (h : EscHistory refs k s) (hs : (esc pfNum).stateAt refs k = some s)
    (hr : refs[k]? = some r) (hreal : r.data ≠ -1) (hmiss : checkHit r.data s.pageFrame s.occupied = none)
    {index : Fin pfNum} (hpage : s'.pageFrame = Function.update s.pageFrame index r.data)
    (hocc : ∀ g : Fin pfNum, g.val < s'.occupied → g ≠ index → g.val < s.occupied)
    (haux : escAux s' = ((esc pfNum).tick s.aux : EscAux pfNum).load index r) :
    EscHistory refs (k+1) s' := by
  refine ⟨?_, ?_⟩
  · rw [haux]
    exact congrArg (· + 1) h.cnt
  intro g hg
  have hacc := accesses_store hr hs hreal hmiss index g
  have huses := uses_store hr hs hreal hmiss index g
  rw [← hpage] at hacc huses
  by_cases hgi : g = index
  · subst hgi
    rw [if_pos rfl] at hacc huses
    apply EscFrame.load hacc huses
    · rw [haux]
      exact Function.update_self ..
    · rw [haux]
      exact Function.update_self ..
    · rw [haux, ← h.cnt]
      exact Function.update_self ..
  · rw [if_neg hgi] at hacc huses
    apply (h.frame g (hocc g hg hgi)).keep hacc huses
    · rw [haux]
      exact Function.update_of_ne hgi ..
    · rw [haux]
      exact Function.update_of_ne hgi ..
    · rw [haux]
      exact Function.update_of_ne hgi ..

theorem esc_replace (hpf : 0 < pfNum) {i : ℕ} {index : Fin pfNum} {aux : EscAux pfNum}
    (h : (esc pfNum).replace refs i r s = some (index, aux)) :
    getHighPriorityIdx (scanMin (escAux s).counter ⟨0, hpf⟩) (escAux s).rbit (escAux s).wbit = some index ∧
      aux = (escAux s).load index r := by
  simp only [esc, frameIdx_of_lt hpf, Option.bind_eq_bind, Option.bind_some] at h
  obtain ⟨i, hi, he⟩ := Option.bind_eq_some_iff.mp h
  obtain ⟨rfl, rfl⟩ := Prod.mk.inj (Option.some.inj he)
  exact ⟨hi, rfl⟩

theorem escHistory_stateAt (hpf : 0 < pfNum) (hrefs : ∀ r ∈ refs, r.data ≠ -1)
    (h : (esc pfNum).stateAt refs k = some s) : EscHistory refs k s := by
  have hboth : (esc pfNum).stateAt refs k = some s ∧ EscHistory refs k s := by
    refine (esc pfNum).stateAt_invariant
      (fun k s => (esc pfNum).stateAt refs k = some s ∧ EscHistory refs k s) ?_ ?_ h
    · exact ⟨rfl, rfl, fun _ hf => absurd hf (Nat.not_lt_zero _)⟩
    · intro k s r s' hr hi hstep
      refine ⟨(esc pfNum).stateAt_succ_iff.mpr ⟨s, r, hi.1, hr, hstep⟩, ?_⟩
      have hreal := data_ne_neg_one hrefs hr
      rcases (esc pfNum).step_cases hstep with ⟨f, hhit, rfl⟩ | ⟨ho, hmiss, rfl⟩ | ⟨ho, hmiss, index, aux, hrep, rfl⟩
      · exact hi.2.hit hi.1 hr hreal hhit
      · apply hi.2.store hi.1 hr hreal hmiss rfl _ rfl
        intro g hg hne
        have hg : g.val < s.occupied+1 := hg
        have : g.val ≠ s.occupied := fun he => hne (Fin.ext he)
        omega
      · refine hi.2.store hi.1 hr hreal hmiss rfl ?_ (esc_replace hpf hrep).2
        intro g _ _
        rw [ho]
        exact g.isLt
  exact hboth.2

/-- The bits of the occupied frames record the accesses since the load. -/
def BitsRecord (refs : List Psr) (k : ℕ) (s : Sim pfNum (esc pfNum).Aux) : Prop :=
  ∀ f : Fin pfNum, f.val < s.occupied →
    ((escAux s).wbit f = 1 ↔ 1 ∈ accesses (esc pfNum) refs k (s.pageFrame f)) ∧
      ((escAux s).rbit f = 1 ↔ 0 ∈ accesses (esc pfNum) refs k (s.pageFrame f))

/-- The accesses for which the bits are right: a write comes if there are two, and a read
comes first if there is one. -/
def Recorded (l : List ℤ) : Prop := (l ≠ [0] ↔ 1 ∈ l) ∧ (l.head? = some 0 ↔ 0 ∈ l)

/-- The accesses to every resident page are such that the bits are right. -/
def AllRecorded (refs : List Psr) (k : ℕ) (s : Sim pfNum (esc pfNum).Aux) : Prop :=
  ∀ f : Fin pfNum, f.val < s.occupied → Recorded (accesses (esc pfNum) refs k (s.pageFrame f))

theorem bitsRecord_iff (h : EscHistory refs k s) : BitsRecord refs k s ↔ AllRecorded refs k s := by
  refine forall₂_congr fun f hf => ?_
  rw [(h.frame f hf).wbit, (h.frame f hf).rbit, Recorded]
  simp only [ite_eq_left_iff, ite_eq_right_iff, zero_ne_one, imp_false, not_not, ne_eq]

theorem recorded_singleton {x : ℤ} (hx : x = 0 ∨ x = 1) : Recorded [x] := by
  rcases hx with rfl | rfl
  · exact ⟨by decide, by decide⟩
  · exact ⟨by decide, by decide⟩

theorem recorded_append {l : List ℤ} (hl : l ≠ []) {x : ℤ} (hx : x = 0 ∨ x = 1) (h : Recorded l) :
    Recorded (l ++ [x]) ↔ (x = 0 → l.head? = some 0 ∧ 1 ∈ l) := by
  have hlong : l ++ [x] ≠ [0] := by
    intro he
    have hlen := congrArg List.length he
    rw [List.length_append] at hlen
    exact hl (List.length_eq_zero_iff.mp (by simpa using hlen))
  unfold Recorded
  rw [List.head?_append_of_ne_nil _ hl, iff_true_left hlong, List.mem_append, List.mem_append, List.mem_singleton,
    List.mem_singleton]
  rcases hx with rfl | rfl
  · simp only [one_ne_zero, or_false, or_true, iff_true, forall_const]
    exact and_comm
  · simp only [or_true, true_and, zero_ne_one, or_false, one_ne_zero, false_imp_iff, iff_true]
    exact h.2

/-- A hit that the bits record. -/
def HitRecorded (pfNum : ℕ) (refs : List Psr) (k : ℕ) (r : Psr) : Prop :=
  r.rw = 0 → (accesses (esc pfNum) refs k r.data).head? = some 0 ∧ 1 ∈ accesses (esc pfNum) refs k r.data

theorem allRecorded_hit (h : EscHistory refs k s) (hs : (esc pfNum).stateAt refs k = some s) (hr : refs[k]? = some r)
    (hreal : r.data ≠ -1) (hrw : r.rw = 0 ∨ r.rw = 1) {f : Fin pfNum}
    (hhit : checkHit r.data s.pageFrame s.occupied = some f) (hall : AllRecorded refs k s) :
    (∀ g : Fin pfNum, g.val < s.occupied → Recorded (accesses (esc pfNum) refs (k+1) (s.pageFrame g))) ↔
      HitRecorded pfNum refs k r := by
  have hf := (checkHit_some hhit).2
  have hfo := checkHit_occupied (framed_stateAt (esc pfNum) hs) (Or.inl hreal) hf
  have hone := recorded_append (h.frame f hfo).used hrw (hall f hfo)
  rw [hf] at hone
  rw [HitRecorded, ← hone]
  constructor
  · intro hnew
    have hnew := hnew f hfo
    rwa [accesses_hit hr hs hreal hhit hfo, if_pos rfl, hf] at hnew
  · intro hnew g hg
    rw [accesses_hit hr hs hreal hhit hg]
    split_ifs with hgf
    · rw [hgf, hf]
      exact hnew
    · exact hall g hg

theorem allRecorded_store (hs : (esc pfNum).stateAt refs k = some s) (hr : refs[k]? = some r)
    (hreal : r.data ≠ -1) (hrw : r.rw = 0 ∨ r.rw = 1) (hmiss : checkHit r.data s.pageFrame s.occupied = none)
    {index : Fin pfNum} (hpage : s'.pageFrame = Function.update s.pageFrame index r.data)
    (hocc : ∀ g : Fin pfNum, g.val < s'.occupied → g ≠ index → g.val < s.occupied)
    (hall : AllRecorded refs k s) : AllRecorded refs (k+1) s' := by
  intro g hg
  rw [hpage, accesses_store hr hs hreal hmiss]
  split_ifs with hgi
  · exact recorded_singleton hrw
  · exact hall g (hocc g hg hgi)

theorem allRecorded_step (h : EscHistory refs k s) (hs : (esc pfNum).stateAt refs k = some s)
    (hr : refs[k]? = some r) (hreal : r.data ≠ -1) (hrw : r.rw = 0 ∨ r.rw = 1)
    (hstep : (esc pfNum).step refs k r s = some s') (hall : AllRecorded refs k s) :
    AllRecorded refs (k+1) s' ↔ (r.data ∈ s.resident → HitRecorded pfNum refs k r) := by
  rcases (esc pfNum).step_cases hstep with ⟨f, hhit, rfl⟩ | ⟨ho, hmiss, rfl⟩ | ⟨ho, hmiss, index, aux, hrep, rfl⟩
  · rw [forall_prop_of_true (mem_resident_of_hit hs hreal (checkHit_some hhit).2)]
    have hiff := allRecorded_hit h hs hr hreal hrw hhit hall
    exact hiff
  · refine iff_of_true ?_ (fun hres => absurd hres (notMem_resident_of_miss hs hreal hmiss))
    apply allRecorded_store hs hr hreal hrw hmiss rfl _ hall
    intro g hg hne
    have hg : g.val < s.occupied+1 := hg
    have : g.val ≠ s.occupied := fun he => hne (Fin.ext he)
    omega
  · refine iff_of_true ?_ (fun hres => absurd hres (notMem_resident_of_miss hs hreal hmiss))
    apply allRecorded_store hs hr hreal hrw hmiss rfl _ hall
    intro g _ _
    rw [ho]
    exact g.isLt

/-- The bits record the accesses along the whole run exactly when each hit that reads is
on a page that was loaded by a read and written since. -/
theorem esc_bits_record_accesses (pfNum : ℕ) (hpf : 1 ≤ pfNum) (refs : List Psr) (hrefs : ∀ r ∈ refs, r.data ≠ -1)
    (hrw : ∀ r ∈ refs, r.rw = 0 ∨ r.rw = 1) :
    (∀ k ≤ refs.length, ∃ s, (esc pfNum).stateAt refs k = some s ∧ BitsRecord refs k s) ↔
      ∀ k s r, (esc pfNum).stateAt refs k = some s → refs[k]? = some r → r.data ∈ s.resident → r.rw = 0 →
        (accesses (esc pfNum) refs k r.data).head? = some 0 ∧ 1 ∈ accesses (esc pfNum) refs k r.data := by
  have hall {k : ℕ} {s : Sim pfNum (esc pfNum).Aux} (hs : (esc pfNum).stateAt refs k = some s) :
      BitsRecord refs k s ↔ AllRecorded refs k s := bitsRecord_iff (escHistory_stateAt hpf hrefs hs)
  constructor
  · intro h k s r hs hr hres
    have hk : k < refs.length := (List.getElem?_eq_some_iff.mp hr).1
    obtain ⟨s', hs', hnew⟩ := h (k+1) hk
    obtain ⟨t, u, ht, hu, hstep⟩ := (esc pfNum).stateAt_succ_iff.mp hs'
    obtain rfl : t = s := Option.some.inj (ht.symm.trans hs)
    obtain rfl : u = r := Option.some.inj (hu.symm.trans hr)
    obtain ⟨t', ht', hold⟩ := h k hk.le
    obtain rfl : t' = t := Option.some.inj (ht'.symm.trans ht)
    have hmem := List.mem_of_getElem? hr
    exact (allRecorded_step (escHistory_stateAt hpf hrefs hs) hs hr (hrefs _ hmem) (hrw _ hmem) hstep
      ((hall hs).mp hold)).mp ((hall hs').mp hnew) hres
  · intro h k hk
    obtain ⟨s, hs, -⟩ := (esc_sound hpf).stateAt refs hk
    have hboth : (esc pfNum).stateAt refs k = some s ∧ AllRecorded refs k s := by
      refine (esc pfNum).stateAt_invariant
        (fun k s => (esc pfNum).stateAt refs k = some s ∧ AllRecorded refs k s) ?_ ?_ hs
      · exact ⟨rfl, fun _ hf => absurd hf (Nat.not_lt_zero _)⟩
      · intro k s r s' hr hi hstep
        have hmem := List.mem_of_getElem? hr
        exact ⟨(esc pfNum).stateAt_succ_iff.mpr ⟨s, r, hi.1, hr, hstep⟩,
          (allRecorded_step (escHistory_stateAt hpf hrefs hi.1) hi.1 hr (hrefs _ hmem) (hrw _ hmem) hstep hi.2).mpr
            (h k s r hi.1 hr)⟩
    exact ⟨s, hs, (hall hs).mpr hboth.2⟩

theorem esc_bits_record_accesses_read_write_read :
    ∃ s, (esc 1).stateAt [⟨7, 0⟩, ⟨7, 1⟩, ⟨7, 0⟩] 3 = some s ∧ BitsRecord [⟨7, 0⟩, ⟨7, 1⟩, ⟨7, 0⟩] 3 s := by
  refine (esc_bits_record_accesses 1 le_rfl [⟨7, 0⟩, ⟨7, 1⟩, ⟨7, 0⟩] (by decide) (by decide)).mpr ?_ 3 le_rfl
  intro k s r hs hr hres hread
  have hk : k < 3 := (List.getElem?_eq_some_iff.mp hr).1
  interval_cases k
  · obtain rfl := Option.some.inj hs
    rw [Policy.start_resident] at hres
    exact absurd hres (Finset.notMem_empty _)
  · obtain rfl := Option.some.inj hr
    exact absurd hread (by decide)
  · obtain rfl := Option.some.inj hr
    decide

/-- The second read of a page sets its write bit. -/
theorem esc_read_hit_sets_wbit : ∃ s, (esc 1).stateAt [⟨7, 0⟩, ⟨7, 0⟩] 2 = some s ∧
    ¬BitsRecord [⟨7, 0⟩, ⟨7, 0⟩] 2 s := by
  refine ⟨_, rfl, ?_⟩
  intro h
  exact absurd ((h 0 (by decide)).1.mp rfl) (by decide)

end ProvenXv6.Paging
