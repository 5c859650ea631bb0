import ProvenXv6.PagingEscVictim
import ProvenXv6.PagingSc

namespace ProvenXv6.Paging

/-- The resident pages in the order of their loads, and the faults. -/
structure Loads where
  order : List ℤ
  faults : ℕ

/-- A full list gives up what drop takes away. -/
def Loads.step (drop : List ℤ → List ℤ) (pfNum : ℕ) (c : Loads) (p : ℤ) : Loads :=
  if p ∈ c.order then c
  else if c.order.length < pfNum then ⟨c.order ++ [p], c.faults+1⟩
  else ⟨drop c.order ++ [p], c.faults+1⟩

def loadsAt (drop : List ℤ → List ℤ) (pfNum : ℕ) (refs : List Psr) (k : ℕ) : Loads :=
  (pages refs k).foldl (Loads.step drop pfNum) ⟨[], 0⟩

/-- A queue of pages: the one loaded first goes. -/
def queueAt (pfNum : ℕ) (refs : List Psr) (k : ℕ) : Loads := loadsAt List.tail pfNum refs k

/-- A stack of pages: the one loaded last goes. -/
def stackAt (pfNum : ℕ) (refs : List Psr) (k : ℕ) : Loads := loadsAt List.dropLast pfNum refs k

theorem loadsAt_succ (drop : List ℤ → List ℤ) (pfNum : ℕ) {refs : List Psr} {k : ℕ} {r : Psr}
    (hr : refs[k]? = some r) : loadsAt drop pfNum refs (k+1) = (loadsAt drop pfNum refs k).step drop pfNum r.data := by
  rw [loadsAt, pages_succ hr, List.foldl_append]
  rfl

variable {pfNum : ℕ} {refs : List Psr} {k : ℕ} {r : Psr}

/-- The pages of the occupied frames. -/
def Sim.loaded {Aux : Type} (s : Sim pfNum Aux) : List ℤ := (List.ofFn s.pageFrame).take s.occupied

theorem Sim.length_loaded {Aux : Type} (s : Sim pfNum Aux) : s.loaded.length = s.occupied := by
  rw [Sim.loaded, List.length_take, List.length_ofFn, Nat.min_eq_left s.occupied_le]

theorem Sim.mem_loaded {Aux : Type} (s : Sim pfNum Aux) (p : ℤ) : p ∈ s.loaded ↔ p ∈ s.resident := by
  rw [s.mem_resident, Sim.loaded, List.mem_take_iff_getElem]
  constructor
  · rintro ⟨i, hi, rfl⟩
    rw [List.length_ofFn] at hi
    exact ⟨⟨i, (lt_min_iff.mp hi).2⟩, (lt_min_iff.mp hi).1, (List.getElem_ofFn _).symm⟩
  · rintro ⟨f, hf, rfl⟩
    exact ⟨f, by rw [List.length_ofFn]; exact lt_min hf f.isLt, List.getElem_ofFn _⟩

theorem Sim.loaded_full {Aux : Type} (s : Sim pfNum Aux) (hfull : s.occupied = pfNum) :
    s.loaded = List.ofFn s.pageFrame :=
  List.take_of_length_le (by rw [List.length_ofFn, hfull])

section Age
variable (P : Policy pfNum) (refs : List Psr)

def loadTime (k : ℕ) (p : ℤ) : ℕ := (uses P refs k p).head?.getD 0

/-- The pages were loaded one after the other. -/
structure Aged (k : ℕ) (l : List ℤ) : Prop where
  sorted : l.Pairwise fun p q => loadTime P refs k p < loadTime P refs k q
  loaded : ∀ p ∈ l, ∃ t < k, (uses P refs k p).head? = some t

end Age

section
variable {P : Policy pfNum} {s : Sim pfNum P.Aux} {l l' : List ℤ}

theorem Aged.of_head? (h : Aged P refs k l)
    (heq : ∀ p ∈ l, (uses P refs (k+1) p).head? = (uses P refs k p).head?) : Aged P refs (k+1) l := by
  refine ⟨?_, fun p hp => ?_⟩
  · refine List.Pairwise.imp_of_mem ?_ h.sorted
    intro p q hp hq hlt
    rwa [loadTime, loadTime, heq p hp, heq q hq]
  · obtain ⟨t, ht, hu⟩ := h.loaded p hp
    exact ⟨t, Nat.lt_succ_of_lt ht, (heq p hp).trans hu⟩

theorem Aged.hit (h : Aged P refs k l) (hr : refs[k]? = some r) (hs : P.stateAt refs k = some s)
    (hres : r.data ∈ s.resident) : Aged P refs (k+1) l := by
  apply h.of_head?
  intro p hp
  obtain ⟨t, -, hu⟩ := h.loaded p hp
  rw [uses_succ hr hs]
  split_ifs with hd hm
  · rw [List.head?_append, hu]
    rfl
  · exact absurd (hd ▸ hres) hm
  · rfl

theorem Aged.store (h : Aged P refs k l) (hr : refs[k]? = some r) (hs : P.stateAt refs k = some s)
    (hmiss : r.data ∉ s.resident) (hsub : l'.Sublist l) (hnew : r.data ∉ l) :
    Aged P refs (k+1) (l' ++ [r.data]) := by
  have hold : Aged P refs (k+1) l' := by
    have hl' : Aged P refs k l' := ⟨h.sorted.sublist hsub, fun p hp => h.loaded p (hsub.subset hp)⟩
    apply hl'.of_head?
    intro p hp
    have hne : r.data ≠ p := fun he => hnew (he ▸ hsub.subset hp)
    rw [uses_succ hr hs, if_neg hne]
  have hlast : (uses P refs (k+1) r.data).head? = some k := by
    rw [uses_succ hr hs, if_pos rfl, if_neg hmiss]
    rfl
  refine ⟨List.pairwise_append.mpr ⟨hold.sorted, List.pairwise_singleton _ _, ?_⟩, ?_⟩
  · intro p hp q hq
    obtain ⟨t, ht, hu⟩ := h.loaded p (hsub.subset hp)
    have hne : r.data ≠ p := fun he => hnew (he ▸ hsub.subset hp)
    rw [List.mem_singleton.mp hq, loadTime, loadTime, hlast, uses_succ hr hs, if_neg hne, hu]
    exact ht
  · intro p hp
    rcases List.mem_append.mp hp with hp | hp
    · exact hold.loaded p hp
    · rw [List.mem_singleton.mp hp]
      exact ⟨k, Nat.lt_succ_self k, hlast⟩

end

/-- How the list of a policy is read off the frames: from the frame that turn gives for the
count of faults. -/
structure Reads (P : Policy pfNum) (drop : List ℤ → List ℤ) (turn : ℕ → ℕ) : Prop where
  sublist : ∀ l, (drop l).Sublist l
  cold : ∀ (l : List ℤ) (x : ℤ), (l ++ [x]).rotate (turn (l.length+1)) = l.rotate (turn l.length) ++ [x]
  replace : ∀ {refs i r n} {s : Sim pfNum P.Aux} {index aux}, P.replace refs i r s = some (index, aux) →
    s.occupied = pfNum → s.pageFault = n+1 → ∀ l : List ℤ, l.length = pfNum → ∀ x,
      (l.set index x).rotate (turn (n+1)) = drop (l.rotate (turn n)) ++ [x]

/-- The frames hold the list of the policy. -/
structure InOrder (P : Policy pfNum) (drop : List ℤ → List ℤ) (turn : ℕ → ℕ) (refs : List Psr) (k : ℕ)
    (s : Sim pfNum P.Aux) : Prop where
  order : (loadsAt drop pfNum refs k).order = s.loaded.rotate (turn s.pageFault)
  faults : (loadsAt drop pfNum refs k).faults = s.pageFault
  aged : Aged P refs k (loadsAt drop pfNum refs k).order
  cold : s.occupied < pfNum → s.pageFault = s.occupied

section
variable {P : Policy pfNum} {drop : List ℤ → List ℤ} {turn : ℕ → ℕ} {s s' : Sim pfNum P.Aux}

theorem InOrder.length (h : InOrder P drop turn refs k s) :
    (loadsAt drop pfNum refs k).order.length = s.occupied := by
  rw [h.order, List.length_rotate, s.length_loaded]

theorem InOrder.mem (h : InOrder P drop turn refs k s) (p : ℤ) :
    p ∈ (loadsAt drop pfNum refs k).order ↔ p ∈ s.resident := by
  rw [h.order, List.mem_rotate, s.mem_loaded]

theorem InOrder.step (hP : Reads P drop turn) (h : InOrder P drop turn refs k s)
    (hs : P.stateAt refs k = some s) (hr : refs[k]? = some r) (hreal : r.data ≠ -1)
    (hstep : P.step refs k r s = some s') : InOrder P drop turn refs (k+1) s' := by
  rcases P.step_cases hstep with ⟨f, hhit, rfl⟩ | ⟨ho, hnone, rfl⟩ | ⟨hfull, hnone, index, aux, hrep, rfl⟩
  · have hres := mem_resident_of_hit hs hreal (checkHit_some hhit).2
    have hsame : loadsAt drop pfNum refs (k+1) = loadsAt drop pfNum refs k := by
      rw [loadsAt_succ _ _ hr, Loads.step, if_pos ((h.mem _).mpr hres)]
    exact ⟨hsame ▸ h.order, hsame ▸ h.faults, hsame ▸ h.aged.hit hr hs hres, h.cold⟩
  · have hmiss := notMem_resident_of_miss hs hreal hnone
    have hnew : r.data ∉ (loadsAt drop pfNum refs k).order := fun hmem => hmiss ((h.mem _).mp hmem)
    have hload : loadsAt drop pfNum refs (k+1) =
        ⟨(loadsAt drop pfNum refs k).order ++ [r.data], (loadsAt drop pfNum refs k).faults+1⟩ := by
      rw [loadsAt_succ _ _ hr, Loads.step, if_neg hnew, if_pos (by rw [h.length]; exact ho)]
    have hframes : ((List.ofFn (Function.update s.pageFrame ⟨s.occupied, ho⟩ r.data)).take (s.occupied+1)) =
        s.loaded ++ [r.data] := by
      rw [ofFn_update, take_set_last (by rw [List.length_ofFn]; exact ho)]
      rfl
    refine ⟨?_, ?_, ?_, fun _ => congrArg (·+1) (h.cold ho)⟩
    · have hcold := hP.cold s.loaded r.data
      rw [s.length_loaded, ← h.cold ho] at hcold
      rw [hload, Sim.loaded, hframes, hcold, ← h.order]
    · rw [hload, h.faults]
    · rw [hload]
      exact h.aged.store hr hs hmiss (List.Sublist.refl _) hnew
  · have hmiss := notMem_resident_of_miss hs hreal hnone
    have hnew : r.data ∉ (loadsAt drop pfNum refs k).order := fun hmem => hmiss ((h.mem _).mp hmem)
    have hload : loadsAt drop pfNum refs (k+1) =
        ⟨drop (loadsAt drop pfNum refs k).order ++ [r.data], (loadsAt drop pfNum refs k).faults+1⟩ := by
      rw [loadsAt_succ _ _ hr, Loads.step, if_neg hnew, if_neg (by rw [h.length, hfull]; exact lt_irrefl _)]
    have hframes : (List.ofFn (Function.update s.pageFrame index r.data)).take s.occupied =
        s.loaded.set index r.data := by
      rw [ofFn_update, List.take_set]
      rfl
    refine ⟨?_, ?_, ?_, fun ho => absurd hfull (Nat.ne_of_lt ho)⟩
    · have hset := hP.replace hrep hfull rfl s.loaded (s.length_loaded.trans hfull) r.data
      rw [hload, h.order]
      exact hset.symm.trans (congrArg (List.rotate · _) hframes.symm)
    · rw [hload, h.faults]
    · rw [hload]
      exact h.aged.store hr hs hmiss (hP.sublist _) hnew

theorem inOrder_stateAt (hP : Reads P drop turn) (hrefs : ∀ r ∈ refs, r.data ≠ -1)
    (hs : P.stateAt refs k = some s) : InOrder P drop turn refs k s := by
  induction k generalizing s with
  | zero =>
    obtain rfl := Option.some.inj hs
    refine ⟨?_, rfl, ⟨List.Pairwise.nil, fun p hp => absurd hp List.not_mem_nil⟩, fun _ => rfl⟩
    show [] = (List.take 0 _).rotate _
    rw [List.take_zero, List.rotate_nil]
  | succ k ih =>
    obtain ⟨t, r, ht, hr, hstep⟩ := P.stateAt_succ_iff.mp hs
    exact (ih ht).step hP ht hr (data_ne_neg_one hrefs hr) hstep

theorem InOrder.victim (h : InOrder P drop turn refs k s) (hs : P.stateAt refs k = some s)
    (hfull : s.occupied = pfNum) {index g : Fin pfNum} (hg : g ≠ index) {rest : List ℤ}
    (hrest : ∀ p ∈ (loadsAt drop pfNum refs k).order, p = s.pageFrame index ∨ p ∈ rest) :
    s.pageFrame g ∈ rest := by
  have hmem : s.pageFrame g ∈ (loadsAt drop pfNum refs k).order :=
    (h.mem _).mpr ((s.mem_resident _).mpr ⟨g, by rw [hfull]; exact g.isLt, rfl⟩)
  refine (hrest _ hmem).resolve_left fun he => hg ?_
  exact (framed_stateAt P hs).distinct g index (by rw [hfull]; exact g.isLt) (by rw [hfull]; exact index.isLt) he

end

theorem rotate_set_fault {l : List ℤ} (hl : 0 < l.length) (f : ℕ) (x : ℤ) :
    (l.set (f%l.length) x).rotate (f+1) = (l.rotate f).tail ++ [x] := by
  have hi := Nat.mod_lt f hl
  have hset := List.rotate_mod (l.set (f%l.length) x) (f+1)
  have hsucc := List.rotate_mod (l.set (f%l.length) x) (f%l.length+1)
  rw [List.length_set] at hset hsucc
  rw [← hset, ← Nat.mod_add_mod, hsucc, rotate_set_succ hi, ← List.rotate_mod l f, rotate_eq_cons hi, List.tail_cons]

theorem fifo_replace {i : ℕ} {s : Sim pfNum (fifo pfNum).Aux} {index : Fin pfNum} {aux : (fifo pfNum).Aux}
    (h : (fifo pfNum).replace refs i r s = some (index, aux)) : index.val = (s.pageFault-1)%pfNum := by
  simp only [fifo, Option.bind_eq_bind] at h
  obtain ⟨j, hj, he⟩ := Option.bind_eq_some_iff.mp h
  obtain ⟨rfl, -⟩ := Prod.mk.inj (Option.some.inj he)
  unfold frameIdx at hj
  split_ifs at hj
  exact congrArg Fin.val (Option.some.inj hj).symm

theorem fifo_reads (hpf : 0 < pfNum) : Reads (fifo pfNum) List.tail id where
  sublist := List.tail_sublist
  cold := by
    intro l x
    have hone : (l ++ [x]).length = l.length+1 := by rw [List.length_append, List.length_singleton]
    rw [id, id, ← hone, List.rotate_length, List.rotate_length]
  replace := by
    intro refs i r n s index aux hrep _ hn l hl x
    have hindex : index.val = n%l.length := by rw [fifo_replace hrep, hn, Nat.add_sub_cancel, hl]
    rw [hindex]
    exact rotate_set_fault (by rw [hl]; exact hpf) n x

theorem lifo_replace {i : ℕ} {s : Sim pfNum (lifo pfNum).Aux} {index : Fin pfNum} {aux : (lifo pfNum).Aux}
    (h : (lifo pfNum).replace refs i r s = some (index, aux)) : index.val = s.occupied-1 := by
  simp only [lifo, Option.bind_eq_bind] at h
  obtain ⟨j, hj, he⟩ := Option.bind_eq_some_iff.mp h
  obtain ⟨rfl, -⟩ := Prod.mk.inj (Option.some.inj he)
  unfold frameIdx at hj
  split_ifs at hj
  exact congrArg Fin.val (Option.some.inj hj).symm

theorem lifo_reads (hpf : 0 < pfNum) : Reads (lifo pfNum) List.dropLast fun _ => 0 where
  sublist := List.dropLast_sublist
  cold := by
    intro l x
    rw [List.rotate_zero, List.rotate_zero]
  replace := by
    intro refs i r n s index aux hrep hfull _ l hl x
    have hindex : index.val = l.length-1 := by rw [lifo_replace hrep, hfull, hl]
    have hlast : l.length-1 < l.length := by omega
    have htake := take_set_last hlast x
    rw [List.take_of_length_le (by rw [List.length_set]; omega)] at htake
    rw [hindex, List.rotate_zero, List.rotate_zero, htake, List.dropLast_eq_take]

theorem Policy.Sound.fullFault {P : Policy pfNum} {Ok : P.Aux → Prop} {s : Sim pfNum P.Aux} (hP : P.Sound Ok)
    (hrefs : ∀ r ∈ refs, r.data ≠ -1) (h : FullFault P refs k s r) : ∃ s' index aux,
      P.replace refs k r { s with aux := P.tick s.aux, pageFault := s.pageFault+1 } = some (index, aux) ∧
      Replaces P refs k s s' index ∧ s'.pageFrame = Function.update s.pageFrame index r.data := by
  have hk : k+1 ≤ refs.length := (List.getElem?_eq_some_iff.mp h.ref).1
  obtain ⟨s', hs', -⟩ := hP.stateAt refs hk
  obtain ⟨t, r', ht, hr, hstep⟩ := P.stateAt_succ_iff.mp hs'
  obtain rfl : t = s := Option.some.inj (ht.symm.trans h.state)
  obtain rfl : r' = r := Option.some.inj (hr.symm.trans h.ref)
  have hreal := data_ne_neg_one hrefs hr
  rcases P.step_cases hstep with ⟨f, hhit, -⟩ | ⟨ho, -⟩ | ⟨-, -, index, aux, hrep, rfl⟩
  · exact absurd (mem_resident_of_hit ht hreal (checkHit_some hhit).2) h.miss
  · exact absurd h.full (Nat.ne_of_lt ho)
  · refine ⟨_, index, aux, hrep, ⟨ht, hs', h.full, ?_⟩, rfl⟩
    show Function.update t.pageFrame index r'.data index ≠ t.pageFrame index
    rw [Function.update_self]
    exact fun he => h.miss (mem_resident_of_hit ht hreal he.symm)

theorem fifo_oldest (hpf : 0 < pfNum) (hrefs : ∀ r ∈ refs, r.data ≠ -1) {s : Sim pfNum (fifo pfNum).Aux}
    (hs : (fifo pfNum).stateAt refs k = some s) (hfull : s.occupied = pfNum) {index : Fin pfNum}
    (hindex : index.val = s.pageFault%pfNum) (g : Fin pfNum) (hg : g ≠ index) :
    loadedAt (fifo pfNum) refs k s index < loadedAt (fifo pfNum) refs k s g := by
  have h := inOrder_stateAt (fifo_reads hpf) hrefs hs
  have hlen : (List.ofFn s.pageFrame).length = pfNum := List.length_ofFn
  have hlt : s.pageFault%(List.ofFn s.pageFrame).length < (List.ofFn s.pageFrame).length :=
    Nat.mod_lt _ (by rw [hlen]; exact hpf)
  -- the list starts with the page of the frame
  have horder : ∃ rest, (loadsAt List.tail pfNum refs k).order = s.pageFrame index :: rest := by
    rw [h.order, s.loaded_full hfull, id, ← List.rotate_mod, rotate_eq_cons hlt, List.getElem_ofFn]
    refine ⟨_, congrArg (fun f => s.pageFrame f :: _) (Fin.ext ?_)⟩
    exact (congrArg (s.pageFault%·) hlen).trans hindex.symm
  obtain ⟨rest, horder⟩ := horder
  have hrest : s.pageFrame g ∈ rest := h.victim hs hfull hg fun p hp => List.mem_cons.mp (horder ▸ hp)
  have hsorted := h.aged.sorted
  rw [horder] at hsorted
  exact (List.pairwise_cons.mp hsorted).1 _ hrest

theorem lifo_newest (hpf : 0 < pfNum) (hrefs : ∀ r ∈ refs, r.data ≠ -1) {s : Sim pfNum (lifo pfNum).Aux}
    (hs : (lifo pfNum).stateAt refs k = some s) (hfull : s.occupied = pfNum) {index : Fin pfNum}
    (hindex : index.val = pfNum-1) (g : Fin pfNum) (hg : g ≠ index) :
    loadedAt (lifo pfNum) refs k s g < loadedAt (lifo pfNum) refs k s index := by
  have h := inOrder_stateAt (lifo_reads hpf) hrefs hs
  -- the list ends with the page of the frame
  have horder : (loadsAt List.dropLast pfNum refs k).order = (List.ofFn s.pageFrame).dropLast ++ [s.pageFrame index] := by
    have hne : List.ofFn s.pageFrame ≠ [] := by
      rw [← List.length_pos_iff, List.length_ofFn]
      exact hpf
    rw [h.order, s.loaded_full hfull, List.rotate_zero]
    nth_rewrite 1 [← List.dropLast_append_getLast hne]
    rw [List.getLast_eq_getElem, List.getElem_ofFn]
    refine congrArg (fun f => _ ++ [s.pageFrame f]) (Fin.ext ?_)
    exact (congrArg (·-1) List.length_ofFn).trans hindex.symm
  have hrest := h.victim hs hfull hg fun p hp =>
    (List.mem_append.mp (horder ▸ hp)).symm.imp_left List.mem_singleton.mp
  have hsorted := h.aged.sorted
  rw [horder] at hsorted
  exact (List.pairwise_append.mp hsorted).2.2 _ hrest _ (List.mem_singleton_self _)

/-- At every fault with full frames `fifo` replaces the page that was loaded first and `lifo` the
one that was loaded last; after every step they have the faults and the resident pages of a queue
and of a stack. -/
theorem fifo_lifo_order (pfNum : ℕ) (hpf : 1 ≤ pfNum) (refs : List Psr) (hrefs : ∀ r ∈ refs, r.data ≠ -1) :
    (∀ k s r, FullFault (fifo pfNum) refs k s r → ∃ s' index, Replaces (fifo pfNum) refs k s s' index ∧
      s'.pageFrame = Function.update s.pageFrame index r.data ∧
      ∀ g, g ≠ index → loadedAt (fifo pfNum) refs k s index < loadedAt (fifo pfNum) refs k s g) ∧
    (∀ k s r, FullFault (lifo pfNum) refs k s r → ∃ s' index, Replaces (lifo pfNum) refs k s s' index ∧
      s'.pageFrame = Function.update s.pageFrame index r.data ∧
      ∀ g, g ≠ index → loadedAt (lifo pfNum) refs k s g < loadedAt (lifo pfNum) refs k s index) ∧
    ∀ k ≤ refs.length,
      (∃ s, (fifo pfNum).stateAt refs k = some s ∧ (∀ p, p ∈ s.resident ↔ p ∈ (queueAt pfNum refs k).order) ∧
        s.pageFault = (queueAt pfNum refs k).faults) ∧
      ∃ s, (lifo pfNum).stateAt refs k = some s ∧ (∀ p, p ∈ s.resident ↔ p ∈ (stackAt pfNum refs k).order) ∧
        s.pageFault = (stackAt pfNum refs k).faults := by
  refine ⟨?_, ?_, fun k hk => ⟨?_, ?_⟩⟩
  · intro k s r hfault
    obtain ⟨s', index, aux, hrep, hreplaces, hframes⟩ := (fifo_sound hpf).fullFault hrefs hfault
    exact ⟨s', index, hreplaces, hframes, fifo_oldest hpf hrefs hfault.state hfault.full (fifo_replace hrep)⟩
  · intro k s r hfault
    obtain ⟨s', index, aux, hrep, hreplaces, hframes⟩ := (lifo_sound hpf).fullFault hrefs hfault
    have hindex : index.val = pfNum-1 := (lifo_replace hrep).trans (congrArg (·-1) hfault.full)
    exact ⟨s', index, hreplaces, hframes, lifo_newest hpf hrefs hfault.state hfault.full hindex⟩
  · obtain ⟨s, hs, -⟩ := (fifo_sound hpf).stateAt refs hk
    have h := inOrder_stateAt (fifo_reads hpf) hrefs hs
    exact ⟨s, hs, fun p => (h.mem p).symm, h.faults.symm⟩
  · obtain ⟨s, hs, -⟩ := (lifo_sound hpf).stateAt refs hk
    have h := inOrder_stateAt (lifo_reads hpf) hrefs hs
    exact ⟨s, hs, fun p => (h.mem p).symm, h.faults.symm⟩

theorem fifo_lifo_order_three : ∃ s, (fifo 2).stateAt [⟨1, 0⟩, ⟨2, 0⟩, ⟨1, 0⟩, ⟨3, 0⟩] 4 = some s ∧
    (∀ p, p ∈ s.resident ↔ p ∈ (queueAt 2 [⟨1, 0⟩, ⟨2, 0⟩, ⟨1, 0⟩, ⟨3, 0⟩] 4).order) ∧
      s.pageFault = (queueAt 2 [⟨1, 0⟩, ⟨2, 0⟩, ⟨1, 0⟩, ⟨3, 0⟩] 4).faults :=
  ((fifo_lifo_order 2 (by decide) [⟨1, 0⟩, ⟨2, 0⟩, ⟨1, 0⟩, ⟨3, 0⟩] (by decide)).2.2 4 le_rfl).1

end ProvenXv6.Paging
