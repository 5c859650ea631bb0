import Mathlib.Data.List.Rotate
import Mathlib.Data.Nat.ModEq
import ProvenXv6.PagingUses

namespace ProvenXv6.Paging

/-- The second chance policy: a queue of pages with reference bits, and the faults. -/
structure Chances where
  queue : List (ℤ × Bool)
  faults : ℕ

/-- The page at the front goes to the back with its bit cleared, while the bit is set. -/
def giveChances : ℕ → List (ℤ × Bool) → List (ℤ × Bool)
  | fuel+1, (p, true) :: q => giveChances fuel (q ++ [(p, false)])
  | _, q => q

def refer (p : ℤ) (c : ℤ × Bool) : ℤ × Bool := (c.1, c.2 || decide (c.1 = p))

def Chances.step (pfNum : ℕ) (c : Chances) (p : ℤ) : Chances :=
  if p ∈ c.queue.map Prod.fst then { c with queue := c.queue.map (refer p) }
  else if c.queue.length < pfNum then ⟨c.queue ++ [(p, true)], c.faults+1⟩
  else ⟨(giveChances c.queue.length c.queue).tail ++ [(p, true)], c.faults+1⟩

def chancesAt (pfNum : ℕ) (refs : List Psr) (k : ℕ) : Chances :=
  (pages refs k).foldl (Chances.step pfNum) ⟨[], 0⟩

theorem chancesAt_succ (pfNum : ℕ) {refs : List Psr} {k : ℕ} {r : Psr} (hr : refs[k]? = some r) :
    chancesAt pfNum refs (k+1) = (chancesAt pfNum refs k).step pfNum r.data := by
  rw [chancesAt, pages_succ hr, List.foldl_append]
  rfl

section Ring
variable {α : Type*} {l : List α} {i : ℕ}

theorem rotate_eq_cons (hi : i < l.length) : l.rotate i = l[i] :: (l.drop (i+1) ++ l.take i) := by
  rw [List.rotate_eq_drop_append_take hi.le, List.drop_eq_getElem_cons hi, List.cons_append]

theorem take_set_last (hi : i < l.length) (x : α) : (l.set i x).take (i+1) = l.take i ++ [x] := by
  rw [List.take_set, List.take_add_one, List.getElem?_eq_getElem hi, Option.toList_some,
    List.set_append_right _ _ (by rw [List.length_take]; omega), List.length_take, Nat.min_eq_left hi.le,
    Nat.sub_self, List.set_cons_zero]

theorem rotate_set_succ (hi : i < l.length) (x : α) : (l.set i x).rotate (i+1) = l.drop (i+1) ++ l.take i ++ [x] := by
  rw [List.rotate_eq_drop_append_take (by rw [List.length_set]; exact hi), List.drop_set_of_lt (Nat.lt_succ_self i),
    take_set_last hi, List.append_assoc]

theorem ofFn_update {n : ℕ} (f : Fin n → α) (j : Fin n) (x : α) :
    List.ofFn (Function.update f j x) = (List.ofFn f).set j x := by
  apply List.ext_getElem
  · rw [List.length_set, List.length_ofFn, List.length_ofFn]
  · intro i hi hi'
    rw [List.getElem_set, List.getElem_ofFn, List.getElem_ofFn]
    by_cases hij : j.val = i
    · subst hij
      rw [if_pos rfl, Fin.eta, Function.update_self]
    · rw [if_neg hij, Function.update_of_ne]
      exact fun he => hij (congrArg Fin.val he).symm

end Ring

variable {pfNum : ℕ} {refs : List Psr} {k : ℕ} {r : Psr}

def cell (pageFrame : Fin pfNum → ℤ) (rbit : Fin pfNum → ℕ) (f : Fin pfNum) : ℤ × Bool :=
  (pageFrame f, decide (rbit f ≠ 0))

def cells (pageFrame : Fin pfNum → ℤ) (rbit : Fin pfNum → ℕ) : List (ℤ × Bool) := List.ofFn (cell pageFrame rbit)

theorem length_cells (pageFrame : Fin pfNum → ℤ) (rbit : Fin pfNum → ℕ) : (cells pageFrame rbit).length = pfNum :=
  List.length_ofFn

theorem getElem_cells (pageFrame : Fin pfNum → ℤ) (rbit : Fin pfNum → ℕ) {i : ℕ} (hi : i < pfNum)
    (hl : i < (cells pageFrame rbit).length) : (cells pageFrame rbit)[i] = cell pageFrame rbit ⟨i, hi⟩ :=
  List.getElem_ofFn hl

theorem cells_update (pageFrame : Fin pfNum → ℤ) (rbit : Fin pfNum → ℕ) (f : Fin pfNum) (p : ℤ) (b : ℕ) :
    cells (Function.update pageFrame f p) (Function.update rbit f b) =
      (cells pageFrame rbit).set f (p, decide (b ≠ 0)) := by
  have hcell : cell (Function.update pageFrame f p) (Function.update rbit f b) =
      Function.update (cell pageFrame rbit) f (p, decide (b ≠ 0)) := by
    funext g
    by_cases hg : g = f
    · rw [hg, Function.update_self, cell, Function.update_self, Function.update_self]
    · rw [Function.update_of_ne hg, cell, Function.update_of_ne hg, Function.update_of_ne hg, cell]
  rw [cells, hcell, ofFn_update]
  rfl

theorem sweep_giveChances {fuel head : ℕ} (hhead : head < pfNum) (pageFrame : Fin pfNum → ℤ)
    {rbit rbit' : Fin pfNum → ℕ} {i : Fin pfNum} (h : sweep (fuel+1) rbit head = some (i, rbit')) :
    giveChances fuel ((cells pageFrame rbit).rotate head) = (cells pageFrame rbit').rotate i := by
  have hlen : head < (cells pageFrame rbit).length := by rwa [length_cells]
  induction fuel generalizing rbit head with
  | zero =>
    simp only [sweep, frameIdx_of_lt hhead, Option.bind_eq_bind, Option.bind_some] at h
    split_ifs at h
    obtain ⟨rfl, rfl⟩ := Prod.mk.inj (Option.some.inj h)
    rfl
  | succ fuel ih =>
    rw [sweep, frameIdx_of_lt hhead, Option.bind_eq_bind, Option.bind_some] at h
    rw [rotate_eq_cons hlen, getElem_cells _ _ hhead, cell]
    split_ifs at h with hb
    · rw [decide_eq_true hb, giveChances]
      have hset := cells_update pageFrame rbit ⟨head, hhead⟩ (pageFrame ⟨head, hhead⟩) 0
      rw [Function.update_eq_self] at hset
      -- the ring with the bit cleared, read from the next position
      have hring : (cells pageFrame (Function.update rbit ⟨head, hhead⟩ 0)).rotate ((head+1)%pfNum) =
          (cells pageFrame rbit).drop (head+1) ++ (cells pageFrame rbit).take head ++
            [(pageFrame ⟨head, hhead⟩, false)] := by
        have hmod := List.rotate_mod (cells pageFrame (Function.update rbit ⟨head, hhead⟩ 0)) (head+1)
        rw [length_cells] at hmod
        rw [hmod, hset, rotate_set_succ hlen]
        rfl
      rw [← hring]
      have hlt : (head+1)%pfNum < pfNum := Nat.mod_lt _ (by omega)
      exact ih hlt h (by rwa [length_cells])
    · obtain ⟨rfl, rfl⟩ := Prod.mk.inj (Option.some.inj h)
      rw [decide_eq_false hb, rotate_eq_cons hlen, getElem_cells _ _ hhead, cell, decide_eq_false hb]
      rfl

def scAux (s : Sim pfNum (sc pfNum).Aux) : ScAux pfNum := s.aux

/-- The hits of `sc` since the last replacement, and 1 if there was one. -/
structure Since where
  hits : ℕ
  replaced : ℕ

def sinceReplaced (pfNum : ℕ) (refs : List Psr) : ℕ → Since
  | 0 => ⟨0, 0⟩
  | k+1 =>
    match (sc pfNum).stateAt refs k, refs[k]? with
    | some s, some r =>
      if r.data ∈ s.resident then { sinceReplaced pfNum refs k with hits := (sinceReplaced pfNum refs k).hits+1 }
      else if s.occupied < pfNum then sinceReplaced pfNum refs k
      else ⟨0, 1⟩
    | _, _ => sinceReplaced pfNum refs k

section
variable {s s' : Sim pfNum (sc pfNum).Aux}

theorem sinceReplaced_succ (hs : (sc pfNum).stateAt refs k = some s) (hr : refs[k]? = some r) :
    sinceReplaced pfNum refs (k+1) =
      if r.data ∈ s.resident then { sinceReplaced pfNum refs k with hits := (sinceReplaced pfNum refs k).hits+1 }
      else if s.occupied < pfNum then sinceReplaced pfNum refs k
      else ⟨0, 1⟩ := by
  simp only [sinceReplaced, hs, hr]

/-- The queue of the policy is the ring of the frames, read from the frame after the last
one replaced; the head of `sc` is as many frames after the one replaced as there were hits. -/
structure Follows (refs : List Psr) (k : ℕ) (s : Sim pfNum (sc pfNum).Aux) (last : ℕ) : Prop where
  lt : last < pfNum
  head : (scAux s).head = (last+(sinceReplaced pfNum refs k).hits)%pfNum
  queue : (chancesAt pfNum refs k).queue =
    ((cells s.pageFrame (scAux s).rbit).take s.occupied).rotate (last+(sinceReplaced pfNum refs k).replaced)
  faults : (chancesAt pfNum refs k).faults = s.pageFault
  cold : s.occupied < pfNum → last = 0 ∧ (sinceReplaced pfNum refs k).replaced = 0

variable {last : ℕ}

theorem Follows.length (h : Follows refs k s last) : (chancesAt pfNum refs k).queue.length = s.occupied := by
  rw [h.queue, List.length_rotate, List.length_take, length_cells, Nat.min_eq_left s.occupied_le]

theorem Follows.mem (h : Follows refs k s last) (p : ℤ) :
    p ∈ (chancesAt pfNum refs k).queue.map Prod.fst ↔ p ∈ s.resident := by
  rw [h.queue, s.mem_resident, List.map_rotate, List.mem_rotate, List.mem_map]
  constructor
  · rintro ⟨c, hc, rfl⟩
    obtain ⟨i, hi, rfl⟩ := List.mem_take_iff_getElem.mp hc
    rw [length_cells] at hi
    have hlt : i < pfNum := by omega
    exact ⟨⟨i, hlt⟩, (lt_min_iff.mp hi).1, by rw [getElem_cells _ _ hlt, cell]⟩
  · rintro ⟨f, hf, rfl⟩
    refine ⟨cell s.pageFrame (scAux s).rbit f, ?_, rfl⟩
    exact List.mem_take_iff_getElem.mpr ⟨f, by rw [length_cells]; exact lt_min hf f.isLt, getElem_cells _ _ f.isLt _⟩

theorem Follows.hit (h : Follows refs k s last) (hs : (sc pfNum).stateAt refs k = some s) (hr : refs[k]? = some r)
    (hreal : r.data ≠ -1) {f : Fin pfNum} (hhit : checkHit r.data s.pageFrame s.occupied = some f) :
    Follows refs (k+1) { s with aux := (sc pfNum).hit ((sc pfNum).tick s.aux) f } last := by
  have hf := (checkHit_some hhit).2
  have hframed := framed_stateAt (sc pfNum) hs
  have hres := mem_resident_of_hit hs hreal hf
  have hstep : chancesAt pfNum refs (k+1) =
      { chancesAt pfNum refs k with queue := (chancesAt pfNum refs k).queue.map (refer r.data) } := by
    rw [chancesAt_succ pfNum hr, Chances.step, if_pos ((h.mem _).mpr hres)]
  have hsince : sinceReplaced pfNum refs (k+1) =
      { sinceReplaced pfNum refs k with hits := (sinceReplaced pfNum refs k).hits+1 } := by
    rw [sinceReplaced_succ hs hr, if_pos hres]
  -- only frame f holds the page, so the policy sets the bit that `sc` sets
  have hcells : cells s.pageFrame (Function.update (scAux s).rbit f 1) =
      (cells s.pageFrame (scAux s).rbit).map (refer r.data) := by
    rw [cells, cells, List.map_ofFn]
    congr 1
    funext g
    unfold cell refer
    rw [Function.comp_apply]
    by_cases hgf : g = f
    · rw [hgf, Function.update_self, hf, decide_eq_true rfl, Bool.or_true]
      rfl
    · have hne : s.pageFrame g ≠ r.data := by
        intro he
        exact hgf (hframed.distinct g f (checkHit_occupied hframed (Or.inl hreal) he)
          (checkHit_occupied hframed (Or.inl hreal) hf) (he.trans hf.symm))
      rw [Function.update_of_ne hgf, decide_eq_false hne, Bool.or_false]
  refine ⟨h.lt, ?_, ?_, ?_, ?_⟩
  · rw [hsince]
    show ((scAux s).head+1)%pfNum = (last+((sinceReplaced pfNum refs k).hits+1))%pfNum
    rw [h.head, Nat.mod_add_mod, Nat.add_assoc]
  · rw [hstep, hsince]
    show (chancesAt pfNum refs k).queue.map (refer r.data) =
      ((cells s.pageFrame (Function.update (scAux s).rbit f 1)).take s.occupied).rotate _
    rw [hcells, ← List.map_take, ← List.map_rotate, ← h.queue]
  · rw [hstep]
    exact h.faults
  · rw [hsince]
    exact h.cold

theorem Follows.load (h : Follows refs k s last) (hs : (sc pfNum).stateAt refs k = some s) (hr : refs[k]? = some r)
    (hmiss : r.data ∉ s.resident) (ho : s.occupied < pfNum) :
    Follows refs (k+1) { s with
        pageFault := s.pageFault+1
        pageFrame := Function.update s.pageFrame ⟨s.occupied, ho⟩ r.data
        occupied := s.occupied+1
        occupied_le := ho
        aux := (sc pfNum).cold ((sc pfNum).tick s.aux) ⟨s.occupied, ho⟩ r } last := by
  have hstep : chancesAt pfNum refs (k+1) =
      ⟨(chancesAt pfNum refs k).queue ++ [(r.data, true)], (chancesAt pfNum refs k).faults+1⟩ := by
    rw [chancesAt_succ pfNum hr, Chances.step, if_neg (fun hmem => hmiss ((h.mem _).mp hmem)),
      if_pos (by rw [h.length]; exact ho)]
  have hsince : sinceReplaced pfNum refs (k+1) = sinceReplaced pfNum refs k := by
    rw [sinceReplaced_succ hs hr, if_neg hmiss, if_pos ho]
  obtain ⟨hlast, hnone⟩ := h.cold ho
  refine ⟨h.lt, ?_, ?_, ?_, ?_⟩
  · rw [hsince]
    exact h.head
  · rw [hstep, hsince, hnone, hlast]
    show (chancesAt pfNum refs k).queue ++ [(r.data, true)] = ((cells (Function.update s.pageFrame ⟨s.occupied, ho⟩ r.data)
      (Function.update (scAux s).rbit ⟨s.occupied, ho⟩ 1)).take (s.occupied+1)).rotate 0
    rw [cells_update, List.rotate_zero, take_set_last (by rw [length_cells]; exact ho), h.queue, hnone, hlast,
      List.rotate_zero]
    rfl
  · rw [hstep, h.faults]
  · rw [hsince]
    exact fun _ => ⟨hlast, hnone⟩

theorem sc_replace {i : ℕ} {index : Fin pfNum} {aux : ScAux pfNum}
    (h : (sc pfNum).replace refs i r s = some (index, aux)) :
    ∃ rbit, sweep (pfNum+1) (scAux s).rbit (scAux s).head = some (index, rbit) ∧
      aux = ⟨index, Function.update rbit index 1⟩ := by
  simp only [sc, Option.bind_eq_bind] at h
  obtain ⟨⟨head, rbit⟩, hsweep, he⟩ := Option.bind_eq_some_iff.mp h
  obtain ⟨rfl, rfl⟩ := Prod.mk.inj (Option.some.inj he)
  exact ⟨rbit, hsweep, rfl⟩

theorem Follows.queue_full (h : Follows refs k s last) (hfull : s.occupied = pfNum) :
    (chancesAt pfNum refs k).queue = (cells s.pageFrame (scAux s).rbit).rotate
      ((last+(sinceReplaced pfNum refs k).replaced)%pfNum) := by
  have hmod := List.rotate_mod (cells s.pageFrame (scAux s).rbit) (last+(sinceReplaced pfNum refs k).replaced)
  rw [length_cells] at hmod
  rw [h.queue, hmod, List.take_of_length_le (by rw [length_cells, hfull])]

theorem Follows.replace (h : Follows refs k s last) (hs : (sc pfNum).stateAt refs k = some s)
    (hr : refs[k]? = some r) (hmiss : r.data ∉ s.resident) (hfull : s.occupied = pfNum)
    (hfront : (sinceReplaced pfNum refs k).hits ≡ (sinceReplaced pfNum refs k).replaced [MOD pfNum])
    {index : Fin pfNum} {aux : ScAux pfNum}
    (hrep : (sc pfNum).replace refs k r { s with aux := (sc pfNum).tick s.aux, pageFault := s.pageFault+1 } =
      some (index, aux)) :
    Follows refs (k+1) { s with
        pageFault := s.pageFault+1
        pageFrame := Function.update s.pageFrame index r.data
        aux := aux } index := by
  obtain ⟨rbit, hsweep, rfl⟩ := sc_replace hrep
  have hsweep : sweep (pfNum+1) (scAux s).rbit (scAux s).head = some (index, rbit) := hsweep
  have hstep : chancesAt pfNum refs (k+1) =
      ⟨(giveChances pfNum (chancesAt pfNum refs k).queue).tail ++ [(r.data, true)],
        (chancesAt pfNum refs k).faults+1⟩ := by
    rw [chancesAt_succ pfNum hr, Chances.step, if_neg (fun hmem => hmiss ((h.mem _).mp hmem)),
      if_neg (by rw [h.length, hfull]; exact lt_irrefl _), h.length, hfull]
  have hsince : sinceReplaced pfNum refs (k+1) = ⟨0, 1⟩ := by
    rw [sinceReplaced_succ hs hr, if_neg hmiss, if_neg (by rw [hfull]; exact lt_irrefl _)]
  have hpos : 0 < pfNum := index.pos
  have hhead : (scAux s).head = (last+(sinceReplaced pfNum refs k).replaced)%pfNum :=
    h.head.trans (Nat.ModEq.add_left last hfront)
  have hturns := sweep_giveChances (by rw [h.head]; exact Nat.mod_lt _ hpos) s.pageFrame hsweep
  have hlen : index.val < (cells s.pageFrame rbit).length := by
    rw [length_cells]
    exact index.isLt
  refine ⟨index.isLt, ?_, ?_, ?_, ?_⟩
  · rw [hsince]
    exact (Nat.mod_eq_of_lt index.isLt).symm
  · rw [hstep, hsince, h.queue_full hfull, ← hhead]
    show (giveChances pfNum ((cells s.pageFrame (scAux s).rbit).rotate (scAux s).head)).tail ++ [(r.data, true)] =
      ((cells (Function.update s.pageFrame index r.data) (Function.update rbit index 1)).take s.occupied).rotate
        (index.val+1)
    have hall : ((cells s.pageFrame rbit).set index (r.data, true)).length ≤ s.occupied := by
      rw [List.length_set, length_cells, hfull]
    rw [hturns, rotate_eq_cons hlen, List.tail_cons, cells_update, decide_eq_true one_ne_zero,
      List.take_of_length_le hall, rotate_set_succ hlen]
  · rw [hstep, h.faults]
  · intro ho
    exact absurd hfull (Nat.ne_of_lt ho)

/-- A fault when all frames are occupied. -/
structure FullFault (P : Policy pfNum) (refs : List Psr) (k : ℕ) (s : Sim pfNum P.Aux) (r : Psr) : Prop where
  state : P.stateAt refs k = some s
  ref : refs[k]? = some r
  full : s.occupied = pfNum
  miss : r.data ∉ s.resident

/-- The page at the head of `sc` is the one at the front of the queue. -/
def HeadAtFront (refs : List Psr) (k : ℕ) (s : Sim pfNum (sc pfNum).Aux) : Prop :=
  (frameIdx pfNum (scAux s).head).map s.pageFrame = (chancesAt pfNum refs k).queue.head?.map Prod.fst

/-- One hit since the last replacement moves the head to the front of the queue, and so do
as many more as there are frames. Before the first replacement it is there without a hit. -/
def HitsMatch (pfNum : ℕ) (refs : List Psr) (k : ℕ) : Prop :=
  (sinceReplaced pfNum refs k).hits ≡ (sinceReplaced pfNum refs k).replaced [MOD pfNum]

theorem Follows.headAtFront_iff (h : Follows refs k s last) (hf : FullFault (sc pfNum) refs k s r) :
    HeadAtFront refs k s ↔ HitsMatch pfNum refs k := by
  have hpos : 0 < pfNum := Nat.zero_lt_of_lt h.lt
  have hhead : (scAux s).head < pfNum := by
    rw [h.head]
    exact Nat.mod_lt _ hpos
  have hfront := Nat.mod_lt (last+(sinceReplaced pfNum refs k).replaced) hpos
  rw [HeadAtFront, h.queue_full hf.full, rotate_eq_cons (by rw [length_cells]; exact hfront), frameIdx_of_lt hhead,
    getElem_cells _ _ hfront, Option.map_some, List.head?_cons, Option.map_some, Option.some.injEq, cell]
  -- the pages of two frames are the same only if the frames are
  have hframes (f g : Fin pfNum) : s.pageFrame f = s.pageFrame g ↔ f = g := by
    refine ⟨fun he => ?_, congrArg _⟩
    exact (framed_stateAt (sc pfNum) hf.state).distinct f g (by rw [hf.full]; exact f.isLt)
      (by rw [hf.full]; exact g.isLt) he
  rw [hframes, Fin.mk.injEq, h.head]
  exact ⟨fun he => Nat.ModEq.add_left_cancel' last he, fun he => Nat.ModEq.add_left last he⟩

/-- The simulation along a run in which the hits match at every fault with full frames. -/
theorem follows_stateAt (hpf : 0 < pfNum) (hrefs : ∀ r ∈ refs, r.data ≠ -1)
    (hmatch : ∀ j < k, ∀ s r, FullFault (sc pfNum) refs j s r → HitsMatch pfNum refs j)
    (hs : (sc pfNum).stateAt refs k = some s) : ∃ last, Follows refs k s last := by
  induction k generalizing s with
  | zero =>
    obtain rfl := Option.some.inj hs
    exact ⟨0, hpf, (Nat.zero_mod _).symm, rfl, rfl, fun _ => ⟨rfl, rfl⟩⟩
  | succ k ih =>
    obtain ⟨t, r, ht, hr, hstep⟩ := (sc pfNum).stateAt_succ_iff.mp hs
    obtain ⟨last, h⟩ := ih (fun j hj => hmatch j (by omega)) ht
    have hreal := data_ne_neg_one hrefs hr
    rcases (sc pfNum).step_cases hstep with ⟨f, hhit, rfl⟩ | ⟨ho, hnone, rfl⟩ | ⟨ho, hnone, index, aux, hrep, rfl⟩
    · exact ⟨last, h.hit ht hr hreal hhit⟩
    · exact ⟨last, h.load ht hr (notMem_resident_of_miss ht hreal hnone) ho⟩
    · have hmiss := notMem_resident_of_miss ht hreal hnone
      exact ⟨index, h.replace ht hr hmiss ho (hmatch k (Nat.lt_succ_self k) t r ⟨ht, hr, ho, hmiss⟩) hrep⟩

end

/-- The head of `sc` is at the front of the queue at every fault with full frames exactly
when the hits match there, and then `sc` has the faults and the resident pages of second
chance after every step. -/
theorem sc_second_chance (pfNum : ℕ) (hpf : 1 ≤ pfNum) (refs : List Psr) (hrefs : ∀ r ∈ refs, r.data ≠ -1) :
    ((∀ k s r, FullFault (sc pfNum) refs k s r → HeadAtFront refs k s) ↔
      ∀ k s r, FullFault (sc pfNum) refs k s r → HitsMatch pfNum refs k) ∧
    ((∀ k s r, FullFault (sc pfNum) refs k s r → HitsMatch pfNum refs k) →
      ∀ k ≤ refs.length, ∃ s, (sc pfNum).stateAt refs k = some s ∧
        (∀ p, p ∈ s.resident ↔ p ∈ (chancesAt pfNum refs k).queue.map Prod.fst) ∧
        s.pageFault = (chancesAt pfNum refs k).faults) := by
  refine ⟨⟨?_, ?_⟩, ?_⟩
  · intro hfront k
    -- the hits match at the earlier faults, so the simulation has come this far
    induction k using Nat.strong_induction_on with
    | _ k ih =>
      intro s r hfault
      obtain ⟨last, h⟩ := follows_stateAt hpf hrefs ih hfault.state
      exact (h.headAtFront_iff hfault).mp (hfront k s r hfault)
  · intro hmatch k s r hfault
    obtain ⟨last, h⟩ := follows_stateAt hpf hrefs (fun j _ => hmatch j) hfault.state
    exact (h.headAtFront_iff hfault).mpr (hmatch k s r hfault)
  · intro hmatch k hk
    obtain ⟨s, hs, -⟩ := (sc_sound hpf).stateAt refs hk
    obtain ⟨last, h⟩ := follows_stateAt hpf hrefs (fun j _ => hmatch j) hs
    exact ⟨s, hs, fun p => (h.mem p).symm, h.faults.symm⟩

theorem sc_second_chance_cold : ∃ s, (sc 2).stateAt [⟨1, 0⟩, ⟨2, 0⟩, ⟨3, 0⟩] 3 = some s ∧
    (∀ p, p ∈ s.resident ↔ p ∈ (chancesAt 2 [⟨1, 0⟩, ⟨2, 0⟩, ⟨3, 0⟩] 3).queue.map Prod.fst) ∧
      s.pageFault = (chancesAt 2 [⟨1, 0⟩, ⟨2, 0⟩, ⟨3, 0⟩] 3).faults := by
  refine (sc_second_chance 2 (by decide) [⟨1, 0⟩, ⟨2, 0⟩, ⟨3, 0⟩] (by decide)).2 ?_ 3 le_rfl
  intro k s r hfault
  have hk : k < 3 := (List.getElem?_eq_some_iff.mp hfault.ref).1
  interval_cases k
  · rfl
  · rfl
  · rfl

/-- A hit while a frame is free moves the head off the page that came first: `sc` replaces
page 2 where the queue gives up page 1. -/
theorem sc_hit_moves_head : ∃ s, (sc 2).stateAt [⟨1, 0⟩, ⟨1, 0⟩, ⟨2, 0⟩, ⟨3, 0⟩] 4 = some s ∧
    1 ∈ s.resident ∧ 1 ∉ (chancesAt 2 [⟨1, 0⟩, ⟨1, 0⟩, ⟨2, 0⟩, ⟨3, 0⟩] 4).queue.map Prod.fst := by
  exact ⟨_, rfl, by decide, by decide⟩

end ProvenXv6.Paging
