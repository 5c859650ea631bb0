import Mathlib.Data.Finset.Card
import Mathlib.Data.Fintype.Card
import Mathlib.Data.Fintype.Pi
import Mathlib.Tactic.IntervalCases
import ProvenXv6.PagingFrames

namespace ProvenXv6.Paging
open ScanMin

/-- What a simulator owes to the shared loop: some condition `Ok` on its own
variables that its updates keep, and under which it always finds a frame to replace. -/
structure Policy.Sound {pfNum : ℕ} (P : Policy pfNum) (Ok : P.Aux → Prop) : Prop where
  init : Ok P.init
  hit : ∀ a f, Ok a → Ok (P.hit (P.tick a) f)
  cold : ∀ a f r, Ok a → Ok (P.cold (P.tick a) f r)
  replace : ∀ refs i r a (s : Sim pfNum P.Aux), Ok a → s.aux = P.tick a →
    (∀ f, s.pageFrame f ∈ pages refs i) → s.occupied = pfNum →
    ∃ index aux, P.replace refs i r s = some (index, aux) ∧ Ok aux

/-- No run of a sound simulator fails, whatever the page numbers. -/
theorem Policy.Sound.stateAt {pfNum : ℕ} {P : Policy pfNum} {Ok : P.Aux → Prop} (h : P.Sound Ok)
    (refs : List Psr) {k : ℕ} (hk : k ≤ refs.length) :
    ∃ s, P.stateAt refs k = some s ∧ Ok s.aux := by
  induction k with
  | zero => exact ⟨P.start, rfl, h.init⟩
  | succ k ih =>
    obtain ⟨s, hs, hok⟩ := ih (by omega)
    have hr : refs[k]? = some refs[k] := List.getElem?_eq_getElem (by omega)
    have hf := framed_stateAt P hs
    have hrep (ho : s.occupied = pfNum) := h.replace refs k refs[k] s.aux
      { s with aux := P.tick s.aux, pageFault := s.pageFault+1 } hok rfl
      (fun f => hf.referenced f (by rw [ho]; exact f.isLt)) ho
    obtain ⟨s', hs'⟩ : ∃ s', P.step refs k refs[k] s = some s' := P.step_total (by
      intro ho
      obtain ⟨index, aux, he, _⟩ := hrep ho
      exact ⟨index, aux, he⟩)
    refine ⟨s', (P.stateAt_succ_iff).mpr ⟨s, refs[k], hs, hr, hs'⟩, ?_⟩
    rcases P.step_cases hs' with ⟨f, _, rfl⟩ | ⟨ho, _, rfl⟩ | ⟨ho, _, index, aux, he, rfl⟩
    · exact h.hit _ _ hok
    · exact h.cold _ _ _ hok
    · obtain ⟨index', aux', he', hok'⟩ := hrep ho
      rw [he] at he'
      obtain ⟨rfl, rfl⟩ : index = index' ∧ aux = aux' := by simpa using he'
      exact hok'

theorem frameIdx_of_lt {pfNum k : ℕ} (h : k < pfNum) : frameIdx pfNum k = some ⟨k, h⟩ := by
  simp only [frameIdx, h, ↓reduceDIte]

theorem findFarthestAftLoop_isSome {pfNum : ℕ} (hpf : 0 < pfNum) (refs : List Psr) (start : ℕ)
    (pageFrame : Fin pfNum → ℤ) (l : List (Fin pfNum)) (max : ℕ) (maxIdx : Option (Fin pfNum)) :
    ∃ f, findFarthestAftLoop refs start pageFrame l max maxIdx = some f := by
  induction l generalizing max maxIdx with
  | nil =>
    simp only [findFarthestAftLoop, frameIdx_of_lt hpf]
    cases maxIdx with
    | none => exact ⟨_, rfl⟩
    | some m => exact ⟨m, rfl⟩
  | cons i l ih =>
    unfold findFarthestAftLoop
    cases searchAft refs (pageFrame i) start with
    | none =>
      dsimp only
      split_ifs
      · exact ⟨i, rfl⟩
      · exact ih _ _
    | some j =>
      dsimp only
      split_ifs
      · exact ih _ _
      · exact ih _ _

theorem optimal_sound {pfNum : ℕ} (hpf : 0 < pfNum) : (optimal pfNum).Sound (fun _ => True) where
  init := trivial
  hit := fun _ _ _ => trivial
  cold := fun _ _ _ _ => trivial
  replace := by
    intro refs i r a s _ _ _ _
    obtain ⟨f, hf⟩ := findFarthestAftLoop_isSome hpf refs (i+1) s.pageFrame
      (List.finRange pfNum) (i+1) none
    refine ⟨f, (), ?_, trivial⟩
    simp only [optimal, findFarthestAftIdx, hf, Option.bind_eq_bind, Option.bind_some]

theorem fifo_sound {pfNum : ℕ} (hpf : 0 < pfNum) : (fifo pfNum).Sound (fun _ => True) where
  init := trivial
  hit := fun _ _ _ => trivial
  cold := fun _ _ _ _ => trivial
  replace := by
    intro refs i r a s _ _ _ _
    refine ⟨⟨(s.pageFault-1)%pfNum, Nat.mod_lt _ hpf⟩, (), ?_, trivial⟩
    simp only [fifo, frameIdx_of_lt (Nat.mod_lt (s.pageFault-1) hpf), Option.bind_eq_bind,
      Option.bind_some]

theorem lifo_sound {pfNum : ℕ} (hpf : 0 < pfNum) : (lifo pfNum).Sound (fun _ => True) where
  init := trivial
  hit := fun _ _ _ => trivial
  cold := fun _ _ _ _ => trivial
  replace := by
    intro refs i r a s _ _ _ ho
    have hlt : s.occupied-1 < pfNum := by omega
    refine ⟨⟨s.occupied-1, hlt⟩, (), ?_, trivial⟩
    simp only [lifo, frameIdx_of_lt hlt, Option.bind_eq_bind, Option.bind_some]

theorem searchBack_isSome {refs : List Psr} {page : ℤ} {n : ℕ} (h : page ∈ pages refs n) :
    ∃ j, searchBack refs page n = some j := by
  obtain ⟨r, hr, hd⟩ := List.mem_map.mp h
  obtain ⟨j, hj, he⟩ := List.mem_take_iff_getElem.mp hr
  apply Option.isSome_iff_exists.mp
  apply List.find?_isSome.mpr
  refine ⟨j, by simp only [List.mem_reverse, List.mem_range]; omega, ?_⟩
  simp only [List.getElem?_eq_getElem (show j < refs.length by omega), he, Option.map_some, hd,
    decide_true]

theorem findFarthestIdx_eq {pfNum : ℕ} (hpf : 0 < pfNum) {refs : List Psr} {n : ℕ}
    {pageFrame : Fin pfNum → ℤ} (h : ∀ f, pageFrame f ∈ pages refs n) :
    ∃ distance : Fin pfNum → ℕ, (∀ f, searchBack refs (pageFrame f) n = some (distance f)) ∧
      findFarthestIdx refs n pageFrame = some (scanMin distance ⟨0, hpf⟩) := by
  choose distance hd using fun f => searchBack_isSome (h f)
  refine ⟨distance, hd, ?_⟩
  simp only [findFarthestIdx, frameIdx_of_lt hpf, Option.bind_eq_bind, Option.bind_some]
  exact scanMin?_some _ distance hd _

theorem lru_sound {pfNum : ℕ} (hpf : 0 < pfNum) : (lru pfNum).Sound (fun _ => True) where
  init := trivial
  hit := fun _ _ _ => trivial
  cold := fun _ _ _ _ => trivial
  replace := by
    intro refs i r a s _ _ hmem _
    obtain ⟨distance, _, he⟩ := findFarthestIdx_eq hpf hmem
    refine ⟨scanMin distance ⟨0, hpf⟩, (), ?_, trivial⟩
    simp only [lru, he, Option.bind_eq_bind, Option.bind_some]

theorem lru2_sound {pfNum : ℕ} (hpf : 0 < pfNum) : (lru2 pfNum).Sound (fun _ => True) where
  init := trivial
  hit := fun _ _ _ => trivial
  cold := fun _ _ _ _ => trivial
  replace := by
    intro refs i r a s _ _ _ _
    simp only [lru2, frameIdx_of_lt hpf, Option.bind_eq_bind, Option.bind_some]
    exact ⟨_, _, rfl, trivial⟩

theorem lfu_sound {pfNum : ℕ} (hpf : 0 < pfNum) : (lfu pfNum).Sound (fun _ => True) where
  init := trivial
  hit := fun _ _ _ => trivial
  cold := fun _ _ _ _ => trivial
  replace := by
    intro refs i r a s _ _ _ _
    simp only [lfu, frameIdx_of_lt hpf, Option.bind_eq_bind, Option.bind_some]
    exact ⟨_, _, rfl, trivial⟩

/-- Every pass of the sweep clears a set bit, so it ends before the set bits are used up. -/
theorem sweep_isSome {pfNum : ℕ} (fuel : ℕ) (rbit : Fin pfNum → ℕ) (head : ℕ)
    (hh : head < pfNum) (hc : (Finset.univ.filter (fun i => rbit i ≠ 0)).card < fuel) :
    ∃ p, sweep fuel rbit head = some p := by
  induction fuel generalizing rbit head with
  | zero => omega
  | succ fuel ih =>
    simp only [sweep, frameIdx_of_lt hh, Option.bind_eq_bind, Option.bind_some]
    by_cases hb : rbit ⟨head, hh⟩ = 0
    · simp only [hb, ne_eq, not_true_eq_false, ↓reduceIte]
      exact ⟨_, rfl⟩
    · simp only [hb, ne_eq, not_false_eq_true, ↓reduceIte]
      apply ih _ _ (Nat.mod_lt _ (by omega))
      have hset : Finset.univ.filter (fun i => Function.update rbit ⟨head, hh⟩ 0 i ≠ 0) =
          (Finset.univ.filter (fun i => rbit i ≠ 0)).erase ⟨head, hh⟩ := by
        ext i
        by_cases hi : i = ⟨head, hh⟩ <;> simp [hi]
      have hmem : (⟨head, hh⟩ : Fin pfNum) ∈ Finset.univ.filter (fun i => rbit i ≠ 0) := by
        simpa using hb
      have hpos := Finset.card_pos.mpr ⟨_, hmem⟩
      rw [hset, Finset.card_erase_of_mem hmem]
      omega

theorem sc_sound {pfNum : ℕ} (hpf : 0 < pfNum) : (sc pfNum).Sound (fun a => a.head < pfNum) where
  init := hpf
  hit := fun _ _ _ => Nat.mod_lt _ hpf
  cold := fun _ _ _ h => h
  replace := by
    intro refs i r a s ha hs _ _
    have hh : s.aux.head < pfNum := by rw [hs]; exact ha
    obtain ⟨⟨head, rbit⟩, he⟩ := sweep_isSome (pfNum+1) s.aux.rbit s.aux.head hh
      (Nat.lt_succ_of_le (card_finset_fin_le _))
    simp only [sc, he, Option.bind_eq_bind, Option.bind_some]
    exact ⟨_, _, rfl, head.isLt⟩

/-- Both bits of every frame are 0 or 1. -/
def EscAux.Bits {pfNum : ℕ} (a : EscAux pfNum) : Prop := ∀ f, a.rbit f ≤ 1 ∧ a.wbit f ≤ 1

theorem escClass_isSome {rbit wbit : ℕ} (h : rbit ≤ 1 ∧ wbit ≤ 1) :
    ∃ c, escClass rbit wbit = some c := by
  obtain ⟨hr, hw⟩ := h
  interval_cases rbit <;> interval_cases wbit <;> exact ⟨_, rfl⟩

theorem update_le_one {pfNum : ℕ} {bit : Fin pfNum → ℕ} (h : ∀ f, bit f ≤ 1) (i : Fin pfNum)
    {v : ℕ} (hv : v ≤ 1) (f : Fin pfNum) : Function.update bit i v f ≤ 1 := by
  by_cases hf : f = i
  · rw [hf, Function.update_self]
    exact hv
  · rw [Function.update_of_ne hf]
    exact h f

theorem EscAux.bits_load {pfNum : ℕ} {a : EscAux pfNum} (h : a.Bits) (index : Fin pfNum) (r : Psr) :
    (a.load index r).Bits := fun f =>
  ⟨update_le_one (fun f => (h f).1) index (by split_ifs <;> omega) f,
    update_le_one (fun f => (h f).2) index (by split_ifs <;> omega) f⟩

theorem esc_sound {pfNum : ℕ} (hpf : 0 < pfNum) : (esc pfNum).Sound EscAux.Bits where
  init := fun _ => ⟨Nat.zero_le _, Nat.zero_le _⟩
  hit := fun a f h g => ⟨(h g).1, update_le_one (fun f => (h f).2) f le_rfl g⟩
  cold := fun a f r h => EscAux.bits_load (a := (esc pfNum).tick a) h f r
  replace := by
    intro refs i r a s ha hs _ _
    have hb : s.aux.Bits := by rw [hs]; exact ha
    have hidx (head : Fin pfNum) :
        ∃ index, getHighPriorityIdx head s.aux.rbit s.aux.wbit = some index := by
      unfold getHighPriorityIdx
      split_ifs
      · exact ⟨head, rfl⟩
      · choose c hc using fun f => escClass_isSome (hb f)
        exact ⟨_, scanMin?_some _ c hc head⟩
    obtain ⟨index, he⟩ := hidx (scanMin s.aux.counter ⟨0, hpf⟩)
    simp only [esc, frameIdx_of_lt hpf, he, Option.bind_eq_bind, Option.bind_some]
    exact ⟨_, _, rfl, EscAux.bits_load hb index r⟩

/-- Each of the seven simulators completes its run. -/
theorem simulators_sound {pfNum : ℕ} (hpf : 0 < pfNum) (P : Policy pfNum)
    (hP : P ∈ simulators pfNum) : ∃ Ok, P.Sound Ok := by
  simp only [simulators, List.mem_cons, List.not_mem_nil, or_false] at hP
  rcases hP with rfl | rfl | rfl | rfl | rfl | rfl | rfl
  · exact ⟨_, optimal_sound hpf⟩
  · exact ⟨_, fifo_sound hpf⟩
  · exact ⟨_, lifo_sound hpf⟩
  · exact ⟨_, lru_sound hpf⟩
  · exact ⟨_, lfu_sound hpf⟩
  · exact ⟨_, sc_sound hpf⟩
  · exact ⟨_, esc_sound hpf⟩

end ProvenXv6.Paging
