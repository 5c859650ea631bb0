import Mathlib.Order.Basic
import Mathlib.Data.Nat.ModEq
import Mathlib.Data.Nat.Find
import ProvenXv6.PagingSound

namespace ProvenXv6.Paging
variable {pfNum : ℕ}

/-- The frame lies among the first k in circular order from the head. -/
def Passed (head k : ℕ) (f : Fin pfNum) : Prop := ∃ j, j < k ∧ (head+j)%pfNum = f.val

instance (head k : ℕ) (f : Fin pfNum) : Decidable (Passed head k f) :=
  decidable_of_iff (∃ j, ∃ _ : j < k, (head+j)%pfNum = f.val)
    (exists_congr fun _ => exists_prop)

/-- The reference bits once the first k frames from the head have been passed over. -/
def clearPassed (rbit : Fin pfNum → ℕ) (head k : ℕ) (f : Fin pfNum) : ℕ :=
  if Passed head k f then 0 else rbit f

theorem passed_succ {head k : ℕ} {f : Fin pfNum} :
    Passed head (k+1) f ↔ (head+k)%pfNum = f.val ∨ Passed head k f := by
  constructor
  · rintro ⟨j, hj, he⟩
    rcases Nat.lt_succ_iff_lt_or_eq.mp hj with hj | rfl
    · exact Or.inr ⟨j, hj, he⟩
    · exact Or.inl he
  · rintro (he | ⟨j, hj, he⟩)
    · exact ⟨k, Nat.lt_succ_self k, he⟩
    · exact ⟨j, Nat.lt_succ_of_lt hj, he⟩

theorem not_passed {head k : ℕ} (hk : k < pfNum) {f : Fin pfNum} (hf : (head+k)%pfNum = f.val) :
    ¬Passed head k f := by
  rintro ⟨j, hj, he⟩
  have hmod : head+j ≡ head+k [MOD pfNum] := he.trans hf.symm
  have hjk := Nat.ModEq.add_left_cancel' head hmod
  exact Nat.ne_of_lt hj (hjk.eq_of_lt_of_lt (hj.trans hk) hk)

theorem passed_round {head : ℕ} (hh : head < pfNum) (f : Fin pfNum) : Passed head pfNum f := by
  have hf := f.isLt
  by_cases hle : head ≤ f.val
  · refine ⟨f.val-head, by omega, ?_⟩
    rw [Nat.add_sub_cancel' hle, Nat.mod_eq_of_lt hf]
  · refine ⟨f.val+pfNum-head, by omega, ?_⟩
    rw [Nat.add_sub_cancel' (by omega), Nat.add_mod_right, Nat.mod_eq_of_lt hf]

theorem clearPassed_zero (rbit : Fin pfNum → ℕ) (head : ℕ) : clearPassed rbit head 0 = rbit := by
  funext f
  exact if_neg fun ⟨_, hj, _⟩ => Nat.not_lt_zero _ hj

theorem clearPassed_succ (rbit : Fin pfNum → ℕ) {head k : ℕ} {f : Fin pfNum}
    (hf : (head+k)%pfNum = f.val) :
    Function.update (clearPassed rbit head k) f 0 = clearPassed rbit head (k+1) := by
  funext g
  by_cases hg : g = f
  · rw [hg, Function.update_self, clearPassed, if_pos (passed_succ.mpr (Or.inl hf))]
  · have hne : (head+k)%pfNum ≠ g.val := fun he => hg (Fin.ext (he.symm.trans hf))
    have hiff : Passed head (k+1) g ↔ Passed head k g := by
      rw [passed_succ, or_iff_right hne]
    rw [Function.update_of_ne hg, clearPassed, clearPassed]
    exact if_congr hiff.symm rfl rfl

theorem sweep_succ {rbit : Fin pfNum → ℕ} {head fuel : ℕ} {f : Fin pfNum} (hf : head = f.val) :
    sweep (fuel+1) rbit head =
      if rbit f ≠ 0 then sweep fuel (Function.update rbit f 0) ((head+1)%pfNum) else some (f, rbit) := by
  subst hf
  rw [sweep, frameIdx_of_lt f.isLt]
  rfl

theorem sweep_advance {rbit : Fin pfNum → ℕ} {head k : ℕ} (fuel : ℕ) (hh : head < pfNum)
    (hk : k ≤ pfNum) (hset : ∀ f, Passed head k f → rbit f ≠ 0) :
    sweep (k+fuel) rbit head = sweep fuel (clearPassed rbit head k) ((head+k)%pfNum) := by
  induction k generalizing fuel with
  | zero => rw [clearPassed_zero, Nat.zero_add, Nat.add_zero, Nat.mod_eq_of_lt hh]
  | succ k ih =>
    have hlt : (head+k)%pfNum < pfNum := Nat.mod_lt _ (Nat.zero_lt_of_lt hh)
    let f : Fin pfNum := ⟨(head+k)%pfNum, hlt⟩
    -- the bit under the head has not been touched in this round
    have hbit : clearPassed rbit head k f ≠ 0 := by
      rw [clearPassed, if_neg (not_passed (Nat.lt_of_succ_le hk) rfl)]
      exact hset f (passed_succ.mpr (Or.inl rfl))
    calc sweep (k+1+fuel) rbit head
        = sweep (k+(fuel+1)) rbit head := by rw [Nat.add_assoc, Nat.add_comm 1 fuel]
      _ = sweep (fuel+1) (clearPassed rbit head k) ((head+k)%pfNum) :=
          ih (fuel+1) (Nat.le_of_succ_le hk) fun g hg => hset g (passed_succ.mpr (Or.inr hg))
      _ = sweep fuel (Function.update (clearPassed rbit head k) f 0) (((head+k)%pfNum+1)%pfNum) := by
          rw [sweep_succ (f := f) rfl, if_pos hbit]
      _ = sweep fuel (clearPassed rbit head (k+1)) ((head+(k+1))%pfNum) := by
          rw [clearPassed_succ rbit (f := f) rfl, Nat.mod_add_mod, Nat.add_assoc]

/-- The number of set bits met in circular order before the first clear one. -/
theorem exists_arc (rbit : Fin pfNum → ℕ) (head : ℕ) :
    ∃ k, k ≤ pfNum ∧ (∀ f, Passed head k f → rbit f ≠ 0) ∧
      (k < pfNum → ∀ f : Fin pfNum, (head+k)%pfNum = f.val → rbit f = 0) := by
  let Ends (k : ℕ) : Prop := k = pfNum ∨ ∀ f : Fin pfNum, (head+k)%pfNum = f.val → rbit f = 0
  have hex : ∃ k, Ends k := ⟨pfNum, Or.inl rfl⟩
  classical
  refine ⟨Nat.find hex, Nat.find_min' hex (Or.inl rfl), ?_, ?_⟩
  · rintro f ⟨j, hj, he⟩ hzero
    apply Nat.find_min hex hj
    refine Or.inr fun g hg => ?_
    rw [Fin.ext (hg.symm.trans he), hzero]
  · intro hlt
    exact (Nat.find_spec hex).resolve_left (Nat.ne_of_lt hlt)

/-- The sweep stops at the bit after the arc: that bit was clear, or the whole ring
was set and the head is back at a bit cleared by the sweep itself. -/
theorem sweep_stop {rbit : Fin pfNum → ℕ} {head k : ℕ} (hh : head < pfNum) (hk : k ≤ pfNum)
    (hend : k < pfNum → ∀ f : Fin pfNum, (head+k)%pfNum = f.val → rbit f = 0)
    {f : Fin pfNum} (hf : (head+k)%pfNum = f.val) (fuel : ℕ) :
    sweep (fuel+1) (clearPassed rbit head k) ((head+k)%pfNum) = some (f, clearPassed rbit head k) := by
  have hzero : clearPassed rbit head k f = 0 := by
    rcases Nat.lt_or_eq_of_le hk with hlt | rfl
    · rw [clearPassed, if_neg (not_passed hlt hf)]
      exact hend hlt f hf
    · have hback : (head+0)%k = f.val := by rw [← hf, Nat.add_zero, Nat.add_mod_right]
      exact if_pos ⟨0, Nat.zero_lt_of_lt hh, hback⟩
  rw [sweep_succ hf, if_neg (not_not.mpr hzero)]

theorem update_bit {rbit : Fin pfNum → ℕ} (h : ∀ f, rbit f = 0 ∨ rbit f = 1) (f : Fin pfNum)
    {b : ℕ} (hb : b = 0 ∨ b = 1) (g : Fin pfNum) :
    Function.update rbit f b g = 0 ∨ Function.update rbit f b g = 1 := by
  by_cases hg : g = f
  · rw [hg, Function.update_self]
    exact hb
  · rw [Function.update_of_ne hg]
    exact h g

theorem sc_bits (hpf : 0 < pfNum) :
    (sc pfNum).Sound (fun a => a.head < pfNum ∧ ∀ f, a.rbit f = 0 ∨ a.rbit f = 1) where
  init := ⟨hpf, fun _ => Or.inl rfl⟩
  hit := fun a f ha => ⟨Nat.mod_lt _ hpf, update_bit ha.2 f (Or.inr rfl)⟩
  cold := fun a f _ ha => ⟨ha.1, update_bit ha.2 f (Or.inr rfl)⟩
  replace := by
    intro refs i r a s ha hs _ _
    obtain ⟨hh, hb⟩ := ha
    obtain ⟨k, hk, hset, hend⟩ := exists_arc a.rbit a.head
    let f : Fin pfNum := ⟨(a.head+k)%pfNum, Nat.mod_lt _ hpf⟩
    have hsweep : sweep (pfNum+1) a.rbit a.head = some (f, clearPassed a.rbit a.head k) := by
      have hsplit : pfNum+1 = k+(pfNum-k+1) := by omega
      rw [hsplit, sweep_advance _ hh hk hset, sweep_stop hh hk hend (f := f) rfl]
    have hcleared : ∀ g, clearPassed a.rbit a.head k g = 0 ∨ clearPassed a.rbit a.head k g = 1 := by
      intro g
      rw [clearPassed]
      split_ifs
      · exact Or.inl rfl
      · exact hb g
    refine ⟨f, ⟨f, Function.update (clearPassed a.rbit a.head k) f 1⟩, ?_, f.isLt,
      update_bit hcleared f (Or.inr rfl)⟩
    have haux : s.aux = a := hs
    show (sweep (pfNum+1) s.aux.rbit s.aux.head).bind _ = _
    rw [haux, hsweep]
    rfl

/-- The sweep makes k iterations, at most one for each frame, stops at the first frame in
circular order whose bit is clear, and clears the bits of the frames before it; and no run of
`sc` starts it outside the ring or with a bit other than 0 and 1. -/
theorem sc_sweep (hpf : 1 ≤ pfNum) :
    (∀ (head : ℕ) (rbit : Fin pfNum → ℕ), head < pfNum →
      ∃ k ≤ pfNum, ∃ stop : Fin pfNum, stop.val = (head+k)%pfNum ∧
        (∀ fuel, sweep fuel rbit head =
          if k < fuel then some (stop, fun f => if Passed head k f then 0 else rbit f) else none) ∧
        (∀ f, Passed head k f → rbit f ≠ 0) ∧
        (rbit stop = 0 ∨ (∀ f, rbit f ≠ 0) ∧ stop.val = head)) ∧
    (∀ (refs : List Psr) (k : ℕ), k ≤ refs.length →
      ∃ s, (sc pfNum).stateAt refs k = some s ∧
        s.aux.head < pfNum ∧ ∀ f, s.aux.rbit f = 0 ∨ s.aux.rbit f = 1) := by
  refine ⟨fun head rbit hh => ?_, fun refs k hk => (sc_bits hpf).stateAt refs hk⟩
  obtain ⟨k, hk, hset, hend⟩ := exists_arc rbit head
  let stop : Fin pfNum := ⟨(head+k)%pfNum, Nat.mod_lt _ hpf⟩
  refine ⟨k, hk, stop, rfl, ?_, hset, ?_⟩
  · intro fuel
    split_ifs with hlt
    · obtain ⟨more, rfl⟩ := Nat.exists_eq_add_of_lt hlt
      rw [Nat.add_assoc, sweep_advance _ hh hk hset, sweep_stop hh hk hend (f := stop) rfl]
      rfl
    · -- all iterations allowed are spent on set bits
      have hle : fuel ≤ k := Nat.le_of_not_lt hlt
      have hspent := sweep_advance (k := fuel) 0 hh (hle.trans hk)
        fun f ⟨j, hj, he⟩ => hset f ⟨j, hj.trans_le hle, he⟩
      exact hspent
  · rcases Nat.lt_or_eq_of_le hk with hlt | he
    · exact Or.inl (hend hlt stop rfl)
    · refine Or.inr ⟨fun f => hset f (he ▸ passed_round hh f), ?_⟩
      show (head+k)%pfNum = head
      rw [he, Nat.add_mod_right, Nat.mod_eq_of_lt hh]

theorem sc_sweep_three :
    (∃ k ≤ 3, ∃ stop, sweep 4 (fun f : Fin 3 => if f = 1 then 0 else 1) 2 =
      if k < 4 then some (stop, fun f => if Passed 2 k f then 0 else if f = 1 then 0 else 1) else none) ∧
    ∃ s, (sc 3).stateAt [⟨7, 0⟩, ⟨8, 1⟩] 2 = some s ∧ s.aux.head < 3 := by
  obtain ⟨hloop, hrun⟩ := sc_sweep (show 1 ≤ 3 by decide)
  obtain ⟨k, hk, stop, _, hsweep, _⟩ := hloop 2 (fun f => if f = 1 then 0 else 1) (by decide)
  obtain ⟨s, hs, hhead, _⟩ := hrun [⟨7, 0⟩, ⟨8, 1⟩] 2 (by decide)
  exact ⟨⟨k, hk, stop, hsweep 4⟩, s, hs, hhead⟩

end ProvenXv6.Paging
