import Mathlib.Algebra.Order.BigOperators.Group.Finset
import ProvenXv6.LogGroupCommit

namespace ProvenXv6.Log
open StepSystem

variable {P : Type*} {L : LogArea} {s s' : Group P} {e : GroupEvent P} {m : ℕ}

/-- No operation calls `log_write` on more than m distinct blocks. -/
def AtMost (m : ℕ) (s : Group P) (e : GroupEvent P) (_ : Group P) : Prop :=
  match e with
  | .logWrite p b => (insert b.blockno (s.written p)).card ≤ m
  | _ => True

instance : Decidable (AtMost m s e s') :=
  match e with
  | .logWrite p b => inferInstanceAs (Decidable ((insert b.blockno (s.written p)).card ≤ m))
  | .beginOp _ => inferInstanceAs (Decidable True)
  | .rouse _ => inferInstanceAs (Decidable True)
  | .record _ => inferInstanceAs (Decidable True)
  | .endOp _ => inferInstanceAs (Decidable True)
  | .commit _ => inferInstanceAs (Decidable True)

/-- How many more blocks the operation of p can put into the header. -/
def Group.owed (m : ℕ) (s : Group P) (p : P) : ℕ :=
  m-(s.written p ∩ s.log.lh.block.toFinset).card

theorem sum_owed_le (s : Group P) (ps : Finset P) : ∑ p ∈ ps, s.owed m p ≤ ps.card*m :=
  calc
    _ ≤ ∑ _ ∈ ps, m := Finset.sum_le_sum fun _ _ => Nat.sub_le ..
    _ = _ := Finset.sum_const_nat fun _ _ => rfl

theorem owed_anti {p : P} (hw : s.written p ⊆ s'.written p)
    (hlh : ∀ b ∈ s.log.lh.block, b ∈ s'.log.lh.block) : s'.owed m p ≤ s.owed m p := by
  refine Nat.sub_le_sub_left (Finset.card_le_card fun b hb => ?_) m
  simp only [Finset.mem_inter, List.mem_toFinset] at hb ⊢
  exact ⟨hw hb.1, hlh b hb.2⟩

/-- A block that is new in the header is paid for by the operation that logs it. -/
theorem owed_lt {p : P} {b : BlockNo} (hw : s'.written p = s.written p) (hb : b ∈ s.written p)
    (hcard : (s.written p).card ≤ m) (hnew : b ∉ s.log.lh.block)
    (hlh : s'.log.lh.block = s.log.lh.block ++ [b]) : s'.owed m p < s.owed m p := by
  have hfilter : s'.written p ∩ s'.log.lh.block.toFinset =
      insert b (s.written p ∩ s.log.lh.block.toFinset) := by
    ext c
    simp only [hw, hlh, Finset.mem_inter, Finset.mem_insert, List.mem_toFinset, List.mem_append,
      List.mem_singleton]
    grind
  have hle : (insert b (s.written p ∩ s.log.lh.block.toFinset)).card ≤
      (s.written p).card := by
    rw [← hfilter, hw]
    exact Finset.card_le_card Finset.inter_subset_left
  have hnb : b ∉ s.written p ∩ s.log.lh.block.toFinset := by simp [hnew]
  unfold Group.owed
  rw [hfilter, Finset.card_insert_of_notMem hnb]
  rw [Finset.card_insert_of_notMem hnb] at hle
  omega

variable [Fintype P]

/-- The header and all that the operations can still add to it. -/
structure Reserved (m : ℕ) (s : Group P) : Prop where
  card : ∀ p, (s.phase p).inside → (s.written p).card ≤ m
  logged : ∀ p b, s.phase p = .logging b → b.blockno ∈ s.written p
  room : s.log.lh.block.length+∑ p ∈ s.ops, s.owed m p ≤ MAXOPBLOCKS+2*m

theorem reserved_start (d : Disk) : Reserved m (.start d : Group P) := by
  refine ⟨?_, ?_, ?_⟩ <;> simp [Group.start, Group.ops, Phase.inside, LogHeader.empty]

theorem room_of_le (h : Reserved m s) (hops : s'.ops ⊆ s.ops)
    (hlen : s'.log.lh.block.length ≤ s.log.lh.block.length)
    (howed : ∀ p ∈ s'.ops, s'.owed m p ≤ s.owed m p) :
    s'.log.lh.block.length+∑ p ∈ s'.ops, s'.owed m p ≤ MAXOPBLOCKS+2*m :=
  calc
    _ ≤ s.log.lh.block.length+∑ p ∈ s'.ops, s.owed m p :=
      Nat.add_le_add hlen (Finset.sum_le_sum howed)
    _ ≤ s.log.lh.block.length+∑ p ∈ s.ops, s.owed m p :=
      Nat.add_le_add_left (Finset.sum_le_sum_of_subset hops) _
    _ ≤ _ := h.room

/-- With no operation under way the log is empty; with one it has 10 blocks at most,
and with two none. -/
theorem room_for_one_more (hm : m ≤ MAXOPBLOCKS) (hs : Sound s) (hc : s.committing = false)
    (hr : s.log.lh.block.length+(s.log.outstanding+1)*MAXOPBLOCKS ≤ LOGSIZE) :
    s.log.lh.block.length+(s.ops.card+1)*m ≤ MAXOPBLOCKS+2*m := by
  rw [hs.count] at hr
  have hempty : s.ops.card = 0 → s.log.lh.block.length = 0 := by
    intro h0
    have hout : ∀ p, (s.phase p).inside = false := by
      intro p
      have hp : p ∉ s.ops := by simp [Finset.card_eq_zero.mp h0]
      simpa [Group.mem_ops] using hp
    rw [hs.drained hc hout]
    rfl
  simp only [MAXOPBLOCKS, LOGSIZE] at hm hr ⊢
  have hcard : s.ops.card = 0 ∨ s.ops.card = 1 ∨ s.ops.card = 2 := by omega
  rcases hcard with h0 | h1 | h2
  · rw [h0, hempty h0]
    omega
  · rw [h1] at hr ⊢
    omega
  · rw [h2] at hr ⊢
    omega

theorem Reserved.same (h : Reserved m s) (hin : ∀ q, (s'.phase q).inside → (s.phase q).inside)
    (hlog : ∀ q b, s'.phase q = .logging b → s.phase q = .logging b)
    (hlh : s'.log.lh = s.log.lh) (hw : s'.written = s.written) : Reserved m s' := by
  refine ⟨fun q hq => hw ▸ h.card q (hin q hq), fun q b hq => hw ▸ h.logged q b (hlog q b hq), ?_⟩
  refine room_of_le h (fun q hq => ?_) (by rw [hlh]) fun q _ => owed_anti (by rw [hw]) (by simp [hlh])
  exact Group.mem_ops.mpr (hin q (Group.mem_ops.mp hq))

variable [DecidableEq P]

theorem Reserved.enter (hm : m ≤ MAXOPBLOCKS) (hs : Sound s) (h : Reserved m s) {p : P}
    (hp : s.phase p = .idle ∨ s.phase p = .entering) (hc : s.committing = false)
    (hr : s.log.lh.block.length+(s.log.outstanding+1)*MAXOPBLOCKS ≤ LOGSIZE) :
    Reserved m { s.setPhase p .inOp with
      log := { s.log with outstanding := s.log.outstanding+1 }
      written := Function.update s.written p ∅ } := by
  have hnp : p ∉ s.ops := by grind [Group.mem_ops]
  refine ⟨fun q hq => ?_, fun q b hq => ?_, ?_⟩
  · by_cases hqp : q = p
    · simp [hqp]
    · simpa [hqp] using h.card q (by grind)
  · have hqp : q ≠ p := by grind
    simpa [hqp] using h.logged q b (by grind)
  · rw [ops_insert (s := s) (p := p) (by grind) (by grind)]
    refine (Nat.add_le_add_left (sum_owed_le _ _) _).trans ?_
    rw [Finset.card_insert_of_notMem hnp]
    exact room_for_one_more (s := s) hm hs hc hr

theorem Reserved.record (h : Reserved m s) {p : P} {b : Buf} {log : LogState}
    (hp : s.phase p = .logging b) (hlog : s.log.record b = some log) :
    Reserved m { s.setPhase p .inOp with log := log } := by
  refine ⟨fun q hq => h.card q (by grind), fun q x hq => h.logged q x (by grind), ?_⟩
  have hops : Group.ops { s.setPhase p .inOp with log := log } = s.ops := by
    ext q
    simp only [Group.mem_ops]
    grind
  obtain ⟨-, -, ⟨hmem, hlh⟩ | ⟨hnew, hlh⟩⟩ := record_some hlog
  · exact room_of_le h hops.subset (by simp [hlh]) fun q _ => owed_anti subset_rfl (by simp [hlh])
  · have hpin : p ∈ s.ops := by grind [Group.mem_ops]
    -- p pays for the new entry, and nobody else owes more than before
    have hlt : ∑ q ∈ s.ops, Group.owed m { s.setPhase p .inOp with log := log } q <
        ∑ q ∈ s.ops, s.owed m q := by
      refine Finset.sum_lt_sum (fun q _ => owed_anti subset_rfl (by simp [hlh]; grind)) ⟨p, hpin, ?_⟩
      exact owed_lt rfl (h.logged p b hp) (h.card p (by grind)) hnew hlh
    have hroom := h.room
    rw [hops]
    simp only [hlh, List.length_append, List.length_singleton] at hlt ⊢
    omega

/-- There is no operation during a commit, which at most empties the header. -/
theorem Reserved.commit (h : Reserved m s) (hs : Sound s) {p : P} {stage : Stage}
    (hp : s.phase p = .commit stage) (hdone : Commits s p stage s') : Reserved m s' := by
  have hin := hs.commit_inside hp hdone
  have hlen : s'.log.lh.block.length ≤ s.log.lh.block.length := by
    cases hdone with
    | clear _ _ _ hlh => simp [hlh, LogHeader.empty]
    | next _ _ _ hlh => rw [hlh]
    | done _ _ _ hlh => rw [hlh]
  refine ⟨fun q hq => ?_, fun q b hq => ?_, room_of_le h (fun q hq => ?_) hlen fun q hq => ?_⟩
  all_goals
    have hout := hin q
    grind [Group.mem_ops]

theorem reserved_step (hm : m ≤ MAXOPBLOCKS) (hs : Sound s) (h : Reserved m s)
    (hstep : s.step L e = some s') (hat : AtMost m s e s') : Reserved m s' := by
  cases step_turn hstep with
  | sleep p hp =>
    exact h.same (by grind) (by grind) rfl rfl
  | enter p hp hc hr => exact h.enter hm hs hp hc hr
  | rouse p hp => exact h.same (by grind) (by grind) rfl rfl
  | test p b hp =>
    refine ⟨fun q hq => ?_, fun q x hq => ?_, room_of_le h (fun q hq => ?_) le_rfl fun q _ => ?_⟩
    · by_cases hqp : q = p
      · subst hqp
        simp only [Function.update_self]
        exact hat
      · simpa [hqp] using h.card q (by grind)
    · by_cases hqp : q = p
      · subst hqp
        have hx : b = x := by grind
        simp [hx]
      · simpa [hqp] using h.logged q x (by grind)
    · simp only [Group.mem_ops] at hq ⊢
      grind
    · refine owed_anti ?_ fun _ hx => hx
      by_cases hqp : q = p
      · subst hqp
        simp [Finset.subset_insert]
      · simp [hqp]
  | record p b log hp hlog => exact h.record hp hlog
  | more p hp hc ho => exact h.same (by grind [Group.wakeup]) (by grind [Group.wakeup]) rfl rfl
  | last p hp hc ho => exact h.same (by grind) (by grind) rfl rfl
  | commit p stage s' hp hcommit =>
    obtain ⟨-, -, hdone⟩ := commits_of_commitStage hcommit
    exact h.commit hs hp hdone

theorem reserved_run {d : Disk} {es : List (GroupEvent P)} (hm : m ≤ MAXOPBLOCKS)
    (h : Run (Group.step L) (AtMost m) (.start d) es s) : Reserved m s := by
  have hboth : Sound s ∧ Reserved m s :=
    h.invariant (I := fun s => Sound s ∧ Reserved m s) ⟨sound_start d, reserved_start d⟩
      fun _ _ _ hi hs hat => ⟨sound_step hi.1 hs, reserved_step hm hi.1 hi.2 hs hat⟩
  exact hboth.2

omit [Fintype P] in
theorem tooBig_of_panics {p : P} {b : Buf} (h : s.panics L (.logWrite p b) = some .tooBig) :
    s.log.TooBig L := by
  by_contra hbig
  cases hp : s.phase p with
  | inOp =>
    simp only [Group.panics, Group.call, hp, Group.logWrite, if_neg hbig] at h
    split_ifs at h
    cases h
  | _ => simp [Group.panics, Group.call, hp] at h

/-- Ten calls of `log_write` on blocks of its own. -/
def fill (p : Fin 3) : List (GroupEvent (Fin 3)) :=
  (List.range MAXOPBLOCKS).flatMap fun i =>
    [.logWrite p ⟨BitVec.ofNat 32 (100+10*p+i), fun _ => 0⟩, .record p]

/-- Three operations of ten blocks each up to the last call. -/
def threeFull : List (GroupEvent (Fin 3)) :=
  [.beginOp 0, .beginOp 1, .beginOp 2] ++ fill 0 ++ fill 1 ++ (fill 2).take 18

theorem exec_threeFull : ∃ s ∈ exec (guarded (Group.step mkfsLog) (AtMost MAXOPBLOCKS))
    (.start fun _ _ => 0) threeFull, AtMost MAXOPBLOCKS s (.logWrite 2 ⟨129, fun _ => 0⟩) s ∧
    s.panics mkfsLog (.logWrite 2 ⟨129, fun _ => 0⟩) = some .tooBig := by
  decide +kernel

/-- With the log that mkfs makes, no call of `log_write` by operations on at most m
distinct blocks each is too big a transaction. -/
def SpaceSuffices (m : ℕ) : Prop :=
  ∀ (P : Type) [Fintype P] [DecidableEq P] (L : LogArea) (d : Disk) (es : List (GroupEvent P))
    (s : Group P) (p : P) (b : Buf), L.size = LOGSIZE →
    Run (Group.step L) (AtMost m) (.start d) es s → AtMost m s (.logWrite p b) s →
    s.panics L (.logWrite p b) ≠ some .tooBig

/-- The reservation of MAXOPBLOCKS blocks is good for one block less: the header takes
one of the LOGSIZE blocks of the log. -/
theorem spaceSuffices_iff (m : ℕ) : SpaceSuffices m ↔ m < MAXOPBLOCKS := by
  constructor
  · intro h
    by_contra hm
    obtain ⟨s, hs, hcard, hpanic⟩ := exec_threeFull
    have hmono (s : Group (Fin 3)) (e : GroupEvent (Fin 3)) (s' : Group (Fin 3))
        (hat : AtMost MAXOPBLOCKS s e s') : AtMost m s e s' := by
      cases e with
      | logWrite p b => exact le_trans hat (not_lt.mp hm)
      | _ => trivial
    exact h (Fin 3) mkfsLog _ _ s 2 _ rfl ((run_guarded hs).mono fun s e s' _ => hmono s e s')
      (hmono s _ s hcard) hpanic
  · -- with m at most 9 the header has 10+2*9 = 28 entries at most, and the test asks for 29
    intro hm P _ _ L d es s p b hsize hrun _ hpanic
    have hroom := (reserved_run hm.le hrun).room
    have hbig := tooBig_of_panics hpanic
    simp only [LogState.TooBig, hsize, MAXOPBLOCKS, LOGSIZE] at hroom hbig hm
    omega

/-- Three operations of ten blocks each are admitted, and the last call panics. -/
theorem third_operation_tooBig : ∃ s : Group (Fin 3),
    Run (Group.step mkfsLog) (AtMost MAXOPBLOCKS) (.start fun _ _ => 0) threeFull s ∧
    AtMost MAXOPBLOCKS s (.logWrite 2 ⟨129, fun _ => 0⟩) s ∧
    s.panics mkfsLog (.logWrite 2 ⟨129, fun _ => 0⟩) = some .tooBig := by
  obtain ⟨s, hs, hcard, hpanic⟩ := exec_threeFull
  exact ⟨s, run_guarded hs, hcard, hpanic⟩

end ProvenXv6.Log
