import Mathlib.Data.Fintype.Basic
import Mathlib.Data.Finset.Card
import ProvenXv6.LogGroup
import ProvenXv6.StepSystem

namespace ProvenXv6.Log
open StepSystem

variable {P : Type*} [DecidableEq P] {L : LogArea} {s s' t : Group P} {e : GroupEvent P}

attribute [grind] Phase.inside

@[grind =]
theorem Phase.wake_inside (ph : Phase) : ph.wake.inside = ph.inside := by cases ph <;> rfl

@[grind =]
theorem Phase.wake_eq_commit (ph : Phase) (st : Stage) : ph.wake = .commit st ↔ ph = .commit st := by
  cases ph <;> simp [Phase.wake]

@[grind =]
theorem Phase.wake_eq_logging (ph : Phase) (b : Buf) : ph.wake = .logging b ↔ ph = .logging b := by
  cases ph <;> simp [Phase.wake]

namespace Group

@[grind =]
theorem setPhase_phase (s : Group P) (p : P) (ph : Phase) (q : P) :
    (s.setPhase p ph).phase q = if q = p then ph else s.phase q := by
  by_cases h : q = p
  · subst h
    simp [setPhase]
  · simp [setPhase, h]

omit [DecidableEq P] in
@[grind =]
theorem wakeup_phase (s : Group P) (q : P) : s.wakeup.phase q = (s.phase q).wake := rfl

def ops [Fintype P] (s : Group P) : Finset P := Finset.univ.filter fun p => (s.phase p).inside

end Group

inductive Turn (L : LogArea) (s : Group P) : GroupEvent P → Group P → Prop
  | sleep (p : P) (hp : s.phase p = .idle ∨ s.phase p = .entering) :
      Turn L s (.beginOp p) (s.setPhase p .asleep)
  | enter (p : P) (hp : s.phase p = .idle ∨ s.phase p = .entering) (hc : s.committing = false)
      (hr : s.log.lh.block.length+(s.log.outstanding+1)*MAXOPBLOCKS ≤ LOGSIZE) :
      Turn L s (.beginOp p) { s.setPhase p .inOp with
        log := { s.log with outstanding := s.log.outstanding+1 }
        written := Function.update s.written p ∅ }
  | rouse (p : P) (hp : s.phase p = .asleep) : Turn L s (.rouse p) (s.setPhase p .entering)
  | test (p : P) (b : Buf) (hp : s.phase p = .inOp) :
      Turn L s (.logWrite p b) { s.setPhase p (.logging b) with
        written := Function.update s.written p (insert b.blockno (s.written p)) }
  | record (p : P) (b : Buf) (log : LogState) (hp : s.phase p = .logging b)
      (hlog : s.log.record b = some log) :
      Turn L s (.record p) { s.setPhase p .inOp with log := log }
  | more (p : P) (hp : s.phase p = .inOp) (hc : s.committing = false)
      (ho : s.log.outstanding-1 ≠ 0) :
      Turn L s (.endOp p) { s.wakeup.setPhase p .idle with
        log := { s.log with outstanding := s.log.outstanding-1 } }
  | last (p : P) (hp : s.phase p = .inOp) (hc : s.committing = false)
      (ho : s.log.outstanding-1 = 0) :
      Turn L s (.endOp p) { s.setPhase p (.commit .writeLog) with
        log := { s.log with outstanding := s.log.outstanding-1 }
        committing := true }
  | commit (p : P) (stage : Stage) (s' : Group P) (hp : s.phase p = .commit stage)
      (hs : s.commitStage L p stage = some s') : Turn L s (.commit p) s'

theorem step_turn (h : s.step L e = some s') : Turn L s e s' := by
  have hcall : s.call L e = some (.ok s') := by
    unfold Group.step at h
    split at h
    · rename_i u hu
      rw [hu, Option.some.inj h]
    · cases h
  cases e with
  | beginOp p =>
    have hp : (s.phase p = .idle ∨ s.phase p = .entering) ∧ s.beginOp p = s' := by
      simp only [Group.call] at hcall
      split at hcall <;> simp_all
    obtain ⟨hp, rfl⟩ := hp
    unfold Group.beginOp
    split_ifs with hc hr
    · exact .sleep p hp
    · exact .sleep p hp
    · exact .enter p hp (by simpa using hc) (not_lt.mp hr)
  | rouse p =>
    simp only [Group.call] at hcall
    split at hcall
    · rename_i hp
      obtain rfl : s.setPhase p .entering = s' := by simpa using hcall
      exact .rouse p hp
    · cases hcall
  | logWrite p b =>
    simp only [Group.call] at hcall
    split at hcall
    · rename_i hp
      have hw : s.logWrite L p b = .ok s' := Option.some.inj hcall
      unfold Group.logWrite at hw
      split_ifs at hw
      obtain rfl := Except.ok.inj hw
      exact .test p b hp
    · cases hcall
  | record p =>
    simp only [Group.call] at hcall
    split at hcall
    · rename_i b hp
      obtain ⟨log, hlog, hs⟩ := Option.map_eq_some_iff.mp hcall
      obtain rfl := Except.ok.inj hs
      exact .record p b log hp hlog
    · cases hcall
  | endOp p =>
    simp only [Group.call] at hcall
    split at hcall
    · rename_i hp
      have hw : s.endOp p = .ok s' := Option.some.inj hcall
      unfold Group.endOp at hw
      dsimp only at hw
      split_ifs at hw with hc ho
      · obtain rfl := Except.ok.inj hw
        exact .last p hp (by simpa using hc) ho
      · obtain rfl := Except.ok.inj hw
        exact .more p hp (by simpa using hc) ho
    · cases hcall
  | commit p =>
    simp only [Group.call] at hcall
    split at hcall
    · rename_i stage hp
      obtain ⟨u, hu, hs⟩ := Option.map_eq_some_iff.mp hcall
      obtain rfl := Except.ok.inj hs
      exact .commit p stage u hp hu
    · cases hcall

@[grind]
def Stage.next : Stage → Stage
  | .writeLog => .writeHead
  | .writeHead => .installTrans
  | .installTrans => .clear
  | .clear => .erase
  | .erase => .done
  | .done => .done

/-- What the next part of `commit` by p does; a transaction without blocks is not
written. -/
inductive Commits (s : Group P) (p : P) (stage : Stage) (s' : Group P) : Prop
  | next (stage' : Stage) (hphase : ∀ q, s'.phase q = if q = p then .commit stage' else s.phase q)
      (hc : s'.committing = s.committing) (hlh : s'.log.lh = s.log.lh)
      (hnext : stage' = stage.next ∧ stage ≠ .clear ∧ stage ≠ .done ∨
        stage = .writeLog ∧ stage' = .done ∧ s.log.lh = .empty)
      (hall : s'.committed =
        if stage = .writeHead then s.committed ++ [s.log.lh] else s.committed)
  | clear (hstage : stage = .clear)
      (hphase : ∀ q, s'.phase q = if q = p then .commit .erase else s.phase q)
      (hc : s'.committing = s.committing) (hlh : s'.log.lh = .empty)
      (hall : s'.committed = s.committed)
  | done (hstage : stage = .done) (hphase : ∀ q, s'.phase q = if q = p then .idle else (s.phase q).wake)
      (hc : s'.committing = false) (hlh : s'.log.lh = s.log.lh) (hall : s'.committed = s.committed)

theorem commits_of_commitStage {p : P} {stage : Stage} (h : s.commitStage L p stage = some s') :
    s'.log.outstanding = s.log.outstanding ∧ s'.written = s.written ∧ Commits s p stage s' := by
  cases stage with
  | writeLog =>
    simp only [Group.commitStage] at h
    split_ifs at h with hn
    · obtain ⟨d, -, rfl⟩ := Option.map_eq_some_iff.mp h
      exact ⟨rfl, rfl, .next .writeHead (by grind) rfl rfl (Or.inl ⟨rfl, by decide, by decide⟩) rfl⟩
    · obtain rfl := Option.some.inj h
      have hempty : s.log.lh = .empty := by
        apply LogHeader.ext
        exact List.length_eq_zero_iff.mp (by omega)
      exact ⟨rfl, rfl, .next .done (by grind) rfl rfl (Or.inr ⟨rfl, rfl, hempty⟩) rfl⟩
  | writeHead =>
    simp only [Group.commitStage] at h
    obtain ⟨d, -, rfl⟩ := Option.map_eq_some_iff.mp h
    exact ⟨rfl, rfl, .next .installTrans (by grind) rfl rfl (Or.inl ⟨rfl, by decide, by decide⟩) rfl⟩
  | installTrans =>
    simp only [Group.commitStage] at h
    obtain ⟨d, -, rfl⟩ := Option.map_eq_some_iff.mp h
    exact ⟨rfl, rfl, .next .clear (by grind) rfl rfl (Or.inl ⟨rfl, by decide, by decide⟩) rfl⟩
  | clear =>
    simp only [Group.commitStage] at h
    obtain rfl := Option.some.inj h
    exact ⟨rfl, rfl, .clear rfl (by grind) rfl rfl rfl⟩
  | erase =>
    simp only [Group.commitStage] at h
    obtain ⟨d, -, rfl⟩ := Option.map_eq_some_iff.mp h
    exact ⟨rfl, rfl, .next .done (by grind) rfl rfl (Or.inl ⟨rfl, by decide, by decide⟩) rfl⟩
  | done =>
    simp only [Group.commitStage] at h
    obtain rfl := Option.some.inj h
    exact ⟨rfl, rfl, .done rfl (by grind) rfl rfl rfl⟩

theorem record_some {l l' : LogState} {b : Buf} (h : l.record b = some l') :
    l'.outstanding = l.outstanding ∧ b.blockno ∈ l'.lh.block ∧
      (b.blockno ∈ l.lh.block ∧ l'.lh = l.lh ∨
        b.blockno ∉ l.lh.block ∧ l'.lh.block = l.lh.block ++ [b.blockno]) := by
  unfold LogState.record at h
  simp only [List.contains_iff_mem] at h
  split_ifs at h with hmem hlen
  · obtain rfl := Option.some.inj h
    exact ⟨rfl, hmem, Or.inl ⟨hmem, rfl⟩⟩
  · obtain rfl := Option.some.inj h
    exact ⟨rfl, by simp, Or.inr ⟨hmem, rfl⟩⟩

section Sound
variable [Fintype P]

omit [DecidableEq P] in
theorem Group.mem_ops {p : P} : p ∈ s.ops ↔ (s.phase p).inside := by
  simp [Group.ops]

theorem ops_insert {p : P} (h : ∀ q, q ≠ p → (s'.phase q).inside = (s.phase q).inside)
    (hp : (s'.phase p).inside) : s'.ops = insert p s.ops := by
  ext q
  simp only [Group.mem_ops, Finset.mem_insert]
  grind

theorem ops_erase {p : P} (h : ∀ q, q ≠ p → (s'.phase q).inside = (s.phase q).inside)
    (hp : (s'.phase p).inside = false) : s'.ops = s.ops.erase p := by
  ext q
  simp only [Group.mem_ops, Finset.mem_erase]
  grind

/-- The counter counts the operations, one process at most is in `commit`, and
then there is no operation; the log is empty when there is neither. -/
structure Sound (s : Group P) : Prop where
  count : s.log.outstanding = s.ops.card
  lone : ∀ p q st st', s.phase p = .commit st → s.phase q = .commit st' → p = q
  flag : s.committing = true ↔ ∃ p st, s.phase p = .commit st
  still : s.committing = true → ∀ p, (s.phase p).inside = false
  drained : s.committing = false → (∀ p, (s.phase p).inside = false) → s.log.lh = .empty
  emptied : ∀ p st, s.phase p = .commit st → st = .erase ∨ st = .done → s.log.lh = .empty
  held : ∀ p, (s.phase p).inside → ∀ b ∈ s.written p,
    b ∈ s.log.lh.block ∨ ∃ x : Buf, s.phase p = .logging x ∧ x.blockno = b

omit [DecidableEq P] in
theorem sound_start (d : Disk) : Sound (.start d : Group P) := by
  constructor <;> simp [Group.start, Group.ops, Phase.inside]

omit [DecidableEq P] in
/-- A step after which the same processes are inside an operation and the same in
`commit`; the log changes only when there is an operation. -/
theorem Sound.keep (h : Sound s) (hin : ∀ q, (s'.phase q).inside = (s.phase q).inside)
    (hcommit : ∀ q st, s'.phase q = .commit st ↔ s.phase q = .commit st)
    (hc : s'.committing = s.committing) (ho : s'.log.outstanding = s.log.outstanding)
    (hlh : s'.log.lh = s.log.lh ∨ ∃ p, (s.phase p).inside)
    (hheld : ∀ p, (s'.phase p).inside → ∀ b ∈ s'.written p,
      b ∈ s'.log.lh.block ∨ ∃ x : Buf, s'.phase p = .logging x ∧ x.blockno = b) : Sound s' := by
  have hops : s'.ops = s.ops := by
    ext q
    rw [Group.mem_ops, Group.mem_ops, hin]
  constructor
  · rw [ho, hops]
    exact h.count
  · have hlone := h.lone
    grind
  · have hflag := h.flag
    grind
  · have hstill := h.still
    grind
  · have hdrained := h.drained
    grind
  · intro p st hp hst
    rw [hcommit] at hp
    rcases hlh with hlh | ⟨q, hq⟩
    · rw [hlh]
      exact h.emptied p st hp hst
    · rw [h.still (h.flag.mpr ⟨p, st, hp⟩) q] at hq
      cases hq
  · exact hheld

theorem Sound.enter (h : Sound s) {p : P} (hp : s.phase p = .idle ∨ s.phase p = .entering)
    (hc : s.committing = false) : Sound { s.setPhase p .inOp with
      log := { s.log with outstanding := s.log.outstanding+1 }
      written := Function.update s.written p ∅ } := by
  have hnp : p ∉ s.ops := by grind [Group.mem_ops]
  constructor
  · rw [ops_insert (s := s) (p := p) (by grind) (by grind), Finset.card_insert_of_notMem hnp]
    have hcount := h.count
    push_cast
    omega
  · have hlone := h.lone
    grind
  · have hflag := h.flag
    grind [Group.setPhase]
  · grind [Group.setPhase]
  · intro _ hout
    have hpin := hout p
    grind
  · have hflag := h.flag
    grind
  · intro q hq b hb
    have hheld := h.held q
    by_cases hqp : q = p
    · simp [hqp] at hb
    · grind [Function.update_of_ne]

theorem Sound.count_erase (h : Sound s) {p : P} (hp : s.phase p = .inOp) :
    s.log.outstanding-1 = (s.ops.erase p).card := by
  have hmem : p ∈ s.ops := by grind [Group.mem_ops]
  have hpos := Finset.card_pos.mpr ⟨p, hmem⟩
  rw [h.count, Finset.card_erase_of_mem hmem]
  omega

theorem Sound.more (h : Sound s) {p : P} (hp : s.phase p = .inOp) (hc : s.committing = false)
    (ho : s.log.outstanding-1 ≠ 0) : Sound { s.wakeup.setPhase p .idle with
      log := { s.log with outstanding := s.log.outstanding-1 } } := by
  have hcount := h.count_erase hp
  constructor
  · rw [ops_erase (s := s) (p := p) (by grind) (by grind)]
    exact hcount
  · have hlone := h.lone
    grind
  · have hflag := h.flag
    grind [Group.setPhase, Group.wakeup]
  · grind [Group.setPhase, Group.wakeup]
  · intro _ hout
    -- another operation is left
    obtain ⟨q, hq⟩ : (s.ops.erase p).Nonempty := Finset.card_pos.mp (by omega)
    have hqin := hout q
    grind [Group.mem_ops]
  · have hflag := h.flag
    grind
  · intro q hq b hb
    have hheld := h.held q (by grind) b hb
    grind

theorem Sound.last (h : Sound s) {p : P} (hp : s.phase p = .inOp) (hc : s.committing = false)
    (ho : s.log.outstanding-1 = 0) : Sound { s.setPhase p (.commit .writeLog) with
      log := { s.log with outstanding := s.log.outstanding-1 }
      committing := true } := by
  have hcount := h.count_erase hp
  have hnone : s.ops.erase p = ∅ := Finset.card_eq_zero.mp (by omega)
  have hflag := h.flag
  constructor
  · rw [ops_erase (s := s) (p := p) (by grind) (by grind), hnone]
    exact ho
  · grind
  · simp only [true_iff]
    exact ⟨p, .writeLog, by grind⟩
  · intro _ q
    have hq : q ∉ s.ops.erase p := by simp [hnone]
    grind [Group.mem_ops]
  · nofun
  · grind
  · intro q hq
    have hq' : q ∉ s.ops.erase p := by simp [hnone]
    grind [Group.mem_ops]

theorem Sound.commit_inside (h : Sound s) {p : P} {stage : Stage}
    (hp : s.phase p = .commit stage) (hs : Commits s p stage s') (q : P) :
    (s'.phase q).inside = false := by
  have hstill := h.still (h.flag.mpr ⟨p, stage, hp⟩)
  cases hs <;> grind

theorem Sound.commit (h : Sound s) {p : P} {stage : Stage} (hp : s.phase p = .commit stage)
    (ho : s'.log.outstanding = s.log.outstanding) (hs : Commits s p stage s') : Sound s' := by
  have hcount := h.count
  have hlone := h.lone
  have hflag := h.flag
  have hc := hflag.mpr ⟨p, stage, hp⟩
  have hstill := h.still hc
  have hemptied := h.emptied p stage hp
  have hin := h.commit_inside hp hs
  have hops : s'.ops = s.ops := by
    ext q
    simp [Group.mem_ops, hin, hstill]
  constructor
  · rw [ho, hops]
    exact hcount
  · cases hs <;> grind
  · cases hs with
    | next stage' hphase hc' _ _ _ =>
      rw [hc', hc]
      simp only [true_iff]
      exact ⟨p, stage', by grind⟩
    | clear _ hphase hc' _ _ =>
      rw [hc', hc]
      simp only [true_iff]
      exact ⟨p, .erase, by grind⟩
    | done _ hphase hc' _ _ => grind
  · exact fun _ => hin
  · cases hs <;> grind
  · cases hs with
    -- the stage before `erase` is `clear`, the one before `done` is `erase` or an
    -- empty transaction
    | next stage' hphase _ hlh hnext _ => cases stage <;> grind
    | clear _ hphase _ hlh _ => grind
    | done _ hphase _ hlh _ => grind
  · intro q hq
    rw [hin] at hq
    cases hq

theorem sound_step (h : Sound s) (hs : s.step L e = some s') : Sound s' := by
  cases step_turn hs with
  | sleep p hp =>
    exact h.keep (by grind) (by grind) rfl rfl (Or.inl rfl) (by grind [h.held, Group.setPhase])
  | enter p hp hc hr => exact h.enter hp hc
  | rouse p hp =>
    exact h.keep (by grind) (by grind) rfl rfl (Or.inl rfl) (by grind [h.held, Group.setPhase])
  | test p b hp =>
    refine h.keep (by grind) (by grind) rfl rfl (Or.inl rfl) fun q hq c hc => ?_
    by_cases hqp : q = p
    · subst hqp
      rcases Finset.mem_insert.mp (by simpa using hc) with rfl | hc
      · exact Or.inr ⟨b, by grind, rfl⟩
      · have hheld := h.held q (by grind) c hc
        grind [Group.setPhase]
    · have hheld := h.held q (by grind) c (by simpa [hqp] using hc)
      grind [Group.setPhase]
  | record p b log hp hlog =>
    obtain ⟨ho, hb, hlh⟩ := record_some hlog
    have hsub (c : BlockNo) (hc : c ∈ s.log.lh.block) : c ∈ log.lh.block := by grind
    refine h.keep (by grind) (by grind) rfl ho (Or.inr ⟨p, by grind⟩) fun q hq c hc => ?_
    rcases h.held q (by grind) c hc with hc | ⟨x, hx, rfl⟩
    · exact Or.inl (hsub c hc)
    · -- the block that p was logging is in the header now
      by_cases hqp : q = p
      · subst hqp
        obtain rfl : b = x := by grind
        exact Or.inl hb
      · exact Or.inr ⟨x, by grind, rfl⟩
  | more p hp hc ho => exact h.more hp hc ho
  | last p hp hc ho => exact h.last hp hc ho
  | commit p stage s' hp hcommit =>
    obtain ⟨ho, -, hc⟩ := commits_of_commitStage hcommit
    exact h.commit hp ho hc

end Sound

end ProvenXv6.Log
