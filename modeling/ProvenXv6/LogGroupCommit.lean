import ProvenXv6.LogGroupSound

namespace ProvenXv6.Log
open StepSystem

variable {P : Type*} [DecidableEq P] {L : LogArea} {s s' t : Group P} {e : GroupEvent P} {p : P}
  {k : ℕ} {b : BlockNo}

/-- Block b is in the transaction number k, or still in the header that will be it. -/
def InTransaction (k : ℕ) (b : BlockNo) (s : Group P) : Prop :=
  match s.committed[k]? with
  | some lh => b ∈ lh.block
  | none => b ∈ s.log.lh.block

/-- The same, with what keeps it so: the header that holds b has not been written. -/
def Secured (k : ℕ) (b : BlockNo) (s : Group P) : Prop :=
  (s.committed.length = k ∧ b ∈ s.log.lh.block ∧
    ∀ q st, s.phase q = .commit st → st = .writeLog ∨ st = .writeHead) ∨
  ∃ lh, s.committed[k]? = some lh ∧ b ∈ lh.block

omit [DecidableEq P] in
theorem Secured.inTransaction (h : Secured k b s) : InTransaction k b s := by
  unfold InTransaction
  rcases h with ⟨hk, hb, -⟩ | ⟨lh, hk, hb⟩
  · rw [List.getElem?_eq_none hk.le]
    exact hb
  · rw [hk]
    exact hb

variable [Fintype P]

theorem secured_step (hsound : Sound s) (h : Secured k b s)
    (hs : s.step L e = some s') : Secured k b s' := by
  have keep (hall : s'.committed = s.committed)
      (hfirst : b ∈ s.log.lh.block → b ∈ s'.log.lh.block)
      (hstage : ∀ q st, s'.phase q = .commit st → s.phase q = .commit st ∨ st = .writeLog) :
      Secured k b s' := by
    rcases h with ⟨hk, hb, hst⟩ | hlh
    · refine Or.inl ⟨hall ▸ hk, hfirst hb, fun q st hq => ?_⟩
      rcases hstage q st hq with hq | hq
      · exact hst q st hq
      · exact Or.inl hq
    · exact Or.inr (hall ▸ hlh)
  cases step_turn hs with
  | sleep p hp => exact keep rfl id (by grind)
  | enter p hp hc hr => exact keep rfl id (by grind)
  | rouse p hp => exact keep rfl id (by grind)
  | test p b hp => exact keep rfl id (by grind)
  | record p x log hp hlog =>
    obtain ⟨-, -, hlh⟩ := record_some hlog
    exact keep rfl (by grind) (by grind)
  | more p hp hc ho => exact keep rfl id (by grind)
  | last p hp hc ho => exact keep rfl id (by grind)
  | commit p stage s' hp hcommit =>
    obtain ⟨-, -, hc⟩ := commits_of_commitStage hcommit
    rcases h with ⟨hk, hb, hst⟩ | ⟨lh, hk, hb⟩
    · have hne : s.log.lh ≠ .empty := by
        intro he
        simp [he, LogHeader.empty] at hb
      have hlone := hsound.lone p
      rcases hst p stage hp with rfl | rfl
      · -- `write_log` leaves the header, and a header with a block goes on to `write_head`
        left
        cases hc <;> grind
      · right
        cases hc <;> grind
    · right
      refine ⟨lh, ?_, hb⟩
      cases hc <;> grind

theorem op_step (h : Sound s) (hp : (s.phase p).inside) (hs : s.step L e = some s')
    (he : ∀ q, e = .endOp q → q ≠ p) :
    (s'.phase p).inside ∧ s'.committed = s.committed ∧ s.written p ⊆ s'.written p ∧
      ∀ x, e = .logWrite p x → x.blockno ∈ s'.written p := by
  cases step_turn hs with
  | sleep q hq => exact ⟨by grind, rfl, subset_rfl, nofun⟩
  | enter q hq hc hr =>
    have hqp : p ≠ q := by grind
    exact ⟨by grind, rfl, by simp [hqp], nofun⟩
  | rouse q hq => exact ⟨by grind, rfl, subset_rfl, nofun⟩
  | test q x hq =>
    by_cases hqp : p = q
    · subst hqp
      refine ⟨by grind, rfl, by simp, ?_⟩
      rintro y ⟨⟩
      simp
    · refine ⟨by grind, rfl, by simp [hqp], ?_⟩
      rintro y ⟨⟩
      exact absurd rfl hqp
  | record q x log hq hlog => exact ⟨by grind, rfl, subset_rfl, nofun⟩
  | more q hq hc ho =>
    have hqp := he q rfl
    exact ⟨by grind, rfl, subset_rfl, nofun⟩
  | last q hq hc ho =>
    have hqp := he q rfl
    exact ⟨by grind, rfl, subset_rfl, nofun⟩
  | commit q stage s' hq hcommit =>
    have hout := h.still (h.flag.mpr ⟨q, stage, hq⟩) p
    rw [hout] at hp
    cases hp

theorem op_run {es : List (GroupEvent P)} (hsound : Sound s) (hp : (s.phase p).inside)
    (h : Run (Group.step L) Free s es t) (hes : .endOp p ∉ es) :
    (t.phase p).inside ∧ t.committed = s.committed ∧ s.written p ⊆ t.written p ∧
      ∀ x, .logWrite p x ∈ es → x.blockno ∈ t.written p := by
  induction h with
  | nil s => exact ⟨hp, rfl, subset_rfl, nofun⟩
  | @cons s s' t e es hs _ hr ih =>
    have hend : ∀ q, e = .endOp q → q ≠ p := by
      rintro q rfl rfl
      exact hes List.mem_cons_self
    obtain ⟨hp', hall, hsub, hw⟩ := op_step hsound hp hs hend
    obtain ⟨hpt, hallt, hsubt, hwt⟩ :=
      ih (sound_step hsound hs) hp' fun h => hes (List.mem_cons_of_mem _ h)
    refine ⟨hpt, hallt.trans hall, hsub.trans hsubt, fun x hx => ?_⟩
    rcases List.mem_cons.mp hx with hx | hx
    · exact hsubt (hw x hx.symm)
    · exact hwt x hx

theorem sound_reachable {d : Disk} (h : Reachable (Group.step L) (.start d) s) : Sound s :=
  h.invariant (sound_start d) fun _ _ _ => sound_step

omit [DecidableEq P] in
theorem Sound.not_committing (h : Sound s) (hp : (s.phase p).inside) : s.committing = false := by
  cases hc : s.committing with
  | false => rfl
  | true => simp [h.still hc p] at hp

omit [DecidableEq P] in
theorem Sound.outstanding (h : Sound s) (hc : s.committing = true) : s.log.outstanding = 0 := by
  have hops : s.ops = ∅ := by
    ext q
    simp [Group.mem_ops, h.still hc q]
  simp [h.count, hops]

/-- No process can be at any point of `log_write` while another is in `commit`. -/
theorem Sound.no_logWrite (h : Sound s) {q : P} {st : Stage} (hq : s.phase q = .commit st)
    (x : Buf) : s.call L (.logWrite p x) = none ∧ s.call L (.record p) = none := by
  have hout := h.still (h.flag.mpr ⟨q, st, hq⟩) p
  cases hp : s.phase p with
  | inOp => simp [hp, Phase.inside] at hout
  | logging y => simp [hp, Phase.inside] at hout
  | _ => simp [Group.call, hp]

theorem Sound.endOp_ok (h : Sound s) : s.panics L (.endOp p) ≠ some .logCommitting := by
  cases hp : s.phase p with
  | inOp =>
    have hc := h.not_committing (p := p) (by rw [hp]; rfl)
    simp only [Group.panics, Group.call, hp, Group.endOp, hc, Bool.false_eq_true, if_false]
    split_ifs <;> simp
  | _ => simp [Group.panics, Group.call, hp]

omit [DecidableEq P] in
theorem Sound.secured (h : Sound s) (hp : s.phase p = .inOp) (hb : b ∈ s.written p) :
    Secured s.committed.length b s := by
  have hin : (s.phase p).inside := by rw [hp]; rfl
  refine Or.inl ⟨rfl, ?_, fun q st hq => ?_⟩
  · rcases h.held p hin b hb with hb | ⟨x, hx, -⟩
    · exact hb
    · rw [hp] at hx
      cases hx
  · have hc := h.flag.mpr ⟨q, st, hq⟩
    rw [h.not_committing hin] at hc
    cases hc

theorem secured_run {fs : List (GroupEvent P)} (hsound : Sound s) (h : Secured k b s)
    (hr : Run (Group.step L) Free s fs t) : Secured k b t := by
  have hboth : Sound t ∧ Secured k b t :=
    hr.invariant (I := fun t => Sound t ∧ Secured k b t) ⟨hsound, h⟩
      fun _ _ _ hi hs _ => ⟨sound_step hi.1 hs, secured_step hi.1 hi.2 hs⟩
  exact hboth.2

omit [DecidableEq P] in
theorem Secured.committed (hsound : Sound s) (h : Secured k b s) (hc : s.committing = false)
    (hout : ∀ q, (s.phase q).inside = false) : ∃ lh, s.committed[k]? = some lh ∧ b ∈ lh.block := by
  refine h.resolve_left ?_
  rintro ⟨-, hb, -⟩
  simp [hsound.drained hc hout, LogHeader.empty] at hb

/-- In every reachable state `committing` excludes operations, a commit starts
without one and has no `log_write` beside it, the panic of `end_op` cannot happen,
and the blocks of an operation are all in one transaction. -/
theorem group_commit_whole (L : LogArea) (d : Disk) (s : Group P)
    (h : Reachable (Group.step L) (.start d) s) :
    (s.committing = true → s.log.outstanding = 0) ∧
    (∀ p s', s.step L (.endOp p) = some s' → s'.phase p = .commit .writeLog →
      ∀ q, (s'.phase q).inside = false) ∧
    (∀ p q b st, s.phase q = .commit st →
      s.call L (.logWrite p b) = none ∧ s.call L (.record p) = none) ∧
    (∀ p, s.panics L (.endOp p) ≠ some .logCommitting) ∧
    ∀ p s₁, s.step L (.beginOp p) = some s₁ → s₁.phase p = .inOp →
      ∀ es t, Run (Group.step L) Free s₁ es t → .endOp p ∉ es → t.phase p = .inOp →
      ∀ fs u, Run (Group.step L) Free t fs u → ∀ b, .logWrite p b ∈ es →
        InTransaction s₁.committed.length b.blockno u ∧
        (u.committing = false → (∀ q, (u.phase q).inside = false) →
          ∃ lh, u.committed[s₁.committed.length]? = some lh ∧ b.blockno ∈ lh.block) := by
  have hs := sound_reachable h
  refine ⟨hs.outstanding, ?_, fun p q b st hq => hs.no_logWrite hq b, fun p => hs.endOp_ok, ?_⟩
  · intro p s' hend hp
    have hs' := sound_step hs hend
    exact hs'.still (hs'.flag.mpr ⟨p, _, hp⟩)
  · intro p s₁ hbegin hp es t hes hend hpt fs u hfs b hb
    have hs₁ := sound_step hs hbegin
    have hst : Sound t := hes.invariant hs₁ fun _ _ _ hi hs _ => sound_step hi hs
    have hsu : Sound u := hfs.invariant hst fun _ _ _ hi hs _ => sound_step hi hs
    -- nothing is committed during the operation, so its transaction is the next one
    obtain ⟨-, hall, -, hw⟩ := op_run hs₁ (by rw [hp]; rfl) hes hend
    have hsec := secured_run hst (hall ▸ hst.secured hpt (hw b hb)) hfs
    exact ⟨hsec.inTransaction, hsec.committed hsu⟩

theorem nlog_pos : 0 < LOGSIZE := by decide

theorem nlog_fits : 2+LOGSIZE ≤ 2^31 := by decide

/-- The log area of the file system that mkfs makes. -/
def mkfsLog : LogArea := ⟨2, LOGSIZE, nlog_pos, nlog_fits⟩

/-- One process of two runs an operation that logs block 100. -/
theorem group_commit_whole_one_block :
    ∃ s₁ t u : Group (Fin 2), (Group.start fun _ _ => 0).step mkfsLog (.beginOp 0) = some s₁ ∧
      Run (Group.step mkfsLog) Free s₁ [.logWrite 0 ⟨100, fun _ => 1⟩, .record 0] t ∧
      Run (Group.step mkfsLog) Free t [.endOp 0, .commit 0, .commit 0, .commit 0, .commit 0,
        .commit 0, .commit 0] u ∧
      u.committing = false ∧ ∃ lh, u.committed[0]? = some lh ∧ 100 ∈ lh.block := by
  have hex : ∃ s₁ ∈ (Group.start (P := Fin 2) fun _ _ => 0).step mkfsLog (.beginOp 0),
      ∃ t ∈ exec (Group.step mkfsLog) s₁ [.logWrite 0 ⟨100, fun _ => 1⟩, .record 0],
      ∃ u ∈ exec (Group.step mkfsLog) t [.endOp 0, .commit 0, .commit 0, .commit 0, .commit 0,
        .commit 0, .commit 0], s₁.committed.length = 0 ∧ s₁.phase 0 = .inOp ∧
        t.phase 0 = .inOp ∧ u.committing = false ∧ ∀ q, (u.phase q).inside = false := by
    decide +kernel
  obtain ⟨s₁, h₁, t, ht, u, hu, hk, hp₁, hp, hc, hout⟩ := hex
  have ht := run_exec ht
  have hstart : Reachable (Group.step mkfsLog) (.start fun _ _ => 0)
      (Group.start (P := Fin 2) fun _ _ => 0) := ⟨[], .nil _⟩
  have hwhole := (group_commit_whole mkfsLog _ _ hstart).2.2.2.2 0 s₁ h₁ hp₁ _ t ht
    (by simp) hp _ u (run_exec hu) ⟨100, fun _ => 1⟩ (by simp)
  exact ⟨s₁, t, u, h₁, ht, run_exec hu, hc, hk ▸ hwhole.2 hc hout⟩

end ProvenXv6.Log
