import ProvenXv6.PipeFifo

namespace ProvenXv6.Pipes
open RingBuffer StepSystem

/-- The condition under which a call sleeps on the channel. -/
def Chan.Idle (pipe : Pipe) : Chan → Prop
  | .nread => pipe.empty ∧ pipe.writeopen = true
  | .nwrite => pipe.full ∧ pipe.readopen = true

/-- The call has a wakeup of the channel before it. A write that is about to fail after it
stored bytes should have one. -/
def Stmt.Owes (c : Chan) : Stmt → Prop
  | .readCopy _ _ => c = .nwrite
  | .writeTest _ start i => c = .nread ∧ start < i
  | .wakeup c' _ => c = c'
  | .release (.fail true) => c = .nread
  | _ => False

/-- What is known of the pipe at a statement. -/
def Stmt.Fact (pipe : Pipe) : Stmt → Prop
  | .writeTest _ start i => start ≤ i
  | .wakeup _ next => next.Fact pipe
  | .sleep r => r.chan.Idle pipe
  | .release (.fail true) => pipe.full
  | _ => True

/-- A statement keeps what is known, and leaves a wakeup to come for what it changes. -/
theorem Advance.wakes {p p' : Pipe} {killed : Bool} {k k' : Stmt} {new : List (ℕ × Byte)}
    (h : Advance p killed k p' k' new) (hfact : k.Fact p) :
    k'.Fact p' ∧ ∀ c, c.Idle p ∨ k.Owes c → c.Idle p' ∨ k'.Owes c := by
  cases h with
  | readFail => exact ⟨trivial, fun c hc => hc⟩
  | readSleep hidle => exact ⟨hidle, fun c hc => hc⟩
  | readStart => exact ⟨trivial, fun c hc => Or.inl (hc.resolve_right not_false)⟩
  | readByte hmore =>
    refine ⟨trivial, ?_⟩
    rintro (_ | _) hc
    · -- no one waits to read from a pipe that is not empty
      rcases hc with hc | hc
      · exact absurd hc.1 hmore
      · cases hc
    · exact Or.inr rfl
  | readEnd => exact ⟨trivial, fun c hc => hc⟩
  | writeEnd => exact ⟨trivial, fun c hc => hc.imp_right fun ho => ho.1⟩
  | @writeFail w start i hfull =>
    by_cases hmoved : start < i
    · rw [decide_eq_true hmoved]
      exact ⟨hfull, fun c hc => hc.imp_right fun ho => ho.1⟩
    · rw [decide_eq_false hmoved]
      exact ⟨trivial, fun c hc => Or.inl (hc.resolve_right fun ho => hmoved ho.2)⟩
  | writeSleep hfull => exact ⟨hfull, fun c hc => hc.imp_right fun ho => ho.1⟩
  | @writeByte w start i b hb hspace =>
    have hle : start ≤ i := hfact
    refine ⟨Nat.le_succ_of_le hle, ?_⟩
    rintro (_ | _) hc
    · exact Or.inr ⟨rfl, Nat.lt_succ_of_le hle⟩
    · -- no one waits to write to a pipe that is not full
      rcases hc with hc | hc
      · exact absurd hc.1 hspace
      · cases hc.1
  | closeWrite =>
    refine ⟨trivial, ?_⟩
    rintro (_ | _) hc
    · exact Or.inr rfl
    · exact Or.inl (hc.resolve_right not_false)
  | closeRead =>
    refine ⟨trivial, ?_⟩
    rintro (_ | _) hc
    · exact Or.inl (hc.resolve_right not_false)
    · exact Or.inr rfl

variable {ι : Type} {s t : Sys ι} {e : Event ι} {p q : ι}

/-- Process p is asleep on the channel, or in `sleep` on its way there. -/
def Waits (s : Sys ι) (p : ι) (c : Chan) : Prop :=
  (s.proc p).sleeping = true ∧ (s.proc p).chan = some c ∨ ∃ r, (s.proc p).pc = .going r ∧ r.chan = c

structure Awake (s : Sys ι) : Prop where
  entry : ∀ p k, (s.proc p).pc = .acquire k → ∀ pipe, k.Fact pipe
  fact : ∀ p k, (s.proc p).pc = .hold k → k.Fact s.pipe
  waiter : ∀ p c, Waits s p c → c.Idle s.pipe ∨ ∃ q k, (s.proc q).pc = .hold k ∧ k.Owes c

theorem Others.waits (ho : Others p s t) {c : Chan} (hq : q ≠ p) (h : Waits t q c) : Waits s q c := by
  unfold Waits at h ⊢
  rw [ho.pc q hq, ho.chan q hq] at h
  exact h.imp_left fun hs => ⟨ho.sleeping q hq hs.1, hs.2⟩

theorem Awake.quiet (h : Awake s) (ho : Others p s t) (hpipe : t.pipe = s.pipe)
    (hhold : ∀ k, (t.proc p).pc = .hold k ↔ (s.proc p).pc = .hold k)
    (hentry : ∀ k, (t.proc p).pc = .acquire k → ∀ pipe, k.Fact pipe)
    (hwaits : ∀ c, Waits t p c → Waits s p c) : Awake t := by
  have hholds (q : ι) (k : Stmt) : (t.proc q).pc = .hold k ↔ (s.proc q).pc = .hold k := by
    by_cases hq : q = p
    · exact hq ▸ hhold k
    · rw [ho.pc q hq]
  refine ⟨?_, ?_, ?_⟩
  · intro q k hk
    by_cases hq : q = p
    · exact hentry k (hq ▸ hk)
    · exact h.entry q k (ho.pc q hq ▸ hk)
  · intro q k hk
    rw [hpipe]
    exact h.fact q k ((hholds q k).mp hk)
  · intro q c hw
    rw [hpipe]
    have hw' : Waits s q c := by
      by_cases hq : q = p
      · exact hq ▸ hwaits c (hq ▸ hw)
      · exact ho.waits hq hw
    refine (h.waiter q c hw').imp_right ?_
    rintro ⟨q', k, hk, howes⟩
    exact ⟨q', k, (hholds q' k).mpr hk, howes⟩

/-- A waiter's wakeup is owed by the process that holds the lock. -/
theorem Awake.waiter_holder (h : Awake s) (hl : Locks s) {k : Stmt} (hpc : (s.proc p).pc = .hold k) {c : Chan}
    (hw : Waits s q c) : c.Idle s.pipe ∨ k.Owes c := by
  refine (h.waiter q c hw).imp_right ?_
  rintro ⟨q', k', hk', howes⟩
  obtain rfl := hl.holder hpc hk'
  rw [hpc] at hk'
  exact Pc.hold.inj hk' ▸ howes

theorem Awake.holder (h : Awake s) (hl : Locks s) (ho : Others p s t) {k : Stmt} (hpc : (s.proc p).pc = .hold k)
    (hentry : ∀ k', (t.proc p).pc ≠ .acquire k') (hfact : ∀ k', (t.proc p).pc = .hold k' → k'.Fact t.pipe)
    (hself : ∀ c, Waits t p c → c.Idle t.pipe)
    (hothers : ∀ q c, q ≠ p → Waits t q c → c.Idle s.pipe ∨ k.Owes c →
      c.Idle t.pipe ∨ ∃ k', (t.proc p).pc = .hold k' ∧ k'.Owes c) : Awake t := by
  refine ⟨?_, ?_, ?_⟩
  · intro q k' hq
    by_cases hqp : q = p
    · exact absurd (hqp ▸ hq) (hentry k')
    · exact h.entry q k' (ho.pc q hqp ▸ hq)
  · intro q k' hq
    by_cases hqp : q = p
    · exact hfact k' (hqp ▸ hq)
    · exact absurd (hl.holder hpc (ho.pc q hqp ▸ hq)) hqp
  · intro q c hw
    by_cases hqp : q = p
    · exact Or.inl (hself c (hqp ▸ hw))
    · have hold := h.waiter_holder hl hpc (ho.waits hqp hw)
      exact (hothers q c hqp hw hold).imp_right fun ⟨k', hk', howes⟩ => ⟨p, k', hk', howes⟩

variable [DecidableEq ι]

/-- No write fails after it stored bytes while a process waits to read. -/
def Wakes (s : Sys ι) (e : Event ι) (_ : Sys ι) : Prop :=
  ∀ p, e = .run p → (s.proc p).pc = .hold (.release (.fail true)) → ∀ q, ¬Waits s q .nread

theorem fact_stmt (c : Call) (n : ℕ) (pipe : Pipe) : (c.stmt n).Fact pipe := by
  cases c with
  | read n => exact trivial
  | write src => exact Nat.le_refl 0
  | close writable => exact trivial

theorem Resume.fact_stmt (r : Resume) (pipe : Pipe) : r.stmt.Fact pipe := by
  cases r with
  | read n => exact trivial
  | write w i => exact Nat.le_refl i

theorem Awake.acquire (h : Awake s) (hl : Locks s) {k : Stmt} (hpc : (s.proc p).pc = .acquire k)
    (hlock : s.lock = none) : Awake ({ s with lock := some p }.goto p (.hold k)) := by
  have ho : Others p s ({ s with lock := some p }.goto p (.hold k)) := others_update rfl
  have hnone (q : ι) (k' : Stmt) : (s.proc q).pc ≠ .hold k' := by
    intro hq
    have hheld := (hl.lock q).mpr ⟨k', hq⟩
    rw [hlock] at hheld
    cases hheld
  refine ⟨?_, ?_, ?_⟩
  · intro q k' hq
    by_cases hqp : q = p
    · simp [hqp] at hq
    · exact h.entry q k' (ho.pc q hqp ▸ hq)
  · intro q k' hq
    by_cases hqp : q = p
    · simp only [hqp, goto_self, Pc.hold.injEq] at hq
      exact hq ▸ h.entry p k hpc _
    · exact absurd (ho.pc q hqp ▸ hq) (hnone q k')
  · intro q c hw
    have hw' : Waits s q c := by
      by_cases hqp : q = p
      · have hawake : (s.proc p).sleeping = false := hl.awake (by simp [hpc])
        simp [hqp, Waits, hawake] at hw
      · exact ho.waits hqp hw
    -- no one held the lock, so nothing was owed
    refine Or.inl ((h.waiter q c hw').resolve_right ?_)
    rintro ⟨q', k', hk', -⟩
    exact hnone q' k' hk'

theorem not_waits_wake (hl : Locks s) (hpt : s.ptlock = none) (c : Chan) (pc : Pc) (hq : q ≠ p) :
    ¬Waits ((s.wake c).goto p pc) q c := by
  unfold Waits
  rw [goto_of_ne _ _ _ hq, wake_proc]
  rintro (⟨hs, hc⟩ | ⟨r, hr, -⟩)
  · have hne := (Bool.and_eq_true_iff.mp hs).2
    exact (decide_eq_true_iff.mp hne) hc
  · have hheld := (hl.ptlock q).mpr ⟨r, hr⟩
    rw [hpt] at hheld
    cases hheld

omit [DecidableEq ι] in
/-- A step that gives up the lock while no one waits for what it has done. -/
theorem Awake.giveUp (h : Awake s) (hl : Locks s) (ho : Others p s t) {k : Stmt} (hpc : (s.proc p).pc = .hold k)
    (hentry : ∀ k', (t.proc p).pc ≠ .acquire k') (hhold : ∀ k', (t.proc p).pc ≠ .hold k')
    (hpipe : t.pipe = s.pipe) (hself : ∀ c, Waits t p c → c.Idle s.pipe)
    (howes : ∀ q c, Waits s q c → ¬k.Owes c) : Awake t := by
  refine h.holder hl ho hpc hentry (fun k' hk' => absurd hk' (hhold k')) ?_ ?_
  · rw [hpipe]
    exact hself
  · intro q c hq hw hold
    rw [hpipe]
    exact Or.inl (hold.resolve_right (howes q c (ho.waits hq hw)))

theorem Awake.move (h : Awake s) (hl : Locks s) (hm : Move s e t) (hwakes : Wakes s e t) : Awake t := by
  have ho := hm.others
  cases hm with
  | @call p c hpc =>
    have hawake : (s.proc p).sleeping = false := hl.awake (by simp [hpc])
    refine h.quiet ho rfl ?_ ?_ ?_
    · simp [hpc]
    · simp [fact_stmt]
    · simp [Waits, hawake]
  | acquire hpc hlock => exact h.acquire hl hpc hlock
  | @advance p k next pipe new hpc hadv =>
    have hawake : (s.proc p).sleeping = false := hl.awake (by simp [hpc])
    obtain ⟨hfact, howes⟩ := hadv.wakes (h.fact p k hpc)
    refine h.holder hl ho hpc (by simp) ?_ ?_ ?_
    · intro k' hk'
      simp only [Event.actor, goto_self, Pc.hold.injEq] at hk'
      exact hk' ▸ hfact
    · simp [Waits, hawake]
    · intro q c _ _ hold
      refine (howes c hold).imp_right fun ho' => ⟨next, ?_, ho'⟩
      rw [Event.actor, goto_self]
  | @wakeup p c next hpc hpt =>
    have hawake : (s.proc p).sleeping = false := hl.awake (by simp [hpc])
    refine h.holder hl ho hpc (by simp) ?_ ?_ ?_
    · intro k' hk'
      simp only [Event.actor, goto_self, Pc.hold.injEq] at hk'
      have hfact := h.fact p _ hpc
      exact hk' ▸ hfact
    · simp [Waits, wake_proc, hawake]
    · intro q c' hq hw hold
      refine Or.inl (hold.resolve_right ?_)
      intro howes
      obtain rfl : c' = c := howes
      exact not_waits_wake hl hpt c' _ hq hw
  | @sleep p r hpc hpt =>
    have hawake : (s.proc p).sleeping = false := hl.awake (by simp [hpc])
    have hidle : r.chan.Idle s.pipe := h.fact p _ hpc
    refine h.giveUp hl ho hpc (by simp) (by simp) rfl ?_ (fun _ _ _ => not_false)
    intro c hw
    simp only [Waits, Event.actor, goto_self, hawake, Bool.false_eq_true, false_and, false_or, Pc.going.injEq,
      exists_eq_left'] at hw
    exact hw ▸ hidle
  | @release p ret hpc =>
    have hawake : (s.proc p).sleeping = false := hl.awake (by simp [hpc])
    refine h.giveUp hl ho hpc (by simp) (by simp) rfl ?_ ?_
    · simp [Waits, hawake]
    · intro q c hw howes
      -- only the failed write owes a wakeup here, and the step is not such a one
      cases ret with
      | fail moved =>
        cases moved with
        | false => exact howes
        | true =>
          obtain rfl : c = .nread := howes
          exact hwakes p rfl hpc q hw
      | wrote w => exact howes
      | read buf => exact howes
  | @closeFree p hpc =>
    have hawake : (s.proc p).sleeping = false := hl.awake (by simp [hpc])
    refine h.giveUp hl ho hpc (by simp) (by simp) rfl ?_ (fun _ _ _ => not_false)
    simp [Waits, hawake]
  | @going p r hpc =>
    refine h.quiet ho rfl ?_ ?_ ?_
    · simp [hpc]
    · simp
    · intro c hw
      simp only [Waits, Event.actor, modify_self, Option.some.injEq, true_and, reduceCtorEq, false_and, exists_false,
        or_false] at hw
      exact Or.inr ⟨r, hpc, hw⟩
  | @resume p r hpc hawake =>
    refine h.quiet ho rfl ?_ ?_ ?_
    · simp [hpc]
    · simp [Resume.fact_stmt]
    · simp [Waits, hawake]
  | @kill p hpt =>
    refine h.quiet ho rfl ?_ ?_ ?_
    · simp
    · intro k hk
      simp only [Event.actor, modify_self] at hk
      exact h.entry p k hk
    · intro c hw
      simp only [Waits, Event.actor, modify_self, Bool.false_eq_true, false_and, false_or] at hw
      exact Or.inr hw

omit [DecidableEq ι] in
theorem awake_start (data : ℕ → Byte) : Awake (start ι data) where
  entry := by simp [start]
  fact := by simp [start]
  waiter := by simp [start, Waits]

/-- No process waits, asleep or on its way, for what the pipe already allows. -/
def NoLostWakeup (s : Sys ι) : Prop :=
  ∀ p, (Waits s p .nread → s.pipe.count = 0 ∧ s.pipe.writeopen = true) ∧
    (Waits s p .nwrite → s.pipe.count = PIPESIZE ∧ s.pipe.readopen = true)

omit [DecidableEq ι] in
theorem Awake.noLostWakeup (h : Awake s) (hl : Locks s) (hlock : s.lock = none) : NoLostWakeup s := by
  have hidle {q : ι} {c : Chan} (hw : Waits s q c) : c.Idle s.pipe := by
    refine (h.waiter q c hw).resolve_right ?_
    rintro ⟨q', k, hk, -⟩
    have hheld := (hl.lock q').mpr ⟨k, hk⟩
    rw [hlock] at hheld
    cases hheld
  intro p
  refine ⟨fun hw => ?_, fun hw => ?_⟩
  · have hi := hidle hw
    exact ⟨s.pipe.empty_iff.mp hi.1, hi.2⟩
  · have hi := hidle hw
    exact ⟨s.pipe.full_iff.mp hi.1, hi.2⟩

/-- A step that does not meet the condition leaves a process waiting to read from a full pipe. -/
theorem lost_wakeup (h : Awake s) (hl : Locks s) (hs : step s e = some t) (hlost : ¬Wakes s e t) :
    t.lock = none ∧ t.pipe.full ∧ ∃ q, Waits t q .nread := by
  simp only [Wakes, not_forall, not_not] at hlost
  obtain ⟨p, rfl, hpc, q, hw⟩ := hlost
  have hqp : q ≠ p := by
    rintro rfl
    have hawake : (s.proc q).sleeping = false := hl.awake (by simp [hpc])
    simp [Waits, hawake, hpc] at hw
  simp only [step, hpc, exec, Option.some.injEq] at hs
  obtain rfl := hs
  refine ⟨rfl, h.fact p _ hpc, q, ?_⟩
  unfold Waits at hw ⊢
  rw [goto_of_ne _ _ _ hqp]
  exact hw

/-- In every run in which no write fails after it stored bytes while a process waits to
read, no wakeup is lost when the lock is free. A step that is such a failure loses one. -/
theorem pipe_no_lost_wakeup {ι : Type} [DecidableEq ι] (data : ℕ → Byte) (es : List (Event ι)) (s : Sys ι)
    (h : Run step Wakes (start ι data) es s) :
    (s.lock = none → NoLostWakeup s) ∧
      ∀ e t, step s e = some t → ¬Wakes s e t → t.lock = none ∧ ¬NoLostWakeup t := by
  have hboth : Locks s ∧ Awake s := by
    refine h.invariant (I := fun s => Locks s ∧ Awake s) ⟨locks_start ι data, awake_start data⟩ ?_
    intro s e t hi hs hq
    exact ⟨hi.1.move (step_move hs), hi.2.move hi.1 (step_move hs) hq⟩
  refine ⟨hboth.2.noLostWakeup hboth.1, ?_⟩
  intro e t hs hlost
  obtain ⟨hlock, hfull, q, hw⟩ := lost_wakeup hboth.2 hboth.1 hs hlost
  refine ⟨hlock, fun hno => ?_⟩
  have hempty := ((hno q).1 hw).1
  have hfull := t.pipe.full_iff.mp hfull
  exact absurd (hempty.symm.trans hfull) (by decide)

theorem pipe_no_lost_wakeup_empty : ∃ s : Sys (Fin 2), s.lock = none ∧ (s.proc 0).sleeping = true ∧
    (s.proc 0).chan = some .nread ∧ s.pipe.count = 0 ∧ s.pipe.writeopen = true := by
  have hrun : ∃ s : Sys (Fin 2), Run step Wakes (start (Fin 2) fun _ => 0)
      [.call 0 (.read 1), .run 0, .run 0, .run 0, .run 0] s ∧ s.lock = none ∧ (s.proc 0).sleeping = true ∧
      (s.proc 0).chan = some .nread := by
    refine ⟨_, .cons rfl ?_ (.cons rfl ?_ (.cons rfl ?_ (.cons rfl ?_ (.cons rfl ?_ (.nil _))))), rfl, rfl, rfl⟩
    · intro p hp
      cases hp
    all_goals
      intro p hp hpc
      cases hp
      cases hpc
  obtain ⟨s, hr, hlock, hs, hc⟩ := hrun
  exact ⟨s, hlock, hs, hc, (((pipe_no_lost_wakeup _ _ s hr).1 hlock) 0).1 (Or.inl ⟨hs, hc⟩)⟩

theorem run_stores {w : Write} {start i : ℕ} (m : ℕ) (hpc : (s.proc p).pc = .hold (.writeTest w start i))
    (hroom : s.pipe.count+m ≤ PIPESIZE) (hsrc : i+m ≤ w.src.length) :
    ∃ t, Run step Free s (List.replicate m (.run p)) t ∧ t.pipe.count = s.pipe.count+m ∧
      t.proc p = { s.proc p with pc := .hold (.writeTest w start (i+m)) } ∧ ∀ q, q ≠ p → t.proc q = s.proc q := by
  induction m generalizing s i with
  | zero =>
    refine ⟨s, .nil s, rfl, ?_, fun _ _ => rfl⟩
    rw [Nat.add_zero, ← hpc]
  | succ m ih =>
    have hlt : i < w.src.length := by omega
    have hspace : ¬s.pipe.full := fun hf => by
      have := s.pipe.full_iff.mp hf
      omega
    obtain ⟨u, hu, hcount, hself, hother⟩ : ∃ u, step s (.run p) = some u ∧ u.pipe.count = s.pipe.count+1 ∧
        u.proc p = { s.proc p with pc := .hold (.writeTest w start (i+1)) } ∧ ∀ q, q ≠ p → u.proc q = s.proc q := by
      refine ⟨({ s with
        pipe := { s.pipe with
          data := Function.update s.pipe.data (s.pipe.nwrite.toNat%PIPESIZE) w.src[i]
          nwrite := s.pipe.nwrite+1 }
        stored := s.stored ++ [(w.call, w.src[i])] }.goto p (.hold (.writeTest w start (i+1)))), ?_, ?_, ?_, ?_⟩
      · simp only [step, hpc, exec, advance, List.getElem?_eq_getElem hlt, hspace, if_false, Option.map_some]
      · have hbound : s.pipe.count < 0xffffffff := lt_of_lt_of_le (show s.pipe.count < PIPESIZE by omega) (by decide)
        exact behind_succ hbound
      · rw [goto_self]
      · intro q hq
        rw [goto_of_ne _ _ _ hq]
    obtain ⟨t, ht, hcount', hself', hother'⟩ := ih (s := u) (i := i+1) (by rw [hself]) (by omega) (by omega)
    refine ⟨t, .cons hu trivial ht, by omega, ?_, ?_⟩
    · rw [hself', hself, show i+1+m = i+(m+1) by omega]
    · intro q hq
      rw [hother' q hq, hother q hq]

/-- Process 1 is killed while it writes 513 bytes. It fills the buffer and returns -1, and
process 0 sleeps on in `piperead` though there are bytes to read. -/
theorem killed_write_loses_wakeup : ∃ s : Sys (Fin 2), Reachable step (start (Fin 2) fun _ => 0) s ∧
    s.lock = none ∧ (s.proc 0).pc = .asleep (.read 1) ∧ (s.proc 0).sleeping = true ∧
    (s.proc 0).chan = some .nread ∧ s.pipe.count = PIPESIZE := by
  -- the reader falls asleep, and the writer is killed when it has the lock
  obtain ⟨s, hs, hpc, hkilled, hcount, hreader⟩ : ∃ s : Sys (Fin 2), Run step Free (start (Fin 2) fun _ => 0)
      [.call 0 (.read 1), .run 0, .run 0, .run 0, .run 0, .call 1 (.write (List.replicate 513 7)), .run 1, .kill 1] s ∧
      (s.proc 1).pc = .hold (.writeTest ⟨0, List.replicate 513 7⟩ 0 0) ∧ (s.proc 1).killed = true ∧
      s.pipe.count = 0 ∧ s.proc 0 = ⟨.asleep (.read 1), true, some .nread, false⟩ := by
    refine ⟨_, run_exec rfl, rfl, rfl, ?_, rfl⟩
    exact start_count (ι := Fin 2) fun _ => 0
  obtain ⟨t, ht, hfull, hself, hother⟩ := run_stores 512 hpc (by rw [hcount]; decide) (by rw [List.length_replicate]; omega)
  rw [hcount, Nat.zero_add] at hfull
  have hfull' : t.pipe.full := t.pipe.full_iff.mpr hfull
  have hpc' : (t.proc 1).pc = .hold (.writeTest ⟨0, List.replicate 513 7⟩ 0 512) := by rw [hself]
  have hkilled' : (t.proc 1).killed = true := by rw [hself, hkilled]
  have hnext : (List.replicate 513 (7 : Byte))[512]? = some 7 := List.getElem?_replicate_of_lt (by omega)
  -- the loop test finds the buffer full and the process killed
  have hfail : step t (.run 1) = some ({ t with stored := t.stored ++ [] }.goto 1 (.hold (.release (.fail true)))) := by
    simp only [step, hpc', exec, advance, hnext, hfull', hkilled', or_true, if_true, Option.map_some]
    rfl
  have hrelease (u : Sys (Fin 2)) (hu : (u.proc 1).pc = .hold (.release (.fail true))) :
      step u (.run 1) = some ({ u with lock := none, reads := u.reads ++ [] }.goto 1 .user) := by
    simp only [step, hu, exec, Ret.bytes]
  obtain ⟨u, hu, hlock, hpipe, hproc⟩ : ∃ u, Run step Free t [.run 1, .run 1] u ∧ u.lock = none ∧
      u.pipe = t.pipe ∧ u.proc 0 = t.proc 0 := by
    refine ⟨_, .cons hfail trivial (.cons (hrelease _ (by rw [goto_self])) trivial (.nil _)), rfl, rfl, ?_⟩
    have hne : (0 : Fin 2) ≠ 1 := by decide
    rw [goto_of_ne _ _ _ hne]
    exact goto_of_ne { t with stored := t.stored ++ [] } 1 (.hold (.release (.fail true))) hne
  rw [hother 0 (by decide), hreader] at hproc
  refine ⟨u, ⟨_, (hs.append ht).append hu⟩, hlock, ?_⟩
  rw [hproc, hpipe]
  exact ⟨rfl, rfl, rfl, hfull⟩

end ProvenXv6.Pipes
