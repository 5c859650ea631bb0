import ProvenXv6.PipeModel

namespace ProvenXv6.Pipes

inductive Advance (p : Pipe) (killed : Bool) : Stmt → Pipe → Stmt → List (ℕ × Byte) → Prop
  | readFail {n : ℕ} : Advance p killed (.readTest n) p (.release (.fail false)) []
  | readSleep {n : ℕ} (hidle : p.empty ∧ p.writeopen = true) : Advance p killed (.readTest n) p (.sleep (.read n)) []
  | readStart {n : ℕ} : Advance p killed (.readTest n) p (.readCopy n []) []
  | readByte {n : ℕ} {buf : List Byte} (hmore : ¬p.empty) :
    Advance p killed (.readCopy n buf) { p with nread := p.nread+1 }
      (.readCopy n (buf ++ [p.data (p.nread.toNat%PIPESIZE)])) []
  | readEnd {n : ℕ} {buf : List Byte} :
    Advance p killed (.readCopy n buf) p (.wakeup .nwrite (.release (.read buf))) []
  | writeEnd {w : Write} {start i : ℕ} (hend : w.src[i]? = none) :
    Advance p killed (.writeTest w start i) p (.wakeup .nread (.release (.wrote w))) []
  | writeFail {w : Write} {start i : ℕ} (hfull : p.full) :
    Advance p killed (.writeTest w start i) p (.release (.fail (decide (start < i)))) []
  | writeSleep {w : Write} {start i : ℕ} (hfull : p.full ∧ p.readopen = true) :
    Advance p killed (.writeTest w start i) p (.wakeup .nread (.sleep (.write w i))) []
  | writeByte {w : Write} {start i : ℕ} {b : Byte} (hb : w.src[i]? = some b) (hroom : ¬p.full) :
    Advance p killed (.writeTest w start i)
      { p with data := Function.update p.data (p.nwrite.toNat%PIPESIZE) b, nwrite := p.nwrite+1 }
      (.writeTest w start (i+1)) [(w.call, b)]
  | closeWrite : Advance p killed (.closeEnd true) { p with writeopen := false } (.wakeup .nread .closeFree) []
  | closeRead : Advance p killed (.closeEnd false) { p with readopen := false } (.wakeup .nwrite .closeFree) []

theorem advance_cases {p p' : Pipe} {killed : Bool} {k k' : Stmt} {new : List (ℕ × Byte)}
    (h : advance p killed k = some (p', k', new)) : Advance p killed k p' k' new := by
  unfold advance at h
  split at h
  · split_ifs at h with hidle hkilled
    · cases h
      exact .readFail
    · cases h
      exact .readSleep hidle
    · cases h
      exact .readStart
  · split_ifs at h with hmore
    · cases h
      exact .readByte hmore.2
    · cases h
      exact .readEnd
  · split at h
    · next hend =>
      cases h
      exact .writeEnd hend
    · next b hb =>
      split_ifs at h with hfull hfail
      · cases h
        exact .writeFail hfull
      · cases h
        exact .writeSleep ⟨hfull, by simpa using not_or.mp hfail |>.1⟩
      · cases h
        exact .writeByte hb hfull
  · cases h
    exact .closeWrite
  · cases h
    exact .closeRead
  · cases h

variable {ι : Type} [DecidableEq ι] {s t : Sys ι} {e : Event ι} {p q : ι}

inductive Move (s : Sys ι) : Event ι → Sys ι → Prop
  | call {p : ι} {c : Call} (hpc : (s.proc p).pc = .user) :
    Move s (.call p c) ({ s with writes := s.writes ++ c.srcs }.goto p (.acquire (c.stmt s.writes.length)))
  | acquire {p : ι} {k : Stmt} (hpc : (s.proc p).pc = .acquire k) (hlock : s.lock = none) :
    Move s (.run p) ({ s with lock := some p }.goto p (.hold k))
  | advance {p : ι} {k next : Stmt} {pipe : Pipe} {new : List (ℕ × Byte)} (hpc : (s.proc p).pc = .hold k)
    (hadv : Advance s.pipe (s.proc p).killed k pipe next new) :
    Move s (.run p) ({ s with pipe := pipe, stored := s.stored ++ new }.goto p (.hold next))
  | wakeup {p : ι} {c : Chan} {next : Stmt} (hpc : (s.proc p).pc = .hold (.wakeup c next)) (hpt : s.ptlock = none) :
    Move s (.run p) ((s.wake c).goto p (.hold next))
  | sleep {p : ι} {r : Resume} (hpc : (s.proc p).pc = .hold (.sleep r)) (hpt : s.ptlock = none) :
    Move s (.run p) ({ s with lock := none, ptlock := some p }.goto p (.going r))
  | release {p : ι} {ret : Ret} (hpc : (s.proc p).pc = .hold (.release ret)) :
    Move s (.run p) ({ s with lock := none, reads := s.reads ++ ret.bytes }.goto p .user)
  | closeFree {p : ι} (hpc : (s.proc p).pc = .hold .closeFree) :
    Move s (.run p) ({ s with lock := none, freed := ¬s.pipe.readopen ∧ ¬s.pipe.writeopen }.goto p .user)
  | going {p : ι} {r : Resume} (hpc : (s.proc p).pc = .going r) :
    Move s (.run p) ({ s with ptlock := none }.modify p fun e =>
      { e with pc := .asleep r, chan := some r.chan, sleeping := true })
  | resume {p : ι} {r : Resume} (hpc : (s.proc p).pc = .asleep r) (hawake : (s.proc p).sleeping = false) :
    Move s (.run p) (s.modify p fun e => { e with pc := .acquire r.stmt, chan := none })
  | kill {p : ι} (hpt : s.ptlock = none) :
    Move s (.kill p) (s.modify p fun e => { e with killed := true, sleeping := false })

theorem exec_move {k : Stmt} (hpc : (s.proc p).pc = .hold k) (h : exec s p k = some t) : Move s (.run p) t := by
  unfold exec at h
  split at h
  · split_ifs at h with hpt
    obtain rfl := Option.some.inj h
    exact .wakeup hpc hpt
  · split_ifs at h with hpt
    obtain rfl := Option.some.inj h
    exact .sleep hpc hpt
  · obtain rfl := Option.some.inj h
    exact .release hpc
  · obtain rfl := Option.some.inj h
    exact .closeFree hpc
  · obtain ⟨⟨pipe, next, new⟩, hadv, rfl⟩ := Option.map_eq_some_iff.mp h
    exact .advance hpc (advance_cases hadv)

theorem step_move (h : step s e = some t) : Move s e t := by
  cases e with
  | call p c =>
    rw [step] at h
    split_ifs at h with hpc
    obtain rfl := Option.some.inj h
    exact .call hpc
  | run p =>
    rw [step] at h
    cases hpc : (s.proc p).pc with
    | user =>
      rw [hpc] at h
      cases h
    | acquire k =>
      simp only [hpc] at h
      split_ifs at h with hlock
      obtain rfl := Option.some.inj h
      exact .acquire hpc hlock.1
    | hold k =>
      simp only [hpc] at h
      exact exec_move hpc h
    | going r =>
      simp only [hpc] at h
      obtain rfl := Option.some.inj h
      exact .going hpc
    | asleep r =>
      simp only [hpc] at h
      split_ifs at h with hawake
      obtain rfl := Option.some.inj h
      exact .resume hpc hawake.1
  | kill p =>
    rw [step] at h
    split_ifs at h with hpt
    obtain rfl := Option.some.inj h
    exact .kill hpt

section Fields
variable (s : Sys ι) (p : ι) (f : Proc → Proc) (pc : Pc) (c : Chan)

@[simp] theorem modify_self : (s.modify p f).proc p = f (s.proc p) := Function.update_self ..

@[simp] theorem modify_of_ne (hq : q ≠ p) : (s.modify p f).proc q = s.proc q := Function.update_of_ne hq ..

@[simp] theorem goto_self : (s.goto p pc).proc p = { s.proc p with pc := pc } := Function.update_self ..

@[simp] theorem goto_of_ne (hq : q ≠ p) : (s.goto p pc).proc q = s.proc q := Function.update_of_ne hq ..

@[simp] theorem modify_pipe : (s.modify p f).pipe = s.pipe := rfl

@[simp] theorem modify_lock : (s.modify p f).lock = s.lock := rfl

@[simp] theorem modify_ptlock : (s.modify p f).ptlock = s.ptlock := rfl

@[simp] theorem goto_pipe : (s.goto p pc).pipe = s.pipe := rfl

@[simp] theorem goto_lock : (s.goto p pc).lock = s.lock := rfl

@[simp] theorem goto_ptlock : (s.goto p pc).ptlock = s.ptlock := rfl

end Fields

/-- Who holds the locks, and who sleeps. -/
structure Locks (s : Sys ι) : Prop where
  lock : ∀ p, s.lock = some p ↔ ∃ k, (s.proc p).pc = .hold k
  ptlock : ∀ p, s.ptlock = some p ↔ ∃ r, (s.proc p).pc = .going r
  asleep : ∀ p, (s.proc p).sleeping = true → ∃ r, (s.proc p).pc = .asleep r ∧ (s.proc p).chan = some r.chan

/-- What a step leaves of the processes that do not take it. -/
structure Others (p : ι) (s t : Sys ι) : Prop where
  pc : ∀ q, q ≠ p → (t.proc q).pc = (s.proc q).pc
  chan : ∀ q, q ≠ p → (t.proc q).chan = (s.proc q).chan
  sleeping : ∀ q, q ≠ p → (t.proc q).sleeping = true → (s.proc q).sleeping = true

theorem others_update {e : Proc} (h : t.proc = Function.update s.proc p e) : Others p s t where
  pc := fun q hq => by rw [h, Function.update_of_ne hq]
  chan := fun q hq => by rw [h, Function.update_of_ne hq]
  sleeping := fun q hq hs => by rwa [h, Function.update_of_ne hq] at hs

omit [DecidableEq ι] in
theorem wake_proc (s : Sys ι) (c : Chan) (q : ι) : (s.wake c).proc q =
    { s.proc q with sleeping := (s.proc q).sleeping && decide ((s.proc q).chan ≠ some c) } := by
  unfold Sys.wake
  dsimp only
  generalize s.proc q = e
  rcases e with ⟨pc, sleeping, chan, killed⟩
  by_cases hc : chan = some c
  · cases sleeping <;> simp [hc]
  · cases sleeping <;> simp [hc]

theorem others_wake (s : Sys ι) (c : Chan) (p : ι) (pc : Pc) : Others p s ((s.wake c).goto p pc) where
  pc := fun q hq => by rw [goto_of_ne _ p pc hq, wake_proc]
  chan := fun q hq => by rw [goto_of_ne _ p pc hq, wake_proc]
  sleeping := fun q hq h => by
    rw [goto_of_ne _ p pc hq, wake_proc] at h
    exact (Bool.and_eq_true_iff.mp h).1

omit [DecidableEq ι] in
theorem Locks.holder (h : Locks s) {k k' : Stmt} (hp : (s.proc p).pc = .hold k) (hq : (s.proc q).pc = .hold k') :
    q = p := by
  have hlp := (h.lock p).mpr ⟨k, hp⟩
  have hlq := (h.lock q).mpr ⟨k', hq⟩
  exact Option.some.inj (hlq.symm.trans hlp)

theorem Locks.next (h : Locks s) (ho : Others p s t) (hlock : t.lock = some p ↔ ∃ k, (t.proc p).pc = .hold k)
    (hlock' : ∀ q, q ≠ p → (t.lock = some q ↔ s.lock = some q))
    (hpt : t.ptlock = some p ↔ ∃ r, (t.proc p).pc = .going r)
    (hpt' : ∀ q, q ≠ p → (t.ptlock = some q ↔ s.ptlock = some q))
    (hasleep : (t.proc p).sleeping = true → ∃ r, (t.proc p).pc = .asleep r ∧ (t.proc p).chan = some r.chan) :
    Locks t where
  lock := by
    intro q
    by_cases hq : q = p
    · exact hq ▸ hlock
    · rw [hlock' q hq, ho.pc q hq]
      exact h.lock q
  ptlock := by
    intro q
    by_cases hq : q = p
    · exact hq ▸ hpt
    · rw [hpt' q hq, ho.pc q hq]
      exact h.ptlock q
  asleep := by
    intro q hs
    by_cases hq : q = p
    · exact hq ▸ hasleep (hq ▸ hs)
    · rw [ho.pc q hq, ho.chan q hq]
      exact h.asleep q (ho.sleeping q hq hs)

omit [DecidableEq ι] in
/-- A process that is not in `sched` does not sleep. -/
theorem Locks.awake (h : Locks s) (hpc : ∀ r, (s.proc p).pc ≠ .asleep r) : (s.proc p).sleeping = false := by
  by_contra hs
  obtain ⟨r, hr, -⟩ := h.asleep p (Bool.not_eq_false _ |>.mp hs)
  exact hpc r hr

@[simp] def Event.actor : Event ι → ι
  | .call p _ => p
  | .run p => p
  | .kill p => p

theorem Move.others (hm : Move s e t) : Others e.actor s t := by
  cases hm with
  | call => exact others_update rfl
  | acquire => exact others_update rfl
  | advance => exact others_update rfl
  | wakeup => exact others_wake ..
  | sleep => exact others_update rfl
  | release => exact others_update rfl
  | closeFree => exact others_update rfl
  | going => exact others_update rfl
  | resume => exact others_update rfl
  | kill => exact others_update rfl

theorem Locks.move (h : Locks s) (hm : Move s e t) : Locks t := by
  have hothers := hm.others
  cases hm with
  | @call p c hpc =>
    have hawake : (s.proc p).sleeping = false := h.awake (by simp [hpc])
    refine h.next hothers ?_ (fun _ _ => Iff.rfl) ?_ (fun _ _ => Iff.rfl) ?_
    · simp [h.lock p, hpc]
    · simp [h.ptlock p, hpc]
    · simp [hawake]
  | @acquire p k hpc hlock =>
    have hawake : (s.proc p).sleeping = false := h.awake (by simp [hpc])
    refine h.next hothers ?_ ?_ ?_ (fun _ _ => Iff.rfl) ?_
    · simp
    · intro q hq
      have hne : p ≠ q := hq.symm
      simp [hlock, hne]
    · simp [h.ptlock p, hpc]
    · simp [hawake]
  | @advance p k next pipe new hpc hadv =>
    have hawake : (s.proc p).sleeping = false := h.awake (by simp [hpc])
    refine h.next hothers ?_ (fun _ _ => Iff.rfl) ?_ (fun _ _ => Iff.rfl) ?_
    · simp [h.lock p, hpc]
    · simp [h.ptlock p, hpc]
    · simp [hawake]
  | @wakeup p c next hpc hpt =>
    have hawake : (s.proc p).sleeping = false := h.awake (by simp [hpc])
    refine h.next hothers ?_ (fun _ _ => Iff.rfl) ?_ (fun _ _ => Iff.rfl) ?_
    · simp [show (s.wake c).lock = some p from (h.lock p).mpr ⟨_, hpc⟩]
    · simp [show (s.wake c).ptlock = none from hpt]
    · simp [wake_proc, hawake]
  | @sleep p r hpc hpt =>
    have hlock := (h.lock p).mpr ⟨_, hpc⟩
    have hawake : (s.proc p).sleeping = false := h.awake (by simp [hpc])
    refine h.next hothers ?_ ?_ ?_ ?_ ?_
    · simp
    · intro q hq
      have hne : p ≠ q := hq.symm
      simp [hlock, hne]
    · simp
    · intro q hq
      have hne : p ≠ q := hq.symm
      simp [hpt, hne]
    · simp [hawake]
  | @release p ret hpc =>
    have hlock := (h.lock p).mpr ⟨_, hpc⟩
    have hawake : (s.proc p).sleeping = false := h.awake (by simp [hpc])
    refine h.next hothers ?_ ?_ ?_ (fun _ _ => Iff.rfl) ?_
    · simp
    · intro q hq
      have hne : p ≠ q := hq.symm
      simp [hlock, hne]
    · simp [h.ptlock p, hpc]
    · simp [hawake]
  | @closeFree p hpc =>
    have hlock := (h.lock p).mpr ⟨_, hpc⟩
    have hawake : (s.proc p).sleeping = false := h.awake (by simp [hpc])
    refine h.next hothers ?_ ?_ ?_ (fun _ _ => Iff.rfl) ?_
    · simp
    · intro q hq
      have hne : p ≠ q := hq.symm
      simp [hlock, hne]
    · simp [h.ptlock p, hpc]
    · simp [hawake]
  | @going p r hpc =>
    have hpt := (h.ptlock p).mpr ⟨_, hpc⟩
    refine h.next hothers ?_ (fun _ _ => Iff.rfl) ?_ ?_ ?_
    · simp [h.lock p, hpc]
    · simp
    · intro q hq
      have hne : p ≠ q := hq.symm
      simp [hpt, hne]
    · simp
  | @resume p r hpc hawake =>
    refine h.next hothers ?_ (fun _ _ => Iff.rfl) ?_ (fun _ _ => Iff.rfl) ?_
    · simp [h.lock p, hpc]
    · simp [h.ptlock p, hpc]
    · simp [hawake]
  | @kill p hpt =>
    refine h.next hothers ?_ (fun _ _ => Iff.rfl) ?_ (fun _ _ => Iff.rfl) ?_
    · simp [h.lock p]
    · simp [h.ptlock p]
    · simp

theorem locks_start (ι : Type) (data : ℕ → Byte) : Locks (start ι data) where
  lock := by simp [start]
  ptlock := by simp [start]
  asleep := by simp [start]

end ProvenXv6.Pipes
