import ProvenXv6.BcacheSteps

namespace ProvenXv6.Bcache
open StepSystem

variable {ι δ : Type} [Fintype ι] [DecidableEq ι] {s t : Sys ι δ} {p : ι} {b : Id} {k : Pc}

def Event.proc : Event ι δ → ι
  | .bread p _ _ => p
  | .acquiresleep p => p
  | .ideintr p => p
  | .store p _ _ => p
  | .bwrite p _ => p
  | .log_write p _ => p
  | .brelse p _ => p
  | .release p => p

/-- What a step does to the buffers and the other processes. -/
structure Effect (s t : Sys ι δ) (p : ι) (b : Id) (v : Buf ι δ) : Prop where
  buf : t.cache.buf = Function.update s.cache.buf b v
  others : ∀ q, q ≠ p → t.pc q = s.pc q
  block : (v.dev = (s.cache.buf b).dev ∧ v.blockno = (s.cache.buf b).blockno ∧
      ((s.cache.buf b).valid = true → v.valid = true)) ∨
    (s.cache.buf b).refcnt = 0 ∧ (s.cache.buf b).dirty = false

omit [Fintype ι] in
theorem effect_same {p : ι} {b : Id} {v : Buf ι δ} (hbuf : t.cache.buf = Function.update s.cache.buf b v)
    (hpc : t.pc = Function.update s.pc p k) (hdev : v.dev = (s.cache.buf b).dev)
    (hno : v.blockno = (s.cache.buf b).blockno) (hv : (s.cache.buf b).valid = true → v.valid = true) :
    Effect s t p b v :=
  ⟨hbuf, fun q hq => by rw [hpc, Function.update_of_ne hq], Or.inl ⟨hdev, hno, hv⟩⟩

theorem Inv.effect {e : Event ι δ} (h : Inv s) (hs : Bcache.step s e = some t) :
    ∃ b v, Effect s t e.proc b v := by
  cases e with
  | bread p dev blockno =>
    obtain ⟨l, hl⟩ := h.list
    simp only [Bcache.step] at hs
    split_ifs at hs with hp
    rcases hl.bget_spec dev blockno with ⟨b, hb, -⟩ | ⟨-, ⟨b, hb, hr⟩ | hb⟩
    · rw [hb] at hs
      cases hs
      exact ⟨b, _, effect_same rfl rfl rfl rfl id⟩
    · rw [hb] at hs
      cases hs
      exact ⟨b, _, rfl, fun q hq => Function.update_of_ne hq _ _, Or.inr hr⟩
    · rw [hb] at hs
      cases hs
  | acquiresleep p =>
    simp only [Bcache.step] at hs
    split at hs
    · split_ifs at hs <;> cases hs <;> exact ⟨_, _, effect_same rfl rfl rfl rfl id⟩
    · cases hs
  | ideintr p =>
    simp only [Bcache.step] at hs
    split at hs
    · cases hs
      exact ⟨_, _, effect_same rfl rfl rfl rfl fun _ => rfl⟩
    · cases hs
      exact ⟨_, _, effect_same rfl rfl rfl rfl fun _ => rfl⟩
    · cases hs
  | release p =>
    simp only [Bcache.step] at hs
    split at hs
    · cases hs
      exact ⟨_, _, effect_same (release_buf _ _) rfl rfl rfl id⟩
    · cases hs
  | store p b d =>
    simp only [Bcache.step] at hs
    split_ifs at hs
    cases hs
    exact ⟨b, _, rfl, fun _ _ => rfl, Or.inl ⟨rfl, rfl, id⟩⟩
  | log_write p b =>
    simp only [Bcache.step] at hs
    split_ifs at hs
    cases hs
    exact ⟨b, _, rfl, fun _ _ => rfl, Or.inl ⟨rfl, rfl, id⟩⟩
  | bwrite p b =>
    simp only [Bcache.step] at hs
    split_ifs at hs
    cases hs
    exact ⟨b, _, effect_same rfl rfl rfl rfl id⟩
  | brelse p b =>
    simp only [Bcache.step] at hs
    split_ifs at hs
    cases hs
    exact ⟨b, _, effect_same rfl rfl rfl rfl id⟩

theorem Inv.recycles {e : Event ι δ} (h : Inv s) (hs : Bcache.step s e = some t) (x : Id)
    (hx : (t.cache.buf x).dev ≠ (s.cache.buf x).dev ∨ (t.cache.buf x).blockno ≠ (s.cache.buf x).blockno ∨
      (s.cache.buf x).valid = true ∧ (t.cache.buf x).valid = false) :
    (s.cache.buf x).refcnt = 0 ∧ (s.cache.buf x).dirty = false := by
  obtain ⟨b, v, heff⟩ := h.effect hs
  rw [heff.buf] at hx
  by_cases hxb : x = b
  · subst hxb
    rw [Function.update_self] at hx
    rcases heff.block with ⟨hdev, hno, hv⟩ | hr
    · rcases hx with hx | hx | ⟨hx, hx'⟩
      · exact absurd hdev hx
      · exact absurd hno hx
      · exact absurd ((hv hx).symm.trans hx') Bool.true_eq_false.mp
    · exact hr
  · rw [Function.update_of_ne hxb] at hx
    rcases hx with hx | hx | ⟨hx, hx'⟩
    · exact absurd rfl hx
    · exact absurd rfl hx
    · exact absurd (hx.symm.trans hx') Bool.true_eq_false.mp

omit [Fintype ι] in
theorem step_waiting {e : Event ι δ} (hs : step s e = some t) (hproc : p = e.proc)
    (hp : s.pc p ≠ .run) : e = .acquiresleep p ∨ e = .ideintr p ∨ e = .release p := by
  subst hproc
  cases e with
  | acquiresleep p => exact Or.inl rfl
  | ideintr p => exact Or.inr (Or.inl rfl)
  | release p => exact Or.inr (Or.inr rfl)
  | bread p dev blockno =>
    simp only [Event.proc] at hp
    simp only [step, if_neg hp] at hs
    cases hs
  | _ =>
    simp only [Event.proc] at hp
    simp only [step, hp, false_and, if_false] at hs
    cases hs

/-- A process in `bread`, and the buffer it waits for. -/
def Pc.reads (b : Id) (dev blockno : ℕ) (k : Pc) : Prop :=
  k = .acquire b dev blockno ∨ k = .read b dev blockno

theorem Inv.returns {e : Event ι δ} {dev blockno : ℕ} (h : Inv s) (ha : Allowed s e)
    (hs : Bcache.step s e = some t) (hk : (s.pc p).reads b dev blockno) (hrun : t.pc p = .run) :
    (t.cache.buf b).dev = dev ∧ (t.cache.buf b).blockno = blockno ∧ (t.cache.buf b).lock = some p ∧
      (t.cache.buf b).valid = true ∧ (t.cache.buf b).data = t.last dev blockno := by
  have ht := (h.step ha hs).ok b
  have hne : s.pc p ≠ .run := by
    intro hp
    rw [hp] at hk
    rcases hk with hk | hk <;> cases hk
  -- the process itself takes the step
  have hproc : p = e.proc := by
    obtain ⟨c, v, heff⟩ := h.effect hs
    by_contra hp
    exact hne ((heff.others p hp).symm.trans hrun)
  suffices hres : (t.cache.buf b).dev = dev ∧ (t.cache.buf b).blockno = blockno ∧
      (t.cache.buf b).lock = some p ∧ t.unsaved b = false by
    obtain ⟨rfl, rfl, hlock, hu⟩ := hres
    have hv := ht.running_valid hlock hrun
    exact ⟨rfl, rfl, hlock, hv, ht.data hv hu⟩
  have hat := (h.ok b).pcs p
  rcases hk with hk | hk
  · rw [hk] at hat
    obtain ⟨-, hdev, hno⟩ := hat rfl
    rcases step_waiting hs hproc hne with rfl | rfl | rfl
    · simp only [Bcache.step, hk] at hs
      by_cases hlock : (s.cache.buf b).lock = none
      · rw [if_pos hlock] at hs
        cases hs
        simp only [Sys.goto, Sys.setBuf, Cache.set, Function.update_self]
        exact ⟨hdev, hno, trivial, (h.ok b).saved hlock⟩
      · rw [if_neg hlock] at hs
        cases hs
    · simp only [Bcache.step, hk] at hs
      cases hs
    · simp only [Bcache.step, hk] at hs
      cases hs
  · rw [hk] at hat
    obtain ⟨hdev, hno, hlock, -, hu⟩ := hat rfl
    rcases step_waiting hs hproc hne with rfl | rfl | rfl
    · simp only [Bcache.step, hk] at hs
      cases hs
    · simp only [Bcache.step, hk] at hs
      cases hs
      simp only [Sys.goto, Sys.setBuf, Cache.set, Function.update_self]
      exact ⟨hdev, hno, hlock, hu⟩
    · simp only [Bcache.step, hk] at hs
      cases hs

/-- In every run the list is a circle of all buffers, no block is in two buffers, `bget` ends and
recycles only an unused clean buffer, and a `bread` returns the data that was last written to the
block. -/
theorem bcache_coherent (data : Id → δ) (disk : ℕ → ℕ → δ) (es : List (Event ι δ)) (s : Sys ι δ)
    (hr : Run step (fun s e _ => Allowed s e) (start data disk) es s) :
    (∃ l : List Id, Chains.Circle s.cache.next s.cache.prev none (l.map some) ∧
      l.Perm (List.finRange NBUF)) ∧
    (∀ a b, (s.cache.buf a).dev ≠ 0 → (s.cache.buf a).dev = (s.cache.buf b).dev →
      (s.cache.buf a).blockno = (s.cache.buf b).blockno → a = b) ∧
    (∀ dev blockno, s.cache.bget dev blockno ≠ .hangs) ∧
    ∀ e t, Allowed s e → step s e = some t →
      (∀ b, (t.cache.buf b).dev ≠ (s.cache.buf b).dev ∨ (t.cache.buf b).blockno ≠ (s.cache.buf b).blockno ∨
          (s.cache.buf b).valid = true ∧ (t.cache.buf b).valid = false →
        (s.cache.buf b).refcnt = 0 ∧ (s.cache.buf b).dirty = false) ∧
      ∀ p b dev blockno, (s.pc p).reads b dev blockno → t.pc p = .run →
        (t.cache.buf b).dev = dev ∧ (t.cache.buf b).blockno = blockno ∧ (t.cache.buf b).lock = some p ∧
          (t.cache.buf b).valid = true ∧ (t.cache.buf b).data = t.last dev blockno := by
  have h := run_inv hr
  obtain ⟨l, hl⟩ := h.list
  refine ⟨⟨l, hl⟩, h.unique, fun dev blockno => ?_, fun e t ha hs =>
    ⟨h.recycles hs, fun p b dev blockno => h.returns ha hs⟩⟩
  rcases hl.bget_spec dev blockno with ⟨b, hb, -⟩ | ⟨-, ⟨b, hb, -⟩ | hb⟩
  all_goals
    rw [hb]
    exact Got.noConfusion

def firstBuf : Id := ⟨0, by decide⟩

instance (s : Sys Unit ℕ) : (e : Event Unit ℕ) → Decidable (Allowed s e)
  | .bread _ dev _ => inferInstanceAs (Decidable (dev ≠ 0))
  | .brelse _ b => inferInstanceAs (Decidable (s.unsaved b = false))
  | .acquiresleep _ | .ideintr _ | .store _ _ _ | .bwrite _ _ | .log_write _ _ | .release _ => isTrue trivial

/-- Block 5 is written with 77. The process then holds 29 other blocks, so that the next one takes the
buffer of block 5, and reads block 5 again. -/
def evict : List (Event Unit ℕ) :=
  [.bread () 1 5, .acquiresleep (), .ideintr (), .store () firstBuf 77, .bwrite () firstBuf, .ideintr (),
    .brelse () firstBuf, .release ()] ++
  (List.range 29).flatMap (fun i => [.bread () 1 (6+i), .acquiresleep (), .ideintr ()]) ++
  [.bread () 1 40, .acquiresleep (), .ideintr (), .brelse () firstBuf, .release (), .bread () 1 5, .acquiresleep ()]

theorem evict_run : ∃ s : Sys Unit ℕ,
    Run step (fun s e _ => Allowed s e) (start (fun _ => 0) fun _ blockno => blockno) evict s ∧
      s.pc () = .read firstBuf 1 5 ∧ s.last 1 5 = 77 ∧ ∀ b, (s.cache.buf b).dirty = false := by
  have heval : (exec (guarded step fun s e _ => Allowed s e) (start (fun _ => 0) fun _ blockno => blockno) evict).map
      (fun s : Sys Unit ℕ => (s.pc (), s.last 1 5, decide (∀ b, (s.cache.buf b).dirty = false))) =
      some (.read firstBuf 1 5, 77, true) := by decide +kernel
  obtain ⟨s, hs, hfacts⟩ := Option.map_eq_some_iff.mp heval
  obtain ⟨hpc, hrest⟩ := Prod.mk.inj hfacts
  obtain ⟨hlast, hclean⟩ := Prod.mk.inj hrest
  exact ⟨s, run_guarded hs, hpc, hlast, of_decide_eq_true hclean⟩

theorem bcache_coherent_evict : ∃ s t : Sys Unit ℕ,
    Run step (fun s e _ => Allowed s e) (start (fun _ => 0) fun _ blockno => blockno) evict s ∧
    step s (.ideintr ()) = some t ∧ (t.cache.buf firstBuf).data = 77 := by
  obtain ⟨s, hrun, hpc, hlast, -⟩ := evict_run
  have hs : ∃ t, step s (.ideintr ()) = some t ∧ t.pc () = .run ∧ t.last = s.last := by
    simp only [step, hpc]
    exact ⟨_, rfl, rfl, rfl⟩
  obtain ⟨t, hs, hrun', hsame⟩ := hs
  have hread := ((bcache_coherent _ _ _ _ hrun).2.2.2 (.ideintr ()) t trivial hs).2 () firstBuf 1 5
    (Or.inr hpc) hrun'
  exact ⟨s, t, hrun, hs, by rw [hread.2.2.2.2, hsame, hlast]⟩

/-- In every run the data last written to a block is on the disk, or in a dirty buffer for the block until a
holder changes it again, and the references to a buffer are those of the processes that have it or wait for it. -/
theorem no_write_lost (data : Id → δ) (disk : ℕ → ℕ → δ) (es : List (Event ι δ)) (s : Sys ι δ)
    (hr : Run step (fun s e _ => Allowed s e) (start data disk) es s) :
    (∀ dev blockno, dev ≠ 0 → s.disk dev blockno = s.last dev blockno ∨
      ∃ b, (s.cache.buf b).dirty = true ∧ (s.cache.buf b).dev = dev ∧ (s.cache.buf b).blockno = blockno ∧
        (s.unsaved b = false → (s.cache.buf b).data = s.last dev blockno)) ∧
    ∀ b, (s.cache.buf b).refcnt = RefCount.refs (fun q => (s.pc q).waits) b+(s.cache.buf b).lock.isSome.toNat := by
  have h := run_inv hr
  refine ⟨fun dev blockno hdev => (h.disk dev blockno hdev).imp_right ?_, fun b => (h.ok b).count⟩
  rintro ⟨b, hdirty, rfl, rfl⟩
  exact ⟨b, hdirty, rfl, rfl, (h.ok b).data ((h.ok b).dirty hdirty)⟩

theorem no_write_lost_evict : ∃ s : Sys Unit ℕ,
    Run step (fun s e _ => Allowed s e) (start (fun _ => 0) fun _ blockno => blockno) evict s ∧
      s.pc () = .read firstBuf 1 5 ∧ s.disk 1 5 = 77 := by
  obtain ⟨s, hrun, hpc, hlast, hclean⟩ := evict_run
  refine ⟨s, hrun, hpc, ?_⟩
  rcases (no_write_lost _ _ _ _ hrun).1 1 5 (by decide) with hdisk | ⟨b, hdirty, -⟩
  · rw [hdisk, hlast]
  · rw [hclean b] at hdirty
    cases hdirty

end ProvenXv6.Bcache
