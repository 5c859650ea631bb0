import Mathlib.Data.List.Nodup
import ProvenXv6.SpinlockModel

namespace ProvenXv6.Spinlock
open StepSystem

/-- The flag that is left when every `pushcli` has been undone. -/
def Irq.base (i : Irq) : Bool := if i.ncli = 0 then i.flag else i.intena

structure Irq.At (i : Irq) (n : ℕ) : Prop where
  count : i.ncli = n
  masked : i.flag = true → n = 0

theorem Irq.At.pushcli {i : Irq} {n : ℕ} (h : i.At n) : i.pushcli.At (n+1) ∧ i.pushcli.base = i.base := by
  refine ⟨⟨by simp [Irq.pushcli, h.count], fun hf => Bool.noConfusion hf⟩, ?_⟩
  have hne : i.pushcli.ncli ≠ 0 := by
    change i.ncli+1 ≠ 0
    rw [h.count]
    omega
  rw [Irq.base, if_neg hne]
  rfl

theorem Irq.At.popcli {i : Irq} {n : ℕ} (h : i.At (n+1)) :
    ∃ j, i.popcli = .ok j ∧ j.At n ∧ j.base = i.base := by
  have hcount := h.count
  have hflag : i.flag = false := Bool.eq_false_iff.mpr fun hf => Nat.succ_ne_zero n (h.masked hf)
  have hpos : ¬i.ncli-1 < 0 := by omega
  refine ⟨_, by rw [Irq.popcli, hflag, if_neg Bool.false_ne_true, if_neg hpos], ⟨by simp [hcount], ?_⟩, ?_⟩
  · intro hf
    have := (of_decide_eq_true hf).1
    omega
  · have hne : i.ncli ≠ 0 := by omega
    simp only [Irq.base, if_neg hne]
    split_ifs with h0 <;> simp [h0]

section
variable {κ L τ : Type}

/-- The calls of `pushcli` that are open beside those of the locks held. -/
def Pc.pushes : Pc L → ℕ
  | .test _ true _ => 2
  | .test _ false _ => 1
  | .spin _ => 1
  | .record _ => 1
  | _ => 0

def Pc.Ok (held : List L) : Pc L → Prop
  | .run => True
  | .test l true _ => l ∉ held
  | .test l false locked => l ∈ held ∧ locked = true
  | .spin l => l ∉ held
  | .record l => l ∉ held
  | .clear l => l ∈ held
  | .unlock l => l ∈ held

structure Core.Ok (x : Core L τ) : Prop where
  irq : x.irq.At (x.held.length+x.pc.pushes)
  pc : x.pc.Ok x.held
  nodup : x.held.Nodup
  frames : ∀ f ∈ x.frames, f = .run
  base : x.thread ≠ none → x.frames = [] → x.irq.base = true

/-- The CPU has taken the lock. -/
def Core.Has (x : Core L τ) (l : L) : Prop := l ∈ x.held ∨ x.pc = .record l

/-- The CPU stands in lk->cpu. -/
def Core.Owns (x : Core L τ) (l : L) : Prop := l ∈ x.held ∧ x.pc ≠ .unlock l

def Saved.Ok (v : Saved L) : Prop := (∀ f ∈ v.frames, f = .run) ∧ (v.frames = [] → v.intena = some true)

/-- The CPU that own gives for a lock has taken it. -/
structure Inv (s : Sys κ L τ) (own : L → Option κ) : Prop where
  core : ∀ c, (s.core c).Ok
  has : ∀ c l, (s.core c).Has l ↔ own l = some c
  locked : ∀ l, s.locked l = (own l).isSome
  cpu : ∀ c l, s.cpu l = some c ↔ (s.core c).Owns l
  saved : ∀ p v, s.saved p = some v → v.Ok
  panic : s.panic = none

/-- The pc does not stand between the two stores of `acquire` or of `release`. -/
def Pc.Plain : Pc L → Prop
  | .record _ => False
  | .unlock _ => False
  | _ => True

theorem Core.has_plain {x : Core L τ} (h : x.pc.Plain) (l : L) : x.Has l ↔ l ∈ x.held := by
  refine or_iff_left fun hpc => ?_
  rw [hpc] at h
  exact h

theorem Core.owns_plain {x : Core L τ} (h : x.pc.Plain) (l : L) : x.Owns l ↔ l ∈ x.held := by
  refine and_iff_left fun hpc => ?_
  rw [hpc] at h
  exact h

variable {s t : Sys κ L τ} {own own' : L → Option κ} {c : κ} {x : Core L τ} {l : L}

theorem Inv.cpu_ne (h : Inv s own) (hl : (s.core c).Has l) {d : κ} (hd : d ≠ c) : s.cpu l ≠ some d := by
  intro hcpu
  have howns := ((h.cpu d l).mp hcpu).1
  have := ((h.has d l).mp (Or.inl howns)).symm.trans ((h.has c l).mp hl)
  exact hd (Option.some.inj this)

theorem Core.Ok.interruptible (hx : x.Ok) (hf : x.irq.flag = true) : x.pc = .run ∧ x.held = [] := by
  have hzero := hx.irq.masked hf
  have hheld : x.held = [] := List.length_eq_zero_iff.mp (by omega)
  have hok := hx.pc
  rw [hheld] at hok
  refine ⟨?_, hheld⟩
  cases hpc : x.pc with
  | run => rfl
  | test l acquire locked => cases acquire <;> simp [hpc, Pc.pushes] at hzero
  | spin l => simp [hpc, Pc.pushes] at hzero
  | record l => simp [hpc, Pc.pushes] at hzero
  | clear l => simp [hpc, Pc.Ok] at hok
  | unlock l => simp [hpc, Pc.Ok] at hok

theorem Core.Ok.moved {i : Irq} {pc : Pc L} (hx : x.Ok) (hi : i.At (x.held.length+pc.pushes))
    (hb : i.base = x.irq.base) (hpc : pc.Ok x.held) : Core.Ok { x with irq := i, pc := pc } :=
  ⟨hi, hpc, hx.nodup, hx.frames, fun ht hf => hb.trans (hx.base ht hf)⟩

theorem Inv.save [DecidableEq τ] (h : Inv s own) (p : τ) {o : Option (Saved L)} (ho : ∀ v, o = some v → v.Ok) :
    Inv { s with saved := Function.update s.saved p o } own := by
  refine ⟨h.core, h.has, h.locked, h.cpu, fun q v (hv : Function.update s.saved p o q = some v) => ?_, h.panic⟩
  by_cases hq : q = p
  · rw [hq, Function.update_self] at hv
    exact ho v hv
  · exact h.saved q v ((Function.update_of_ne hq ..).symm.trans hv)

variable [DecidableEq κ]

theorem Inv.change {locked : L → Bool} {cpu : L → Option κ} (h : Inv s own) (hx : x.Ok)
    (hhas : ∀ l, x.Has l ↔ own' l = some c) (hown : ∀ l d, d ≠ c → (own' l = some d ↔ own l = some d))
    (hlocked : ∀ l, locked l = (own' l).isSome) (hcpu : ∀ l, cpu l = some c ↔ x.Owns l)
    (hcpu' : ∀ l d, d ≠ c → (cpu l = some d ↔ s.cpu l = some d)) :
    Inv ({ s with locked := locked, cpu := cpu }.put c x) own' := by
  have hself : Function.update s.core c x c = x := Function.update_self ..
  have hother {d : κ} (hd : d ≠ c) : Function.update s.core c x d = s.core d := Function.update_of_ne hd ..
  refine ⟨fun d => ?_, fun d l => ?_, hlocked, fun d l => ?_, h.saved, h.panic⟩
  all_goals
    simp only [Sys.put]
    by_cases hd : d = c
  · rw [hd, hself]
    exact hx
  · rw [hother hd]
    exact h.core d
  · rw [hd, hself, hhas]
  · rw [hother hd, h.has, hown l d hd]
  · rw [hd, hself, hcpu]
  · rw [hother hd, hcpu' l d hd, h.cpu]

theorem Inv.put (h : Inv s own) (hx : x.Ok) (hheld : x.held = (s.core c).held) (hplain : x.pc.Plain)
    (hplain' : (s.core c).pc.Plain) : Inv (s.put c x) own := by
  refine h.change hx (fun l => ?_) (fun _ _ _ => Iff.rfl) h.locked (fun l => ?_) (fun _ _ _ => Iff.rfl)
  · rw [Core.has_plain hplain, hheld, ← h.has, Core.has_plain hplain']
  · rw [h.cpu, Core.owns_plain hplain, Core.owns_plain hplain', hheld]

/-- `sched` with ptable.lock held and nothing else: no panic, and intena is that of the process. -/
theorem Inv.sched [DecidableEq τ] {ptable : L} (h : Inv s own) (hpc : (s.core c).pc = .run)
    (hheld : (s.core c).held = [ptable]) {p : τ} (hp : (s.core c).thread = some p) :
    Inv (s.sched ptable c p) own := by
  have hx := h.core c
  have hplain : (s.core c).pc.Plain := hpc ▸ trivial
  have hirq : (s.core c).irq.At 1 := by simpa [hpc, hheld, Pc.pushes] using hx.irq
  have hmem : ptable ∈ (s.core c).held := hheld ▸ List.mem_singleton_self ptable
  have hcpu := (h.cpu c ptable).mpr ((Core.owns_plain hplain ptable).mpr hmem)
  have hlocked : s.locked ptable = true := by simp [h.locked, (h.has c ptable).mp (Or.inl hmem)]
  have hcount : (s.core c).irq.ncli = 1 := hirq.count
  have hflag : (s.core c).irq.flag = false := Bool.eq_false_iff.mpr fun hf => Nat.one_ne_zero (hirq.masked hf)
  simp only [Sys.sched, hlocked, hcpu, hcount, hflag, and_self, not_true_eq_false, if_false, ne_eq,
    Bool.false_eq_true]
  refine (h.save p ?_).put ⟨hx.irq, hx.pc, hx.nodup, fun _ hf => absurd hf List.not_mem_nil,
    fun ht => absurd rfl ht⟩ rfl hplain hplain
  rintro _ ⟨⟩
  refine ⟨hx.frames, fun hf => congrArg some ?_⟩
  have := hx.base (hp ▸ Option.some_ne_none p) hf
  rwa [Irq.base, if_neg (by omega)] at this

variable [DecidableEq L]

theorem Inv.exec (h : Inv s own) (hs : s.exec c (s.core c).pc = some t) : ∃ own', Inv t own' := by
  have hx := h.core c
  have hirq := hx.irq
  have hok := hx.pc
  cases hpc : (s.core c).pc with
  | run =>
    rw [hpc] at hs
    cases hs
  | test l acquire locked =>
    rw [hpc] at hs hirq hok
    have hplain : (s.core c).pc.Plain := hpc ▸ trivial
    cases hs
    refine ⟨own, ?_⟩
    cases acquire with
    | true =>
      obtain ⟨i, hpop, hi, hbase⟩ := Irq.At.popcli (n := (s.core c).held.length+1) hirq
      have hno : ¬(locked && s.cpu l = some c) = true := by
        intro hr
        exact hok ((h.cpu c l).mp (of_decide_eq_true (Bool.and_eq_true_iff.mp hr).2)).1
      simp only [Sys.popcli, hpop, if_true, if_neg hno]
      exact h.put (hx.moved hi hbase hok) rfl trivial hplain
    | false =>
      obtain ⟨i, hpop, hi, hbase⟩ := Irq.At.popcli (n := (s.core c).held.length) hirq
      have hcpu := (h.cpu c l).mpr ((Core.owns_plain hplain l).mpr hok.1)
      have hyes : (locked && s.cpu l = some c) = true := by simp [hok.2, hcpu]
      simp only [Sys.popcli, hpop, if_pos hyes]
      exact h.put (hx.moved hi hbase hok.1) rfl trivial hplain
  | spin l =>
    rw [hpc] at hs hirq hok
    have hplain : (s.core c).pc.Plain := hpc ▸ trivial
    rw [Sys.exec] at hs
    split_ifs at hs with htaken
    · cases hs
      exact ⟨own, h⟩
    · -- the xchg finds 0: nobody has the lock
      cases hs
      have hfree : own l = none := by simpa [h.locked] using htaken
      refine ⟨Function.update own l (some c), h.change (hx.moved hirq rfl hok) (fun k => ?_) (fun k d hd => ?_)
        (fun k => ?_) (fun k => ?_) (fun _ _ _ => Iff.rfl)⟩
      · have hold := (Core.has_plain hplain k).symm.trans (h.has c k)
        by_cases hk : k = l
        · simp [Core.Has, hk]
        · simp [Core.Has, hold, hk, Ne.symm hk]
      · by_cases hk : k = l <;> simp [hk, hfree, hd.symm]
      · by_cases hk : k = l <;> simp [hk, h.locked]
      · refine (h.cpu c k).trans ((Core.owns_plain hplain k).trans ?_)
        simp [Core.Owns]
  | record l =>
    rw [hpc] at hs hirq hok
    cases hs
    have hhas : (s.core c).Has l := Or.inr hpc
    refine ⟨own, h.change ⟨hirq, trivial, List.nodup_cons.mpr ⟨hok, hx.nodup⟩, hx.frames, hx.base⟩ (fun k => ?_)
      (fun _ _ _ => Iff.rfl) h.locked (fun k => ?_) (fun k d hd => ?_)⟩
    · rw [← h.has]
      simp [Core.Has, hpc, eq_comm, or_comm]
    · by_cases hk : k = l
      · simp [Core.Owns, hk]
      · simp [Core.Owns, hk, h.cpu, hpc]
    · by_cases hk : k = l
      · subst hk
        simp [hd.symm, h.cpu_ne hhas hd]
      · simp [hk]
  | clear l =>
    rw [hpc] at hs hirq hok
    cases hs
    have hhas : (s.core c).Has l := Or.inl hok
    refine ⟨own, h.change (hx.moved hirq rfl hok) (fun k => ?_) (fun _ _ _ => Iff.rfl) h.locked (fun k => ?_)
      (fun k d hd => ?_)⟩
    · rw [← h.has]
      simp [Core.Has, hpc]
    · by_cases hk : k = l
      · simp [Core.Owns, hk]
      · simp [Core.Owns, hk, Ne.symm hk, h.cpu, hpc]
    · by_cases hk : k = l
      · subst hk
        simp [h.cpu_ne hhas hd]
      · simp [hk]
  | unlock l =>
    rw [hpc] at hs hirq hok
    cases hs
    have hhas : own l = some c := (h.has c l).mp (Or.inl hok)
    have hlen : (s.core c).held.length = ((s.core c).held.erase l).length+1 :=
      (List.length_erase_add_one hok).symm
    obtain ⟨i, hpop, hi, hbase⟩ := Irq.At.popcli (n := ((s.core c).held.erase l).length) (hlen ▸ hirq)
    simp only [Sys.popcli, hpop]
    refine ⟨Function.update own l none, h.change ⟨hi, trivial, hx.nodup.erase l, hx.frames,
      fun ht hf => hbase.trans (hx.base ht hf)⟩ (fun k => ?_) (fun k d hd => ?_) (fun k => ?_) (fun k => ?_)
      (fun _ _ _ => Iff.rfl)⟩
    · by_cases hk : k = l
      · simp [Core.Has, hk, hx.nodup.mem_erase_iff]
      · simp [Core.Has, hk, hx.nodup.mem_erase_iff, ← h.has, hpc]
    · by_cases hk : k = l
      · simp [hk, hhas, hd.symm]
      · simp [hk]
    · by_cases hk : k = l <;> simp [hk, h.locked]
    · refine (h.cpu c k).trans ?_
      simp [Core.Owns, hx.nodup.mem_erase_iff, hpc, and_comm, eq_comm]

variable [DecidableEq τ] {ptable : L} {e : Event κ L τ}

theorem Inv.step (h : Inv s own) (hs : step ptable s e = some t) (hp : Proper ptable s e t) : ∃ own', Inv t own' := by
  unfold Spinlock.step at hs
  rw [if_neg (not_not.mpr h.panic)] at hs
  cases e with
  | acquire c l =>
    have hx := h.core c
    dsimp only at hs
    split_ifs at hs with hpc
    cases hs
    obtain ⟨h1, hb1⟩ := hx.irq.pushcli
    obtain ⟨h2, hb2⟩ := h1.pushcli
    rw [hpc] at h2
    exact ⟨own, h.put (hx.moved h2 (hb2.trans hb1) hp) rfl trivial (hpc ▸ trivial)⟩
  | release c l =>
    have hx := h.core c
    dsimp only at hs
    split_ifs at hs with hpc
    cases hs
    obtain ⟨h1, hb1⟩ := hx.irq.pushcli
    rw [hpc] at h1
    have hlocked : s.locked l = true := by simp [h.locked, (h.has c l).mp (Or.inl hp)]
    exact ⟨own, h.put (hx.moved h1 hb1 ⟨hp, hlocked⟩) rfl trivial (hpc ▸ trivial)⟩
  | run c => exact h.exec hs
  | interrupt c =>
    have hx := h.core c
    dsimp only at hs
    split_ifs at hs with hf
    cases hs
    obtain ⟨hpc, -⟩ := hx.interruptible hf
    have hirq := hx.irq
    rw [hpc] at hirq
    refine ⟨own, h.put ⟨⟨hirq.count, fun hf => Bool.noConfusion hf⟩, trivial, hx.nodup, fun f hf' => ?_,
      fun _ hf' => absurd hf' (List.cons_ne_nil _ _)⟩ rfl trivial (hpc ▸ trivial)⟩
    rcases List.mem_cons.mp hf' with rfl | hf'
    · exact hpc
    · exact hx.frames f hf'
  | iret c =>
    have hx := h.core c
    have hheld : (s.core c).held = [] := hp
    dsimp only at hs
    split at hs
    · rename_i f fs hpc hframes
      cases hs
      obtain rfl : f = .run := hx.frames f (hframes ▸ List.mem_cons_self)
      have hcount := hx.irq.count
      simp only [hpc, hheld, Pc.pushes, List.length_nil] at hcount
      refine ⟨own, h.put ⟨⟨by simpa [Pc.pushes, hheld] using hcount, fun _ => by simp [Pc.pushes, hheld]⟩, trivial,
        hx.nodup, fun f hf => hx.frames f (hframes ▸ List.mem_cons_of_mem _ hf), fun _ _ => ?_⟩ rfl trivial (hpc ▸ trivial)⟩
      simp [Irq.base, hcount]
    · cases hs
  | sti c =>
    have hx := h.core c
    have hheld : (s.core c).held = [] := hp
    dsimp only at hs
    split_ifs at hs with hc
    cases hs
    exact ⟨own, h.put ⟨⟨hx.irq.count, fun _ => by simp [Pc.pushes, hheld, hc.1]⟩, hx.pc, hx.nodup, hx.frames,
      fun ht => absurd hc.2 ht⟩ rfl (hc.1 ▸ trivial) (hc.1 ▸ trivial)⟩
  | newproc p =>
    cases hs
    refine ⟨own, h.save p ?_⟩
    rintro _ ⟨⟩
    exact ⟨fun f hf => List.mem_singleton.mp hf, fun hf => absurd hf (List.cons_ne_nil _ _)⟩
  | sched c =>
    dsimp only at hs
    split at hs
    · rename_i p hpc hthread
      cases hs
      exact ⟨own, h.sched hpc hp hthread⟩
    · cases hs
  | dispatch c p =>
    have hx := h.core c
    have hheld : (s.core c).held = [ptable] := hp
    dsimp only at hs
    split at hs
    · rename_i v hpc hthread hframes hv
      cases hs
      obtain ⟨hrun, hintena⟩ := h.saved p v hv
      refine ⟨own, (h.save p fun _ hw => absurd hw.symm (Option.some_ne_none _)).put ⟨⟨hx.irq.count, hx.irq.masked⟩,
        hx.pc, hx.nodup, hrun, fun _ hf => ?_⟩ rfl (hpc ▸ trivial) (hpc ▸ trivial)⟩
      have hcount := hx.irq.count
      simp only [hpc, hheld, Pc.pushes, List.length_singleton] at hcount
      simp [Irq.base, hcount, hintena hf]
    · cases hs

/-- However the CPUs interleave and interrupts arrive, as long as the kernel is proper: no panic of
the lock functions happens; a lock is held by one CPU at most; `holding` tells exactly the locks that its
CPU holds; interrupts are off wherever a lock is held, and on again in every process that is not in an
interrupt and holds none. -/
theorem locks_exclude {es : List (Event κ L τ)} (hrun : Run (step ptable) (Proper ptable) start es s) :
    s.panic = none ∧ (∀ l c d, l ∈ (s.core c).held → l ∈ (s.core d).held → c = d) ∧
      (∀ c l, (s.core c).pc = .run → (s.locked l = true ∧ s.cpu l = some c ↔ l ∈ (s.core c).held)) ∧
      (∀ c, (s.core c).held ≠ [] → (s.core c).irq.flag = false) ∧
      ∀ c, (s.core c).thread ≠ none → (s.core c).pc = .run → (s.core c).frames = [] → (s.core c).held = [] →
        (s.core c).irq.flag = true := by
  obtain ⟨own, h⟩ : ∃ own, Inv s own := by
    refine hrun.invariant (I := fun s => ∃ own, Inv s own) ⟨fun _ => none, ?_⟩ fun s e t ⟨_, hi⟩ hs hp => hi.step hs hp
    refine ⟨fun _ => ⟨⟨rfl, fun _ => rfl⟩, trivial, List.nodup_nil, fun _ hf => absurd hf List.not_mem_nil,
      fun ht => absurd rfl ht⟩, fun c l => ?_, fun _ => rfl, fun c l => ?_, fun p v hv => ?_, rfl⟩
    · simp [start, Core.Has]
    · simp [start, Core.Owns]
    · cases hv
  refine ⟨h.panic, fun l c d hc hd => ?_, fun c l hpc => ?_, fun c hc => ?_, fun c ht hpc hf hheld => ?_⟩
  · have := ((h.has c l).mp (Or.inl hc)).symm.trans ((h.has d l).mp (Or.inl hd))
    exact Option.some.inj this
  · have hplain : (s.core c).pc.Plain := hpc ▸ trivial
    rw [h.cpu, Core.owns_plain hplain]
    refine and_iff_right_of_imp fun hl => ?_
    simp [h.locked, (h.has c l).mp (Or.inl hl)]
  · exact Bool.eq_false_iff.mpr fun hf => hc ((h.core c).interruptible hf).2
  · have hcount := (h.core c).irq.count
    simp only [hpc, hheld, Pc.pushes, List.length_nil] at hcount
    have := (h.core c).base ht hf
    rwa [Irq.base, if_pos (by simpa using hcount)] at this

instance (s t : Sys κ L τ) (e : Event κ L τ) : Decidable (Proper ptable s e t) := by
  unfold Proper
  cases e <;> infer_instance

/-- CPU 0 switches to a new process while CPU 1 spins for ptable.lock, and CPU 1 gets it. -/
theorem locks_exclude_two : ∃ s : Sys (Fin 2) (Fin 1) Unit, ∃ es, Run (step 0) (Proper 0) start es s ∧
    (s.core 0).thread = some () ∧ (s.core 1).held = [0] ∧ (s.core 1).irq.flag = false := by
  have htrace : ∃ s ∈ exec (guarded (step (0 : Fin 1)) (Proper 0)) (start : Sys (Fin 2) (Fin 1) Unit)
      [.newproc (), .sti 0, .acquire 0 0, .run 0, .run 0, .run 0, .acquire 1 0, .run 1, .run 1, .dispatch 0 (),
        .release 0 0, .run 0, .run 0, .run 0, .run 1, .run 1],
      (s.core 0).thread = some () ∧ (s.core 1).held = [0] := by
    decide
  obtain ⟨s, hs, ht, hheld⟩ := htrace
  have hrun := run_guarded hs
  exact ⟨s, _, hrun, ht, hheld, (locks_exclude hrun).2.2.2.1 1 (by simp [hheld])⟩

end

end ProvenXv6.Spinlock
