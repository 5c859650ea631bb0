import Mathlib.Data.Fintype.Card
import ProvenXv6.IdeModel

namespace ProvenXv6.Ide
open Chains StepSystem
open Bcache (NBUF Id Node Buf set2)
open Fs (FSSIZE)

variable {ι δ : Type}

namespace Command

def apply (disk : ℕ → ℕ → δ) : Command δ → ℕ → ℕ → δ
  | read _ _ => disk
  | write d n x => set2 disk d n x

/-- The data of the buffer behind the command. -/
def answer (disk : ℕ → ℕ → δ) : Command δ → δ
  | read d n => disk d n
  | write _ _ x => x

/-- What the controller has for the handler. -/
def input (disk : ℕ → ℕ → δ) : Command δ → Option δ
  | read d n => some (disk d n)
  | write _ _ _ => none

end Command

def after (disk : ℕ → ℕ → δ) (l : List ((Id × Command δ) × δ)) : ℕ → ℕ → δ := l.foldl (fun d x => x.1.2.apply d) disk

/-- Every answer is that of the disk after the requests before it. -/
def Right (disk : ℕ → ℕ → δ) : List ((Id × Command δ) × δ) → Prop
  | [] => True
  | x :: l => x.2 = x.1.2.answer disk ∧ Right (x.1.2.apply disk) l

/-- The last answer for b is d. -/
def LastAnswer (l : List ((Id × Command δ) × δ)) (b : Id) (d : δ) : Prop :=
  ∃ l₁ c l₂, l = l₁ ++ ((b, c), d) :: l₂ ∧ ∀ x ∈ l₂, x.1.1 ≠ b

/-- The buffers q are in the queue, and the processes that wait for them sleep. -/
structure Orderly (disk₀ : ℕ → ℕ → δ) (s : Sys ι δ) (q : List Id) : Prop where
  chain : Links s.qnext (none :: q.map some) none
  nodup : q.Nodup
  fifo : s.asked = s.answered.map Prod.fst ++ q.map fun b => (b, s.command b)
  right : Right disk₀ s.answered
  queued : ∀ b ∈ q, done (s.buf b) = false ∧ ∃ p, s.pc p = .sleeping b
  asleep : ∀ p b, s.pc p = .sleeping b → b ∈ q ∧ (s.buf b).lock = some p
  woken : ∀ p b, s.pc p = .woken b → (s.buf b).lock = some p ∧ done (s.buf b) = true ∧ LastAnswer s.answered b (s.buf b).data

/-- The controller works on the first request of the queue, and the disk has what the requests before it have left. -/
def Working (disk₀ : ℕ → ℕ → δ) (s : Sys ι δ) : List Id → Prop
  | [] => s.controller = .idle ∧ s.disk = after disk₀ s.answered
  | b :: _ => (s.controller = .busy (s.command b) ∧ s.disk = after disk₀ s.answered) ∨
    (s.controller = .ready ((s.command b).input (after disk₀ s.answered)) ∧
      s.disk = (s.command b).apply (after disk₀ s.answered))

variable {disk₀ : ℕ → ℕ → δ} {s t : Sys ι δ} {q : List Id} {b : Id} {p : ι} {e : Stop}

theorem right_append {l m : List ((Id × Command δ) × δ)} {disk : ℕ → ℕ → δ} :
    Right disk (l ++ m) ↔ Right disk l ∧ Right (after disk l) m := by
  induction l generalizing disk with
  | nil => simp [Right, after]
  | cons x l ih => simp [Right, after, ih, and_assoc]

theorem LastAnswer.append {l : List ((Id × Command δ) × δ)} {d : δ} {x : (Id × Command δ) × δ} (h : LastAnswer l b d)
    (hx : x.1.1 ≠ b) : LastAnswer (l ++ [x]) b d := by
  obtain ⟨l₁, c, l₂, rfl, hl⟩ := h
  refine ⟨l₁, c, l₂ ++ [x], by simp, fun y hy => ?_⟩
  rcases List.mem_append.mp hy with hy | hy
  · exact hl y hy
  · rw [List.mem_singleton.mp hy]
    exact hx

namespace Orderly
variable (h : Orderly disk₀ s q)
include h

theorem head : s.qnext none = (q.map some).headD none := h.chain.1

/-- A buffer in the queue belongs to a process that sleeps. -/
theorem not_mem (hlock : (s.buf b).lock = some p) (hp : s.pc p ≠ .sleeping b) : b ∉ q := by
  intro hb
  obtain ⟨-, p', hp'⟩ := h.queued b hb
  have hlock' := (h.asleep p' b hp').2
  rw [hlock] at hlock'
  cases hlock'
  exact hp hp'

theorem append_eq (hb : b ∉ q) : ∃ next, s.append b = .ok { s with qnext := next, asked := s.asked ++ [(b, s.command b)] } ∧
    Links next (none :: (q ++ [b]).map some) none := by
  have hnew : some b ∉ none :: q.map some := by simpa using hb
  have hnodup : (none :: q.map some).Nodup := by
    rw [List.nodup_cons]
    exact ⟨by simp, h.nodup.map (Option.some_injective _)⟩
  have hlinks : Links (Function.update s.qnext (some b) none) (none :: q.map some) none :=
    (links_congr fun a ha => Function.update_of_ne (fun heq : a = some b => hnew (heq ▸ ha)) ..).mpr h.chain
  have hlen : (q.map some).length < NBUF+1 := by
    have hcard := h.nodup.length_le_card
    rw [Fintype.card_fin] at hcard
    rw [List.length_map]
    omega
  have hwalk := walk_last hlinks (by simp) hlen
  refine ⟨Function.update (Function.update s.qnext (some b) none) ((q.map some).getLastD none) (some b), ?_, ?_⟩
  · unfold Sys.append
    dsimp only
    rw [hwalk]
  · rw [List.map_append]
    exact links_snoc h.chain hnodup hnew

end Orderly

theorem idestart_eq (hidle : s.controller = .idle) : s.idestart (some b) =
    if (s.buf b).blockno ≥ FSSIZE then .error (.panic "incorrect blockno")
    else .ok { s with controller := .busy (s.command b) } := by
  rw [Sys.idestart, hidle]

theorem Command.answer_eq (disk : ℕ → ℕ → δ) (b : Id) (hready : s.controller = .ready ((s.command b).input disk)) :
    s.input b = (s.command b).answer disk := by
  rw [Sys.input, hready]
  unfold Sys.command
  cases hd : (s.buf b).dirty <;> simp [hd, input, answer]

theorem Orderly.serve (h : Orderly disk₀ s (b :: q))
    (hready : s.controller = .ready ((s.command b).input (after disk₀ s.answered))) :
    Orderly disk₀ (s.serve b) q := by
  obtain ⟨hb, hq⟩ := List.nodup_cons.mp h.nodup
  have hne {c : Id} (hc : c ∈ q) : c ≠ b := fun heq => hb (heq ▸ hc)
  have hbuf {c : Id} (hc : c ≠ b) : (s.serve b).buf c = s.buf c := Function.update_of_ne hc ..
  have hcommand {c : Id} (hc : c ≠ b) : (s.serve b).command c = s.command c := by rw [Sys.command, hbuf hc, Sys.command]
  have hpc {p : ι} {x : Pc} (hx : (s.serve b).pc p = x) :
      (s.pc p = .sleeping b ∧ x = .woken b) ∨ (s.pc p ≠ .sleeping b ∧ s.pc p = x) := by
    have hx : (if s.pc p = .sleeping b then .woken b else s.pc p) = x := hx
    split_ifs at hx with hp
    · exact Or.inl ⟨hp, hx.symm⟩
    · exact Or.inr ⟨hp, hx⟩
  constructor
  · have hchain := h.chain
    refine ⟨?_, (links_congr fun a ha => ?_).mpr hchain.2.2⟩
    · change Function.update s.qnext none (s.qnext (some b)) none = _
      rw [Function.update_self]
      exact hchain.2.1
    · refine Function.update_of_ne (fun hnone : a = none => ?_) ..
      rw [hnone] at ha
      simp at ha
  · exact hq
  · rw [Sys.serve, h.fifo]
    simp only [List.map_append, List.map_cons, List.map_nil, List.append_assoc, List.singleton_append]
    congr 2
    apply List.map_congr_left
    intro c hc
    exact congrArg (Prod.mk c) (hcommand (hne hc)).symm
  · exact right_append.mpr ⟨h.right, Command.answer_eq _ b hready, trivial⟩
  · intro c hc
    rw [hbuf (hne hc)]
    obtain ⟨hdone, p, hp⟩ := h.queued c (List.mem_cons_of_mem b hc)
    refine ⟨hdone, p, ?_⟩
    have hother : s.pc p ≠ .sleeping b := by
      rw [hp]
      exact fun heq => hne hc (Pc.sleeping.inj heq)
    exact (if_neg hother).trans hp
  · intro p c hp
    rcases hpc hp with ⟨-, hx⟩ | ⟨hother, hp⟩
    · cases hx
    · have hc : c ≠ b := fun heq => hother (heq ▸ hp)
      obtain ⟨hmem, hlock⟩ := h.asleep p c hp
      rw [hbuf hc]
      exact ⟨(List.mem_cons.mp hmem).resolve_left hc, hlock⟩
  · intro p c hp
    rcases hpc hp with ⟨hold, hx⟩ | ⟨-, hold⟩
    · cases hx
      have hself : (s.serve b).buf b = { s.buf b with valid := true, dirty := false, data := s.input b } :=
        Function.update_self ..
      rw [hself]
      exact ⟨(h.asleep p b hold).2, rfl, s.answered, s.command b, [], rfl, fun x hx => absurd hx List.not_mem_nil⟩
    · have hc : c ≠ b := by
        rintro rfl
        exact h.not_mem (h.woken p c hold).1 (hold ▸ Pc.noConfusion) List.mem_cons_self
      obtain ⟨hlock, hdone, hlast⟩ := h.woken p c hold
      rw [hbuf hc]
      exact ⟨hlock, hdone, hlast.append hc.symm⟩

theorem Orderly.ideintr (h : Orderly disk₀ s q) (hw : Working disk₀ s q) (hfree : ∀ c, s.controller ≠ .busy c) :
    (∃ t q', s.ideintr = .ok t ∧ Orderly disk₀ t q' ∧ Working disk₀ t q') ∨
      (s.ideintr = .error (.panic "incorrect blockno") ∧ ∃ b ∈ q, (s.buf b).blockno ≥ FSSIZE) := by
  unfold Sys.ideintr
  cases q with
  | nil =>
    have hhead : s.qnext none = none := h.head
    rw [hhead]
    exact Or.inl ⟨s, [], rfl, h, hw⟩
  | cons b q =>
    obtain ⟨hready, hdisk⟩ := hw.resolve_left fun hbusy => hfree _ hbusy.1
    have ht := h.serve hready
    have hdisk' : (s.serve b).disk = after disk₀ (s.serve b).answered := by
      rw [Sys.serve, after, List.foldl_append]
      exact hdisk
    have hhead : s.qnext none = some b := h.head
    rw [hhead]
    dsimp only
    cases q with
    | nil =>
      have hnext : (s.serve b).qnext none = none := ht.head
      rw [hnext]
      exact Or.inl ⟨s.serve b, [], rfl, ht, rfl, hdisk'⟩
    | cons c q =>
      have hnext : (s.serve b).qnext none = some c := ht.head
      have hc : c ≠ b := fun heq => (List.nodup_cons.mp h.nodup).1 (heq ▸ List.mem_cons_self)
      have hbuf : (s.serve b).buf c = s.buf c := Function.update_of_ne hc ..
      rw [hnext, if_pos (Option.some_ne_none c), idestart_eq rfl, hbuf]
      split_ifs with hblock
      · exact Or.inr ⟨rfl, c, List.mem_cons_of_mem _ List.mem_cons_self, hblock⟩
      · refine Or.inl ⟨_, c :: q, rfl, ?_, Or.inl ⟨rfl, hdisk'⟩⟩
        exact ⟨ht.chain, ht.nodup, ht.fifo, ht.right, ht.queued, ht.asleep, ht.woken⟩

theorem setBuf_of_ne {c : Id} {v : Buf ι δ} (h : c ≠ b) : (s.setBuf b v).buf c = s.buf c := Function.update_of_ne h ..

theorem Orderly.other {v : Buf ι δ} (h : Orderly disk₀ s q) (hfree : ∀ p, (s.buf b).lock = some p → s.pc p = .run) :
    b ∉ q ∧ Orderly disk₀ (s.setBuf b v) q := by
  have hout {x : ι} {c : Id} (hl : (s.buf c).lock = some x) (hx : s.pc x ≠ .run) : c ≠ b :=
    fun heq => hx (hfree x (heq ▸ hl))
  have hb : b ∉ q := by
    intro hb
    obtain ⟨-, x, hx⟩ := h.queued b hb
    exact hout (h.asleep x b hx).2 (hx ▸ Pc.noConfusion) rfl
  have hne {c : Id} (hc : c ∈ q) : c ≠ b := fun heq => hb (heq ▸ hc)
  refine ⟨hb, h.chain, h.nodup, ?_, h.right, fun c hc => ?_, fun x c hx => ?_, fun x c hx => ?_⟩
  · change s.asked = s.answered.map Prod.fst ++ _
    rw [h.fifo]
    congr 1
    apply List.map_congr_left
    intro c hc
    rw [Sys.command, Sys.command, setBuf_of_ne (hne hc)]
  · rw [setBuf_of_ne (hne hc)]
    exact h.queued c hc
  · rw [setBuf_of_ne (hne (h.asleep x c hx).1)]
    exact h.asleep x c hx
  · have hrun : s.pc x ≠ .run := fun hrun => Pc.noConfusion (hrun.symm.trans hx)
    rw [setBuf_of_ne (hout (h.woken x c hx).1 hrun)]
    exact h.woken x c hx

theorem Working.finish (h : Orderly disk₀ s q) (hw : Working disk₀ s q) (hs : s.finish true = some t) :
    Orderly disk₀ t q ∧ Working disk₀ t q := by
  unfold Sys.finish at hs
  cases q with
  | nil =>
    rw [hw.1] at hs
    cases hs
  | cons b q =>
    rcases hw with ⟨hbusy, hdisk⟩ | ⟨hready, -⟩
    · rw [hbusy] at hs
      cases hc : s.command b with
      | read d n =>
        rw [hc] at hs
        cases hs
        refine ⟨⟨h.chain, h.nodup, h.fifo, h.right, h.queued, h.asleep, h.woken⟩, Or.inr ?_⟩
        change Controller.ready (some (s.disk d n)) = .ready ((s.command b).input _) ∧ s.disk = (s.command b).apply _
        rw [hc, hdisk]
        exact ⟨rfl, rfl⟩
      | write d n x =>
        rw [hc] at hs
        cases hs
        refine ⟨⟨h.chain, h.nodup, h.fifo, h.right, h.queued, h.asleep, h.woken⟩, Or.inr ?_⟩
        change Controller.ready none = .ready ((s.command b).input _) ∧ set2 s.disk d n x = (s.command b).apply _
        rw [hc, hdisk]
        exact ⟨rfl, rfl⟩
    · rw [hready] at hs
      cases hs

structure Start (s : Sys ι δ) : Prop where
  queue : s.qnext none = none
  controller : s.controller = .idle
  pc : ∀ p, s.pc p = .run
  asked : s.asked = []
  answered : s.answered = []

theorem Start.orderly (h : Start s) : Orderly s.disk s [] ∧ Working s.disk s [] := by
  refine ⟨⟨⟨h.queue, trivial⟩, List.nodup_nil, ?_, ?_, fun b hb => absurd hb List.not_mem_nil, fun p b hp => ?_,
    fun p b hp => ?_⟩, h.controller, ?_⟩
  · rw [h.asked, h.answered]
    rfl
  · rw [h.answered]
    trivial
  · rw [h.pc] at hp
    cases hp
  · rw [h.pc] at hp
    cases hp
  · rw [h.answered]
    rfl

def NoError (_ : Sys ι δ) (e : Event ι δ) (_ : Sys ι δ) : Prop := e ≠ .finish false

section
variable [DecidableEq ι]

/-- `iderw` by a process that has not called it: the request is the last one of the queue. -/
theorem Orderly.iderw (h : Orderly disk₀ s q) (hw : Working disk₀ s q) (hp : s.pc p = .run) :
    (∃ t, s.iderw p b = .ok t ∧ Orderly disk₀ t (q ++ [b]) ∧ Working disk₀ t (q ++ [b])) ∨
      ∃ msg, s.iderw p b = .error (.panic msg) := by
  unfold Sys.iderw
  split_ifs with hlock hdone hdev
  · exact Or.inr ⟨_, rfl⟩
  · exact Or.inr ⟨_, rfl⟩
  · exact Or.inr ⟨_, rfl⟩
  have hlock := not_not.mp hlock
  have hdone := Bool.eq_false_of_not_eq_true hdone
  have hb := h.not_mem hlock (hp ▸ Pc.noConfusion)
  obtain ⟨next, happend, hchain⟩ := h.append_eq hb
  -- whatever the controller does, the request is in the queue and p sleeps
  have horder (c : Controller δ) : Orderly disk₀ (({ s with
      qnext := next, asked := s.asked ++ [(b, s.command b)], controller := c } : Sys ι δ).await p b) (q ++ [b]) := by
    have hpc (x : ι) : (({ s with qnext := next, asked := s.asked ++ [(b, s.command b)], controller := c } : Sys ι δ).await p b).pc x =
        if x = p then .sleeping b else s.pc x := by
      simp only [Sys.await, hdone, Function.update_apply]
      rfl
    constructor
    · exact hchain
    · refine List.nodup_append.mpr ⟨h.nodup, List.nodup_singleton b, fun c hc d hd heq => hb ?_⟩
      rwa [← List.mem_singleton.mp hd, ← heq]
    · change s.asked ++ [(b, s.command b)] = s.answered.map Prod.fst ++ (q ++ [b]).map fun b => (b, s.command b)
      rw [h.fifo, List.map_append, List.append_assoc]
      rfl
    · exact h.right
    · intro c hc
      simp only [hpc]
      rcases List.mem_append.mp hc with hc | hc
      · obtain ⟨hd, p', hp'⟩ := h.queued c hc
        refine ⟨hd, p', ?_⟩
        rw [if_neg, hp']
        rintro rfl
        rw [hp] at hp'
        cases hp'
      · rw [List.mem_singleton.mp hc]
        exact ⟨hdone, p, if_pos rfl⟩
    · intro x c hx
      rw [hpc] at hx
      split_ifs at hx with heq
      · cases hx
        exact ⟨by simp, heq ▸ hlock⟩
      · obtain ⟨hmem, hl⟩ := h.asleep x c hx
        exact ⟨List.mem_append_left _ hmem, hl⟩
    · intro x c hx
      rw [hpc] at hx
      split_ifs at hx
      exact h.woken x c hx
  rw [happend]
  cases q with
  | nil =>
    obtain ⟨hidle, hdisk⟩ := hw
    have hhead : next none = some b := hchain.1
    have hstart : ({ s with qnext := next, asked := s.asked ++ [(b, s.command b)] } : Sys ι δ).startFirst b =
        if (s.buf b).blockno ≥ FSSIZE then .error (.panic "incorrect blockno") else .ok { s with
          qnext := next, asked := s.asked ++ [(b, s.command b)], controller := .busy (s.command b) } :=
      (if_pos hhead).trans (idestart_eq hidle)
    change (∃ t, Sys.startFirst _ b >>= _ = Except.ok t ∧ _) ∨ ∃ msg, Sys.startFirst _ b >>= _ = Except.error (Stop.panic msg)
    rw [hstart]
    split_ifs with hblock
    · exact Or.inr ⟨_, rfl⟩
    · exact Or.inl ⟨_, rfl, horder _, Or.inl ⟨rfl, hdisk⟩⟩
  | cons c q =>
    have hhead : next none = some c := hchain.1
    have hne : some c ≠ some b := fun heq => hb (Option.some.inj heq ▸ List.mem_cons_self)
    have hstart : ({ s with qnext := next, asked := s.asked ++ [(b, s.command b)] } : Sys ι δ).startFirst b =
        .ok { s with qnext := next, asked := s.asked ++ [(b, s.command b)] } :=
      if_neg fun heq => hne (hhead.symm.trans heq)
    refine Or.inl ⟨_, ?_, horder s.controller, hw⟩
    change Sys.startFirst _ b >>= _ = _
    rw [hstart]
    rfl

theorem Orderly.resume (h : Orderly disk₀ s q) (hp : s.pc p = .woken b) : Orderly disk₀ (s.await p b) q := by
  have hpc (x : ι) : (s.await p b).pc x = if x = p then .run else s.pc x := by
    simp only [Sys.await, (h.woken p b hp).2.1, Function.update_apply]
    rfl
  refine ⟨h.chain, h.nodup, h.fifo, h.right, fun c hc => ?_, fun x c hx => ?_, fun x c hx => ?_⟩
  · obtain ⟨hd, p', hp'⟩ := h.queued c hc
    refine ⟨hd, p', ?_⟩
    rw [hpc, if_neg, hp']
    rintro rfl
    rw [hp] at hp'
    cases hp'
  · rw [hpc] at hx
    split_ifs at hx
    exact h.asleep x c hx
  · rw [hpc] at hx
    split_ifs at hx
    exact h.woken x c hx

theorem orderly_step {e : Event ι δ} (h : Orderly disk₀ s q) (hw : Working disk₀ s q) (hs : step s e = some t)
    (hok : e ≠ .finish false) : ∃ q', Orderly disk₀ t q' ∧ Working disk₀ t q' := by
  cases e with
  | iderw p b =>
    simp only [step] at hs
    split_ifs at hs with hp
    rcases h.iderw (b := b) hw hp with ⟨t', ht', horder⟩ | ⟨msg, herror⟩
    · rw [ht'] at hs
      cases hs
      exact ⟨_, horder⟩
    · rw [herror] at hs
      cases hs
  | ideintr =>
    have hfree (c : Command δ) : s.controller ≠ .busy c := by
      intro hc
      simp [step, hc] at hs
    have hs : s.ideintr.toOption = some t := by
      cases hc : s.controller with
      | busy c => exact absurd hc (hfree c)
      | idle | ready => simpa [step, hc] using hs
    rcases h.ideintr hw hfree with ⟨t', q', ht', horder⟩ | ⟨herror, -⟩
    · rw [ht'] at hs
      cases hs
      exact ⟨q', horder⟩
    · rw [herror] at hs
      cases hs
  | resume p =>
    cases hp : s.pc p with
    | woken b =>
      simp only [step, hp] at hs
      cases hs
      refine ⟨q, h.resume hp, ?_⟩
      cases q with
      | nil => exact hw
      | cons c q => exact hw
    | run | sleeping => simp [step, hp] at hs
  | finish ok =>
    cases ok with
    | false => exact absurd rfl hok
    | true => exact ⟨q, Working.finish h hw hs⟩
  | other b v =>
    simp only [step] at hs
    split_ifs at hs with hfree
    cases hs
    have hfree (p : ι) (hp : (s.buf b).lock = some p) : s.pc p = .run := by simpa [hp] using hfree
    obtain ⟨hb, horder⟩ := h.other (v := v) hfree
    refine ⟨q, horder, ?_⟩
    cases q with
    | nil => exact hw
    | cons c q =>
      have hc : c ≠ b := fun heq => hb (heq ▸ List.mem_cons_self)
      simp only [Working, Sys.command, setBuf_of_ne hc]
      exact hw

/-- In every state of a run without errors of the disk the queue has the requests that have not been carried out, in the
order of the calls; the others have been carried out once each, in the order of the calls, and have the answers that a disk
gives that carries them out one after another. The controller works whenever the queue has a request, a process sleeps only
while its request is in the queue, and goes on with its answer. `iderw` and the handler stop only with a panic, the
handler only for a block that is not on the disk. -/
theorem requests_in_order {es : List (Event ι δ)} (hstart : Start s) (hrun : Run step NoError s es t) :
    ∃ q, Orderly s.disk t q ∧ Working s.disk t q ∧
      (∀ p b e, t.pc p = .run → t.iderw p b = .error e → ∃ msg, e = .panic msg) ∧
      ((∀ c, t.controller ≠ .busy c) → ∀ e, t.ideintr = .error e →
        e = .panic "incorrect blockno" ∧ ∃ b ∈ q, (t.buf b).blockno ≥ FSSIZE) := by
  obtain ⟨q, h, hw⟩ : ∃ q, Orderly s.disk t q ∧ Working s.disk t q := by
    refine hrun.invariant (I := fun t => ∃ q, Orderly s.disk t q ∧ Working s.disk t q) ⟨[], hstart.orderly⟩ ?_
    rintro s' e t' ⟨q, h, hw⟩ hs hok
    exact orderly_step h hw hs hok
  refine ⟨q, h, hw, fun p b e hp he => ?_, fun hfree e he => ?_⟩
  · rcases h.iderw (b := b) hw hp with ⟨t', ht', -⟩ | ⟨msg, herror⟩
    · rw [ht'] at he
      cases he
    · rw [herror] at he
      cases he
      exact ⟨msg, rfl⟩
  · rcases h.ideintr hw hfree with ⟨t', q', ht', -⟩ | ⟨herror, hblock⟩
    · rw [ht'] at he
      cases he
    · rw [herror] at he
      cases he
      exact ⟨rfl, hblock⟩

end

/-- Process 0 writes 7 to a block, and process 1 reads the block with another buffer. -/
def twoUsers : Sys (Fin 2) ℕ where
  buf b := if b.val = 0 then ⟨1, 5, true, true, 1, some 0, 7⟩ else ⟨1, 5, false, false, 1, some 1, 0⟩
  qnext _ := none
  havedisk1 := true
  controller := .idle
  disk _ _ := 0
  pc _ := .run
  asked := []
  answered := []

theorem requests_in_order_two : ∃ t q, Run step NoError twoUsers
      [.iderw 0 ⟨0, by decide⟩, .iderw 1 ⟨1, by decide⟩, .finish true, .ideintr, .resume 0, .finish true, .ideintr, .resume 1] t ∧
    (t.buf ⟨1, by decide⟩).data = 7 ∧ Orderly twoUsers.disk t q := by
  have hexec : ((exec step twoUsers [.iderw 0 ⟨0, by decide⟩, .iderw 1 ⟨1, by decide⟩, .finish true, .ideintr, .resume 0, .finish true, .ideintr,
      .resume 1]).map fun t => (t.buf ⟨1, by decide⟩).data) = some 7 := by decide
  obtain ⟨t, ht, hdata⟩ := Option.map_eq_some_iff.mp hexec
  have hrun := (run_exec ht).mem.mono (R := NoError) fun s e s' _ hmem => by
    rintro rfl
    simp at hmem
  obtain ⟨q, h, -⟩ := requests_in_order ⟨rfl, rfl, fun _ => rfl, rfl, rfl⟩ hrun
  exact ⟨t, q, hrun, hdata, h⟩

end ProvenXv6.Ide
