import Mathlib.Data.List.Infix
import ProvenXv6.PipeSteps

namespace ProvenXv6.Pipes
open RingBuffer StepSystem

def Pipe.count (p : Pipe) : ℕ := (p.nwrite-p.nread).toNat

/-- The bytes in the buffer, the oldest first. -/
def Pipe.buffer (p : Pipe) : List Byte := window PIPESIZE p.data p.nread p.count

theorem PIPESIZE_dvd : PIPESIZE ∣ 0x100000000 := by decide

theorem Pipe.empty_iff (p : Pipe) : p.empty ↔ p.count = 0 := behind_eq_zero.symm

theorem Pipe.full_iff (p : Pipe) : p.full ↔ p.count = PIPESIZE := (behind_eq_iff (by decide)).symm

/-- The bytes that a reader has taken and not yet returned. -/
def Stmt.copied : Stmt → List Byte
  | .readCopy _ buf => buf
  | .wakeup _ next => next.copied
  | .release (.read buf) => buf
  | _ => []

theorem Advance.bytes {p p' : Pipe} {killed : Bool} {k k' : Stmt} {new : List (ℕ × Byte)}
    (h : Advance p killed k p' k' new) (hroom : p.count ≤ PIPESIZE) :
    p'.count ≤ PIPESIZE ∧ k'.copied ++ p'.buffer = k.copied ++ p.buffer ++ new.map Prod.snd := by
  cases h with
  | @readByte n buf hmore =>
    have hpos : 0 < behind p.nread p.nwrite := Nat.pos_of_ne_zero fun he => hmore (p.empty_iff.mpr he)
    refine ⟨(behind_advance hpos).trans_le ((Nat.sub_le _ 1).trans hroom), ?_⟩
    have hpop : p.buffer = p.data (p.nread.toNat%PIPESIZE) :: ({ p with nread := p.nread+1 } : Pipe).buffer :=
      window_pop PIPESIZE_dvd p.data hpos
    simp only [Stmt.copied, hpop, List.append_assoc, List.singleton_append, List.map_nil, List.append_nil]
  | @writeByte w start i b hb hspace =>
    have hlt : behind p.nread p.nwrite < PIPESIZE := lt_of_le_of_ne hroom fun he => hspace (p.full_iff.mpr he)
    have hsucc : behind p.nread (p.nwrite+1) = behind p.nread p.nwrite+1 := behind_succ (hlt.trans_le (by decide))
    refine ⟨hsucc.trans_le hlt, ?_⟩
    have hpush : ({ p with data := Function.update p.data (p.nwrite.toNat%PIPESIZE) b, nwrite := p.nwrite+1 } :
        Pipe).buffer = p.buffer ++ [b] := by
      have hw := window_push p.data PIPESIZE_dvd hlt b
      rw [← hsucc] at hw
      exact hw
    rw [hpush]
    rfl
  -- the other statements move no byte
  | _ => exact ⟨hroom, (List.append_nil _).symm⟩

variable {ι : Type} {s t : Sys ι} {e : Event ι} {p q : ι}

structure Fifo (s : Sys ι) : Prop where
  room : s.pipe.count ≤ PIPESIZE
  /-- a call takes the lock with nothing in its hands -/
  entry : ∀ p k, (s.proc p).pc = .acquire k → k.copied = []
  free : s.lock = none → s.stored.map Prod.snd = s.reads.flatten ++ s.pipe.buffer
  held : ∀ p k, (s.proc p).pc = .hold k → s.stored.map Prod.snd = s.reads.flatten ++ (k.copied ++ s.pipe.buffer)

theorem Fifo.quiet (h : Fifo s) (ho : Others p s t) (hpipe : t.pipe = s.pipe) (hstored : t.stored = s.stored)
    (hreads : t.reads = s.reads) (hlock : t.lock = s.lock)
    (hhold : ∀ k, (t.proc p).pc = .hold k → (s.proc p).pc = .hold k)
    (hentry : ∀ k, (t.proc p).pc = .acquire k → k.copied = []) : Fifo t where
  room := by
    rw [hpipe]
    exact h.room
  entry := by
    intro q k hq
    by_cases hqp : q = p
    · exact hentry k (hqp ▸ hq)
    · exact h.entry q k (ho.pc q hqp ▸ hq)
  free := by
    rw [hpipe, hstored, hreads, hlock]
    exact h.free
  held := by
    intro q k hq
    rw [hpipe, hstored, hreads]
    by_cases hqp : q = p
    · exact h.held q k (hqp ▸ hhold k (hqp ▸ hq))
    · exact h.held q k (ho.pc q hqp ▸ hq)

theorem Fifo.holder (h : Fifo s) (hl : Locks s) (ho : Others p s t) {k : Stmt} (hpc : (s.proc p).pc = .hold k)
    (hroom : t.pipe.count ≤ PIPESIZE) (hentry : ∀ k', (t.proc p).pc ≠ .acquire k')
    (hfree : t.lock = none → t.stored.map Prod.snd = t.reads.flatten ++ t.pipe.buffer)
    (hheld : ∀ k', (t.proc p).pc = .hold k' →
      t.stored.map Prod.snd = t.reads.flatten ++ (k'.copied ++ t.pipe.buffer)) : Fifo t where
  room := hroom
  entry := by
    intro q k' hq
    by_cases hqp : q = p
    · exact absurd (hqp ▸ hq) (hentry k')
    · exact h.entry q k' (ho.pc q hqp ▸ hq)
  free := hfree
  held := by
    intro q k' hq
    by_cases hqp : q = p
    · exact hheld k' (hqp ▸ hq)
    · exact absurd (hl.holder hpc (ho.pc q hqp ▸ hq)) hqp

theorem copied_stmt (c : Call) (n : ℕ) : (c.stmt n).copied = [] := by
  cases c <;> rfl

theorem Resume.copied_stmt (r : Resume) : r.stmt.copied = [] := by
  cases r <;> rfl

theorem Ret.flatten_bytes (ret : Ret) : ret.bytes.flatten = (Stmt.release ret).copied := by
  cases ret <;> simp [Ret.bytes, Stmt.copied]

variable [DecidableEq ι]

theorem Fifo.move (h : Fifo s) (hl : Locks s) (hm : Move s e t) : Fifo t := by
  have ho := hm.others
  cases hm with
  | @call p c hpc =>
    refine h.quiet ho rfl rfl rfl rfl ?_ ?_
    · simp
    · simp [copied_stmt]
  | @acquire p k hpc hlock =>
    have hfree := h.free hlock
    refine ⟨h.room, ?_, by simp, ?_⟩
    · intro q k' hq
      by_cases hqp : q = p
      · simp [hqp] at hq
      · exact h.entry q k' (ho.pc q hqp ▸ hq)
    · intro q k' hq
      by_cases hqp : q = p
      · simp only [hqp, goto_self, Pc.hold.injEq] at hq
        rw [← hq, h.entry p k hpc]
        exact hfree
      · rw [ho.pc q hqp] at hq
        exact absurd ((hl.lock q).mpr ⟨k', hq⟩) (by simp [hlock])
  | @advance p k next pipe new hpc hadv =>
    obtain ⟨hroom, hbytes⟩ := hadv.bytes h.room
    refine h.holder hl ho hpc hroom (by simp) ?_ ?_
    · intro hnone
      exact absurd ((hl.lock p).mpr ⟨k, hpc⟩) (by simp [show s.lock = none from hnone])
    · intro k' hk'
      simp only [Event.actor, goto_self, Pc.hold.injEq] at hk'
      show (s.stored ++ new).map Prod.snd = s.reads.flatten ++ (k'.copied ++ pipe.buffer)
      rw [← hk', hbytes, List.map_append, h.held p k hpc, List.append_assoc]
  | @wakeup p c next hpc hpt =>
    refine h.holder hl ho hpc h.room (by simp) ?_ ?_
    · intro hnone
      exact absurd ((hl.lock p).mpr ⟨_, hpc⟩) (by simp [show s.lock = none from hnone])
    · intro k' hk'
      simp only [Event.actor, goto_self, Pc.hold.injEq] at hk'
      have hheld := h.held p _ hpc
      rw [← hk']
      exact hheld
  | @sleep p r hpc hpt =>
    exact h.holder hl ho hpc h.room (by simp) (fun _ => h.held p _ hpc) (by simp)
  | @release p ret hpc =>
    refine h.holder hl ho hpc h.room (by simp) ?_ (by simp)
    intro _
    show s.stored.map Prod.snd = (s.reads ++ ret.bytes).flatten ++ s.pipe.buffer
    rw [List.flatten_append, ret.flatten_bytes, List.append_assoc]
    exact h.held p _ hpc
  | @closeFree p hpc =>
    exact h.holder hl ho hpc h.room (by simp) (fun _ => h.held p _ hpc) (by simp)
  | @going p r hpc =>
    exact h.quiet ho rfl rfl rfl rfl (by simp) (by simp)
  | @resume p r hpc hawake =>
    refine h.quiet ho rfl rfl rfl rfl (by simp) ?_
    simp [Resume.copied_stmt]
  | @kill p hpt =>
    refine h.quiet ho rfl rfl rfl rfl (by simp) ?_
    intro k hk
    simp only [Event.actor, modify_self] at hk
    exact h.entry p k hk

omit [DecidableEq ι] in
theorem start_count (data : ℕ → Byte) : (start ι data).pipe.count = 0 := by
  show ((0 : BitVec 32)-0).toNat = 0
  decide

omit [DecidableEq ι] in
theorem fifo_start (data : ℕ → Byte) : Fifo (start ι data) where
  room := by
    rw [start_count]
    exact Nat.zero_le _
  entry := by simp [start]
  free := by
    intro _
    rw [Pipe.buffer, start_count]
    rfl
  held := by simp [start]

def Resume.writing : Resume → Option (Write × ℕ)
  | .read _ => none
  | .write w i => some (w, i)

/-- The call that stores bytes, and how many it has stored. -/
def Stmt.writing : Stmt → Option (Write × ℕ)
  | .writeTest w _ i => some (w, i)
  | .wakeup _ next => next.writing
  | .sleep r => r.writing
  | .release (.wrote w) => some (w, w.src.length)
  | _ => none

def Pc.writing : Pc → Option (Write × ℕ)
  | .user => none
  | .acquire k => k.writing
  | .hold k => k.writing
  | .going r => r.writing
  | .asleep r => r.writing

/-- The bytes stored by call c. -/
def Sys.sent (s : Sys ι) (c : ℕ) : List Byte := (s.stored.filter (fun x => x.1 = c)).map Prod.snd

structure Order (s : Sys ι) : Prop where
  known : ∀ x ∈ s.stored, x.1 < s.writes.length
  sent : ∀ c src, s.writes[c]? = some src → s.sent c <+: src
  current : ∀ p w i, (s.proc p).pc.writing = some (w, i) → s.writes[w.call]? = some w.src ∧ s.sent w.call = w.src.take i
  own : ∀ p q w i v j, (s.proc p).pc.writing = some (w, i) → (s.proc q).pc.writing = some (v, j) →
    w.call = v.call → p = q

/-- The process goes on with its call, or is done with it. -/
def GoesOn (pc pc' : Pc) : Prop :=
  ∀ w j, pc'.writing = some (w, j) → ∃ i, pc.writing = some (w, i) ∧ w.src.take i = w.src.take j

theorem GoesOn.of_eq {pc pc' : Pc} (h : pc'.writing = pc.writing) : GoesOn pc pc' :=
  fun _ j hw => ⟨j, h ▸ hw, rfl⟩

theorem GoesOn.of_none {pc pc' : Pc} (h : pc'.writing = none) : GoesOn pc pc' := by
  intro w j hw
  rw [h] at hw
  cases hw

omit [DecidableEq ι] in
theorem Order.next (h : Order s) (ho : Others p s t) (hstored : t.stored = s.stored) (hwrites : t.writes = s.writes)
    (hp : GoesOn (s.proc p).pc (t.proc p).pc) : Order t := by
  have hon (q : ι) : GoesOn (s.proc q).pc (t.proc q).pc := by
    by_cases hq : q = p
    · exact hq ▸ hp
    · exact .of_eq (by rw [ho.pc q hq])
  have hsent (c : ℕ) : t.sent c = s.sent c := by rw [Sys.sent, hstored, Sys.sent]
  refine ⟨?_, ?_, ?_, ?_⟩
  · rw [hstored, hwrites]
    exact h.known
  · intro c src hc
    rw [hsent]
    exact h.sent c src (hwrites ▸ hc)
  · intro q w j hq
    obtain ⟨i, hw, htake⟩ := hon q w j hq
    rw [hsent, hwrites, ← htake]
    exact h.current q w i hw
  · intro q q' w i v j hq hq' hc
    obtain ⟨i', hw, -⟩ := hon q w i hq
    obtain ⟨j', hv, -⟩ := hon q' v j hq'
    exact h.own q q' w i' v j' hw hv hc

theorem Advance.stores {p p' : Pipe} {killed : Bool} {k k' : Stmt} {new : List (ℕ × Byte)}
    (h : Advance p killed k p' k' new) :
    (new = [] ∧ GoesOn (.hold k) (.hold k')) ∨
      ∃ w start i b, k = .writeTest w start i ∧ w.src[i]? = some b ∧ new = [(w.call, b)] ∧
        k' = .writeTest w start (i+1) := by
  cases h with
  | @writeEnd w start i hend =>
    refine Or.inl ⟨rfl, ?_⟩
    intro v j hv
    obtain ⟨rfl, rfl⟩ := Prod.mk.inj (Option.some.inj hv)
    have hle := List.getElem?_eq_none_iff.mp hend
    exact ⟨i, rfl, by rw [List.take_of_length_le hle, List.take_length]⟩
  | writeSleep hfull => exact Or.inl ⟨rfl, .of_eq rfl⟩
  | writeByte hb hspace => exact Or.inr ⟨_, _, _, _, rfl, hb, rfl, rfl⟩
  | _ => exact Or.inl ⟨rfl, .of_none rfl⟩

theorem Order.store (h : Order s) {w : Write} {start i : ℕ} {b : Byte} (pipe : Pipe)
    (hpc : (s.proc p).pc = .hold (.writeTest w start i)) (hb : w.src[i]? = some b) :
    Order ({ s with pipe := pipe, stored := s.stored ++ [(w.call, b)] }.goto p
      (.hold (.writeTest w start (i+1)))) := by
  generalize ht : ({ s with pipe := pipe, stored := s.stored ++ [(w.call, b)] }.goto p
    (.hold (.writeTest w start (i+1)))) = t
  have hwrites : t.writes = s.writes := ht ▸ rfl
  have hstored : t.stored = s.stored ++ [(w.call, b)] := ht ▸ rfl
  have hself : (t.proc p).pc.writing = some (w, i+1) := by
    rw [← ht, goto_self]
    rfl
  have hother {q : ι} (hq : q ≠ p) : (t.proc q).pc = (s.proc q).pc := by rw [← ht, goto_of_ne _ _ _ hq]
  have hw : (s.proc p).pc.writing = some (w, i) := by
    rw [hpc]
    rfl
  obtain ⟨hcall, hsent⟩ := h.current p w i hw
  have hnew : t.sent w.call = w.src.take (i+1) := by
    rw [Sys.sent, hstored, List.filter_append, List.filter_cons_of_pos (by simp), List.filter_nil, List.map_append,
      ← Sys.sent, hsent, List.take_add_one, hb]
    rfl
  have hold {c : ℕ} (hc : c ≠ w.call) : t.sent c = s.sent c := by
    rw [Sys.sent, hstored, List.filter_append, List.filter_cons_of_neg (by simp [Ne.symm hc]), List.filter_nil,
      List.append_nil, ← Sys.sent]
  refine ⟨?_, ?_, ?_, ?_⟩
  · intro x hx
    rw [hstored] at hx
    rw [hwrites]
    rcases List.mem_append.mp hx with hx | hx
    · exact h.known x hx
    · rw [List.mem_singleton.mp hx]
      exact (List.getElem?_eq_some_iff.mp hcall).1
  · intro c src hc
    rw [hwrites] at hc
    by_cases hcw : c = w.call
    · rw [hcw, hcall, Option.some.injEq] at hc
      rw [hcw, hnew, ← hc]
      exact List.take_prefix _ _
    · rw [hold hcw]
      exact h.sent c src hc
  · intro q v j hq
    rw [hwrites]
    by_cases hqp : q = p
    · rw [hqp, hself] at hq
      obtain ⟨rfl, rfl⟩ := Prod.mk.inj (Option.some.inj hq)
      exact ⟨hcall, hnew⟩
    · rw [hother hqp] at hq
      have hne : v.call ≠ w.call := fun he => hqp (h.own q p v j w i hq hw he)
      rw [hold hne]
      exact h.current q v j hq
  · have hback (q : ι) (v : Write) (j : ℕ) (hq : (t.proc q).pc.writing = some (v, j)) :
        ∃ j', (s.proc q).pc.writing = some (v, j') := by
      by_cases hqp : q = p
      · rw [hqp, hself] at hq
        obtain ⟨rfl, rfl⟩ := Prod.mk.inj (Option.some.inj hq)
        exact ⟨i, hqp ▸ hw⟩
      · exact ⟨j, hother hqp ▸ hq⟩
    intro q q' v j v' j' hq hq' hc
    obtain ⟨k, hk⟩ := hback q v j hq
    obtain ⟨k', hk'⟩ := hback q' v' j' hq'
    exact h.own q q' v k v' k' hk hk' hc

theorem Order.write (h : Order s) (p : ι) (src : List Byte) :
    Order ({ s with writes := s.writes ++ [src] }.goto p (.acquire (.writeTest ⟨s.writes.length, src⟩ 0 0))) := by
  generalize ht : ({ s with writes := s.writes ++ [src] }.goto p
    (.acquire (.writeTest ⟨s.writes.length, src⟩ 0 0))) = t
  have hwrites : t.writes = s.writes ++ [src] := ht ▸ rfl
  have hstored : t.stored = s.stored := ht ▸ rfl
  have hsent (c : ℕ) : t.sent c = s.sent c := by rw [Sys.sent, hstored, Sys.sent]
  have hself : (t.proc p).pc.writing = some (⟨s.writes.length, src⟩, 0) := by
    rw [← ht, goto_self]
    rfl
  have hother {q : ι} (hq : q ≠ p) : (t.proc q).pc = (s.proc q).pc := by rw [← ht, goto_of_ne _ _ _ hq]
  -- no byte has the new number yet
  have hnone : s.sent s.writes.length = [] := by
    rw [Sys.sent, List.filter_eq_nil_iff.mpr, List.map_nil]
    intro x hx
    simpa using (h.known x hx).ne
  have hold {c : ℕ} {src' : List Byte} (hc : s.writes[c]? = some src') : t.writes[c]? = some src' := by
    rw [hwrites, List.getElem?_append_left (List.getElem?_eq_some_iff.mp hc).1]
    exact hc
  have hlt {q : ι} {v : Write} {j : ℕ} (hqp : q ≠ p) (hq : (t.proc q).pc.writing = some (v, j)) :
      v.call < s.writes.length := by
    rw [hother hqp] at hq
    exact (List.getElem?_eq_some_iff.mp (h.current q v j hq).1).1
  refine ⟨?_, ?_, ?_, ?_⟩
  · intro x hx
    rw [hstored] at hx
    rw [hwrites, List.length_append]
    exact (h.known x hx).trans_le (Nat.le_add_right _ _)
  · intro c src' hc
    rw [hsent]
    by_cases hcl : c = s.writes.length
    · rw [hcl, hnone]
      exact List.nil_prefix
    · have hlt := (List.getElem?_eq_some_iff.mp hc).1
      rw [hwrites, List.length_append, List.length_singleton] at hlt
      rw [hwrites, List.getElem?_append_left (by omega)] at hc
      exact h.sent c src' hc
  · intro q v j hq
    rw [hsent]
    by_cases hqp : q = p
    · rw [hqp, hself] at hq
      obtain ⟨rfl, rfl⟩ := Prod.mk.inj (Option.some.inj hq)
      refine ⟨?_, hnone⟩
      rw [hwrites]
      exact List.getElem?_concat_length
    · rw [hother hqp] at hq
      obtain ⟨hcall, htake⟩ := h.current q v j hq
      exact ⟨hold hcall, htake⟩
  · intro q q' v j v' j' hq hq' hc
    by_cases hqp : q = p
    · by_cases hqp' : q' = p
      · exact hqp.trans hqp'.symm
      · have hnum := hlt hqp' hq'
        rw [hqp, hself] at hq
        obtain ⟨rfl, -⟩ := Prod.mk.inj (Option.some.inj hq)
        exact absurd hc hnum.ne'
    · by_cases hqp' : q' = p
      · have hnum := hlt hqp hq
        rw [hqp', hself] at hq'
        obtain ⟨rfl, -⟩ := Prod.mk.inj (Option.some.inj hq')
        exact absurd hc hnum.ne
      · rw [hother hqp] at hq
        rw [hother hqp'] at hq'
        exact h.own q q' v j v' j' hq hq' hc

theorem Order.call (h : Order s) (p : ι) (c : Call) :
    Order ({ s with writes := s.writes ++ c.srcs }.goto p (.acquire (c.stmt s.writes.length))) := by
  cases c with
  | read n =>
    refine h.next (others_update rfl) rfl (List.append_nil _) (.of_none ?_)
    rw [goto_self]
    rfl
  | write src => exact h.write p src
  | close writable =>
    refine h.next (others_update rfl) rfl (List.append_nil _) (.of_none ?_)
    rw [goto_self]
    rfl

theorem Order.move (h : Order s) (hm : Move s e t) : Order t := by
  have ho := hm.others
  cases hm with
  | call => exact h.call _ _
  | @acquire p k hpc hlock =>
    refine h.next ho rfl rfl (.of_eq ?_)
    simp only [Event.actor, goto_self, hpc]
    rfl
  | @advance p k next pipe new hpc hadv =>
    rcases hadv.stores with ⟨rfl, hon⟩ | ⟨w, start, i, b, rfl, hb, rfl, rfl⟩
    · refine h.next ho (List.append_nil _) rfl ?_
      simp only [Event.actor, goto_self, hpc]
      exact hon
    · exact h.store pipe hpc hb
  | @wakeup p c next hpc hpt =>
    refine h.next ho rfl rfl (.of_eq ?_)
    simp only [Event.actor, goto_self, hpc]
    rfl
  | @sleep p r hpc hpt =>
    refine h.next ho rfl rfl (.of_eq ?_)
    simp only [Event.actor, goto_self, hpc]
    rfl
  | @release p ret hpc =>
    refine h.next ho rfl rfl (.of_none ?_)
    rw [Event.actor, goto_self]
    rfl
  | @closeFree p hpc =>
    refine h.next ho rfl rfl (.of_none ?_)
    rw [Event.actor, goto_self]
    rfl
  | @going p r hpc =>
    refine h.next ho rfl rfl (.of_eq ?_)
    simp only [Event.actor, modify_self, hpc]
    rfl
  | @resume p r hpc hawake =>
    refine h.next ho rfl rfl (.of_eq ?_)
    simp only [Event.actor, modify_self, hpc]
    cases r <;> rfl
  | @kill p hpt =>
    refine h.next ho rfl rfl (.of_eq ?_)
    simp only [Event.actor, modify_self]

omit [DecidableEq ι] in
theorem order_start (data : ℕ → Byte) : Order (start ι data) where
  known := by simp [start]
  sent := by simp [start]
  current := by simp [start, Pc.writing]
  own := by simp [start, Pc.writing]

theorem order_reachable {data : ℕ → Byte} (h : Reachable step (start ι data) s) : Order s :=
  h.invariant (order_start data) fun _ _ _ hi hs => hi.move (step_move hs)

theorem locks_reachable {data : ℕ → Byte} (h : Reachable step (start ι data) s) : Locks s :=
  h.invariant (locks_start ι data) fun _ _ _ hi hs => hi.move (step_move hs)

theorem fifo_reachable {data : ℕ → Byte} (h : Reachable step (start ι data) s) : Fifo s := by
  have hboth : Locks s ∧ Fifo s := by
    refine h.invariant (I := fun s => Locks s ∧ Fifo s) ⟨locks_start ι data, fifo_start data⟩ ?_
    intro s e t hi hs
    exact ⟨hi.1.move (step_move hs), hi.2.move hi.1 (step_move hs)⟩
  exact hboth.2

/-- Whatever the readers and writers do, the counters are at most PIPESIZE apart, the bytes
read are the first of the bytes stored and, when the lock is free, the buffer holds the
others. Each write stores its bytes in order, all of them if it succeeds. -/
theorem pipe_fifo {ι : Type} [DecidableEq ι] (data : ℕ → Byte) (s : Sys ι)
    (h : Reachable step (start ι data) s) :
    (s.pipe.nwrite-s.pipe.nread).toNat ≤ PIPESIZE ∧
      s.reads.flatten <+: s.stored.map Prod.snd ∧
      (s.lock = none → s.stored.map Prod.snd = s.reads.flatten ++ s.pipe.buffer) ∧
      (∀ c src, s.writes[c]? = some src → s.sent c <+: src) ∧
      (∀ p w, (s.proc p).pc = .hold (.release (.wrote w)) → s.sent w.call = w.src) := by
  have hlocks := locks_reachable h
  have hfifo := fifo_reachable h
  have horder := order_reachable h
  refine ⟨hfifo.room, ?_, hfifo.free, horder.sent, ?_⟩
  · cases hlock : s.lock with
    | none => exact ⟨_, (hfifo.free hlock).symm⟩
    | some p =>
      obtain ⟨k, hk⟩ := (hlocks.lock p).mp hlock
      exact ⟨_, (hfifo.held p k hk).symm⟩
  · intro p w hpc
    have hw : (s.proc p).pc.writing = some (w, w.src.length) := by
      rw [hpc]
      rfl
    rw [(horder.current p w _ hw).2, List.take_length]

theorem pipe_fifo_one_byte : ∃ s : Sys (Fin 2), Reachable step (start (Fin 2) fun _ => 0) s ∧
    s.reads = [[7]] ∧ s.stored.map Prod.snd = s.reads.flatten ++ s.pipe.buffer := by
  have htrace : ∃ s ∈ StepSystem.exec step (start (Fin 2) fun _ => 0) ([.call 0 (.write [7, 8])] ++
      List.replicate 6 (.run 0) ++ [.call 1 (.read 1)] ++ List.replicate 6 (.run 1)),
      s.lock = none ∧ s.reads = [[7]] := by
    decide
  obtain ⟨s, hreach, hlock, hreads⟩ := reachable_of_exec htrace
  exact ⟨s, hreach, hreads, (pipe_fifo (fun _ => 0) s hreach).2.2.1 hlock⟩

end ProvenXv6.Pipes
