import Mathlib.Data.List.Basic
import ProvenXv6.SmpOps
import ProvenXv6.StepSystem
import ProvenXv6.TraceModel

namespace ProvenXv6.Trace
open StepSystem
open Smp (Table Thread Action)
open Ptable (Slot)

def Syscall.name : Syscall → String
  | .sysFork => "fork"
  | .sysExit => "exit"
  | .sysWait => "wait"
  | .sysPipe => "pipe"
  | .sysRead => "read"
  | .sysKill => "kill"
  | .sysExec => "exec"
  | .sysFstat => "fstat"
  | .sysChdir => "chdir"
  | .sysDup => "dup"
  | .sysGetpid => "getpid"
  | .sysSbrk => "sbrk"
  | .sysSleep => "sleep"
  | .sysUptime => "uptime"
  | .sysOpen => "open"
  | .sysWrite => "write"
  | .sysMknod => "mknod"
  | .sysUnlink => "unlink"
  | .sysLink => "link"
  | .sysMkdir => "mkdir"
  | .sysClose => "close"
  | .sysMemsize => "memsize"
  | .sysTrace => "trace"

/-- A call that returns: its number, the mask of the caller at that moment, and the
line that says so. -/
structure Return where
  num : ℕ
  mask : BitVec 32
  line : Line
  deriving DecidableEq

def Sys.returning (s : Sys) : Event → Option Return
  | .leave p => match s.table.running p, s.call p with
    | some (.ret v), some num => some ⟨num, (s.table.proc p).trace,
        ⟨(s.table.proc p).pid, ((handler num).map Syscall.name).getD "", v⟩⟩
    | _, _ => none
  | _ => none

def returns : Sys → List Event → List Return
  | _, [] => []
  | s, e :: es => (s.returning e).toList ++ match step s e with
    | some s' => returns s' es
    | none => []

/-- The lines that the masks ask for: those of the calls whose own bit is set. -/
def exactLines (s : Sys) (es : List Event) : List Line :=
  ((returns s es).filter fun c => c.mask.getLsbD c.num).map (·.line)

/-- Every call in progress has a handler. -/
def Numbered (s : Sys) : Prop := ∀ p num, s.call p = some num → (handler num).isSome

variable {s s' t : Sys} {e : Event} {es : List Event}

theorem handler_lt {num : ℕ} (h : (handler num).isSome) : num < syscalls.length := by
  by_contra hge
  simp [handler, List.getElem?_eq_none (not_lt.mp hge)] at h

/-- The two tables of syscall.c agree. -/
theorem syscallNames_handler (num : ℕ) (h : (handler num).isSome) :
    syscallNames.getD (num-1) "" = ((handler num).map Syscall.name).getD "" := by
  have hall : ∀ n < syscalls.length, (handler n).isSome →
      syscallNames.getD (n-1) "" = ((handler n).map Syscall.name).getD "" := by decide
  exact hall num (handler_lt h) h

inductive Does (s : Sys) : Event → Sys → Prop
  | enter (p : Slot) (num : ℤ) (hp : s.table.running p = some .run) (hcall : s.call p = none) :
      Does s (.enter p num) (s.enter p num)
  | act (a : Action) (t : Table) (ha : s.permits a) (ht : Smp.step s.table a = some t) :
      Does s (.act a) { s with table := t, call := s.callAfter a }
  | leave (p : Slot) (num : ℕ) (v : ℤ) (hp : s.table.running p = some (.ret v))
      (hcall : s.call p = some num) : Does s (.leave p) (s.leave p num v)

theorem step_does (h : step s e = some s') : Does s e s' := by
  cases e with
  | enter p num =>
    simp only [step] at h
    split_ifs at h with hp
    exact Option.some.inj h ▸ .enter p num hp.1 hp.2
  | act a =>
    simp only [step] at h
    split_ifs at h with ha
    obtain ⟨t, ht, rfl⟩ := Option.map_eq_some_iff.mp h
    exact .act a t ha ht
  | leave p =>
    simp only [step] at h
    split at h
    · rename_i v num hp hcall
      exact Option.some.inj h ▸ .leave p num v hp hcall
    · cases h

theorem enter_call (s : Sys) (p : Slot) (num : ℤ) (q : Slot) :
    (s.enter p num).call q = s.call q ∨
      q = p ∧ known num ∧ (s.enter p num).call q = some num.toNat := by
  unfold Sys.enter
  split_ifs with hk
  · by_cases hq : q = p
    · exact Or.inr ⟨hq, hk, by simp [hq]⟩
    · exact Or.inl (by simp [hq])
  · exact Or.inl rfl

theorem enter_table (s : Sys) (p : Slot) (num : ℤ) : (s.enter p num).table = s.table := by
  unfold Sys.enter
  split_ifs <;> rfl

theorem callAfter_some {a : Action} {p : Slot} {num : ℕ} (h : s.callAfter a p = some num) :
    s.call p = some num := by
  cases a with
  | exit q =>
    by_cases hq : p = q
    · simp [Sys.callAfter, hq] at h
    · simpa [Sys.callAfter, hq] using h
  | _ => exact h

theorem numbered_step (h : Numbered s) (hs : step s e = some s') : Numbered s' := by
  intro q n hq
  cases step_does hs with
  | enter p num hp hcall =>
    rcases enter_call s p num q with hsame | ⟨-, hk, hnum⟩
    · exact h q n (hsame ▸ hq)
    · obtain rfl : num.toNat = n := Option.some.inj (hnum.symm.trans hq)
      exact (of_decide_eq_true hk).2.2
  | act a t ha ht => exact h q n (callAfter_some hq)
  | leave p num v hp hcall =>
    by_cases hqp : q = p
    · simp [Sys.leave, hqp] at hq
    · exact h q n (by simpa [Sys.leave, hqp] using hq)

/-- What a step does to the process table. -/
def Event.action : Event → Option Action
  | .enter _ _ => none
  | .act a => some a
  | .leave p => some (.back p)

theorem table_step (hs : step s e = some s') :
    Run Smp.step Free s.table e.action.toList s'.table := by
  cases step_does hs with
  | enter p num hp hcall =>
    rw [enter_table]
    exact .nil s.table
  | act a t ha ht => exact .cons ht trivial (.nil t)
  | leave p num v hp hcall =>
    have hback : Smp.step s.table (.back p) = some (s.table.setThread p .run) := by
      simp only [Smp.step, hp]
    exact .cons hback trivial (.nil _)

/-- A run of system calls is a run of the process table. -/
theorem table_run (h : Run step Free s es t) :
    Run Smp.step Free s.table (es.filterMap Event.action) t.table := by
  induction h with
  | nil s => exact .nil s.table
  | @cons s s' t e es hs hq hr ih =>
    have hfilter : (e :: es).filterMap Event.action =
        e.action.toList ++ es.filterMap Event.action := by
      cases he : e.action <;> simp [he]
    rw [hfilter]
    exact (table_step hs).append ih

theorem lines_step (h : Numbered s) (hs : step s e = some s') :
    s'.lines = s.lines ++
      ((s.returning e).toList.filter fun c => c.mask.sshiftRight c.num ≠ 0).map (·.line) := by
  cases step_does hs with
  | enter p num hp hcall =>
    unfold Sys.enter
    split_ifs <;> simp [Sys.returning]
  | act a t ha ht => simp [Sys.returning]
  | leave p num v hp hcall =>
    simp only [Sys.returning, hp, hcall, Sys.leave, syscallNames_handler num (h p num hcall)]
    split_ifs with hm
    · rw [Option.toList_some, List.filter_cons_of_pos (by simpa using hm)]
      rfl
    · rw [Option.toList_some, List.filter_cons_of_neg (by simpa using hm)]
      simp

theorem lines_run (hn : Numbered s) (h : Run step Free s es t) :
    t.lines = s.lines ++
      ((returns s es).filter fun c => c.mask.sshiftRight c.num ≠ 0).map (·.line) := by
  induction h with
  | nil s => simp [returns]
  | cons hs hq hr ih =>
    rw [ih (numbered_step hn hs), lines_step hn hs, returns, hs]
    simp

/-- The shift brings down every bit from num on, the sign included. -/
theorem sshiftRight_eq_zero_iff (m : BitVec 32) (num : ℕ) (hnum : num < 32) :
    m.sshiftRight num = 0 ↔ ∀ i, num ≤ i → m.getLsbD i = false := by
  constructor
  · intro h i hi
    by_cases hlt : i < 32
    · -- bit i of the mask is bit i-num of the shifted one
      have hbit : (m.sshiftRight num).getLsbD (i-num) = false := by simp [h]
      have hi' : num+(i-num) = i := by omega
      rw [BitVec.getLsbD_sshiftRight, hi', if_pos hlt] at hbit
      simpa [show i-num < 32 by omega] using hbit
    · exact BitVec.getLsbD_of_ge m i (not_lt.mp hlt)
  · intro h
    apply BitVec.eq_of_getLsbD_eq
    intro i hi
    have hmsb : m.msb = false := by
      rw [BitVec.msb_eq_getLsbD_last]
      exact h 31 (by omega)
    simp [BitVec.getLsbD_sshiftRight, h (num+i) (by omega), hmsb]

theorem map_filter_eq_iff {α β : Type*} (f : α → β) {P Q : α → Bool} {l : List α}
    (hPQ : ∀ x ∈ l, P x → Q x) :
    (l.filter Q).map f = (l.filter P).map f ↔ ∀ x ∈ l, Q x → P x := by
  constructor
  · intro h x hx hq
    -- the smaller selection is a sublist of the larger, of the same length
    have hboth : l.filter P = (l.filter Q).filter P := by
      rw [List.filter_filter]
      refine List.filter_congr fun y hy => ?_
      cases hP : P y with
      | false => rfl
      | true => rw [hPQ y hy hP, Bool.and_self]
    have hsub : (l.filter P).Sublist (l.filter Q) := hboth ▸ List.filter_sublist
    have heq := hsub.eq_of_length (by simpa using congrArg List.length h.symm)
    have hmem : x ∈ l.filter P := heq ▸ List.mem_filter.mpr ⟨hx, hq⟩
    exact (List.mem_filter.mp hmem).2
  · intro h
    rw [List.filter_congr fun x hx => Bool.eq_iff_iff.mpr ⟨h x hx, hPQ x hx⟩]

theorem returning_handler (h : Numbered s) {c : Return} (hc : s.returning e = some c) :
    (handler c.num).isSome := by
  cases e with
  | leave p =>
    simp only [Sys.returning] at hc
    split at hc
    · rename_i v num _ hcall
      obtain rfl := Option.some.inj hc
      exact h p num hcall
    · cases hc
  | _ => cases hc

theorem returns_handler (h : Numbered s) {c : Return} (hc : c ∈ returns s es) :
    (handler c.num).isSome := by
  induction es generalizing s with
  | nil => simp [returns] at hc
  | cons e es ih =>
    rw [returns] at hc
    rcases List.mem_append.mp hc with hc | hc
    · exact returning_handler h (Option.mem_toList.mp hc)
    · cases hs : step s e with
      | none => simp [hs] at hc
      | some s' =>
        rw [hs] at hc
        exact ih (numbered_step h hs) hc

/-- The trace lines are those of the calls whose own bit is set exactly when no
call returns whose own bit is clear and a higher one set. -/
theorem traceLines_exact_iff (es : List Event) (t : Sys) (h : Run step Free .start es t) :
    t.lines = exactLines .start es ↔
      ∀ c ∈ returns .start es, c.mask.getLsbD c.num = true ∨
        ∀ i, c.num < i → c.mask.getLsbD i = false := by
  have hn : Numbered .start := fun _ _ hp => by cases hp
  have hshift (c : Return) (hc : c ∈ returns .start es) :=
    sshiftRight_eq_zero_iff c.mask c.num ((handler_lt (returns_handler hn hc)).trans (by decide))
  -- both sides select from the calls that return: by the shift, and by the own bit
  rw [lines_run hn h, exactLines]
  refine (map_filter_eq_iff _ ?_).trans (forall₂_congr fun c hc => ?_)
  · intro c hc hbit
    refine decide_eq_true fun hz => ?_
    have hclear := (hshift c hc).mp hz c.num le_rfl
    rw [hclear] at hbit
    cases hbit
  · rw [decide_eq_true_iff, Ne, hshift c hc]
    constructor
    · intro himp
      by_cases hbit : c.mask.getLsbD c.num = true
      · exact Or.inl hbit
      · exact Or.inr fun i hi => not_not.mp (fun hne => hbit (himp hne)) i hi.le
    · rintro (hbit | hclear) hne
      · exact hbit
      · by_contra hbit
        refine hne fun i hi => ?_
        rcases hi.eq_or_lt with rfl | hi
        · simpa using hbit
        · exact hclear i hi

/-- init sets its mask and then calls `getpid`. -/
def traceGetpid (mask : BitVec 32) : List Event :=
  [.act .userinit, .act (.dispatch 0), .enter 0 23, .act (.trace 0 (some mask)), .leave 0,
    .enter 0 11, .act (.other 0 1), .leave 0]

/-- With `getpid` and `write` in the mask, the one line is that of `getpid`. -/
theorem traceLines_exact_iff_getpid :
    ∃ t, Run step Free .start (traceGetpid (1 <<< 11 ||| 1 <<< 16)) t ∧
      t.lines = [⟨1, "getpid", 1⟩] ∧
      ∀ c ∈ returns .start (traceGetpid (1 <<< 11 ||| 1 <<< 16)), c.mask.getLsbD c.num = true ∨
        ∀ i, c.num < i → c.mask.getLsbD i = false := by
  have hex : ∃ t ∈ exec step .start (traceGetpid (1 <<< 11 ||| 1 <<< 16)),
      t.lines = [⟨1, "getpid", 1⟩] ∧
      t.lines = exactLines .start (traceGetpid (1 <<< 11 ||| 1 <<< 16)) := by decide +kernel
  obtain ⟨t, ht, hlines, hexact⟩ := hex
  exact ⟨t, run_exec ht, hlines, (traceLines_exact_iff _ t (run_exec ht)).mp hexact⟩

/-- With only `write` in the mask, there is a line for `getpid` as well. -/
theorem getpid_traced_by_write_bit :
    ∃ t, Run step Free .start (traceGetpid (1 <<< 16)) t ∧
      (t.table.proc 0).trace.getLsbD 11 = false ∧ t.lines = [⟨1, "getpid", 1⟩] ∧
      exactLines .start (traceGetpid (1 <<< 16)) = [] := by
  have hex : ∃ t ∈ exec step .start (traceGetpid (1 <<< 16)),
      (t.table.proc 0).trace.getLsbD 11 = false ∧ t.lines = [⟨1, "getpid", 1⟩] ∧
      exactLines .start (traceGetpid (1 <<< 16)) = [] := by decide +kernel
  obtain ⟨t, ht, hbit, hlines, hexact⟩ := hex
  exact ⟨t, run_exec ht, hbit, hlines, hexact⟩

end ProvenXv6.Trace
