import ProvenXv6.BcacheList
import ProvenXv6.RefCount

namespace ProvenXv6.Bcache
open RefCount

variable {ι δ : Type}

/-- The buffer that a call is about. -/
def Pc.on : Pc → Option Id
  | .run => none
  | .acquire b _ _ => some b
  | .read b _ _ => some b
  | .write b => some b
  | .release b => some b

/-- The buffer that the process refers to without its lock. -/
def Pc.waits : Pc → Option Id
  | .acquire b _ _ => some b
  | .release b => some b
  | _ => none

/-- What a process p that is there knows of the buffer b. -/
def Pc.At (b : Id) (v : Buf ι δ) (unsaved : Bool) (p : ι) : Pc → Prop
  | .acquire c dev blockno => c = b → dev ≠ 0 ∧ v.dev = dev ∧ v.blockno = blockno
  | .read c dev blockno => c = b →
      v.dev = dev ∧ v.blockno = blockno ∧ v.lock = some p ∧ v.valid = false ∧ unsaved = false
  | .write c => c = b → v.lock = some p ∧ v.dirty = true ∧ unsaved = false
  | _ => True

section
variable {b : Id} {v w : Buf ι δ} {u u' : Bool} {p : ι} {k : Pc}

theorem waits_ne (h : k.on ≠ some b) : k.waits ≠ some b := by
  cases k <;> first | exact h | exact (Option.some_ne_none b).symm

theorem At.of_on_ne (h : k.on ≠ some b) : k.At b v u p := by
  cases k <;> first | trivial | exact fun hc => absurd (congrArg some hc) h

theorem At.congr (h : k.At b v u p) (hdev : w.dev = v.dev) (hno : w.blockno = v.blockno)
    (hlock : v.lock = some p → w.lock = some p ∧ w.valid = v.valid ∧ w.dirty = v.dirty ∧ u' = u) :
    k.At b w u' p := by
  cases k with
  | acquire c dev blockno =>
    intro hc
    rw [hdev, hno]
    exact h hc
  | read c dev blockno =>
    intro hc
    obtain ⟨h₁, h₂, h₃, h₄, h₅⟩ := h hc
    obtain ⟨g₁, g₂, -, g₄⟩ := hlock h₃
    exact ⟨hdev.trans h₁, hno.trans h₂, g₁, g₂.trans h₄, g₄.trans h₅⟩
  | write c =>
    intro hc
    obtain ⟨h₁, h₂, h₃⟩ := h hc
    obtain ⟨g₁, -, g₃, g₄⟩ := hlock h₁
    exact ⟨g₁, g₃.trans h₂, g₄.trans h₃⟩
  | _ => trivial

end

structure Ok [Fintype ι] (pc : ι → Pc) (last : ℕ → ℕ → δ) (b : Id) (v : Buf ι δ) (u : Bool) :
    Prop where
  count : v.refcnt = refs (fun q => (pc q).waits) b+v.lock.isSome.toNat
  pcs : ∀ q, (pc q).At b v u q
  holder : ∀ q, v.lock = some q → v.dev ≠ 0 ∧ (v.valid = true ∨ ∃ dev blockno, pc q = .read b dev blockno)
  dirty : v.dirty = true → v.valid = true
  saved : v.lock = none → u = false
  dev : v.valid = true → v.dev ≠ 0
  data : v.valid = true → u = false → v.data = last v.dev v.blockno

structure Inv [Fintype ι] (s : Sys ι δ) : Prop where
  list : ∃ l, Listed s.cache l
  unique : ∀ a b, (s.cache.buf a).dev ≠ 0 → (s.cache.buf a).dev = (s.cache.buf b).dev →
    (s.cache.buf a).blockno = (s.cache.buf b).blockno → a = b
  ok : ∀ b, Ok s.pc s.last b (s.cache.buf b) (s.unsaved b)
  disk : ∀ dev blockno, dev ≠ 0 → s.disk dev blockno = s.last dev blockno ∨
    ∃ b, (s.cache.buf b).dirty = true ∧ (s.cache.buf b).dev = dev ∧ (s.cache.buf b).blockno = blockno

variable [Fintype ι]

theorem start_inv (data : Id → δ) (disk : ℕ → ℕ → δ) : Inv (start data disk : Sys ι δ) := by
  have hbuf (b : Id) : (start data disk : Sys ι δ).cache.buf b = ⟨0, 0, false, false, 0, none, data b⟩ :=
    congrFun (foldl_pushFront_buf _ _) b
  refine ⟨⟨_, binit_listed data⟩, fun a b ha => ?_, fun b => ?_, fun _ _ _ => Or.inl rfl⟩
  · rw [hbuf] at ha
    exact absurd rfl ha
  · rw [hbuf]
    exact ⟨refs_none.symm, fun _ => trivial, fun _ hl => (Option.some_ne_none _ hl.symm).elim,
      fun hd => (Bool.false_ne_true hd).elim, fun _ => rfl, fun hv => (Bool.false_ne_true hv).elim,
      fun hv => (Bool.false_ne_true hv).elim⟩

variable {pc : ι → Pc} {last last' : ℕ → ℕ → δ} {b : Id} {v w : Buf ι δ} {u u' : Bool} {p q : ι} {k : Pc}

theorem Ok.running_valid (h : Ok pc last b v u) (hl : v.lock = some p) (hp : pc p = .run) :
    v.valid = true := by
  rcases (h.holder p hl).2 with hv | ⟨dev, blockno, hr⟩
  · exact hv
  · rw [hp] at hr
    cases hr

theorem Ok.unused (h : Ok pc last b v u) (hr : v.refcnt = 0) :
    v.lock = none ∧ ∀ q, (pc q).on ≠ some b := by
  have hcount := h.count
  rw [hr] at hcount
  have hwait : ∀ q, (pc q).waits ≠ some b := refs_eq_zero.mp (by omega)
  have hlock : v.lock = none := by
    cases hl : v.lock with
    | none => rfl
    | some q =>
      rw [hl] at hcount
      exact absurd hcount (by simp)
  refine ⟨hlock, fun q ho => ?_⟩
  have hat := h.pcs q
  have hw := hwait q
  cases hk : pc q with
  | run =>
    rw [hk] at ho
    cases ho
  | acquire c dev blockno =>
    rw [hk] at ho hw
    exact hw ho
  | release c =>
    rw [hk] at ho hw
    exact hw ho
  -- in iderw the process has the lock
  | read c dev blockno =>
    rw [hk] at ho hat
    exact Option.some_ne_none q ((hat (Option.some.inj ho)).2.2.1.symm.trans hlock)
  | write c =>
    rw [hk] at ho hat
    exact Option.some_ne_none q ((hat (Option.some.inj ho)).1.symm.trans hlock)

variable [DecidableEq ι]

theorem waits_update (pc : ι → Pc) (p : ι) (k : Pc) (b : Id) :
    refs (fun q => (Function.update pc p k q).waits) b+(if (pc p).waits = some b then 1 else 0) =
      refs (fun q => (pc q).waits) b+(if k.waits = some b then 1 else 0) := by
  have hcomp : (fun q => (Function.update pc p k q).waits) =
      Function.update (fun q => (pc q).waits) p k.waits := by
    funext q
    exact Function.apply_update (fun _ => Pc.waits) pc p k q
  rw [hcomp]
  exact refs_update _ p k.waits b

theorem waits_gain (hp : (pc p).waits ≠ some b) (hk : k.waits = some b) :
    refs (fun q => (Function.update pc p k q).waits) b = refs (fun q => (pc q).waits) b+1 := by
  have hw := waits_update pc p k b
  rwa [if_neg hp, if_pos hk] at hw

theorem waits_loss (hp : (pc p).waits = some b) (hk : k.waits ≠ some b) :
    refs (fun q => (Function.update pc p k q).waits) b+1 = refs (fun q => (pc q).waits) b := by
  have hw := waits_update pc p k b
  rwa [if_pos hp, if_neg hk] at hw

theorem waits_keep (hp : (pc p).waits ≠ some b) (hk : k.waits ≠ some b) :
    refs (fun q => (Function.update pc p k q).waits) b = refs (fun q => (pc q).waits) b := by
  have hw := waits_update pc p k b
  rwa [if_neg hp, if_neg hk] at hw

omit [Fintype ι] in
theorem pcs_update (hp : k.At b v u p) (h : ∀ q, q ≠ p → (pc q).At b v u q) (q : ι) :
    (Function.update pc p k q).At b v u q := by
  by_cases hq : q = p
  · subst hq
    rwa [Function.update_self]
  · rw [Function.update_of_ne hq]
    exact h q hq

theorem Ok.frame (h : Ok pc last b v u) (hfrom : (pc p).on ≠ some b) (hto : k.on ≠ some b)
    (hlast : v.dev ≠ 0 → last' v.dev v.blockno = last v.dev v.blockno) :
    Ok (Function.update pc p k) last' b v u := by
  refine ⟨?_, pcs_update (At.of_on_ne hto) fun q _ => h.pcs q, fun q hq => ?_, h.dirty, h.saved, h.dev,
    fun hv hu => ?_⟩
  · rw [waits_keep (waits_ne hfrom) (waits_ne hto)]
    exact h.count
  · refine ⟨(h.holder q hq).1, (h.holder q hq).2.imp_right ?_⟩
    rintro ⟨dev, blockno, hr⟩
    refine ⟨dev, blockno, ?_⟩
    rw [Function.update_of_ne, hr]
    rintro rfl
    rw [hr] at hfrom
    exact hfrom rfl
  · rw [h.data hv hu, hlast (h.dev hv)]

theorem set2_self {γ : Type} (f : ℕ → ℕ → γ) (i j : ℕ) (x : γ) : set2 f i j x i j = x := by
  rw [set2, Function.update_self, Function.update_self]

theorem set2_of_ne {γ : Type} (f : ℕ → ℕ → γ) {i j i' j' : ℕ} (x : γ) (h : ¬(i = i' ∧ j = j')) :
    set2 f i j x i' j' = f i' j' := by
  unfold set2
  by_cases hi : i' = i
  · subst hi
    rw [Function.update_self, Function.update_of_ne fun hj => h ⟨rfl, hj.symm⟩]
  · rw [Function.update_of_ne hi]

variable {s t : Sys ι δ}

omit [DecidableEq ι] in
theorem Inv.other (h : Inv s) {x : Id} (hx : x ≠ b) (hdev : (s.cache.buf x).dev ≠ 0) :
    ¬((s.cache.buf b).dev = (s.cache.buf x).dev ∧ (s.cache.buf b).blockno = (s.cache.buf x).blockno) :=
  fun he => hx (h.unique x b hdev he.1.symm he.2.symm)

theorem Inv.update (h : Inv s) (hbuf : t.cache.buf = Function.update s.cache.buf b v)
    (hlist : ∃ l, Listed t.cache l) (hpc : t.pc = Function.update s.pc p k)
    (hfrom : ∀ x, x ≠ b → (s.pc p).on ≠ some x) (hto : ∀ x, x ≠ b → k.on ≠ some x)
    (hun : ∀ x, x ≠ b → t.unsaved x = s.unsaved x)
    (hlast : ∀ x, x ≠ b → (s.cache.buf x).dev ≠ 0 → t.last (s.cache.buf x).dev (s.cache.buf x).blockno =
      s.last (s.cache.buf x).dev (s.cache.buf x).blockno)
    (hkey : ∀ x, x ≠ b → (s.cache.buf x).dev ≠ 0 →
      ¬(v.dev = (s.cache.buf x).dev ∧ v.blockno = (s.cache.buf x).blockno))
    (hb : Ok t.pc t.last b v (t.unsaved b))
    (hdisk : ∀ dev blockno, dev ≠ 0 → t.disk dev blockno = t.last dev blockno ∨
      (v.dirty = true ∧ v.dev = dev ∧ v.blockno = blockno) ∨
      (t.disk dev blockno = s.disk dev blockno ∧ t.last dev blockno = s.last dev blockno ∧
        ¬((s.cache.buf b).dirty = true ∧ (s.cache.buf b).dev = dev ∧ (s.cache.buf b).blockno = blockno))) :
    Inv t := by
  have hself : t.cache.buf b = v := by rw [hbuf, Function.update_self]
  have hne (x : Id) (hx : x ≠ b) : t.cache.buf x = s.cache.buf x := by rw [hbuf, Function.update_of_ne hx]
  refine ⟨hlist, fun x y hx hdev hno => ?_, fun x => ?_, fun dev blockno hdev => ?_⟩
  · by_cases hxb : x = b <;> by_cases hyb : y = b
    · exact hxb.trans hyb.symm
    · subst hxb
      rw [hself, hne y hyb] at hdev hno
      rw [hself, hdev] at hx
      exact absurd ⟨hdev, hno⟩ (hkey y hyb hx)
    · subst hyb
      rw [hself, hne x hxb] at hdev hno
      rw [hne x hxb] at hx
      exact absurd ⟨hdev.symm, hno.symm⟩ (hkey x hxb hx)
    · rw [hne x hxb] at hx
      rw [hne x hxb, hne y hyb] at hdev hno
      exact h.unique x y hx hdev hno
  · by_cases hx : x = b
    · rw [hx, hself]
      exact hb
    · rw [hne x hx, hpc, hun x hx]
      exact (h.ok x).frame (hfrom x hx) (hto x hx) (hlast x hx)
  · rcases hdisk dev blockno hdev with heq | hv | ⟨hd, hl, hold⟩
    · exact Or.inl heq
    · exact Or.inr ⟨b, by rwa [hself]⟩
    · rw [hd, hl]
      refine (h.disk dev blockno hdev).imp_right ?_
      rintro ⟨x, hx⟩
      have hxb : x ≠ b := by
        rintro rfl
        exact hold hx
      exact ⟨x, by rwa [hne x hxb]⟩

theorem Inv.update_same (h : Inv s) (hbuf : t.cache.buf = Function.update s.cache.buf b v)
    (hlist : ∃ l, Listed t.cache l) (hpc : t.pc = Function.update s.pc p k)
    (hfrom : ∀ x, x ≠ b → (s.pc p).on ≠ some x) (hto : ∀ x, x ≠ b → k.on ≠ some x)
    (hun : ∀ x, x ≠ b → t.unsaved x = s.unsaved x) (hlast : t.last = s.last) (hdisk : t.disk = s.disk)
    (hdev : v.dev = (s.cache.buf b).dev) (hno : v.blockno = (s.cache.buf b).blockno)
    (hdirty : v.dirty = (s.cache.buf b).dirty) (hb : Ok t.pc t.last b v (t.unsaved b)) : Inv t := by
  refine h.update hbuf hlist hpc hfrom hto hun (fun x _ _ => by rw [hlast]) (fun x hx hx0 => ?_) hb ?_
  · rw [hdev, hno]
    exact h.other hx hx0
  · intro dev blockno _
    rw [hdev, hno, hdirty, hdisk, hlast]
    by_cases hold : (s.cache.buf b).dirty = true ∧ (s.cache.buf b).dev = dev ∧ (s.cache.buf b).blockno = blockno
    · exact Or.inr (Or.inl hold)
    · exact Or.inr (Or.inr ⟨rfl, rfl, hold⟩)

omit [Fintype ι] [DecidableEq ι] in
theorem run_on (hp : s.pc p = .run) (x : Id) : (s.pc p).on ≠ some x := by
  rw [hp]
  exact (Option.some_ne_none x).symm

theorem on_ne {x : Id} (hk : k.on = some b) (hx : x ≠ b) : k.on ≠ some x := by
  rw [hk]
  exact fun he => hx (Option.some.inj he).symm

omit [DecidableEq ι] in
theorem Ok.held (h : Ok pc last b v u) (hl : v.lock = some p) (hdev : w.dev = v.dev)
    (hno : w.blockno = v.blockno) (q : ι) (hq : q ≠ p) : (pc q).At b w u' q :=
  At.congr (h.pcs q) hdev hno fun hl' => absurd (Option.some.inj (hl'.symm.trans hl)) hq

end ProvenXv6.Bcache
