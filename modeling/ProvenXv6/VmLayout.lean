import Mathlib.Algebra.BigOperators.Group.List.Basic
import ProvenXv6.FsLayout
import ProvenXv6.RefCount
import ProvenXv6.VmModel

namespace ProvenXv6.Vm
open RefCount
open Fs (Byte Block getWord setWord getWord_setWord getWord_zero)

def UPAGES : ℕ := KERNBASE/PGSIZE

theorem and_twoPow_ne_zero (w : BitVec 32) {k : ℕ} (hk : BitVec.twoPow 32 k ≠ 0) :
    w &&& BitVec.twoPow 32 k ≠ 0 ↔ w.getLsbD k = true := by
  rw [BitVec.and_twoPow]
  split_ifs with h
  · exact ⟨fun _ => h, fun _ => hk⟩
  · exact ⟨fun h0 => absurd rfl h0, fun h0 => absurd h0 h⟩

theorem present_iff (w : BitVec 32) : w &&& PTE_P ≠ 0 ↔ w.getLsbD 0 = true :=
  and_twoPow_ne_zero w (by decide : BitVec.twoPow 32 0 ≠ 0)

theorem user_iff (w : BitVec 32) : w &&& PTE_U ≠ 0 ↔ w.getLsbD 2 = true :=
  and_twoPow_ne_zero w (by decide : BitVec.twoPow 32 2 ≠ 0)

theorem getLsbD_address (p : ℕ) {k : ℕ} (hk : k < 12) :
    (BitVec.ofNat 32 (p*PGSIZE)).getLsbD k = false := by
  have h : PGSIZE = 2^12 := rfl
  rw [h, BitVec.getLsbD_ofNat, Nat.testBit_mul_two_pow]
  simp [show ¬ 12 ≤ k by omega]

/-- The page that an entry refers to, when it is present. -/
def target (w : BitVec 32) : Option ℕ := if w &&& PTE_P ≠ 0 then some (PTE_ADDR w) else none

theorem target_eq_none {w : BitVec 32} : target w = none ↔ w &&& PTE_P = 0 := by
  unfold target
  by_cases h : w &&& PTE_P ≠ 0
  · rw [if_pos h]
    exact iff_of_false (Option.some_ne_none _) h
  · rw [if_neg h]
    exact iff_of_true rfl (not_not.mp h)

theorem target_of_present {w : BitVec 32} (h : w &&& PTE_P ≠ 0) : target w = some (PTE_ADDR w) :=
  if_pos h

@[simp] theorem target_zero : target 0 = none := by decide

theorem shift_flags {x : BitVec 32} (h : x.toNat < 4096) : x >>> 12 = 0 := by
  apply BitVec.eq_of_toNat_eq
  rw [BitVec.toNat_ushiftRight, Nat.shiftRight_eq_div_pow, Nat.div_eq_of_lt h]
  rfl

theorem PTE_ADDR_entry {p : ℕ} (hp : p < 0x100000) {flags : BitVec 32} (hf : flags.toNat < 4096) :
    PTE_ADDR (BitVec.ofNat 32 (p*PGSIZE) ||| flags) = p := by
  unfold PTE_ADDR
  rw [BitVec.ushiftRight_or_distrib, shift_flags hf]
  simp [PGSIZE]
  omega

theorem target_entry {p : ℕ} (hp : p < 0x100000) {flags : BitVec 32} (hf : flags.toNat < 4096)
    (hbit : flags.getLsbD 0 = true) : target (BitVec.ofNat 32 (p*PGSIZE) ||| flags) = some p := by
  have hpresent : (BitVec.ofNat 32 (p*PGSIZE) ||| flags) &&& PTE_P ≠ 0 := by
    rw [present_iff, BitVec.getLsbD_or, hbit, Bool.or_true]
  rw [target_of_present hpresent, PTE_ADDR_entry hp hf]

theorem target_mapped {p : ℕ} (hp : p < 0x100000) {perm : BitVec 32} (hf : perm.toNat < 4096) :
    target (BitVec.ofNat 32 (p*PGSIZE) ||| perm ||| PTE_P) = some p := by
  rw [BitVec.or_assoc]
  apply target_entry hp
  · rw [BitVec.toNat_or]
    exact Nat.or_lt_two_pow (n := 12) hf (by decide)
  · rw [BitVec.getLsbD_or]
    simp [PTE_P]

theorem kernel_entry (p : ℕ) {perm : BitVec 32} (hf : perm &&& PTE_U = 0) :
    (BitVec.ofNat 32 (p*PGSIZE) ||| perm ||| PTE_P) &&& PTE_U = 0 := by
  have hbit : perm.getLsbD 2 = false := by
    rw [← Bool.not_eq_true, ← user_iff]
    exact not_not.mpr hf
  by_contra h
  rw [← ne_eq, user_iff, BitVec.getLsbD_or, BitVec.getLsbD_or, hbit, getLsbD_address p (by omega)] at h
  revert h
  decide

section View
variable (m : ℕ → Block) (d : ℕ)

def table (i : ℕ) : Option ℕ := target (getWord (m d) i)

/-- The entry for the virtual page v; 0 where there is no page table. -/
def entry (v : ℕ) : BitVec 32 :=
  match table m d (v/NPTENTRIES) with
  | some t => getWord (m t) (v%NPTENTRIES)
  | none => 0

def tables (i : Fin NPDENTRIES) : Option ℕ := table m d i

def user (v : Fin UPAGES) : Option ℕ := target (entry m d v)

/-- How often page x is the directory, a page table or a user page of d. -/
def held (x : ℕ) : ℕ := (if x = d then 1 else 0)+refs (tables m d) x+refs (user m d) x

/-- The pages that decide what d maps. -/
def Control (x : ℕ) : Prop := x = d ∨ ∃ i < NPDENTRIES, table m d i = some x

end View

variable {m m' : ℕ → Block} {d i v x t : ℕ}

theorem div_lt_of_lt (hv : v < NPDENTRIES*NPTENTRIES) : v/NPTENTRIES < NPDENTRIES :=
  Nat.div_lt_of_lt_mul (by rwa [Nat.mul_comm])

theorem entry_of_table (h : table m d (v/NPTENTRIES) = some t) :
    entry m d v = getWord (m t) (v%NPTENTRIES) := by
  simp only [entry, h]

theorem entry_of_no_table (h : table m d (v/NPTENTRIES) = none) : entry m d v = 0 := by
  simp only [entry, h]

theorem Control.held_pos (h : Control m d x) : 0 < held m d x := by
  unfold held
  rcases h with rfl | ⟨i, hi, ht⟩
  · rw [if_pos rfl]
    omega
  · have : 0 < refs (tables m d) x := refs_pos_of (i := ⟨i, hi⟩) ht
    omega

/-- The pages of d are distinct. -/
def Distinct (m : ℕ → Block) (d : ℕ) : Prop := ∀ x, held m d x ≤ 1

theorem Distinct.table_ne (h : Distinct m d) (hi : i < NPDENTRIES) (ht : table m d i = some t) :
    t ≠ d := by
  rintro rfl
  have h1 := h t
  have h2 : 0 < refs (tables m t) t := refs_pos_of (i := ⟨i, hi⟩) ht
  unfold held at h1
  rw [if_pos rfl] at h1
  omega

theorem Distinct.table_inj (h : Distinct m d) {j : ℕ} (hi : i < NPDENTRIES) (hj : j < NPDENTRIES)
    (ht : table m d i = some t) (ht' : table m d j = some t) : i = j := by
  have h1 : refs (tables m d) t ≤ 1 := by
    have := h t
    unfold held at this
    omega
  exact congrArg Fin.val (slot_unique h1 (i := ⟨i, hi⟩) (j := ⟨j, hj⟩) ht ht')

theorem Distinct.not_control (h : Distinct m d) (hv : v < UPAGES) (hx : target (entry m d v) = some x) :
    ¬Control m d x := by
  have h1 := h x
  have h2 : 0 < refs (user m d) x := refs_pos_of (i := ⟨v, hv⟩) hx
  unfold held at h1
  rintro (rfl | ⟨i, hi, ht⟩)
  · rw [if_pos rfl] at h1
    omega
  · have : 0 < refs (tables m d) x := refs_pos_of (i := ⟨i, hi⟩) ht
    omega

theorem table_congr (h : ∀ x, Control m d x → m' x = m x) : table m' d = table m d := by
  funext i
  rw [table, h d (Or.inl rfl), table]

theorem entry_congr (h : ∀ x, Control m d x → m' x = m x) (hv : v < NPDENTRIES*NPTENTRIES) :
    entry m' d v = entry m d v := by
  have hi : v/NPTENTRIES < NPDENTRIES := div_lt_of_lt hv
  cases ht : table m d (v/NPTENTRIES) with
  | none => rw [entry_of_no_table ht, entry_of_no_table (by rw [table_congr h, ht])]
  | some t =>
    rw [entry_of_table ht, entry_of_table (by rw [table_congr h, ht]), h t (Or.inr ⟨_, hi, ht⟩)]

theorem user_lt (v : Fin UPAGES) : (v : ℕ) < NPDENTRIES*NPTENTRIES :=
  v.isLt.trans (by decide)

theorem held_congr (h : ∀ x, Control m d x → m' x = m x) : held m' d = held m d := by
  have htab : tables m' d = tables m d := by
    funext i
    rw [tables, table_congr h, tables]
  have huser : user m' d = user m d := by
    funext v
    rw [user, entry_congr h (user_lt v), user]
  funext x
  rw [held, held, htab, huser]

section Install
variable {w : BitVec 32}

/-- Memory after an empty table t has become page table i of d. -/
def install (m : ℕ → Block) (d i t : ℕ) (w : BitVec 32) : ℕ → Block :=
  Function.update (Function.update m t fun _ => 0) d (setWord (m d) i w)

variable (hw : target w = some t) (htd : t ≠ d)

include hw in
theorem table_install (j : ℕ) :
    table (install m d i t w) d j = if j = i then some t else table m d j := by
  rw [table, install, Function.update_self, getWord_setWord]
  split_ifs with h
  · exact hw
  · rfl

include hw htd in
theorem entry_install (hnone : table m d i = none) (hfresh : ∀ j < NPDENTRIES, table m d j ≠ some t)
    (hv : v < NPDENTRIES*NPTENTRIES) (hdist : Distinct m d) :
    entry (install m d i t w) d v = entry m d v := by
  have hlt : v/NPTENTRIES < NPDENTRIES := div_lt_of_lt hv
  have hpage : ∀ u, u ≠ d → u ≠ t → install m d i t w u = m u := by
    intro u hud hut
    rw [install, Function.update_of_ne hud, Function.update_of_ne hut]
  have hempty : install m d i t w t = fun _ => 0 := by
    rw [install, Function.update_of_ne htd, Function.update_self]
  by_cases hvi : v/NPTENTRIES = i
  · have h1 : table (install m d i t w) d (v/NPTENTRIES) = some t := by
      rw [table_install hw, if_pos hvi]
    rw [entry_of_table h1, hempty, getWord_zero, entry_of_no_table (by rw [hvi, hnone])]
  · have h1 : table (install m d i t w) d (v/NPTENTRIES) = table m d (v/NPTENTRIES) := by
      rw [table_install hw, if_neg hvi]
    cases hu : table m d (v/NPTENTRIES) with
    | none => rw [entry_of_no_table hu, entry_of_no_table (by rw [h1, hu])]
    | some u =>
      have hud : u ≠ d := hdist.table_ne hlt hu
      have hut : u ≠ t := by
        rintro rfl
        exact hfresh _ hlt hu
      rw [entry_of_table hu, entry_of_table (by rw [h1, hu]), hpage u hud hut]

include hw htd in
theorem held_install (hi : i < NPDENTRIES) (hnone : table m d i = none)
    (hfresh : ∀ j < NPDENTRIES, table m d j ≠ some t) (hdist : Distinct m d) (x : ℕ) :
    held (install m d i t w) d x = held m d x+(if x = t then 1 else 0) := by
  have htab : tables (install m d i t w) d = Function.update (tables m d) ⟨i, hi⟩ (some t) := by
    funext j
    rw [tables, table_install hw]
    by_cases hj : j = ⟨i, hi⟩
    · rw [hj, Function.update_self, if_pos rfl]
    · rw [Function.update_of_ne hj, if_neg fun h => hj (Fin.ext h), tables]
  have huser : user (install m d i t w) d = user m d := by
    funext v
    rw [user, entry_install hw htd hnone hfresh (user_lt v) hdist, user]
  have hcount := refs_update (tables m d) ⟨i, hi⟩ (some t) x
  have hold : tables m d ⟨i, hi⟩ = none := hnone
  have hsym : (some t = some x) ↔ x = t := by
    rw [Option.some.injEq, eq_comm]
  simp only [hold, reduceCtorEq, if_false, Nat.add_zero, hsym] at hcount
  rw [held, held, htab, huser, hcount]
  omega

end Install

section Write
variable {w : BitVec 32}

/-- Memory after entry v of the page table t has become w. -/
def rewrite (m : ℕ → Block) (t v : ℕ) (w : BitVec 32) : ℕ → Block :=
  Function.update m t (setWord (m t) (v%NPTENTRIES) w)

variable (hdist : Distinct m d) (hv : v < NPDENTRIES*NPTENTRIES)
  (ht : table m d (v/NPTENTRIES) = some t)

include hdist hv ht in
theorem table_rewrite : table (rewrite m t v w) d = table m d := by
  have htd : t ≠ d := hdist.table_ne (div_lt_of_lt hv) ht
  funext j
  rw [table, rewrite, Function.update_of_ne htd.symm, table]

include hdist hv ht in
theorem entry_rewrite {u : ℕ} (hu : u < NPDENTRIES*NPTENTRIES) :
    entry (rewrite m t v w) d u = if u = v then w else entry m d u := by
  have htab := table_rewrite (w := w) hdist hv ht
  cases htu : table m d (u/NPTENTRIES) with
  | none =>
    have hne : u ≠ v := by
      rintro rfl
      rw [ht] at htu
      cases htu
    rw [if_neg hne, entry_of_no_table htu, entry_of_no_table (by rw [htab, htu])]
  | some r =>
    rw [entry_of_table htu, entry_of_table (by rw [htab, htu]), rewrite]
    by_cases hrt : r = t
    · -- the same table: the entries differ unless the pages are the same
      have hdiv : u/NPTENTRIES = v/NPTENTRIES :=
        hdist.table_inj (div_lt_of_lt hu) (div_lt_of_lt hv) (hrt ▸ htu) ht
      have hiff : u%NPTENTRIES = v%NPTENTRIES ↔ u = v := by
        constructor
        · intro hmod
          rw [← Nat.div_add_mod u NPTENTRIES, ← Nat.div_add_mod v NPTENTRIES, hdiv, hmod]
        · rintro rfl
          rfl
      rw [hrt, Function.update_self, getWord_setWord]
      simp only [hiff]
    · have hne : u ≠ v := by
        rintro rfl
        rw [ht] at htu
        exact hrt (Option.some.inj htu).symm
      rw [Function.update_of_ne hrt, if_neg hne]

include hdist ht in
theorem held_rewrite_user (hv : v < UPAGES) (x : ℕ) :
    held (rewrite m t v w) d x+(if target (entry m d v) = some x then 1 else 0) =
      held m d x+(if target w = some x then 1 else 0) := by
  have hlt : v < NPDENTRIES*NPTENTRIES := user_lt ⟨v, hv⟩
  have htab : tables (rewrite m t v w) d = tables m d := by
    funext j
    rw [tables, table_rewrite hdist hlt ht, tables]
  have huser : user (rewrite m t v w) d = Function.update (user m d) ⟨v, hv⟩ (target w) := by
    funext u
    rw [user, entry_rewrite hdist hlt ht (user_lt u)]
    by_cases hu : u = ⟨v, hv⟩
    · rw [hu, Function.update_self, if_pos rfl]
    · rw [Function.update_of_ne hu, if_neg fun h => hu (Fin.ext h), user]
  have hcount := refs_update (user m d) ⟨v, hv⟩ (target w) x
  have hold : user m d ⟨v, hv⟩ = target (entry m d v) := rfl
  rw [hold] at hcount
  rw [held, held, htab, huser]
  omega

include hdist hv ht in
theorem held_rewrite_kernel (hk : UPAGES ≤ v) : held (rewrite m t v w) d = held m d := by
  have htab : tables (rewrite m t v w) d = tables m d := by
    funext j
    rw [tables, table_rewrite hdist hv ht, tables]
  have huser : user (rewrite m t v w) d = user m d := by
    funext u
    have hne : (u : ℕ) ≠ v := by
      have := u.isLt
      omega
    rw [user, entry_rewrite hdist hv ht (user_lt u), if_neg hne, user]
  funext x
  rw [held, held, htab, huser]

end Write

end ProvenXv6.Vm
