import Mathlib.Data.List.Range
import Mathlib.Logic.Function.Basic
import Mathlib.Tactic.Common

namespace ProvenXv6.RingBuffer

/-- The n cells from position i on. -/
def window {α : Type*} (N : ℕ) (data : ℕ → α) (i : BitVec 32) (n : ℕ) : List α :=
  (List.range n).map fun j => data ((i.toNat+j)%N)

/-- How far counter i is behind counter k. -/
def behind (i k : BitVec 32) : ℕ := (k-i).toNat

section Counters
variable {i k : BitVec 32}

theorem behind_self (i : BitVec 32) : behind i i = 0 := by
  unfold behind
  bv_omega

theorem behind_eq_zero : behind i k = 0 ↔ i = k := by
  unfold behind
  bv_omega

theorem behind_eq_iff {n : ℕ} (hn : n < 0x100000000) : behind i k = n ↔ k = i+BitVec.ofNat 32 n := by
  unfold behind
  bv_omega

theorem behind_succ (h : behind i k < 0xffffffff) : behind i (k+1) = behind i k+1 := by
  unfold behind at h ⊢
  bv_omega

theorem behind_advance (h : 0 < behind i k) : behind (i+1) k = behind i k-1 := by
  unfold behind at h ⊢
  bv_omega

theorem behind_add {j : BitVec 32} (h : behind i j ≤ behind i k) : behind i j+behind j k = behind i k := by
  unfold behind at h ⊢
  bv_omega

theorem behind_pred (h : 0 < behind i k) : behind i (k-1) = behind i k-1 := by
  unfold behind at h ⊢
  bv_omega

end Counters

section Window
variable {α : Type*} {N : ℕ} {i k : BitVec 32} {n : ℕ}

theorem length_window (N : ℕ) (data : ℕ → α) (i : BitVec 32) (n : ℕ) : (window N data i n).length = n := by
  rw [window, List.length_map, List.length_range]

theorem window_zero (N : ℕ) (data : ℕ → α) (i : BitVec 32) : window N data i 0 = [] := rfl

/-- The position n cells after i, as the counter that reaches it. -/
theorem add_behind_mod (hN : N ∣ 0x100000000) (i k : BitVec 32) : (i.toNat+behind i k)%N = k.toNat%N := by
  have hsum : (i.toNat+behind i k)%0x100000000 = k.toNat := by
    unfold behind
    bv_omega
  rw [← hsum, Nat.mod_mod_of_dvd _ hN]

theorem window_succ (N : ℕ) (data : ℕ → α) (i : BitVec 32) (n : ℕ) :
    window N data i (n+1) = window N data i n ++ [data ((i.toNat+n)%N)] := by
  rw [window, List.range_succ, List.map_append]
  rfl

theorem succ_mod (hN : N ∣ 0x100000000) (i : BitVec 32) (j : ℕ) : ((i+1).toNat+j)%N = (i.toNat+(j+1))%N := by
  have hsucc : (i+1).toNat = (i.toNat+1)%0x100000000 := by bv_omega
  rw [hsucc, Nat.add_mod, Nat.mod_mod_of_dvd _ hN, ← Nat.add_mod, Nat.add_assoc, Nat.add_comm 1 j]

theorem window_cons (hN : N ∣ 0x100000000) (data : ℕ → α) (i : BitVec 32) (n : ℕ) :
    window N data i (n+1) = data (i.toNat%N) :: window N data (i+1) n := by
  rw [window, List.range_succ_eq_map, List.map_cons, List.map_map, Nat.add_zero, window]
  congr 1
  apply List.map_congr_left
  intro j _
  rw [Function.comp_apply, succ_mod hN]

theorem window_update (data : ℕ → α) (i : BitVec 32) {m : ℕ} (hn : n ≤ m) (hm : m < N) (x : α) :
    window N (Function.update data ((i.toNat+m)%N) x) i n = window N data i n := by
  apply List.map_congr_left
  intro j hj
  have hj := List.mem_range.mp hj
  apply Function.update_of_ne
  intro he
  have hdiv := Nat.sub_mod_eq_zero_of_mod_eq (show (i.toNat+m)%N = (i.toNat+j)%N from he.symm)
  rw [show i.toNat+m-(i.toNat+j) = m-j by omega, Nat.mod_eq_of_lt (by omega)] at hdiv
  omega

theorem window_append (data : ℕ → α) (hN : N ∣ 0x100000000) (i k : BitVec 32) (n : ℕ) :
    window N data i (behind i k+n) = window N data i (behind i k) ++ window N data k n := by
  rw [window, List.range_add, List.map_append, List.map_map, window, window]
  congr 1
  apply List.map_congr_left
  intro j _
  rw [Function.comp_apply, ← Nat.add_assoc, Nat.add_mod, add_behind_mod hN, ← Nat.add_mod]

theorem window_push (data : ℕ → α) (hN : N ∣ 0x100000000) (hroom : behind i k < N) (x : α) :
    window N (Function.update data (k.toNat%N) x) i (behind i k+1) = window N data i (behind i k) ++ [x] := by
  rw [window_succ, ← add_behind_mod hN i k, window_update data i le_rfl hroom, Function.update_self]

theorem window_dropLast (data : ℕ → α) (h : 0 < behind i k) :
    window N data i (behind i (k-1)) = (window N data i (behind i k)).dropLast := by
  obtain ⟨n, hn⟩ : ∃ n, behind i k = n+1 := ⟨behind i k-1, by omega⟩
  rw [behind_pred h, hn, Nat.add_sub_cancel, window_succ, List.dropLast_concat]

theorem window_last (data : ℕ → α) (hN : N ∣ 0x100000000) (h : 0 < behind i k) :
    (window N data i (behind i k)).getLast? = some (data ((k-1).toNat%N)) := by
  have hd := behind_pred h
  obtain ⟨n, hn⟩ : ∃ n, behind i k = n+1 := ⟨behind i k-1, by omega⟩
  rw [hn, window_succ, List.getLast?_concat, ← add_behind_mod hN i (k-1), hd, hn, Nat.add_sub_cancel]

theorem window_pop (hN : N ∣ 0x100000000) (data : ℕ → α) (h : 0 < behind i k) :
    window N data i (behind i k) = data (i.toNat%N) :: window N data (i+1) (behind (i+1) k) := by
  rw [behind_advance h, ← window_cons hN, Nat.sub_add_cancel h]

end Window

end ProvenXv6.RingBuffer
