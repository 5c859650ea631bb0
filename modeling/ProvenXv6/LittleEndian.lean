import Mathlib.Tactic.Ring

namespace ProvenXv6.LittleEndian

/-- The number in the len bytes from off. -/
def readLE (b : ℕ → BitVec 8) (off : ℕ) : ℕ → ℕ
  | 0 => 0
  | len+1 => (b off).toNat+256*readLE b (off+1) len

def byteLE (v j : ℕ) : BitVec 8 := BitVec.ofNat 8 (v/256^j)

theorem readLE_congr {b b' : ℕ → BitVec 8} {off off' len : ℕ}
    (h : ∀ j, j < len → b (off+j) = b' (off'+j)) : readLE b off len = readLE b' off' len := by
  induction len generalizing off off' with
  | zero => rfl
  | succ len ih =>
    have hhead : b off = b' off' := h 0 (by omega)
    have htail : readLE b (off+1) len = readLE b' (off'+1) len := by
      apply ih
      intro j hj
      have := h (j+1) (by omega)
      rwa [← Nat.add_assoc, ← Nat.add_assoc, Nat.add_right_comm, Nat.add_right_comm off'] at this
    simp only [readLE, hhead, htail]

theorem readLE_two (b : ℕ → BitVec 8) (off : ℕ) :
    readLE b off 2 = (b off).toNat+256*(b (off+1)).toNat := by
  simp only [readLE, Nat.mul_zero, Nat.add_zero]

theorem readLE_lt (b : ℕ → BitVec 8) (off len : ℕ) : readLE b off len < 256^len := by
  induction len generalizing off with
  | zero => exact Nat.one_pos
  | succ len ih =>
    have hhead := (b off).isLt
    have htail := ih (off+1)
    rw [readLE, Nat.pow_succ]
    omega

/-- Reading back the bytes of v gives v up to the width. -/
theorem readLE_of_bytes {b : ℕ → BitVec 8} {off len v : ℕ}
    (h : ∀ j, j < len → b (off+j) = byteLE v j) : readLE b off len = v%256^len := by
  induction len generalizing off v with
  | zero => simp [readLE, Nat.mod_one]
  | succ len ih =>
    have hhead : (b off).toNat = v%256 := by
      have h0 : b off = byteLE v 0 := h 0 (by omega)
      simp [h0, byteLE]
    have htail : readLE b (off+1) len = v/256%256^len := by
      apply ih
      intro j hj
      have := h (j+1) (by omega)
      rw [byteLE, Nat.div_div_eq_div_mul, ← pow_succ', ← byteLE, ← this]
      congr 1
      ring
    rw [readLE, hhead, htail, pow_succ', Nat.mod_mul]

theorem ofNat_readLE {w len : ℕ} {b : ℕ → BitVec 8} {off : ℕ} (v : BitVec w) (hw : w = 8*len)
    (h : ∀ j, j < len → b (off+j) = byteLE v.toNat j) : BitVec.ofNat w (readLE b off len) = v := by
  have hpow : 256^len = 2^w := by
    rw [hw, pow_mul]
    norm_num
  rw [readLE_of_bytes h, hpow, Nat.mod_eq_of_lt v.isLt, BitVec.ofNat_toNat, BitVec.setWidth_eq]

end ProvenXv6.LittleEndian
