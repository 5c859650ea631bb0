import ProvenXv6.FsModel

namespace ProvenXv6.Fs
open LittleEndian

section Blocks
variable (x : Block)

theorem getBit_markBit (bi bj : ℕ) : getBit (markBit x bi) bj = (getBit x bj || decide (bj = bi)) := by
  unfold getBit markBit
  by_cases hbyte : bj/8 = bi/8
  · have hbj : bj%8 < 8 := Nat.mod_lt _ (by omega)
    have hbi : bi%8 < 8 := Nat.mod_lt _ (by omega)
    have heq : bj = bi ↔ bj%8 = bi%8 := by omega
    rw [hbyte, Function.update_self, BitVec.getLsbD_or]
    congr 1
    simp only [BitVec.getLsbD_shiftLeft, BitVec.getLsbD_one, heq]
    by_cases h : bj%8 = bi%8
    · simp [h, hbi]
    · have : bj%8 < bi%8 ∨ bj%8-bi%8 ≠ 0 := by omega
      rcases this with h' | h' <;> simp [h, h']
  · have hne : bj ≠ bi := by
      rintro rfl
      exact hbyte rfl
    rw [Function.update_of_ne hbyte]
    simp [hne]

theorem getBit_clearBit (bi bj : ℕ) :
    getBit (clearBit x bi) bj = (getBit x bj && decide (bj ≠ bi)) := by
  unfold getBit clearBit
  by_cases hbyte : bj/8 = bi/8
  · have hbj : bj%8 < 8 := Nat.mod_lt _ (by omega)
    have hbi : bi%8 < 8 := Nat.mod_lt _ (by omega)
    have heq : bj = bi ↔ bj%8 = bi%8 := by omega
    rw [hbyte, Function.update_self, BitVec.getLsbD_and]
    congr 1
    simp only [BitVec.getLsbD_not, BitVec.getLsbD_shiftLeft, BitVec.getLsbD_one, ne_eq, heq]
    by_cases h : bj%8 = bi%8
    · simp [h, hbi]
    · have : bj%8 < bi%8 ∨ bj%8-bi%8 ≠ 0 := by omega
      rcases this with h' | h' <;> simp [h, h', hbj]
  · have hne : bj ≠ bi := by
      rintro rfl
      exact hbyte rfl
    rw [Function.update_of_ne hbyte]
    simp [hne]

theorem copyIn_inside {off m j : ℕ} (src : ℕ → Byte) (h : off ≤ j) (h' : j < off+m) :
    copyIn x off m src j = src (j-off) := if_pos ⟨h, h'⟩

theorem copyIn_outside {off m j : ℕ} (src : ℕ → Byte) (h : j < off ∨ off+m ≤ j) :
    copyIn x off m src j = x j := if_neg (by omega)

theorem readLE_copyIn {off m p len : ℕ} (src : ℕ → Byte) (h : p+len ≤ off ∨ off+m ≤ p) :
    readLE (copyIn x off m src) p len = readLE x p len := by
  apply readLE_congr
  intro j hj
  exact copyIn_outside x src (by omega)

theorem getWord_setWord (j k : ℕ) (v : BitVec 32) :
    getWord (setWord x j v) k = if k = j then v else getWord x k := by
  unfold getWord setWord
  split_ifs with hkj
  · subst hkj
    apply ofNat_readLE v rfl
    intro i hi
    rw [copyIn_inside x _ (by omega) (by omega)]
    congr 1
    omega
  · rw [readLE_copyIn x _ (by omega)]

theorem getWord_zero (j : ℕ) : getWord (fun _ => 0) j = 0 := by
  simp [getWord, readLE]

end Blocks

theorem decode_of_encode {x : Block} {off : ℕ} {v : Dinode}
    (h : ∀ j, j < 64 → x (off+j) = v.encode j) : Dinode.decode x off = v := by
  have hfield {w : ℕ} (p len : ℕ) (f : BitVec w) (hw : w = 8*len) (hp : p+len ≤ 64)
      (hf : ∀ j, j < len → v.encode (p+j) = byteLE f.toNat j) :
      BitVec.ofNat w (readLE x (off+p) len) = f := by
    apply ofNat_readLE f hw
    intro j hj
    rw [Nat.add_assoc, h (p+j) (by omega), hf j hj]
  have htype := hfield 0 2 v.type rfl (by omega) fun j hj => by
    rw [Dinode.encode, if_pos (by omega), Nat.zero_add]
  have hmajor := hfield 2 2 v.major rfl (by omega) fun j hj => by
    rw [Dinode.encode, if_neg (by omega), if_pos (by omega), Nat.add_sub_cancel_left]
  have hminor := hfield 4 2 v.minor rfl (by omega) fun j hj => by
    rw [Dinode.encode, if_neg (by omega), if_neg (by omega), if_pos (by omega),
      Nat.add_sub_cancel_left]
  have hnlink := hfield 6 2 v.nlink rfl (by omega) fun j hj => by
    rw [Dinode.encode, if_neg (by omega), if_neg (by omega), if_neg (by omega), if_pos (by omega),
      Nat.add_sub_cancel_left]
  have hsize := hfield 8 4 v.size rfl (by omega) fun j hj => by
    rw [Dinode.encode, if_neg (by omega), if_neg (by omega), if_neg (by omega), if_neg (by omega),
      if_pos (by omega), Nat.add_sub_cancel_left]
  have haddrs (k : Fin (NDIRECT+1)) :
      BitVec.ofNat 32 (readLE x (off+12+4*k) 4) = v.addrs k := by
    have hk : k.val < 13 := k.isLt
    rw [Nat.add_assoc]
    refine hfield (12+4*k) 4 (v.addrs k) rfl (by omega) fun j hj => ?_
    have hdiv : (12+4*k.val+j-12)/4 = k.val := by omega
    have hmod : (12+4*k.val+j-12)%4 = j := by omega
    rw [Dinode.encode, if_neg (by omega), if_neg (by omega), if_neg (by omega), if_neg (by omega),
      if_neg (by omega), dif_pos (by rw [hdiv]; exact k.isLt), hmod]
    simp only [hdiv]
  unfold Dinode.decode
  rw [Nat.add_zero] at htype
  rw [htype, hmajor, hminor, hnlink, hsize, funext haddrs]

theorem decode_congr {x y : Block} {off : ℕ} (h : ∀ j, j < 64 → x (off+j) = y (off+j)) :
    Dinode.decode x off = Dinode.decode y off := by
  have hfield (p len : ℕ) (hp : p+len ≤ 64) : readLE x (off+p) len = readLE y (off+p) len := by
    apply readLE_congr
    intro j hj
    rw [Nat.add_assoc]
    exact h (p+j) (by omega)
  have haddrs (k : Fin (NDIRECT+1)) : readLE x (off+12+4*k) 4 = readLE y (off+12+4*k) 4 := by
    have hk : k.val < 13 := k.isLt
    rw [Nat.add_assoc]
    exact hfield (12+4*k) 4 (by omega)
  have htype : readLE x off 2 = readLE y off 2 := hfield 0 2 (by omega)
  unfold Dinode.decode
  rw [htype, hfield 2 2 (by omega), hfield 4 2 (by omega), hfield 6 2 (by omega),
    hfield 8 4 (by omega)]
  simp only [haddrs]

namespace Superblock
variable (sb : Superblock)

theorem BBLOCK_lt {b : ℕ} (h : b < sb.size) : sb.BBLOCK b < sb.datastart := sb.bitmap_lt b h

theorem IBLOCK_lt_BBLOCK {i : ℕ} (h : i < sb.ninodes) (b : ℕ) : sb.IBLOCK i < sb.BBLOCK b :=
  lt_of_lt_of_le (sb.inodes_lt i h) (Nat.le_add_left ..)

theorem size_pos : 0 < sb.size := by
  have := sb.nonempty
  omega

theorem IBLOCK_lt {i : ℕ} (h : i < sb.ninodes) : sb.IBLOCK i < sb.datastart :=
  (sb.IBLOCK_lt_BBLOCK h 0).trans (sb.BBLOCK_lt sb.size_pos)

section Writes
variable (d : Disk)

theorem bit_update {a b : ℕ} (h : sb.BBLOCK b ≠ a) (x : Block) :
    sb.bit (Function.update d a x) b = sb.bit d b := by
  rw [bit, Function.update_of_ne h, bit]

theorem dinode_update {a i : ℕ} (h : sb.IBLOCK i ≠ a) (x : Block) :
    sb.dinode (Function.update d a x) i = sb.dinode d i := by
  rw [dinode, Function.update_of_ne h, dinode]

theorem bit_update_data {a b : ℕ} (ha : sb.datastart ≤ a) (hb : b < sb.size) (x : Block) :
    sb.bit (Function.update d a x) b = sb.bit d b := by
  have := sb.BBLOCK_lt hb
  exact sb.bit_update d (by omega) x

theorem dinode_update_data {a i : ℕ} (ha : sb.datastart ≤ a) (hi : i < sb.ninodes) (x : Block) :
    sb.dinode (Function.update d a x) i = sb.dinode d i := by
  have := sb.IBLOCK_lt hi
  exact sb.dinode_update d (by omega) x

theorem bit_mark (b c : ℕ) :
    sb.bit (Function.update d (sb.BBLOCK b) (markBit (d (sb.BBLOCK b)) (b%BPB))) c =
      (sb.bit d c || decide (c = b)) := by
  by_cases hblock : sb.BBLOCK c = sb.BBLOCK b
  · have heq : c = b ↔ c%BPB = b%BPB := by
      simp only [BBLOCK, BPB, BSIZE] at hblock ⊢
      omega
    rw [bit, hblock, Function.update_self, getBit_markBit, bit, hblock]
    simp only [heq]
  · have hne : c ≠ b := by
      rintro rfl
      exact hblock rfl
    rw [sb.bit_update d hblock]
    simp [hne]

theorem bit_clear (b c : ℕ) :
    sb.bit (Function.update d (sb.BBLOCK b) (clearBit (d (sb.BBLOCK b)) (b%BPB))) c =
      (sb.bit d c && decide (c ≠ b)) := by
  by_cases hblock : sb.BBLOCK c = sb.BBLOCK b
  · have heq : c = b ↔ c%BPB = b%BPB := by
      simp only [BBLOCK, BPB, BSIZE] at hblock ⊢
      omega
    rw [bit, hblock, Function.update_self, getBit_clearBit, bit, hblock]
    simp only [ne_eq, heq]
  · have hne : c ≠ b := by
      rintro rfl
      exact hblock rfl
    rw [sb.bit_update d hblock]
    simp [hne]

theorem dinode_write (i j : ℕ) (v : Dinode) :
    sb.dinode (Function.update d (sb.IBLOCK i) (copyIn (d (sb.IBLOCK i)) (64*(i%IPB)) 64 v.encode)) j =
      if j = i then v else sb.dinode d j := by
  by_cases hblock : sb.IBLOCK j = sb.IBLOCK i
  · rw [dinode, hblock, Function.update_self]
    split_ifs with hji
    · subst hji
      apply decode_of_encode
      intro k hk
      rw [copyIn_inside _ _ (by omega) (by omega), Nat.add_sub_cancel_left]
    · have hslot : j%IPB ≠ i%IPB := by
        simp only [IBLOCK, IPB, BSIZE] at hblock ⊢
        omega
      rw [dinode, hblock]
      apply decode_congr
      intro k hk
      exact copyIn_outside _ _ (by omega)
  · have hne : j ≠ i := by
      rintro rfl
      exact hblock rfl
    rw [sb.dinode_update d hblock, if_neg hne]

end Writes

end Superblock

end ProvenXv6.Fs
