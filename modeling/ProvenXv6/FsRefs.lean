import ProvenXv6.FsLayout
import ProvenXv6.Ownership

namespace ProvenXv6.Fs
open LittleEndian Ownership

/-- A slot that may hold a block number: an element of addrs or of the indirect
block of an inode. -/
abbrev Ref := ℕ × (Fin (NDIRECT+1) ⊕ Fin NINDIRECT)

theorem NINDIRECT_pos : 0 < NINDIRECT := by decide

/-- The slot of block bn of file i, for bn below MAXFILE. -/
def slot (i bn : ℕ) : Ref :=
  if h : bn < NDIRECT then (i, .inl ⟨bn, Nat.lt_succ_of_lt h⟩)
  else (i, .inr ⟨(bn-NDIRECT)%NINDIRECT, Nat.mod_lt _ NINDIRECT_pos⟩)

section
variable (sb : Superblock) (ino : ℕ → Dinode) (d : Disk)

def Live (i : ℕ) : Prop := 1 ≤ i ∧ i < sb.ninodes ∧ (ino i).type ≠ 0

instance (i : ℕ) : Decidable (Live sb ino i) := inferInstanceAs (Decidable (_ ∧ _ ∧ _))

/-- The block number in a slot of an allocated inode, otherwise 0. -/
def refAt : Ref → ℕ
  | (i, .inl k) => if Live sb ino i then ((ino i).addrs k).toNat else 0
  | (i, .inr j) =>
    if Live sb ino i ∧ (ino i).addrs indirect ≠ 0 then
      (getWord (d ((ino i).addrs indirect).toNat) j).toNat
    else 0

/-- The block that holds block bn of file i. -/
def addr (i bn : ℕ) : ℕ := if bn < MAXFILE then refAt sb ino d (slot i bn) else 0

def byteAt (i p : ℕ) : Byte := d (addr sb ino d i (p/BSIZE)) (p%BSIZE)

/-- Every block below the size is allocated. -/
def Filled (i : ℕ) : Prop := ∀ bn, bn*BSIZE < (ino i).size.toNat → addr sb ino d i bn ≠ 0

def Used (b : ℕ) : Prop := sb.datastart ≤ b ∧ b < sb.size ∧ sb.bit d b = true

/-- The bitmap agrees with the references, and the inodes in P have no holes. -/
structure Consistent (P : ℕ → Prop) : Prop where
  metadata : ∀ b, b < sb.datastart → sb.bit d b = true
  owned : Owned (refAt sb ino d) 0 (Used sb d)
  filled : ∀ i, P i → Live sb ino i → Filled sb ino d i

end

theorem slot_fst (i bn : ℕ) : (slot i bn).1 = i := by
  unfold slot
  split_ifs <;> rfl

theorem slot_direct {bn : ℕ} (i : ℕ) (h : bn < NDIRECT) :
    slot i bn = (i, .inl ⟨bn, Nat.lt_succ_of_lt h⟩) := dif_pos h

theorem slot_indirect {bn : ℕ} (i : ℕ) (h : ¬bn < NDIRECT) (h' : bn-NDIRECT < NINDIRECT) :
    slot i bn = (i, .inr ⟨bn-NDIRECT, h'⟩) := by
  rw [slot, dif_neg h]
  simp only [Nat.mod_eq_of_lt h']

theorem slot_ne_indirect (i j bn : ℕ) : slot i bn ≠ (j, .inl indirect) := by
  unfold slot
  split_ifs with h
  · intro he
    have hk : bn = NDIRECT := congrArg Fin.val (Sum.inl.inj (Prod.mk.inj he).2)
    omega
  · intro he
    cases (Prod.mk.inj he).2

theorem slot_inj {i j bn bm : ℕ} (hn : bn < MAXFILE) (hm : bm < MAXFILE)
    (h : slot i bn = slot j bm) : i = j ∧ bn = bm := by
  have hmax : MAXFILE = NDIRECT+NINDIRECT := rfl
  have hij : i = j := by rw [← slot_fst i bn, h, slot_fst]
  refine ⟨hij, ?_⟩
  unfold slot at h
  split_ifs at h with h1 h2 h2
  · exact congrArg Fin.val (Sum.inl.inj (Prod.mk.inj h).2)
  · cases (Prod.mk.inj h).2
  · cases (Prod.mk.inj h).2
  · have he : (bn-NDIRECT)%NINDIRECT = (bm-NDIRECT)%NINDIRECT :=
      congrArg Fin.val (Sum.inr.inj (Prod.mk.inj h).2)
    rw [Nat.mod_eq_of_lt (by omega), Nat.mod_eq_of_lt (by omega)] at he
    omega

section
variable {sb : Superblock} {ino ino' : ℕ → Dinode} {d d' : Disk} {P : ℕ → Prop}

theorem addr_ne_zero {i bn : ℕ} :
    addr sb ino d i bn ≠ 0 ↔ bn < MAXFILE ∧ refAt sb ino d (slot i bn) ≠ 0 := by
  unfold addr
  split_ifs with h <;> simp [h]

theorem addr_of_lt {i bn : ℕ} (h : bn < MAXFILE) :
    addr sb ino d i bn = refAt sb ino d (slot i bn) := if_pos h

theorem live_of_refAt {r : Ref} (h : refAt sb ino d r ≠ 0) : Live sb ino r.1 := by
  by_contra hl
  obtain ⟨i, k | j⟩ := r
  · exact h (if_neg hl)
  · exact h (if_neg fun hc => hl hc.1)

theorem refAt_inl {i : ℕ} {k : Fin (NDIRECT+1)} (hl : Live sb ino i) :
    refAt sb ino d (i, .inl k) = ((ino i).addrs k).toNat := if_pos hl

theorem refAt_inl_ne_zero {i : ℕ} {k : Fin (NDIRECT+1)} (hl : Live sb ino i)
    (hk : (ino i).addrs k ≠ 0) : refAt sb ino d (i, .inl k) ≠ 0 := by
  rw [refAt_inl hl]
  exact fun h0 => hk (BitVec.eq_of_toNat_eq h0)

theorem refAt_inr {i : ℕ} {j : Fin NINDIRECT} (hl : Live sb ino i) (hi : (ino i).addrs indirect ≠ 0) :
    refAt sb ino d (i, .inr j) = (getWord (d ((ino i).addrs indirect).toNat) j).toNat := if_pos ⟨hl, hi⟩

theorem indirect_ne_zero {i : ℕ} {j : Fin NINDIRECT} (h : refAt sb ino d (i, .inr j) ≠ 0) :
    (ino i).addrs indirect ≠ 0 := by
  intro hz
  exact h (if_neg fun hc => hc.2 hz)

theorem refAt_inr_congr {i : ℕ} {j : Fin NINDIRECT} (hlive : Live sb ino' i ↔ Live sb ino i)
    (haddr : Live sb ino i → (ino' i).addrs indirect = (ino i).addrs indirect)
    (hblock : Live sb ino i → (ino i).addrs indirect ≠ 0 →
      d' ((ino i).addrs indirect).toNat = d ((ino i).addrs indirect).toNat) :
    refAt sb ino' d' (i, .inr j) = refAt sb ino d (i, .inr j) := by
  rw [refAt, refAt]
  by_cases hl : Live sb ino i
  · by_cases h0 : (ino i).addrs indirect = 0
    · rw [haddr hl, if_neg (fun hc => hc.2 h0), if_neg (fun hc => hc.2 h0)]
    · rw [haddr hl, if_pos ⟨hlive.mpr hl, h0⟩, if_pos ⟨hl, h0⟩, hblock hl h0]
  · rw [if_neg (fun hc => hl (hlive.mp hc.1)), if_neg (fun hc => hl hc.1)]

theorem refAt_congr {r : Ref} (hlive : Live sb ino' r.1 ↔ Live sb ino r.1)
    (haddrs : Live sb ino r.1 → (ino' r.1).addrs = (ino r.1).addrs)
    (hblock : Live sb ino r.1 → (ino r.1).addrs indirect ≠ 0 →
      d' ((ino r.1).addrs indirect).toNat = d ((ino r.1).addrs indirect).toNat) :
    refAt sb ino' d' r = refAt sb ino d r := by
  obtain ⟨i, k | j⟩ := r
  · by_cases hl : Live sb ino i
    · rw [refAt, refAt, if_pos hl, if_pos (hlive.mpr hl), haddrs hl]
    · rw [refAt, refAt, if_neg hl, if_neg (mt hlive.mp hl)]
  · exact refAt_inr_congr hlive (fun hl => by rw [haddrs hl]) hblock

theorem addr_congr {i : ℕ} (h : ∀ r : Ref, r.1 = i → refAt sb ino' d' r = refAt sb ino d r) (bn : ℕ) :
    addr sb ino' d' i bn = addr sb ino d i bn := by
  unfold addr
  rw [h _ (slot_fst i bn)]

/-- The slots after inode i got a in the place of its address k. What ref says about
the slots before may leave out entries of the indirect block. -/
theorem refAt_set_addr {ref : Ref → ℕ} {i : ℕ} {k : Fin (NDIRECT+1)} {a : BitVec 32}
    (hl : Live sb ino' i) (hinl : ∀ m, ref (i, .inl m) = ((ino i).addrs m).toNat)
    (hi : (ino' i).addrs = Function.update (ino i).addrs k a)
    (hinr : ∀ j, refAt sb ino' d' (i, .inr j) = ref (i, .inr j))
    (hother : ∀ r : Ref, r.1 ≠ i → refAt sb ino' d' r = ref r) (q : Ref) :
    refAt sb ino' d' q = Function.update ref (i, .inl k) a.toNat q := by
  by_cases hq : q.1 = i
  · obtain ⟨j, m | m⟩ := q
    · obtain rfl : j = i := hq
      rw [refAt_inl hl, hi]
      by_cases hmk : m = k
      · rw [hmk, Function.update_self, Function.update_self]
      · have hne : ((j, .inl m) : Ref) ≠ (j, .inl k) := by simpa using hmk
        rw [Function.update_of_ne hmk, Function.update_of_ne hne, hinl]
    · obtain rfl : j = i := hq
      have hne : ((j, .inr m) : Ref) ≠ (j, .inl k) := by simp
      rw [Function.update_of_ne hne, hinr]
  · have hne : q ≠ (i, .inl k) := by
      rintro rfl
      exact hq rfl
    rw [Function.update_of_ne hne, hother q hq]

namespace Consistent

theorem mono {Q : ℕ → Prop} (h : Consistent sb ino d P) (hPQ : ∀ i, Q i → P i) :
    Consistent sb ino d Q :=
  ⟨h.metadata, h.owned, fun i hi => h.filled i (hPQ i hi)⟩

theorem used_refAt (h : Consistent sb ino d P) {r : Ref} (hr : refAt sb ino d r ≠ 0) :
    Used sb d (refAt sb ino d r) := h.owned.used_ref hr

theorem used_indirect (h : Consistent sb ino d P) {i : ℕ} (hl : Live sb ino i)
    (hi : (ino i).addrs indirect ≠ 0) : Used sb d ((ino i).addrs indirect).toNat := by
  rw [← refAt_inl hl]
  exact h.used_refAt (refAt_inl_ne_zero hl hi)

theorem indirect_inj (h : Consistent sb ino d P) {i j : ℕ} (hi : Live sb ino i) (hj : Live sb ino j)
    (h0 : (ino i).addrs indirect ≠ 0)
    (he : ((ino i).addrs indirect).toNat = ((ino j).addrs indirect).toNat) : i = j := by
  have hslot : ((i, .inl indirect) : Ref) = (j, .inl indirect) := by
    apply h.owned.unique _ _ (refAt_inl_ne_zero hi h0)
    rw [refAt_inl hi, refAt_inl hj, he]
  exact congrArg Prod.fst hslot

theorem addr_ne_indirect (h : Consistent sb ino d P) {i bn j : ℕ} (ha : addr sb ino d i bn ≠ 0)
    (hl : Live sb ino j) : addr sb ino d i bn ≠ ((ino j).addrs indirect).toNat := by
  obtain ⟨hbn, hr⟩ := addr_ne_zero.mp ha
  rw [addr_of_lt hbn, ← refAt_inl (d := d) hl]
  intro he
  exact slot_ne_indirect i j bn (h.owned.unique _ _ hr he)

theorem used_addr (h : Consistent sb ino d P) {i bn : ℕ} (ha : addr sb ino d i bn ≠ 0) :
    Used sb d (addr sb ino d i bn) := by
  obtain ⟨hbn, hr⟩ := addr_ne_zero.mp ha
  rw [addr_of_lt hbn]
  exact h.used_refAt hr

theorem addr_inj (h : Consistent sb ino d P) {i j bn bm : ℕ} (ha : addr sb ino d i bn ≠ 0)
    (he : addr sb ino d i bn = addr sb ino d j bm) : i = j ∧ bn = bm := by
  obtain ⟨hn, hr⟩ := addr_ne_zero.mp ha
  obtain ⟨hm, -⟩ := addr_ne_zero.mp (he ▸ ha)
  rw [addr_of_lt hn, addr_of_lt hm] at he
  exact slot_inj hn hm (h.owned.unique _ _ hr he)

end Consistent

/-- The blocks of the files in P stay where they are and keep their bytes. -/
def Extends (sb : Superblock) (P : ℕ → Prop) (ino : ℕ → Dinode) (d : Disk) (ino' : ℕ → Dinode)
    (d' : Disk) : Prop :=
  ∀ i, P i → ∀ bn, addr sb ino d i bn ≠ 0 →
    addr sb ino' d' i bn = addr sb ino d i bn ∧ d' (addr sb ino d i bn) = d (addr sb ino d i bn)

theorem Extends.refl : Extends sb P ino d ino d := fun _ _ _ _ => ⟨rfl, rfl⟩

theorem Extends.mono {Q : ℕ → Prop} (h : Extends sb P ino d ino' d') (hQ : ∀ i, Q i → P i) :
    Extends sb Q ino d ino' d' := fun i hi => h i (hQ i hi)

theorem Extends.trans {ino'' : ℕ → Dinode} {d'' : Disk} (h : Extends sb P ino d ino' d')
    (h' : Extends sb P ino' d' ino'' d'') : Extends sb P ino d ino'' d'' := by
  intro i hi bn ha
  obtain ⟨h1, h2⟩ := h i hi bn ha
  obtain ⟨h3, h4⟩ := h' i hi bn (by rw [h1]; exact ha)
  rw [h1] at h3 h4
  exact ⟨h3, h4.trans h2⟩

theorem Extends.byteAt {i : ℕ} (h : Extends sb P ino d ino' d') (hi : P i) {p : ℕ}
    (ha : addr sb ino d i (p/BSIZE) ≠ 0) : byteAt sb ino' d' i p = byteAt sb ino d i p := by
  obtain ⟨h1, h2⟩ := h i hi _ ha
  unfold Fs.byteAt
  rw [h1, h2]

theorem Extends.filled {i : ℕ} (h : Extends sb P ino d ino' d') (hi : P i)
    (hsize : (ino' i).size = (ino i).size) (hf : Filled sb ino d i) : Filled sb ino' d' i := by
  intro bn hbn
  have ha := hf bn (by rw [← hsize]; exact hbn)
  rw [(h i hi bn ha).1]
  exact ha

end

end ProvenXv6.Fs
