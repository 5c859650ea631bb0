import ProvenXv6.FsPrimitive
import ProvenXv6.FsRefs

namespace ProvenXv6.Fs
open LittleEndian Ownership WeakestPre

variable {sb : Superblock} {ino ino' : ℕ → Dinode} {d d' : Disk} {P : ℕ → Prop} {F : Fault → Prop}

/-- The faults that leave the allocator sound: all but the panic of `bfree`. -/
def NoDoubleFree (e : Fault) : Prop := e ≠ .panic "freeing free block"

theorem noDoubleFree_panic {msg : String} (h : msg ≠ "freeing free block") :
    NoDoubleFree (.panic msg) := by
  intro he
  exact h (Fault.panic.inj he)

def outOfBlocks : Fault := .panic "balloc: out of blocks"

theorem noDoubleFree_outOfBlocks : NoDoubleFree outOfBlocks := noDoubleFree_panic (by decide)

/-- The disk after `balloc` returned b. -/
structure Allocated (sb : Superblock) (d d' : Disk) (b : ℕ) : Prop where
  data : sb.datastart ≤ b
  lt : b < sb.size
  free : sb.bit d b = false
  bit : ∀ c, c < sb.size → sb.bit d' c = (sb.bit d c || decide (c = b))
  dinode : ∀ i, i < sb.ninodes → sb.dinode d' i = sb.dinode d i
  zero : d' b = fun _ => 0
  other : ∀ a, sb.datastart ≤ a → a ≠ b → d' a = d a

namespace Allocated
variable {b : ℕ}

theorem pos (h : Allocated sb d d' b) : b ≠ 0 := by
  have hpos : 0 < sb.datastart := sb.nonempty
  have := h.data
  omega

theorem ne_zero {a : BitVec 32} (h : Allocated sb d d' a.toNat) : a ≠ 0 := by
  rintro rfl
  exact h.pos rfl

theorem not_used (h : Allocated sb d d' b) : ¬Used sb d b := by
  rintro ⟨-, -, hbit⟩
  rw [h.free] at hbit
  contradiction

theorem used_iff (h : Allocated sb d d' b) (c : ℕ) : Used sb d' c ↔ Used sb d c ∨ c = b := by
  by_cases hc : c = b
  · subst hc
    simp [Used, h.data, h.lt, h.bit c h.lt]
  · by_cases hlt : c < sb.size
    · simp [Used, h.bit c hlt, hc]
    · simp [Used, hlt, hc]

theorem metadata (h : Allocated sb d d' b) (hm : ∀ c, c < sb.datastart → sb.bit d c = true)
    (c : ℕ) (hc : c < sb.datastart) : sb.bit d' c = true := by
  have hlt : c < sb.size := by
    have : sb.datastart ≤ sb.size := Nat.sub_le ..
    omega
  rw [h.bit c hlt, hm c hc, Bool.true_or]

theorem of_used (h : Allocated sb d d' b) {a : ℕ} (ha : Used sb d a) : d' a = d a := by
  apply h.other a ha.1
  rintro rfl
  exact h.not_used ha

end Allocated

theorem balloc_spec {s : FS} (hF : F outOfBlocks) (hm : ∀ c, c < sb.datastart → sb.bit s.disk c = true) :
    wp F (balloc sb)
      (fun a t => t.inode = s.inode ∧ Allocated sb s.disk t.disk a.toNat) s := by
  unfold balloc
  rw [wp_bind, wp_get]
  cases hfind : (List.range sb.size).find? (fun b => !sb.bit s.disk b) with
  | none => exact hF
  | some b =>
    have hlt : b < sb.size := List.mem_range.mp (List.mem_of_find?_eq_some hfind)
    have hfree : sb.bit s.disk b = false := by
      have := List.find?_some hfind
      rwa [Bool.not_eq_true'] at this
    have hdata : sb.datastart ≤ b := by
      by_contra hb
      rw [hm b (by omega)] at hfree
      contradiction
    have htoNat : (BitVec.ofNat 32 b).toNat = b := by
      rw [BitVec.toNat_ofNat]
      exact Nat.mod_eq_of_lt (hlt.trans sb.fits)
    simp only [bzero, wp_bind, wp_logWrite, wp_pure, htoNat, FS.put_inode, FS.put_disk]
    refine ⟨trivial, hdata, hlt, hfree, ?_, ?_, Function.update_self .., ?_⟩
    · intro c hc
      rw [sb.bit_update_data _ hdata hc, sb.bit_mark]
    · intro i hi
      have := sb.IBLOCK_lt_BBLOCK hi b
      rw [sb.dinode_update_data _ hdata hi, sb.dinode_update _ (by omega)]
    · intro a ha hab
      rw [Function.update_of_ne hab, Function.update_of_ne (by have := sb.BBLOCK_lt hlt; omega)]

section Tables

theorem refAt_other {i : ℕ} (hino : ∀ j, j ≠ i → j < sb.ninodes → ino' j = ino j)
    (hd : ∀ j, j ≠ i → Live sb ino j → (ino j).addrs indirect ≠ 0 →
      d' ((ino j).addrs indirect).toNat = d ((ino j).addrs indirect).toNat)
    {r : Ref} (hr : r.1 ≠ i) : refAt sb ino' d' r = refAt sb ino d r := by
  apply refAt_congr
  · unfold Live
    by_cases hlt : r.1 < sb.ninodes
    · rw [hino r.1 hr hlt]
    · simp [hlt]
  · intro hl
    rw [hino r.1 hr hl.2.1]
  · exact hd r.1 hr

theorem Consistent.attach {r : Ref} {b : ℕ} (h : Consistent sb ino d P) (hb : b ≠ 0)
    (hfree : ¬Used sb d b) (hr : refAt sb ino d r = 0)
    (href : ∀ q, refAt sb ino' d' q = Function.update (refAt sb ino d) r b q)
    (hused : ∀ c, Used sb d' c ↔ Used sb d c ∨ c = b)
    (hmeta : ∀ c, c < sb.datastart → sb.bit d' c = true)
    (hsize : ∀ i, Live sb ino' i → Live sb ino i ∧ (ino' i).size = (ino i).size)
    (hdata : ∀ i bn, addr sb ino d i bn ≠ 0 → d' (addr sb ino d i bn) = d (addr sb ino d i bn)) :
    Consistent sb ino' d' P ∧ Extends sb (fun _ => True) ino d ino' d' := by
  have hkeep (q : Ref) (hq : refAt sb ino d q ≠ 0) : refAt sb ino' d' q = refAt sb ino d q := by
    have hqr : q ≠ r := by
      rintro rfl
      exact hq hr
    rw [href, Function.update_of_ne hqr]
  have hext : Extends sb (fun _ => True) ino d ino' d' := by
    intro i _ bn ha
    obtain ⟨hbn, hq⟩ := addr_ne_zero.mp ha
    refine ⟨?_, hdata i bn ha⟩
    rw [addr_of_lt hbn, addr_of_lt hbn, hkeep _ hq]
  refine ⟨⟨hmeta, (h.owned.attach hr hfree hb).congr href hused, ?_⟩, hext⟩
  intro i hi hl
  obtain ⟨hl, hsz⟩ := hsize i hl
  exact hext.filled trivial hsz (h.filled i hi hl)

theorem live_congr (hino : ∀ j, j < sb.ninodes → (ino' j).type = (ino j).type) (i : ℕ) :
    Live sb ino' i ↔ Live sb ino i := by
  unfold Live
  by_cases hlt : i < sb.ninodes
  · rw [hino i hlt]
  · simp [hlt]

theorem Consistent.attach_addr {i : ℕ} {k : Fin (NDIRECT+1)} {a : BitVec 32}
    (h : Consistent sb ino d P) (ha : Allocated sb d d' a.toNat) (hl : Live sb ino i)
    (hk : (ino i).addrs k = 0)
    (hsame : (ino' i).type = (ino i).type ∧ (ino' i).size = (ino i).size)
    (hi : (ino' i).addrs = Function.update (ino i).addrs k a)
    (hino : ∀ j, j ≠ i → j < sb.ninodes → ino' j = ino j) :
    Consistent sb ino' d' P ∧ Extends sb (fun _ => True) ino d ino' d' := by
  have hkeep (j : ℕ) (hj : j < sb.ninodes) :
      (ino' j).type = (ino j).type ∧ (ino' j).size = (ino j).size := by
    by_cases hji : j = i
    · rw [hji]
      exact hsame
    · rw [hino j hji hj]
      exact ⟨rfl, rfl⟩
  have hlive : ∀ j, Live sb ino' j ↔ Live sb ino j := live_congr fun j hj => (hkeep j hj).1
  have hslot : refAt sb ino d (i, .inl k) = 0 := by
    rw [refAt, if_pos hl, hk]
    rfl
  refine h.attach ha.pos ha.not_used hslot ?_ ha.used_iff (ha.metadata h.metadata) ?_ ?_
  · apply refAt_set_addr ((hlive i).mpr hl) (fun m => refAt_inl hl) hi
    · intro j
      by_cases hind : indirect = k
      · -- the indirect block is the new one and its entries are zero
        have hold : (ino i).addrs indirect = 0 := by rw [hind, hk]
        have hnew : (ino' i).addrs indirect = a := by rw [hi, hind, Function.update_self]
        rw [refAt_inr ((hlive i).mpr hl) (by rw [hnew]; exact ha.ne_zero), hnew, ha.zero, getWord_zero]
        exact (if_neg fun hc => hc.2 hold).symm
      · have hnew : (ino' i).addrs indirect = (ino i).addrs indirect := by
          rw [hi, Function.update_of_ne hind]
        exact refAt_inr_congr (hlive i) (fun _ => hnew) fun hl h0 => ha.of_used (h.used_indirect hl h0)
    · intro r hr
      apply refAt_other hino _ hr
      intro j _ hlj h0
      exact ha.of_used (h.used_indirect hlj h0)
  · intro j hj
    exact ⟨(hlive j).mp hj, (hkeep j hj.2.1).2⟩
  · intro j bn haddr
    exact ha.of_used (h.used_addr haddr)

theorem Consistent.attach_entry {i : ℕ} {j : Fin NINDIRECT} {a : BitVec 32} {d₁ : Disk}
    (h : Consistent sb ino d P) (ha : Allocated sb d d₁ a.toNat) (hl : Live sb ino i)
    (hi : (ino i).addrs indirect ≠ 0)
    (hj : getWord (d ((ino i).addrs indirect).toNat) j = 0)
    (hd : d' = Function.update d₁ ((ino i).addrs indirect).toNat
      (setWord (d ((ino i).addrs indirect).toNat) j a))
    (hino : ∀ j, j < sb.ninodes → ino' j = ino j) :
    Consistent sb ino' d' P ∧ Extends sb (fun _ => True) ino d ino' d' := by
  have hlive : ∀ j, Live sb ino' j ↔ Live sb ino j := live_congr fun j hj => congrArg Dinode.type (hino j hj)
  have hind := h.used_indirect hl hi
  have hslot : refAt sb ino d (i, .inr j) = 0 := by
    rw [refAt, if_pos ⟨hl, hi⟩, hj]
    rfl
  have hbit (c : ℕ) (hc : c < sb.size) : sb.bit d' c = sb.bit d₁ c := by
    rw [hd, sb.bit_update_data _ hind.1 hc]
  have hother (c : ℕ) (hc : Used sb d c) (hne : c ≠ ((ino i).addrs indirect).toNat) :
      d' c = d c := by
    rw [hd, Function.update_of_ne hne, ha.of_used hc]
  refine h.attach ha.pos ha.not_used hslot ?_ ?_ ?_ ?_ ?_
  · intro q
    by_cases hq : q.1 = i
    · obtain ⟨j', m | m⟩ := q
      · obtain rfl : j' = i := hq
        have hne : ((j', .inl m) : Ref) ≠ (j', .inr j) := by simp
        rw [Function.update_of_ne hne, refAt, refAt, if_pos hl, if_pos ((hlive j').mpr hl),
          hino j' hl.2.1]
      · obtain rfl : j' = i := hq
        rw [refAt, hino j' hl.2.1, if_pos ⟨(hlive j').mpr hl, hi⟩, hd, Function.update_self,
          getWord_setWord]
        by_cases hmj : m = j
        · rw [if_pos (by rw [hmj]), hmj, Function.update_self]
        · have hne : ((j', .inr m) : Ref) ≠ (j', .inr j) := by simpa using hmj
          rw [if_neg (fun he => hmj (Fin.ext he)), Function.update_of_ne hne, refAt, if_pos ⟨hl, hi⟩]
    · have hne : q ≠ (i, .inr j) := by
        rintro rfl
        exact hq rfl
      rw [Function.update_of_ne hne]
      apply refAt_other (fun j _ hj => hino j hj) _ hq
      intro j' hj' hlj h0
      apply hother _ (h.used_indirect hlj h0)
      exact fun he => hj' (h.indirect_inj hlj hl h0 he)
  · intro c
    rw [← ha.used_iff c]
    unfold Used
    by_cases hc : c < sb.size
    · rw [hbit c hc]
    · simp [hc]
  · intro c hc
    have hle : sb.datastart ≤ sb.size := Nat.sub_le ..
    rw [hbit c (by omega)]
    exact ha.metadata h.metadata c hc
  · intro j' hj'
    exact ⟨(hlive j').mp hj', by rw [hino j' hj'.2.1]⟩
  · intro j' bn haddr
    exact hother _ (h.used_addr haddr) (h.addr_ne_indirect haddr hl)

end Tables

end ProvenXv6.Fs
