import ProvenXv6.FsNodes

namespace ProvenXv6.Fs
open WeakestPre

variable {sb : Superblock} {dev : Devsw} {ip : Ip} {s : FS} {F : Fault → Prop}

theorem readLoop_spec {fuel off rem : ℕ} (hfuel : rem ≤ fuel)
    (ha : ∀ j, j < rem → addr sb (view sb ip s) s.disk (s.inode ip).inum ((off+j)/BSIZE) ≠ 0) :
    wp F (readLoop sb ip fuel off rem)
      (fun bytes t => t = s ∧ bytes = (List.range rem).map
        fun j => byteAt sb (view sb ip s) s.disk (s.inode ip).inum (off+j)) s := by
  induction fuel generalizing off rem with
  | zero =>
    obtain rfl : rem = 0 := by omega
    exact ⟨rfl, rfl⟩
  | succ fuel ih =>
    unfold readLoop
    split_ifs with hrem
    · rw [hrem]
      exact ⟨rfl, rfl⟩
    · rw [wp_bind]
      apply wp_mono (bmap_of_addr (ha 0 (by omega)))
      rintro a t ⟨rfl, haddr⟩
      simp only [wp_bind, wp_bread]
      have hmod := Nat.mod_lt off BSIZE_pos
      generalize hm : min rem (BSIZE-off%BSIZE) = m
      have hnext (j : ℕ) (hj : j < rem-m) :
          addr sb (view sb ip t) t.disk (t.inode ip).inum ((off+m+j)/BSIZE) ≠ 0 := by
        rw [Nat.add_assoc]
        exact ha (m+j) (by omega)
      apply wp_mono (ih (by omega) hnext)
      rintro rest u ⟨rfl, hrest⟩
      refine ⟨rfl, ?_⟩
      have hsplit : rem = m+(rem-m) := by omega
      conv_rhs => rw [hsplit]
      rw [map_range_add, hrest]
      congr 1
      · apply List.map_congr_left
        intro j hj
        have hin : off%BSIZE+j < BSIZE := by
          have := List.mem_range.mp hj
          omega
        obtain ⟨hdiv, hmd⟩ := div_mod_in_block hin
        rw [byteAt, hdiv, hmd, haddr, Nat.add_zero]
      · apply List.map_congr_left
        intro j _
        rw [Nat.add_assoc]

def Readable (s : FS) (ip : Ip) (off n : ℕ) : Prop :=
  off ≤ (s.inode ip).din.size.toNat ∧ off+n < 0x100000000

instance (s : FS) (ip : Ip) (off n : ℕ) : Decidable (Readable s ip off n) :=
  inferInstanceAs (Decidable (_ ∧ _))

theorem readi_exact {off n : BitVec 32} (hdev : (s.inode ip).din.type ≠ T_DEV)
    (hfilled : ∀ p, p < (s.inode ip).din.size.toNat →
      addr sb (view sb ip s) s.disk (s.inode ip).inum (p/BSIZE) ≠ 0) :
    wp F (readi sb dev ip off n)
      (fun r t => t = s ∧ if Readable s ip off.toNat n.toNat then
          ∃ m, m = min n.toNat ((s.inode ip).din.size.toNat-off.toNat) ∧ r = ((m : ℤ), (List.range m).map
            fun j => byteAt sb (view sb ip s) s.disk (s.inode ip).inum (off.toNat+j))
        else r = (-1, [])) s := by
  have hcase : Readable s ip off.toNat n.toNat ↔ ¬(off > (s.inode ip).din.size ∨ off+n < off) := by
    unfold Readable
    bv_omega
  unfold readi
  rw [wp_bind, wp_getInode, if_neg hdev]
  by_cases hok : Readable s ip off.toNat n.toNat
  swap
  · rw [if_pos (not_not.mp (mt hcase.mpr hok)), wp_pure, if_neg hok]
    exact ⟨rfl, rfl⟩
  have hoff := hok.1
  have hover := hok.2
  rw [if_neg (hcase.mp hok)]
  have hlen : (if off+n > (s.inode ip).din.size then (s.inode ip).din.size-off else n).toNat =
      min n.toNat ((s.inode ip).din.size.toNat-off.toNat) := by
    split_ifs with hlong <;> bv_omega
  dsimp only
  rw [hlen, wp_bind]
  apply wp_mono (readLoop_spec le_rfl fun j hj => hfilled _ (by omega))
  rintro bytes t ⟨rfl, hbytes⟩
  rw [wp_pure, if_pos hok, hbytes]
  exact ⟨rfl, _, rfl, rfl⟩

theorem readi_node {off n : BitVec 32} (h : Sound sb s) (hr : 0 < (s.inode ip).ref) (hv : (s.inode ip).valid = true)
    (hdev : (s.inode ip).din.type ≠ T_DEV) :
    wp F (readi sb dev ip off n)
      (fun r t => t = s ∧ if Readable s ip off.toNat n.toNat then
          r.2 = ((content sb s.disk (s.inode ip).inum).drop off.toNat).take n.toNat ∧ r.1 = r.2.length
        else r = (-1, [])) s := by
  obtain ⟨hdin, -⟩ := h.synced ip hr hv
  apply wp_mono (readi_exact hdev fun p hp => h.addr_ne_zero hr hv hp)
  rintro r t ⟨rfl, hrt⟩
  refine ⟨rfl, ?_⟩
  split_ifs at hrt ⊢ with hok
  · obtain ⟨m, hm, rfl⟩ := hrt
    refine ⟨?_, by rw [List.length_map, List.length_range]⟩
    rw [content, ← hdin, drop_map_range, take_map_range, hm, view_eq hdin]
  · exact hrt

theorem readi_spec {off n : BitVec 32} (h : Sound sb s) (hr : 0 < (s.inode ip).ref)
    (hv : (s.inode ip).valid = true) : wp F (readi sb dev ip off n) (fun _ t => t = s) s := by
  by_cases hdev : (s.inode ip).din.type = T_DEV
  · unfold readi
    rw [wp_bind, wp_getInode, if_pos hdev]
    split <;> exact rfl
  · exact wp_mono (readi_node h hr hv hdev) fun _ _ ht => ht.1

end ProvenXv6.Fs
