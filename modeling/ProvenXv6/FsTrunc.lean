import ProvenXv6.FsUpdate

namespace ProvenXv6.Fs
open Ownership WeakestPre

structure Cleared (sb : Superblock) (d d' : Disk) : Prop where
  bit : ∀ c, c < sb.datastart → sb.bit d' c = sb.bit d c
  dinode : ∀ i, i < sb.ninodes → sb.dinode d' i = sb.dinode d i
  data : ∀ a, sb.datastart ≤ a → d' a = d a

section Tables
variable {sb : Superblock} {ino ino' : ℕ → Dinode} {d d' : Disk} {P : ℕ → Prop} {F : Fault → Prop}

theorem Cleared.refl : Cleared sb d d := ⟨fun _ _ => rfl, fun _ _ => rfl, fun _ _ => rfl⟩

theorem Cleared.trans {d'' : Disk} (h : Cleared sb d d') (h' : Cleared sb d' d'') :
    Cleared sb d d'' where
  bit c hc := (h'.bit c hc).trans (h.bit c hc)
  dinode i hi := (h'.dinode i hi).trans (h.dinode i hi)
  data a ha := (h'.data a ha).trans (h.data a ha)

theorem bfree_spec {s : FS} {b : BitVec 32} (hb : Used sb s.disk b.toNat) :
    wp F (bfree sb b)
      (fun _ t => t.inode = s.inode ∧ Cleared sb s.disk t.disk ∧
        ∀ c, Used sb t.disk c ↔ Used sb s.disk c ∧ c ≠ b.toNat) s := by
  obtain ⟨hdata, hlt, hbit⟩ := hb
  unfold bfree
  rw [wp_bind, wp_bread, if_neg (by rw [← Superblock.bit, hbit]; decide), wp_logWrite]
  have hblock := sb.BBLOCK_lt hlt
  refine ⟨rfl, ⟨?_, ?_, ?_⟩, ?_⟩
  · intro c hc
    rw [FS.put_disk, sb.bit_clear, decide_eq_true (by omega), Bool.and_true]
  · intro i hi
    have := sb.IBLOCK_lt_BBLOCK hi b.toNat
    rw [FS.put_disk, sb.dinode_update _ (by omega)]
  · intro a ha
    rw [FS.put_disk, Function.update_of_ne (by omega)]
  · intro c
    unfold Used
    rw [FS.put_disk, sb.bit_clear]
    simp only [Bool.and_eq_true, decide_eq_true_eq, and_assoc]

theorem Consistent.refAt_cleared {i : ℕ} (h : Consistent sb ino d P) (hc : Cleared sb d d')
    (hino : ∀ j, j ≠ i → j < sb.ninodes → ino' j = ino j) {r : Ref} (hr : r.1 ≠ i) :
    refAt sb ino' d' r = refAt sb ino d r := by
  apply refAt_other hino _ hr
  intro j _ hl h0
  exact hc.data _ (h.used_indirect hl h0).1

theorem Consistent.extends_cleared {i : ℕ} (h : Consistent sb ino d P) (hc : Cleared sb d d')
    (hino : ∀ j, j ≠ i → j < sb.ninodes → ino' j = ino j) :
    Extends sb (· ≠ i) ino d ino' d' := by
  intro j hj bn ha
  refine ⟨?_, hc.data _ (h.used_addr ha).1⟩
  apply addr_congr
  rintro r rfl
  exact h.refAt_cleared hc hino hj

theorem Consistent.release {i : ℕ} (h : Consistent sb ino d (· ≠ i)) (hc : Cleared sb d d')
    (hino : ∀ j, j ≠ i → j < sb.ninodes → ino' j = ino j)
    (howned : Owned (refAt sb ino' d') 0 (Used sb d')) : Consistent sb ino' d' (· ≠ i) where
  metadata b hb := by
    rw [hc.bit b hb]
    exact h.metadata b hb
  owned := howned
  filled j hj hl := by
    have hj' : ino' j = ino j := hino j hj hl.2.1
    apply (h.extends_cleared hc hino).filled hj (by rw [hj'])
    apply h.filled j hj
    unfold Live at hl ⊢
    rwa [hj'] at hl

theorem Consistent.detach_addr {i : ℕ} {k : Fin (NDIRECT+1)} (h : Consistent sb ino d (· ≠ i))
    (hl : Live sb ino i) (hk : (ino i).addrs k ≠ 0) (hki : k ≠ indirect) (hc : Cleared sb d d')
    (hused : ∀ c, Used sb d' c ↔ Used sb d c ∧ c ≠ ((ino i).addrs k).toNat)
    (htype : (ino' i).type = (ino i).type)
    (hi : (ino' i).addrs = Function.update (ino i).addrs k 0)
    (hino : ∀ j, j ≠ i → j < sb.ninodes → ino' j = ino j) :
    Consistent sb ino' d' (· ≠ i) := by
  have hl' : Live sb ino' i := by
    unfold Live at hl ⊢
    rwa [htype]
  have hr := refAt_inl_ne_zero (d := d) hl hk
  apply h.release hc hino
  apply (h.owned.detach hr).congr
  · apply refAt_set_addr hl' (fun m => refAt_inl hl) hi
    · intro j
      have hind : (ino' i).addrs indirect = (ino i).addrs indirect := by
        rw [hi, Function.update_of_ne hki.symm]
      exact refAt_inr_congr (iff_of_true hl' hl) (fun _ => hind)
        fun hl h0 => hc.data _ (h.used_indirect hl h0).1
    · intro q hq
      exact h.refAt_cleared hc hino hq
  · intro c
    rw [hused c, refAt_inl hl]

end Tables

section Loops
variable {sb : Superblock} {ip : Ip} {s t : FS} {F : Fault → Prop}

theorem truncDirect_spec (h : Opened sb ip s) (htype : (s.inode ip).din.type ≠ 0) :
    wp F (truncDirect sb ip)
      (fun _ t => Remapped sb (· ≠ (s.inode ip).inum) ip s t ∧
        ∀ k : Fin NDIRECT, (t.inode ip).din.addrs k.castSucc = 0) s := by
  unfold truncDirect
  -- invariant: every slot that is not in the rest of the list is empty
  refine wp_mono (wp_forM (fun (l : List (Fin NDIRECT)) (t : FS) =>
      Remapped sb (· ≠ (s.inode ip).inum) ip s t ∧
        ∀ k : Fin NDIRECT, k ∉ l → (t.inode ip).din.addrs k.castSucc = 0)
    ?_ _ s ⟨.refl h, fun k hk => absurd (List.mem_finRange k) hk⟩) ?_
  · rintro k l t ⟨hr, hz⟩
    have hl := hr.after.live (by rw [hr.type]; exact htype)
    rw [wp_bind, wp_getInode]
    split_ifs with hk
    · refine ⟨hr, fun m hm => ?_⟩
      by_cases hmk : m = k
      · rw [hmk, hk]
      · exact hz m (by simp [hmk, hm])
    · have hk' : (view sb ip t (t.inode ip).inum).addrs k.castSucc ≠ 0 := by rwa [view_self]
      have hused := hr.after.blocks.used_refAt (refAt_inl_ne_zero hl hk')
      rw [refAt_inl hl, view_self] at hused
      rw [wp_bind]
      apply wp_mono (bfree_spec hused)
      rintro _ u ⟨hinode, hc, hused'⟩
      rw [wp_setDin]
      generalize hv : u.mapDin ip _ = v
      have haddrs : (v.inode ip).din.addrs =
          Function.update (t.inode ip).din.addrs k.castSucc 0 := by
        rw [← hv, FS.mapDin_same, hinode]
      have hdisk : v.disk = u.disk := by rw [← hv, FS.mapDin_disk]
      have hframe : Framed sb ip t v := by
        refine ⟨⟨Function.update (t.inode ip).din.addrs k.castSucc 0, ?_⟩,
          by rw [hdisk]; exact hc.dinode⟩
        rw [← hv, FS.mapDin, FS.mapInode, hinode]
      have hself : view sb ip v (t.inode ip).inum = (v.inode ip).din := by
        rw [← hframe.inum ip, view_self]
      rw [← hdisk] at hc hused'
      have hki : k.castSucc ≠ indirect := by
        intro he
        have hval : k.val = NDIRECT := congrArg Fin.val he
        have := k.isLt
        omega
      have hcons := hr.after.blocks.detach_addr hl hk' hki hc (by rw [view_self]; exact hused')
        (by rw [hself, view_self, hframe.type]) (by rw [hself, view_self, haddrs]) hframe.view_other
      refine ⟨hr.trans ⟨hframe, hframe.opened hr.after hcons, ?_⟩, fun m hm => ?_⟩
      · rw [← hr.inum ip]
        exact hr.after.blocks.extends_cleared hc hframe.view_other
      · rw [haddrs]
        by_cases hmk : m = k
        · rw [hmk, Function.update_self]
        · rw [Function.update_of_ne (fun he => hmk (Fin.castSucc_injective _ he))]
          exact hz m (by simp [hmk, hm])
  · rintro _ t ⟨hr, hz⟩
    exact ⟨hr, fun k => hz k List.not_mem_nil⟩

/-- The references without those in the indirect block of inode i at indices that
are not in l. -/
def masked (i : ℕ) (l : List ℕ) (ref : Ref → ℕ) : Ref → ℕ
  | (j, .inl k) => ref (j, .inl k)
  | (j, .inr m) => if j = i ∧ m.val ∉ l then 0 else ref (j, .inr m)

theorem masked_of_mem {i j : ℕ} {l : List ℕ} {ref : Ref → ℕ} (hj : j < NINDIRECT) (h : j ∈ l) :
    masked i l ref (i, .inr ⟨j, hj⟩) = ref (i, .inr ⟨j, hj⟩) := if_neg fun hc => hc.2 h

theorem masked_range (i : ℕ) (ref : Ref → ℕ) : masked i (List.range NINDIRECT) ref = ref := by
  funext q
  obtain ⟨j, m | m⟩ := q
  · rfl
  · exact if_neg fun hc => hc.2 (List.mem_range.mpr m.isLt)

theorem masked_tail {i j : ℕ} {l : List ℕ} {ref : Ref → ℕ} (hj : j < NINDIRECT) (hl : j ∉ l) (q : Ref) :
    masked i l ref q = Function.update (masked i (j :: l) ref) (i, .inr ⟨j, hj⟩) 0 q := by
  by_cases hq : q = (i, .inr ⟨j, hj⟩)
  · subst hq
    rw [Function.update_self]
    exact if_pos ⟨rfl, hl⟩
  · rw [Function.update_of_ne hq]
    obtain ⟨i', m | m⟩ := q
    · rfl
    · have hm : i' = i → m.val ≠ j := by
        rintro rfl rfl
        exact hq rfl
      unfold masked
      by_cases hi : i' = i
      · simp [hi, hm hi]
      · simp [hi]

theorem freeEntries_spec {ref : Ref → ℕ} {bp : Block} {i : ℕ}
    (hbp : ∀ j : Fin NINDIRECT, ref (i, .inr j) = (getWord bp j).toNat)
    (hown : Owned ref 0 (Used sb s.disk)) :
    wp F (forM (List.range NINDIRECT) fun j =>
        if getWord bp j = 0 then pure () else bfree sb (getWord bp j))
      (fun _ t => t.inode = s.inode ∧ Cleared sb s.disk t.disk ∧
        Owned (masked i [] ref) 0 (Used sb t.disk)) s := by
  -- invariant: the entries still to come count as references, those behind do not
  refine wp_mono (wp_forM (fun (l : List ℕ) (t : FS) => (l.Nodup ∧ ∀ j ∈ l, j < NINDIRECT) ∧
      t.inode = s.inode ∧ Cleared sb s.disk t.disk ∧ Owned (masked i l ref) 0 (Used sb t.disk))
    ?_ _ s ⟨⟨List.nodup_range, fun j hj => List.mem_range.mp hj⟩, rfl, .refl,
      by rw [masked_range]; exact hown⟩) fun _ t ht => ht.2
  rintro j l t ⟨⟨hnodup, hlt⟩, hinode, hc, hown⟩
  have hj := hlt j List.mem_cons_self
  obtain ⟨hjl, hnodup⟩ := List.nodup_cons.mp hnodup
  have hlt' : ∀ m ∈ l, m < NINDIRECT := fun m hm => hlt m (List.mem_cons_of_mem _ hm)
  have href : masked i (j :: l) ref (i, .inr ⟨j, hj⟩) = (getWord bp j).toNat :=
    (masked_of_mem hj List.mem_cons_self).trans (hbp ⟨j, hj⟩)
  split_ifs with hw
  · refine ⟨⟨hnodup, hlt'⟩, hinode, hc, hown.congr (fun q => ?_) (fun _ => Iff.rfl)⟩
    have hzero : masked i (j :: l) ref (i, .inr ⟨j, hj⟩) = 0 := by
      rw [href, hw]
      rfl
    rw [masked_tail hj hjl, ← hzero, Function.update_eq_self]
  · have hne : masked i (j :: l) ref (i, .inr ⟨j, hj⟩) ≠ 0 := by
      rw [href]
      exact fun hz => hw (BitVec.eq_of_toNat_eq hz)
    have hused := hown.used_ref hne
    rw [href] at hused
    apply wp_mono (bfree_spec hused)
    rintro _ u ⟨hinode', hc', hused'⟩
    refine ⟨⟨hnodup, hlt'⟩, hinode'.trans hinode, hc.trans hc', ?_⟩
    apply (hown.detach hne).congr (masked_tail hj hjl)
    intro c
    rw [hused' c, href]

theorem truncIndirect_spec (h : Opened sb ip s) (htype : (s.inode ip).din.type ≠ 0) :
    wp F (truncIndirect sb ip)
      (fun _ t => Remapped sb (· ≠ (s.inode ip).inum) ip s t ∧
        (t.inode ip).din.addrs = Function.update (s.inode ip).din.addrs indirect 0) s := by
  unfold truncIndirect
  rw [wp_bind, wp_getInode]
  split_ifs with h0
  · exact ⟨.refl h, by rw [← h0, Function.update_eq_self]⟩
  have hl := h.live htype
  have h0' : (view sb ip s (s.inode ip).inum).addrs indirect ≠ 0 := by rwa [view_self]
  rw [wp_bind, wp_bread, wp_bind]
  apply wp_mono (freeEntries_spec (i := (s.inode ip).inum) _ h.blocks.owned)
  · rintro _ t ⟨hinode, hc, hown⟩
    have href : masked (s.inode ip).inum [] (refAt sb (view sb ip s) s.disk)
        ((s.inode ip).inum, .inl indirect) = ((s.inode ip).din.addrs indirect).toNat := by
      rw [masked, refAt_inl hl, view_self]
    have hne : masked (s.inode ip).inum [] (refAt sb (view sb ip s) s.disk)
        ((s.inode ip).inum, .inl indirect) ≠ 0 :=
      refAt_inl_ne_zero (d := s.disk) hl h0'
    have hused := hown.used_ref hne
    rw [href] at hused
    rw [wp_bind]
    apply wp_mono (bfree_spec hused)
    rintro _ u ⟨hinode', hc', hused'⟩
    rw [wp_setDin]
    generalize hv : u.mapDin ip _ = v
    have haddrs : (v.inode ip).din.addrs = Function.update (s.inode ip).din.addrs indirect 0 := by
      rw [← hv, FS.mapDin_same, hinode', hinode]
    have hdisk : v.disk = u.disk := by rw [← hv, FS.mapDin_disk]
    have hcv : Cleared sb s.disk v.disk := by
      rw [hdisk]
      exact hc.trans hc'
    have hframe : Framed sb ip s v := by
      refine ⟨⟨Function.update (s.inode ip).din.addrs indirect 0, ?_⟩, hcv.dinode⟩
      rw [← hv, FS.mapDin, FS.mapInode, hinode', hinode]
    have hself : view sb ip v (s.inode ip).inum = (v.inode ip).din := by
      rw [← hframe.inum ip, view_self]
    have hl' : Live sb (view sb ip v) (s.inode ip).inum := by
      refine ⟨hl.1, hl.2.1, ?_⟩
      rw [hself, hframe.type]
      exact htype
    have hind : (view sb ip v (s.inode ip).inum).addrs indirect = 0 := by
      rw [hself, haddrs, Function.update_self]
    have howned : Owned (refAt sb (view sb ip v) v.disk) 0 (Used sb v.disk) := by
      have hinl (m : Fin (NDIRECT+1)) : masked (s.inode ip).inum [] (refAt sb (view sb ip s) s.disk)
          ((s.inode ip).inum, .inl m) = ((view sb ip s (s.inode ip).inum).addrs m).toNat :=
        refAt_inl (d := s.disk) hl
      have hset : (view sb ip v (s.inode ip).inum).addrs =
          Function.update (view sb ip s (s.inode ip).inum).addrs indirect 0 := by
        rw [hself, haddrs, view_self]
      apply (hown.detach hne).congr
      · apply refAt_set_addr hl' hinl hset
        · -- there is no indirect block any more, and none of its entries counted
          intro j
          rw [masked, if_pos ⟨rfl, List.not_mem_nil⟩]
          exact if_neg fun hc => hc.2 hind
        · intro q hq
          rw [h.blocks.refAt_cleared hcv hframe.view_other hq]
          obtain ⟨j, m | m⟩ := q
          · rfl
          · exact (if_neg fun hc => hq hc.1).symm
      · intro c
        rw [hdisk, hused' c, href]
    have hcons := h.blocks.release hcv hframe.view_other howned
    exact ⟨⟨hframe, hframe.opened h hcons, h.blocks.extends_cleared hcv hframe.view_other⟩, haddrs⟩
  · intro j
    rw [refAt_inr hl h0', view_self]

theorem addrs_eq_zero {a : Fin (NDIRECT+1) → BitVec 32} (h : ∀ k : Fin NDIRECT, a k.castSucc = 0) :
    Function.update a indirect 0 = fun _ => 0 := by
  funext k
  by_cases hk : k = indirect
  · rw [hk, Function.update_self]
  · rw [Function.update_of_ne hk]
    have hlt : k.val < NDIRECT := by
      have hne : k.val ≠ NDIRECT := fun he => hk (Fin.ext he)
      have := k.isLt
      omega
    exact h ⟨k.val, hlt⟩

theorem itrunc_spec (h : Opened sb ip s) (htype : (s.inode ip).din.type ≠ 0) :
    wp F (itrunc sb ip)
      (fun _ t => Opened sb ip t ∧ Local sb ip s t ∧
        (t.inode ip).din = { (s.inode ip).din with size := 0, addrs := fun _ => 0 }) s := by
  unfold itrunc
  rw [wp_bind]
  apply wp_mono (truncDirect_spec h htype)
  rintro _ t ⟨hr, hdirect⟩
  rw [wp_bind]
  apply wp_mono (truncIndirect_spec hr.after (by rw [hr.type]; exact htype))
  rintro _ u ⟨hr', haddrs⟩
  rw [hr.inum ip] at hr'
  have hru := hr.trans hr'
  rw [addrs_eq_zero hdirect] at haddrs
  rw [wp_bind, wp_setDin]
  apply wp_mono (storeDin_spec hru.after rfl rfl)
  rintro _ v ⟨hopen, hloc, hdin, -, -⟩
  refine ⟨hopen, (hru.local fun _ hi => hi).trans hloc, ?_⟩
  rw [hdin, hru.self, haddrs]

end Loops

end ProvenXv6.Fs
