import ProvenXv6.FsWrite
import ProvenXv6.Lockstep

namespace ProvenXv6.Fs
open WeakestPre Lockstep

variable {sb : Superblock} {dev : Devsw} {ip : Ip} {s s' t u : FS} {F : Fault → Prop}

theorem Superblock.bmapstart_le (sb : Superblock) : sb.bmapstart ≤ sb.datastart := by
  have hle : sb.bmapstart ≤ sb.BBLOCK 0 := Nat.le_add_left ..
  exact hle.trans (le_of_lt (sb.BBLOCK_lt sb.size_pos))

theorem Superblock.bmapstart_le_BBLOCK (sb : Superblock) (b : ℕ) : sb.bmapstart ≤ sb.BBLOCK b := Nat.le_add_left ..

/-- s and s' differ in the inode table, and in what the inode cache holds besides the addresses of ip. -/
structure Alike (sb : Superblock) (ip : Ip) (s s' : FS) : Prop where
  disk : ∀ b, sb.bmapstart ≤ b → s'.disk b = s.disk b
  addrs : (s'.inode ip).din.addrs = (s.inode ip).din.addrs

namespace Alike

theorem put (h : Alike sb ip s s') (b : ℕ) (x : Block) : Alike sb ip (s.put b x) (s'.put b x) := by
  refine ⟨fun c hc => ?_, by rw [FS.put_inode, FS.put_inode, h.addrs]⟩
  rw [FS.put_disk, FS.put_disk]
  by_cases hcb : c = b
  · rw [hcb, Function.update_self, Function.update_self]
  · rw [Function.update_of_ne hcb, Function.update_of_ne hcb, h.disk c hc]

theorem bit (h : Alike sb ip s s') (b : ℕ) : sb.bit s'.disk b = sb.bit s.disk b := by
  unfold Superblock.bit
  rw [h.disk _ (sb.bmapstart_le_BBLOCK b)]

end Alike

theorem logWrite_follows (h : Alike sb ip s s') (b : ℕ) (x : Block) :
    Follows (Alike sb ip) (logWrite b x) (logWrite b x) s s' := ⟨_, rfl, h.put b x⟩

theorem bread_follows {b : ℕ} (h : Alike sb ip s s') (hb : sb.bmapstart ≤ b) :
    Follows (Alike sb ip) (bread b) (bread b) s s' := by
  refine ⟨s', ?_, h⟩
  show Except.ok (s'.disk b, s') = _
  rw [h.disk b hb]

theorem balloc_follows (h : Alike sb ip s s') : Follows (Alike sb ip) (balloc sb) (balloc sb) s s' := by
  unfold balloc
  apply follows_get
  simp only [h.bit]
  cases (List.range sb.size).find? fun b => !sb.bit s.disk b with
  | none => exact follows_throw _
  | some b =>
    dsimp only
    rw [h.disk _ (sb.bmapstart_le_BBLOCK b)]
    refine (logWrite_follows h _ _).bind fun _ t t' ht => ?_
    exact (logWrite_follows ht _ _).bind fun _ u u' hu => follows_pure _ hu

theorem follows_getInode {α : Type} {f f' : Inode → FsM α}
    (h : Follows (Alike sb ip) (f (s.inode ip)) (f' (s'.inode ip)) s s') :
    Follows (Alike sb ip) (getInode ip >>= f) (getInode ip >>= f') s s' := by
  unfold Follows
  rw [wp_bind, wp_getInode]
  exact h

theorem setAddr_follows (h : Alike sb ip s s') (k : Fin (NDIRECT+1)) (a : BitVec 32) :
    Follows (Alike sb ip) (setDin ip fun v => { v with addrs := Function.update v.addrs k a })
      (setDin ip fun v => { v with addrs := Function.update v.addrs k a }) s s' := by
  unfold Follows
  rw [wp_setDin]
  refine ⟨s'.mapDin ip fun v => { v with addrs := Function.update v.addrs k a }, rfl, h.disk, ?_⟩
  rw [FS.mapDin_same, FS.mapDin_same, h.addrs]

theorem loadAddr_follows (h : Alike sb ip s s') (k : Fin (NDIRECT+1)) :
    Follows (Alike sb ip) (loadAddr sb ip k) (loadAddr sb ip k) s s' := by
  apply follows_getInode
  rw [h.addrs]
  split_ifs
  · refine (balloc_follows h).bind fun a t t' ht => ?_
    exact (setAddr_follows ht k a).bind fun _ u u' hu => follows_pure _ hu
  · exact follows_pure _ h

theorem bmap_follows (h : Alike sb ip s s') (ho : Opened sb ip s) (htype : (s.inode ip).din.type ≠ 0) (bn : ℕ) :
    Follows (Alike sb ip) (bmap sb ip bn) (bmap sb ip bn) s s' := by
  unfold bmap
  split_ifs with h1 h2
  · exact loadAddr_follows h _
  · refine (loadAddr_follows h indirect).bind_of (loadAddr_spec trivial ho htype indirect) fun a t t' hQ ht => ?_
    obtain ⟨hr, ha, ha0⟩ := hQ
    have hl := hr.after.live (by rw [hr.type]; exact htype)
    have hused : sb.bmapstart ≤ a.toNat := by
      have := (hr.after.blocks.used_indirect hl (by rw [view_self, ← ha]; exact ha0)).1
      rw [view_self, ← ha] at this
      exact sb.bmapstart_le.trans this
    refine (bread_follows ht hused).bind fun bp u u' hu => ?_
    split_ifs
    · refine (balloc_follows hu).bind fun a' v v' hv => ?_
      exact (logWrite_follows hv _ _).bind fun _ w w' hw => follows_pure _ hw
    · exact follows_pure _ hu
  · exact follows_throw _

theorem writeLoop_follows {src : ℕ → Byte} {fuel tot off rem : ℕ} (h : Alike sb ip s s') (ho : Opened sb ip s)
    (htype : (s.inode ip).din.type ≠ 0) (hmax : off+rem ≤ MAXFILE*BSIZE) :
    Follows (Alike sb ip) (writeLoop sb ip src fuel tot off rem) (writeLoop sb ip src fuel tot off rem) s s' := by
  induction fuel generalizing tot off rem s s' with
  | zero => exact follows_pure _ h
  | succ fuel ih =>
    unfold writeLoop
    split_ifs with hrem
    · exact follows_pure _ h
    · have hbn : off/BSIZE < MAXFILE := Nat.div_lt_of_lt_mul (by rw [Nat.mul_comm]; omega)
      refine (bmap_follows h ho htype _).bind_of (bmap_spec trivial ho htype hbn) fun a t t' hQ ht => ?_
      obtain ⟨hr, ha0, haddr⟩ := hQ
      have hput := hr.put ha0 haddr
      refine (bread_follows ht (sb.bmapstart_le.trans (hput fun _ => 0).1)).bind_of (Q := fun _ u => u = t) rfl ?_
      rintro bp u u' rfl hu
      refine (logWrite_follows hu _ _).bind_of (Q := fun _ v => Opened sb ip v ∧ (v.inode ip).din.type ≠ 0) ?_ ?_
      · rw [wp_logWrite, FS.put_inode, hr.type]
        exact ⟨(hput _).2, htype⟩
      · rintro _ v v' ⟨hv, hvtype⟩ hvv
        exact ih hvv hv hvtype (by omega)

section Join
variable {src : ℕ → Byte} {fuel fuel' fuel'' tot off a b : ℕ}

theorem writeLoop_fuel {rem : ℕ} (h : rem ≤ fuel) (h' : rem ≤ fuel') :
    writeLoop sb ip src fuel tot off rem = writeLoop sb ip src fuel' tot off rem := by
  induction fuel generalizing fuel' tot off rem with
  | zero =>
    obtain rfl : rem = 0 := by omega
    cases fuel' <;> rfl
  | succ fuel ih =>
    cases fuel' with
    | zero =>
      obtain rfl : rem = 0 := by omega
      rfl
    | succ fuel' =>
      unfold writeLoop
      split_ifs with hrem
      · rfl
      · have hmod := Nat.mod_lt off BSIZE_pos
        have hrest (tot off' : ℕ) : writeLoop sb ip src fuel tot off' (rem-min rem (BSIZE-off%BSIZE)) =
            writeLoop sb ip src fuel' tot off' (rem-min rem (BSIZE-off%BSIZE)) := ih (by omega) (by omega)
        simp only [hrest]

theorem writeLoop_shift {rem : ℕ} (m : ℕ) :
    writeLoop sb ip (fun p => src (m+p)) fuel tot off rem = writeLoop sb ip src fuel (m+tot) off rem := by
  induction fuel generalizing tot off rem with
  | zero => rfl
  | succ fuel ih =>
    unfold writeLoop
    simp only [ih, Nat.add_assoc]

theorem copyIn_copyIn (x : Block) (p m n : ℕ) (src : ℕ → Byte) :
    copyIn (copyIn x p m src) (p+m) n (fun j => src (m+j)) = copyIn x p (m+n) src := by
  funext j
  by_cases h : p+m ≤ j ∧ j < p+m+n
  · rw [copyIn_inside _ _ h.1 h.2, copyIn_inside _ _ (by omega) (by omega)]
    congr 1
    omega
  · rw [copyIn_outside _ _ (by omega)]
    by_cases h' : p ≤ j ∧ j < p+m
    · rw [copyIn_inside _ _ h'.1 h'.2, copyIn_inside _ _ h'.1 (by omega)]
    · rw [copyIn_outside _ _ (by omega), copyIn_outside _ _ (by omega)]

theorem writeLoop_eq_ok {rem m : ℕ} (hrem : rem ≠ 0) (hm : m = min rem (BSIZE-off%BSIZE)) :
    writeLoop sb ip src (fuel+1) tot off rem s = .ok ((), u) ↔
      ∃ c t, bmap sb ip (off/BSIZE) s = .ok (c, t) ∧
        writeLoop sb ip src fuel (tot+m) (off+m) (rem-m)
          (t.put c.toNat (copyIn (t.disk c.toNat) (off%BSIZE) m fun j => src (tot+j))) = .ok ((), u) := by
  rw [writeLoop, if_neg hrem, bind_eq_ok, ← hm]
  rfl

theorem writeLoop_zero : writeLoop sb ip src fuel tot off 0 s = .ok ((), s) := by cases fuel <;> rfl

/-- A run that ends inside a block, and one that begins there: `bmap` finds the block again. -/
theorem writeLoop_join_block {c : BitVec 32} (ho : Opened sb ip s) (htype : (s.inode ip).din.type ≠ 0)
    (hmax : off+(a+b) ≤ MAXFILE*BSIZE) (hb : b ≤ fuel') (ha : a ≠ 0) (hin : off%BSIZE+a < BSIZE) (hab : a+b ≤ fuel+1)
    (hbmap : bmap sb ip (off/BSIZE) s = .ok (c, t))
    (h2 : writeLoop sb ip src fuel' (tot+a) (off+a) b
      (t.put c.toNat (copyIn (t.disk c.toNat) (off%BSIZE) a fun j => src (tot+j))) = .ok ((), u)) :
    writeLoop sb ip src (fuel+1) tot off (a+b) s = .ok ((), u) := by
  have hbn : off/BSIZE < MAXFILE := Nat.div_lt_of_lt_mul (by rw [Nat.mul_comm]; omega)
  obtain ⟨hr, hc0, haddr⟩ := wp_ok (bmap_spec (F := fun _ => True) trivial ho htype hbn) hbmap
  obtain ⟨hdiv, hmod⟩ := div_mod_in_block hin
  generalize hv : t.put c.toNat _ = v at h2
  by_cases hb0 : b = 0
  · subst hb0
    rw [writeLoop_zero] at h2
    refine (writeLoop_eq_ok (m := a) ha (by omega)).mpr ⟨c, t, hbmap, ?_⟩
    rw [hv, Nat.sub_self, writeLoop_zero]
    exact h2
  obtain ⟨fuel', rfl⟩ : ∃ k, fuel' = k+1 := ⟨fuel'-1, by omega⟩
  rw [writeLoop_eq_ok hb0 rfl, hdiv, hmod] at h2
  generalize hm : min b (BSIZE-(off%BSIZE+a)) = m at h2
  obtain ⟨c', v', hbmap', hrest⟩ := h2
  -- the address is there already
  have hc : addr sb (view sb ip t) t.disk (t.inode ip).inum (off/BSIZE) ≠ 0 := by
    rw [hr.inum ip, haddr]
    exact fun hz => hc0 (BitVec.eq_of_toNat_eq hz)
  obtain ⟨-, -, href⟩ := hr.after.put (t := v) hc (by rw [← hv, hr.inum ip, haddr])
  have hsame : addr sb (view sb ip v) v.disk (v.inode ip).inum (off/BSIZE) = c.toNat := by
    rw [addr_congr (fun r _ => href r), ← hv, FS.put_inode, hr.inum ip, haddr]
  obtain ⟨rfl, hc'⟩ := wp_ok (bmap_of_addr (F := fun _ => True) (by rw [hsame, ← haddr, ← hr.inum ip]; exact hc)) hbmap'
  rw [hsame] at hc'
  refine (writeLoop_eq_ok (m := a+m) (by omega) (by omega)).mpr ⟨c, t, hbmap, ?_⟩
  rw [hc', ← hv, FS.put_same, FS.put_put] at hrest
  have hcopy := copyIn_copyIn (t.disk c.toNat) (off%BSIZE) a m fun j => src (tot+j)
  simp only [← Nat.add_assoc] at hcopy hrest ⊢
  rw [hcopy] at hrest
  rw [show a+b-(a+m) = b-m by omega, writeLoop_fuel (by omega) (show b-m ≤ fuel' by omega)]
  exact hrest

theorem writeLoop_join (ho : Opened sb ip s) (htype : (s.inode ip).din.type ≠ 0)
    (hmax : off+(a+b) ≤ MAXFILE*BSIZE) (ha : a ≤ fuel) (hb : b ≤ fuel') (hab : a+b ≤ fuel'')
    (h1 : writeLoop sb ip src fuel tot off a s = .ok ((), t))
    (h2 : writeLoop sb ip src fuel' (tot+a) (off+a) b t = .ok ((), u)) :
    writeLoop sb ip src fuel'' tot off (a+b) s = .ok ((), u) := by
  induction fuel generalizing fuel'' tot off a s with
  | zero =>
    obtain rfl : a = 0 := by omega
    rw [writeLoop_zero] at h1
    cases h1
    rw [Nat.zero_add, writeLoop_fuel (by omega) hb]
    exact h2
  | succ fuel ih =>
    by_cases ha0 : a = 0
    · subst ha0
      rw [writeLoop_zero] at h1
      cases h1
      rw [Nat.zero_add, writeLoop_fuel (by omega) hb]
      exact h2
    obtain ⟨fuel'', rfl⟩ : ∃ k, fuel'' = k+1 := ⟨fuel''-1, by omega⟩
    rw [writeLoop_eq_ok ha0 rfl] at h1
    obtain ⟨c, v, hbmap, hrest⟩ := h1
    rcases Nat.lt_or_ge (off%BSIZE+a) BSIZE with hin | hout
    · have hm : min a (BSIZE-off%BSIZE) = a := by omega
      rw [hm, Nat.sub_self, writeLoop_zero] at hrest
      cases hrest
      exact writeLoop_join_block ho htype hmax hb ha0 hin hab hbmap h2
    · have hmod := Nat.mod_lt off BSIZE_pos
      generalize hm : min a (BSIZE-off%BSIZE) = m at hrest
      have hbn : off/BSIZE < MAXFILE := Nat.div_lt_of_lt_mul (by rw [Nat.mul_comm]; omega)
      obtain ⟨hr, hc0, haddr⟩ := wp_ok (bmap_spec (F := fun _ => True) trivial ho htype hbn) hbmap
      refine (writeLoop_eq_ok (m := m) (by omega) (by omega)).mpr ⟨c, v, hbmap, ?_⟩
      rw [show a+b-m = a-m+b by omega]
      apply ih (hr.put hc0 haddr _).2 (by rw [FS.put_inode, hr.type]; exact htype) (by omega) (by omega) (by omega) hrest
      rwa [show tot+m+(a-m) = tot+a by omega, show off+m+(a-m) = off+a by omega]

end Join

section Writei
variable {src : ℕ → Byte} {off n : BitVec 32}

theorem iupdate_alike (h : Opened sb ip s) : wp F (iupdate sb ip) (fun _ t => Alike sb ip s t) s := by
  unfold iupdate writeDinode
  simp only [wp_bind, wp_getInode, wp_bread, wp_logWrite]
  refine ⟨fun b hb => ?_, rfl⟩
  have := sb.inodes_lt _ (h.cached.range ip h.held).2
  rw [FS.put_disk, Function.update_of_ne]
  unfold Superblock.IBLOCK
  omega

theorem writei_loop (h : Opened sb ip s) (htype : (s.inode ip).din.type ≠ 0) (hdev : (s.inode ip).din.type ≠ T_DEV)
    (hok : Writable s ip off.toNat n.toNat)
    (hfail : ∀ e, writeLoop sb ip src n.toNat 0 off.toNat n.toNat s = .error e → F e) :
    wp F (writei sb dev ip src off n) (fun _ u => ∃ t,
      writeLoop sb ip src n.toNat 0 off.toNat n.toNat s = .ok ((), t) ∧ Alike sb ip t u) s := by
  obtain ⟨hrange, hbig⟩ := writable_iff.mp hok
  unfold writei
  rw [wp_bind, wp_getInode, if_neg hdev, if_neg hrange, if_neg hbig, wp_bind]
  refine wp_of_run hfail fun _ t ht => ?_
  have hw := wp_ok (writeLoop_spec (F := fun _ => True) trivial h htype le_rfl hok.2.2) ht
  rw [wp_bind, wp_getInode]
  split_ifs with hgrow
  · rw [wp_bind, wp_setDin, wp_bind]
    apply wp_mono (iupdate_alike (hw.after.mapDin_of_same rfl rfl))
    intro _ u hu
    refine ⟨t, ht, hu.disk, ?_⟩
    rw [hu.addrs, FS.mapDin_same]
  · exact ⟨t, ht, fun _ _ => rfl, rfl⟩

theorem writei_ends (h : Opened sb ip s) (htype : (s.inode ip).din.type ≠ 0) (hdev : (s.inode ip).din.type ≠ T_DEV)
    (hloop : Writable s ip off.toNat n.toNat → ∃ t, writeLoop sb ip src n.toNat 0 off.toNat n.toNat s = .ok ((), t)) :
    wp (fun _ => False) (writei sb dev ip src off n) (fun _ _ => True) s := by
  by_cases hok : Writable s ip off.toNat n.toNat
  · obtain ⟨t, ht⟩ := hloop hok
    refine wp_mono (writei_loop h htype hdev hok fun e he => ?_) fun _ _ _ => trivial
    rw [ht] at he
    cases he
  · rw [writable_iff, not_and_or, not_not, not_not] at hok
    unfold writei
    rw [wp_bind, wp_getInode, if_neg hdev]
    split_ifs with hrange hbig
    · trivial
    · trivial
    · exact (hok.elim hrange hbig).elim

end Writei

end ProvenXv6.Fs
