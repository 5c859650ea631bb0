import ProvenXv6.FsIcache
import ProvenXv6.FsRead

namespace ProvenXv6.Fs
open LittleEndian WeakestPre

section Tables
variable {sb : Superblock} {ino ino' : ℕ → Dinode} {d d' : Disk} {P : ℕ → Prop}

theorem Consistent.refAt_write {i bn : ℕ} {x : Block} (h : Consistent sb ino d P)
    (ha : addr sb ino d i bn ≠ 0) (hd : d' = Function.update d (addr sb ino d i bn) x)
    (hino : ∀ j, j < sb.ninodes → ino' j = ino j) (r : Ref) :
    refAt sb ino' d' r = refAt sb ino d r := by
  apply Fs.refAt_congr
  · exact live_congr (fun j hj => by rw [hino j hj]) r.1
  · intro hl
    rw [hino _ hl.2.1]
  · intro hl _
    rw [hd, Function.update_of_ne (h.addr_ne_indirect ha hl).symm]

end Tables

variable {sb : Superblock} {dev : Devsw} {H W : List Ip} {ip : Ip} {s t u : FS} {F : Fault → Prop}

theorem Opened.put {bn : ℕ} {x : Block} (h : Opened sb ip s)
    (ha : addr sb (view sb ip s) s.disk (s.inode ip).inum bn ≠ 0)
    (ht : t = s.put (addr sb (view sb ip s) s.disk (s.inode ip).inum bn) x) :
    Framed sb ip s t ∧ Opened sb ip t ∧
      ∀ r, refAt sb (view sb ip t) t.disk r = refAt sb (view sb ip s) s.disk r := by
  have hdata := (h.blocks.used_addr ha).1
  have hinode : t.inode = s.inode := by rw [ht, FS.put_inode]
  have hdisk : t.disk = Function.update s.disk
      (addr sb (view sb ip s) s.disk (s.inode ip).inum bn) x := by rw [ht, FS.put_disk]
  have hframe : Framed sb ip s t := by
    apply Framed.of_inode_eq hinode
    intro i hi
    rw [hdisk, sb.dinode_update_data _ hdata hi]
  have hview := hframe.view_of_inode_eq hinode
  have href := h.blocks.refAt_write ha hdisk hview
  refine ⟨hframe, hframe.opened h ⟨?_, ?_, ?_⟩, href⟩
  · intro c hc
    have hle : sb.datastart ≤ sb.size := Nat.sub_le ..
    rw [hdisk, sb.bit_update_data _ hdata (by omega)]
    exact h.blocks.metadata c hc
  · apply h.blocks.owned.congr href
    intro c
    unfold Used
    by_cases hc : c < sb.size
    · rw [hdisk, sb.bit_update_data _ hdata hc]
    · simp [hc]
  · intro i hi hl bn hbn
    have hl' : Live sb (view sb ip s) i := by
      unfold Live at hl ⊢
      rwa [hview i hl.2.1] at hl
    rw [hview i hl.2.1] at hbn
    rw [addr_congr (fun r _ => href r)]
    exact h.blocks.filled i hi hl' bn hbn

theorem Remapped.put {P : ℕ → Prop} {bn : ℕ} {a : BitVec 32} (hr : Remapped sb P ip s t) (ha0 : a ≠ 0)
    (haddr : addr sb (view sb ip t) t.disk (s.inode ip).inum bn = a.toNat) (x : Block) :
    sb.datastart ≤ a.toNat ∧ Opened sb ip (t.put a.toNat x) := by
  have ha : addr sb (view sb ip t) t.disk (t.inode ip).inum bn ≠ 0 := by
    rw [hr.inum ip, haddr]
    exact fun hz => ha0 (BitVec.eq_of_toNat_eq hz)
  have hdata := (hr.after.blocks.used_addr ha).1
  have hput := (hr.after.put (x := x) ha rfl).2.1
  rw [hr.inum ip, haddr] at hdata hput
  exact ⟨hdata, hput⟩

/-- From s to t the bytes of src from tot on are written to the rem bytes at off of
the file of entry ip. -/
structure Wrote (sb : Superblock) (ip : Ip) (src : ℕ → Byte) (tot off rem : ℕ) (s t : FS) : Prop
    extends Remapped sb (· ≠ (s.inode ip).inum) ip s t where
  old : ∀ p, addr sb (view sb ip s) s.disk (s.inode ip).inum (p/BSIZE) ≠ 0 →
    addr sb (view sb ip t) t.disk (s.inode ip).inum (p/BSIZE) ≠ 0 ∧
      (p < off ∨ off+rem ≤ p → byteAt sb (view sb ip t) t.disk (s.inode ip).inum p =
        byteAt sb (view sb ip s) s.disk (s.inode ip).inum p)
  new : ∀ p, off ≤ p → p < off+rem →
    addr sb (view sb ip t) t.disk (s.inode ip).inum (p/BSIZE) ≠ 0 ∧
      byteAt sb (view sb ip t) t.disk (s.inode ip).inum p = src (tot+(p-off))
  -- without a new block the inode is as it was
  same : (∀ p, off ≤ p → p < off+rem →
    addr sb (view sb ip s) s.disk (s.inode ip).inum (p/BSIZE) ≠ 0) → t.inode = s.inode

namespace Wrote
variable {src : ℕ → Byte} {tot off m n : ℕ}

theorem refl (h : Opened sb ip s) : Wrote sb ip src tot off 0 s s where
  toRemapped := .refl h
  old _ ha := ⟨ha, fun _ => rfl⟩
  new p h1 h2 := by omega
  same _ := rfl

theorem trans (h : Wrote sb ip src tot off m s t) (h' : Wrote sb ip src (tot+m) (off+m) n t u) :
    Wrote sb ip src tot off (m+n) s u := by
  have hinum := h.inum ip
  have hr := h'.toRemapped
  rw [hinum] at hr
  refine ⟨h.toRemapped.trans hr, ?_, ?_, ?_⟩
  · intro p ha
    obtain ⟨ha', hb⟩ := h.old p ha
    obtain ⟨ha'', hb'⟩ := h'.old p (by rw [hinum]; exact ha')
    rw [hinum] at ha'' hb'
    exact ⟨ha'', fun hp => (hb' (by omega)).trans (hb (by omega))⟩
  · intro p h1 h2
    by_cases hp : p < off+m
    · obtain ⟨ha, hb⟩ := h.new p h1 hp
      obtain ⟨ha', hb'⟩ := h'.old p (by rw [hinum]; exact ha)
      rw [hinum] at ha' hb'
      exact ⟨ha', (hb' (Or.inl hp)).trans hb⟩
    · obtain ⟨ha, hb⟩ := h'.new p (by omega) (by omega)
      rw [hinum] at ha hb
      refine ⟨ha, hb.trans ?_⟩
      congr 1
      omega
  · intro hall
    have hs := h.same fun p h1 h2 => hall p h1 (by omega)
    have ht := h'.same fun p h1 h2 => ?_
    · rw [ht, hs]
    · rw [hinum]
      exact (h.old p (hall p (by omega) (by omega))).1

theorem of_bmap (hr : Remapped sb (fun _ => True) ip s t)
    (hsame : addr sb (view sb ip s) s.disk (s.inode ip).inum (off/BSIZE) ≠ 0 → t = s) (hm : 0 < m)
    (h : Wrote sb ip src tot off m t u) : Wrote sb ip src tot off m s u := by
  have hinum := hr.inum ip
  have hu := h.toRemapped
  have hold := h.old
  have hnew := h.new
  rw [hinum] at hu hold hnew
  have hkeeps := (hr.keeps.mono fun _ _ => trivial).trans hu.keeps
  refine ⟨⟨hr.toFramed.trans hu.toFramed, hu.after, hkeeps⟩, ?_, hnew, ?_⟩
  · intro p ha
    obtain ⟨h1, h2⟩ := hr.keeps _ trivial _ ha
    obtain ⟨ha', hb⟩ := hold p (by rw [h1]; exact ha)
    refine ⟨ha', fun hp => (hb hp).trans ?_⟩
    exact hr.keeps.byteAt trivial ha
  · intro hall
    obtain rfl := hsame (hall off le_rfl (by omega))
    exact h.same hall

end Wrote

theorem Opened.writeBlock {src : ℕ → Byte} {tot off m : ℕ} (h : Opened sb ip s)
    (hm : off%BSIZE+m ≤ BSIZE)
    (ha : addr sb (view sb ip s) s.disk (s.inode ip).inum (off/BSIZE) ≠ 0)
    (ht : t = s.put (addr sb (view sb ip s) s.disk (s.inode ip).inum (off/BSIZE))
      (copyIn (s.disk (addr sb (view sb ip s) s.disk (s.inode ip).inum (off/BSIZE))) (off%BSIZE) m
        fun j => src (tot+j))) :
    Wrote sb ip src tot off m s t := by
  obtain ⟨hframe, hopen, href⟩ := h.put ha ht
  have haddr (i bn : ℕ) : addr sb (view sb ip t) t.disk i bn = addr sb (view sb ip s) s.disk i bn :=
    addr_congr (fun r _ => href r) bn
  have hother (a : ℕ) (hne : a ≠ addr sb (view sb ip s) s.disk (s.inode ip).inum (off/BSIZE)) :
      t.disk a = s.disk a := by
    rw [ht, FS.put_disk, Function.update_of_ne hne]
  refine ⟨⟨hframe, hopen, ?_⟩, ?_, ?_, ?_⟩
  · intro i hi bn hai
    refine ⟨haddr i bn, hother _ fun he => ?_⟩
    exact hi (h.blocks.addr_inj hai he).1
  · intro p hp
    refine ⟨by rwa [haddr], fun hout => ?_⟩
    unfold byteAt
    rw [haddr]
    by_cases hbn : p/BSIZE = off/BSIZE
    · rw [hbn, ht, FS.put_same, copyIn_outside]
      unfold BSIZE at *
      omega
    · -- another block of the same file
      rw [hother _ fun he => hbn (h.blocks.addr_inj hp he).2]
  · intro p h1 h2
    have hin : off%BSIZE+(p-off) < BSIZE := by omega
    obtain ⟨hdiv, hmod⟩ := div_mod_in_block hin
    rw [Nat.add_sub_cancel' h1] at hdiv hmod
    unfold byteAt
    rw [haddr, hdiv, hmod, ht, FS.put_same, copyIn_inside _ _ (by omega) (by omega),
      Nat.add_sub_cancel_left]
    exact ⟨ha, rfl⟩
  · intro _
    rw [ht, FS.put_inode]

theorem writeLoop_spec {src : ℕ → Byte} {fuel tot off rem : ℕ} (hF : F outOfBlocks) (h : Opened sb ip s)
    (htype : (s.inode ip).din.type ≠ 0) (hfuel : rem ≤ fuel) (hmax : off+rem ≤ MAXFILE*BSIZE) :
    wp F (writeLoop sb ip src fuel tot off rem)
      (fun _ t => Wrote sb ip src tot off rem s t) s := by
  induction fuel generalizing tot off rem s with
  | zero =>
    obtain rfl : rem = 0 := by omega
    exact .refl h
  | succ fuel ih =>
    unfold writeLoop
    split_ifs with hrem
    · rw [hrem]
      exact .refl h
    · rw [wp_bind]
      apply wp_mono (bmap_grow hF h htype (Nat.div_lt_of_lt_mul (by rw [Nat.mul_comm]; omega)))
      rintro a t ⟨hr, ha0, haddr, hsame⟩
      simp only [wp_bind, wp_bread, wp_logWrite]
      have hmod := Nat.mod_lt off BSIZE_pos
      generalize hm : min rem (BSIZE-off%BSIZE) = m
      generalize hv : t.put _ _ = v
      have hinum := hr.inum ip
      have ha : addr sb (view sb ip t) t.disk (t.inode ip).inum (off/BSIZE) ≠ 0 := by
        rw [hinum, haddr]
        exact fun hz => ha0 (BitVec.eq_of_toNat_eq hz)
      have hw : Wrote sb ip src tot off m t v := by
        apply hr.after.writeBlock (by omega) ha
        rw [hinum, haddr, ← hv]
      have hw := hw.of_bmap hr hsame (by omega)
      apply wp_mono (ih hw.after (by rw [hw.type]; exact htype) (by omega) (by omega))
      intro _ u hu
      have hsplit : rem = m+(rem-m) := by omega
      rw [hsplit]
      exact hw.trans hu

theorem Wrote.bytes {src : ℕ → Byte} {off n size p : ℕ} (h : Wrote sb ip src 0 off n s t)
    (hfilled : ∀ p, p < size → addr sb (view sb ip s) s.disk (s.inode ip).inum (p/BSIZE) ≠ 0)
    (hoff : off ≤ size) (hp : p < max size (off+n)) :
    addr sb (view sb ip t) t.disk (t.inode ip).inum (p/BSIZE) ≠ 0 ∧
      byteAt sb (view sb ip t) t.disk (t.inode ip).inum p =
        copyIn (byteAt sb (view sb ip s) s.disk (s.inode ip).inum) off n src p := by
  rw [h.inum ip]
  by_cases hin : off ≤ p ∧ p < off+n
  · obtain ⟨ha, hb⟩ := h.new p hin.1 hin.2
    rw [copyIn_inside _ _ hin.1 hin.2, hb, Nat.zero_add]
    exact ⟨ha, rfl⟩
  · obtain ⟨ha, hb⟩ := h.old p (hfilled p (by omega))
    rw [copyIn_outside _ _ (by omega)]
    exact ⟨ha, hb (by omega)⟩

/-- From s to t the n bytes src go to offset off of the file of entry ip, which grows
as far as it must. -/
structure Written (sb : Superblock) (ip : Ip) (src : ℕ → Byte) (off n : ℕ) (s t : FS) : Prop where
  opened : Opened sb ip t
  loc : Local sb ip s t
  stored : (t.inode ip).din = sb.dinode t.disk (t.inode ip).inum
  din : (t.inode ip).din =
    { (s.inode ip).din with size := (t.inode ip).din.size, addrs := (t.inode ip).din.addrs }
  size : (t.inode ip).din.size.toNat = max (s.inode ip).din.size.toNat (off+n)
  bytes : ∀ p, p < max (s.inode ip).din.size.toNat (off+n) →
    addr sb (view sb ip t) t.disk (t.inode ip).inum (p/BSIZE) ≠ 0 ∧
      byteAt sb (view sb ip t) t.disk (t.inode ip).inum p =
        copyIn (byteAt sb (view sb ip s) s.disk (s.inode ip).inum) off n src p

def Writable (s : FS) (ip : Ip) (off n : ℕ) : Prop :=
  off ≤ (s.inode ip).din.size.toNat ∧ off+n < 0x100000000 ∧ off+n ≤ MAXFILE*BSIZE

instance (s : FS) (ip : Ip) (off n : ℕ) : Decidable (Writable s ip off n) :=
  inferInstanceAs (Decidable (_ ∧ _ ∧ _))

theorem writable_iff {off n : BitVec 32} : Writable s ip off.toNat n.toNat ↔
    ¬(off > (s.inode ip).din.size ∨ off+n < off) ∧ ¬(off+n).toNat > MAXFILE*BSIZE := by
  have hmax : MAXFILE*BSIZE = 71680 := by decide
  unfold Writable
  rw [hmax]
  bv_omega

theorem writei_written {src : ℕ → Byte} {off n : BitVec 32} (hF : F outOfBlocks) (h : Opened sb ip s)
    (hsync : Synced sb s ip) (hdev : (s.inode ip).din.type ≠ T_DEV)
    (hfilled : ∀ p, p < (s.inode ip).din.size.toNat →
      addr sb (view sb ip s) s.disk (s.inode ip).inum (p/BSIZE) ≠ 0) :
    wp F (writei sb dev ip src off n)
      (fun r t => if Writable s ip off.toNat n.toNat then
          r = n.toNat ∧ Written sb ip src off.toNat n.toNat s t
        else r = -1 ∧ t = s) s := by
  unfold writei
  rw [wp_bind, wp_getInode, if_neg hdev]
  by_cases hok : Writable s ip off.toNat n.toNat
  swap
  · simp only [if_neg hok]
    split_ifs with hrange hbig
    · exact ⟨rfl, rfl⟩
    · exact ⟨rfl, rfl⟩
    · exact absurd (writable_iff.mpr ⟨hrange, hbig⟩) hok
  simp only [if_pos hok, if_neg (writable_iff.mp hok).1, if_neg (writable_iff.mp hok).2]
  rw [wp_bind]
  apply wp_mono (writeLoop_spec hF h hsync.2 le_rfl hok.2.2)
  intro _ t hw
  have hloc := hw.local fun _ hi => hi
  have hbytes (p : ℕ) (hp : p < max (s.inode ip).din.size.toNat (off.toNat+n.toNat)) :=
    hw.bytes hfilled hok.1 hp
  rw [wp_bind, wp_getInode]
  split_ifs with hgrow
  · rw [wp_bind, wp_setDin, wp_bind]
    apply wp_mono (storeDin_spec hw.after rfl rfl)
    rintro _ u ⟨hopen, hloc', hdin', hdisk, hext⟩
    rw [wp_pure]
    have hinum : (u.inode ip).inum = (t.inode ip).inum := hloc'.inum
    refine ⟨rfl, hopen, hloc.trans hloc', by rw [hdin', hinum, hdisk], ?_, ?_, ?_⟩
    · rw [hdin', hw.self]
    · rw [hdin']
      show (off+n).toNat = _
      have hlt := hok.2.1
      rw [hw.size] at hgrow
      bv_omega
    · intro p hp
      obtain ⟨ha, hb⟩ := hbytes p hp
      rw [hinum, (hext _ trivial _ ha).1, hext.byteAt trivial ha]
      exact ⟨ha, hb⟩
  · rw [wp_pure]
    -- nothing is written behind the size, so no block was missing
    have hend : n.toNat = 0 ∨ off.toNat+n.toNat ≤ (s.inode ip).din.size.toNat := by
      have hlt := hok.2.1
      rw [hw.size] at hgrow
      bv_omega
    have hinode := hw.same fun p h1 h2 => hfilled p (by omega)
    have hrange := (h.cached.range ip h.held).2
    refine ⟨rfl, hw.after, hloc, ?_, by rw [hinode], ?_, hbytes⟩
    · rw [hinode, hw.dinode _ hrange, hsync.1]
    · have hsize := hok.1
      rw [hinode]
      omega

theorem Written.content {src : ℕ → Byte} {off n : ℕ} (h : Sound sb s) (hr : 0 < (s.inode ip).ref)
    (hv : (s.inode ip).valid = true) (hoff : off ≤ (s.inode ip).din.size.toNat)
    (hw : Written sb ip src off n s t) :
    content sb t.disk (t.inode ip).inum = splice (content sb s.disk (s.inode ip).inum) off n src := by
  obtain ⟨hdin, -⟩ := h.synced ip hr hv
  unfold Fs.content
  rw [← hdin, splice_map_range _ _ hoff, ← hw.stored, hw.size]
  apply List.map_congr_left
  intro p hp
  have hb := (hw.bytes p (List.mem_range.mp hp)).2
  rwa [view_eq hw.stored, view_eq hdin] at hb

theorem writei_node {src : ℕ → Byte} {off n : BitVec 32} (hF : F outOfBlocks) (h : Sound sb s) (hr : 0 < (s.inode ip).ref)
    (hv : (s.inode ip).valid = true) (hdev : (s.inode ip).din.type ≠ T_DEV) :
    wp F (writei sb dev ip src off n)
      (fun r t => if Writable s ip off.toNat n.toNat then
          r = n.toNat ∧ Stored sb ip ((s.inode ip).din.node
            (splice (content sb s.disk (s.inode ip).inum) off.toNat n.toNat src)) s t
        else r = -1 ∧ t = s) s := by
  have hsync := h.synced ip hr hv
  apply wp_mono (writei_written hF (h.opened hr hv) hsync hdev fun p hp => h.addr_ne_zero hr hv hp)
  intro r t hrt
  split_ifs at hrt ⊢ with hok
  · obtain ⟨rfl, hw⟩ := hrt
    have htype : (t.inode ip).din.type ≠ 0 := by
      rw [hw.din]
      exact hsync.2
    have hst := h.stored hw.opened hw.loc ⟨hw.stored, htype⟩ fun p hp => (hw.bytes p (by rwa [← hw.size])).1
    rw [hw.content h hr hv hok.1, hw.din] at hst
    exact ⟨rfl, hst⟩
  · exact hrt

/-- If file i is a directory, its entries still name inodes of the table when the n
bytes src are written to it at off. -/
def DirWriteOk (sb : Superblock) (d : Disk) (i : ℕ) (src : ℕ → Byte) (off n : ℕ) : Prop :=
  (sb.dinode d i).type = T_DIR → off ≤ (sb.dinode d i).size.toNat →
    ∀ k, 16*k+16 ≤ max (sb.dinode d i).size.toNat (off+n) →
    readLE (copyIn (byteAt sb (sb.dinode d) d i) off n src) (16*k) 2 < sb.ninodes

instance (sb : Superblock) (d : Disk) (i : ℕ) (src : ℕ → Byte) (off n : ℕ) :
    Decidable (DirWriteOk sb d i src off n) :=
  decidable_of_iff ((sb.dinode d i).type = T_DIR → off ≤ (sb.dinode d i).size.toNat →
    ∀ k, k < max (sb.dinode d i).size.toNat (off+n) →
      16*k+16 ≤ max (sb.dinode d i).size.toNat (off+n) →
        readLE (copyIn (byteAt sb (sb.dinode d) d i) off n src) (16*k) 2 < sb.ninodes)
    ⟨fun h hdir hoff k hk => h hdir hoff k (by omega) hk, fun h hdir hoff k _ hk => h hdir hoff k hk⟩

theorem writei_spec {src : ℕ → Byte} {off n : BitVec 32} (h : Holds sb H W s) (hip : ip ∈ W)
    (hdir : DirWriteOk sb s.disk (s.inode ip).inum src off.toNat n.toNat) :
    wp NoDoubleFree (writei sb dev ip src off n) (fun _ t => Holds sb H W t) s := by
  obtain ⟨hH, hv⟩ := h.loaded ip hip
  have hr := h.ref_pos hH
  have hdin := (h.synced hip).1
  by_cases hdev : (s.inode ip).din.type = T_DEV
  · unfold writei
    rw [wp_bind, wp_getInode, if_pos hdev]
    split <;> exact h
  apply wp_mono (writei_node noDoubleFree_outOfBlocks h.inv.sound hr hv hdev)
  intro r t hrt
  split_ifs at hrt with hok
  · apply h.stored hrt.2
    intro hd
    have hd : (s.inode ip).din.type = T_DIR := hd
    have hoff := hok.1
    show NamesInodes sb (splice ((List.range _).map _) _ _ _)
    rw [hdin] at hd hoff
    rw [splice_map_range _ _ hoff, namesInodes_map_range]
    exact hdir hd hoff
  · rw [hrt.2]
    exact h

end ProvenXv6.Fs
