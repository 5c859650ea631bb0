import ProvenXv6.FsDirents
import ProvenXv6.FsWrite

namespace ProvenXv6.Fs
open LittleEndian SlotMap WeakestPre

variable {sb : Superblock} {dev : Devsw} {H W : List Ip} {dp ip : Ip} {s t u : FS} {F : Fault → Prop}
variable {c name : List Byte} {fuel k i inum : ℕ}

/-- Entry dp is loaded with a directory of the bytes c. -/
structure OpenDir (sb : Superblock) (dp : Ip) (c : List Byte) (s : FS) : Prop where
  sound : Sound sb s
  ref : 0 < (s.inode dp).ref
  valid : (s.inode dp).valid = true
  dir : (s.inode dp).din.type = T_DIR
  bytes : content sb s.disk (s.inode dp).inum = c
  names : NamesInodes sb c

namespace OpenDir

theorem size (h : OpenDir sb dp c s) : (s.inode dp).din.size.toNat = c.length := by
  rw [← h.bytes, length_content, (h.sound.synced dp h.ref h.valid).1]

theorem not_device (h : OpenDir sb dp c s) : (s.inode dp).din.type ≠ T_DEV := by
  rw [h.dir]
  decide

theorem toNat_ofNat (h : OpenDir sb dp c s) {off : ℕ} (hoff : off ≤ c.length) :
    (BitVec.ofNat 32 off).toNat = off := by
  rw [BitVec.toNat_ofNat]
  apply Nat.mod_eq_of_lt
  rw [← h.size] at hoff
  exact hoff.trans_lt (BitVec.isLt _)

theorem inum_lt (h : OpenDir sb dp c s) (hslot : (slots c)[k]? = some (some (name, i))) :
    1 ≤ i ∧ i < sb.ninodes := by
  have hpos : 0 < sb.ninodes := by
    have := h.sound.cached.range dp h.ref
    omega
  refine ⟨?_, (namesInodes_iff hpos).mp h.names _ (mem_reduceOption_of_getElem? hslot)⟩
  rw [getElem?_slots (getElem?_slots_lt hslot), Option.some.injEq, direntSlot] at hslot
  split_ifs at hslot with hzero
  cases hslot
  omega

end OpenDir

theorem readDirent_cut {msg : String} (h : OpenDir sb dp c s) (hk : 16*k < c.length)
    (hF : c.length < 16*k+16 → F (.panic msg)) :
    wp F (readDirent sb dev dp (16*k) msg)
      (fun r t => t = s ∧ (slots c)[k]? = some (direntSlot r)) s := by
  have hoff := h.toNat_ofNat hk.le
  have hok : Readable s dp (BitVec.ofNat 32 (16*k)).toNat (16 : BitVec 32).toNat ↔ 16*k+16 < 0x100000000 := by
    unfold Readable
    rw [hoff, h.size]
    exact and_iff_right hk.le
  have hsixteen : (16 : BitVec 32).toNat = 16 := rfl
  unfold readDirent
  rw [wp_bind]
  apply wp_mono (readi_node h.sound h.ref h.valid h.not_device)
  rintro ⟨n, bytes⟩ t ⟨rfl, hread⟩
  dsimp only at hread ⊢
  by_cases hin : 16*k+16 ≤ c.length
  · have hsmall : 16*k+16 < 0x100000000 := by
      have := (t.inode dp).din.size.isLt
      rw [h.size] at this
      omega
    rw [if_pos (hok.mpr hsmall), h.bytes, hoff, hsixteen] at hread
    obtain ⟨hbytes, hn⟩ := hread
    have hlen : bytes.length = 16 := by
      rw [hbytes, List.length_take, List.length_drop]
      exact Nat.min_eq_left (by omega)
    rw [if_neg (by rw [hn, hlen]; decide), wp_pure]
    refine ⟨rfl, ?_⟩
    rw [getElem?_slots hin]
    rw [← hbytes]
    rfl
  · have hn : n ≠ 16 := by
      split_ifs at hread
      · obtain ⟨hbytes, hn⟩ := hread
        rw [h.bytes, hoff, hsixteen] at hbytes
        rw [hn, hbytes, List.length_take, List.length_drop]
        omega
      · rw [(Prod.mk.inj hread).1]
        decide
    rw [if_pos hn, wp_panic]
    exact hF (not_le.mp hin)

theorem readDirent_exact {msg : String} (h : OpenDir sb dp c s) (hk : 16*k < c.length)
    (hF : ¬16 ∣ c.length → F (.panic msg)) :
    wp F (readDirent sb dev dp (16*k) msg)
      (fun r t => t = s ∧ (slots c)[k]? = some (direntSlot r)) s :=
  readDirent_cut h hk fun hlt => hF (by omega)

/-- What `dirlookup` finds from slot k on: nothing, or a reference to the inode of a
slot and the offset of the slot. -/
def Found (sb : Superblock) (c name : List Byte) (k : ℕ) (s : FS) (r : Option (Ip × ℕ)) (t : FS) : Prop :=
  match r with
  | none => t = s ∧ 16 ∣ c.length ∧ ∀ j, k ≤ j → ∀ i, (slots c)[j]? ≠ some (some (cut name, i))
  | some (ip, off) => ∃ j i, off = 16*j ∧ (slots c)[j]? = some (some (cut name, i)) ∧ Got sb i ip s t

/-- The inode that the first slot with the name refers to. -/
def lookup (c name : List Byte) : Option ℕ := find (slots c) (cut name)

/-- What `dirlookup` finds: the first slot with the name. -/
def FirstFound (sb : Superblock) (c name : List Byte) (s : FS) (r : Option (Ip × ℕ)) (t : FS) : Prop :=
  match r with
  | none => t = s ∧ 16 ∣ c.length ∧ lookup c name = none ∧ ∀ j i : ℕ, (slots c)[j]? ≠ some (some (cut name, i))
  | some (ip, off) => ∃ j i, off = 16*j ∧ (slots c)[j]? = some (some (cut name, i)) ∧ lookup c name = some i ∧
      Got sb i ip s t

theorem FirstFound.found {r : Option (Ip × ℕ)} (h : FirstFound sb c name s r t) : Found sb c name 0 s r t := by
  cases r with
  | none =>
    obtain ⟨hts, halign, -, hno⟩ := h
    exact ⟨hts, halign, fun j _ => hno j⟩
  | some r =>
    obtain ⟨j, i, hoff, hslot, -, hg⟩ := h
    exact ⟨j, i, hoff, hslot, hg⟩

theorem lookup_eq_none (hno : ∀ j i : ℕ, (slots c)[j]? ≠ some (some (cut name, i))) : lookup c name = none := by
  apply find_none
  intro i hi
  obtain ⟨j, hj⟩ := List.mem_iff_getElem?.mp hi
  exact hno j i hj

theorem dirlookupLoop_first (hfull : (∀ e, (s.inode e).ref ≠ 0) → F cacheFull)
    (hpart : ¬16 ∣ c.length → lookup c name = none → F (.panic "dirlookup read"))
    (h : OpenDir sb dp c s) (hbefore : ∀ j < k, ∀ i, (slots c)[j]? ≠ some (some (cut name, i)))
    (hfuel : c.length < 16*(k+fuel)) (hk : 16*k ≤ c.length) :
    wp F (dirlookupLoop sb dev dp name fuel (16*k)) (FirstFound sb c name s) s := by
  induction fuel generalizing k with
  | zero => omega
  | succ fuel ih =>
    -- behind the last whole slot there is none with the name
    have hend (hlt : c.length < 16*k+16) (j i : ℕ) : (slots c)[j]? ≠ some (some (cut name, i)) := by
      intro hslot
      have := getElem?_slots_lt hslot
      exact hbefore j (by omega) i hslot
    unfold dirlookupLoop
    rw [wp_bind, wp_getInode, h.size]
    split_ifs with hoff
    · rw [wp_bind]
      apply wp_mono (readDirent_cut h hoff fun hlt => hpart (by omega) (lookup_eq_none (hend hlt)))
      rintro ⟨inum, dname⟩ t ⟨rfl, hslot⟩
      dsimp only
      have hnext (hno : direntSlot (inum, dname) ≠ some (cut name, inum)) :
          wp F (dirlookupLoop sb dev dp name fuel (16*k+16)) (FirstFound sb c name t) t := by
        refine ih (k := k+1) ?_ (by omega) (by have := getElem?_slots_lt hslot; omega)
        intro j hj i hi
        rcases Nat.lt_succ_iff_lt_or_eq.mp hj with hj | rfl
        · exact hbefore j hj i hi
        · rw [hslot, Option.some.injEq] at hi
          apply hno
          have hinum : i = inum := by
            unfold direntSlot at hi
            split_ifs at hi
            exact (Prod.mk.inj (Option.some.inj hi)).2.symm
          rw [hi, hinum]
      split_ifs with hzero hname
      · apply hnext
        rw [direntSlot, if_pos hzero]
        exact (Option.some_ne_none _).symm
      · have hslot' : (slots c)[k]? = some (some (cut name, inum)) := by
          rw [hslot, direntSlot, if_neg hzero, namecmp_eq_zero.mp hname]
        rw [wp_bind]
        apply wp_mono (iget_room hfull h.sound (h.inum_lt hslot'))
        intro ip u hg
        exact ⟨k, inum, rfl, hslot', find_first hslot' hbefore, hg⟩
      · apply hnext
        rw [direntSlot, if_neg hzero]
        intro heq
        exact hname (namecmp_eq_zero.mpr (Prod.mk.inj (Option.some.inj heq)).1.symm)
    · have hno := hend (by omega)
      exact ⟨rfl, by omega, lookup_eq_none hno, hno⟩

theorem dirlookup_first (hfull : (∀ e, (s.inode e).ref ≠ 0) → F cacheFull)
    (hpart : ¬16 ∣ c.length → lookup c name = none → F (.panic "dirlookup read")) (h : OpenDir sb dp c s) :
    wp F (dirlookup sb dev dp name) (FirstFound sb c name s) s := by
  unfold dirlookup
  rw [wp_bind, wp_getInode, if_neg (not_not.mpr h.dir), h.size]
  exact dirlookupLoop_first (k := 0) hfull hpart h (fun j hj => absurd hj (Nat.not_lt_zero j)) (by omega) (by omega)

theorem dirlookup_exact (hfull : F cacheFull) (hpart : ¬16 ∣ c.length → F (.panic "dirlookup read"))
    (h : OpenDir sb dp c s) : wp F (dirlookup sb dev dp name) (Found sb c name 0 s) s :=
  wp_mono (dirlookup_first (fun _ => hfull) (fun hnot _ => hpart hnot) h) fun _ _ hr => hr.found

theorem emptyDirent_exact (h : OpenDir sb dp c s) (halign : 16 ∣ c.length)
    (hfuel : c.length < 16*(k+fuel)) (hk : 16*k ≤ c.length) :
    wp F (emptyDirent sb dev dp fuel (16*k))
      (fun off t => t = s ∧ ∃ j, off = 16*j ∧ off ≤ c.length ∧ Vacant (slots c) j) s := by
  induction fuel generalizing k with
  | zero => omega
  | succ fuel ih =>
    unfold emptyDirent
    rw [wp_bind, wp_getInode, h.size]
    split_ifs with hoff
    · rw [wp_bind]
      apply wp_mono (readDirent_exact h hoff fun hnot => absurd halign hnot)
      rintro ⟨inum, dname⟩ t ⟨rfl, hslot⟩
      dsimp only
      split_ifs with hzero
      · refine ⟨rfl, k, rfl, hk, Or.inl ?_⟩
        rw [hslot, direntSlot, if_pos hzero]
      · exact ih (k := k+1) (by omega) (by have := getElem?_slots_lt hslot; omega)
    · refine ⟨rfl, k, rfl, hk, Or.inr ?_⟩
      rw [length_slots]
      omega

theorem isdirempty_exact (h : OpenDir sb dp c s) (hpart : ¬16 ∣ c.length → F (.panic "isdirempty: readi"))
    (hfuel : c.length < 16*(k+fuel)) :
    wp F (isdirempty sb dev dp fuel (16*k))
      (fun r t => t = s ∧ (r = true ↔ ∀ j, k ≤ j → ∀ p, (slots c)[j]? ≠ some (some p))) s := by
  induction fuel generalizing k with
  | zero =>
    refine ⟨rfl, iff_of_true rfl ?_⟩
    intro j hj p hslot
    have := getElem?_slots_lt hslot
    omega
  | succ fuel ih =>
    unfold isdirempty
    rw [wp_bind, wp_getInode, h.size]
    split_ifs with hoff
    · rw [wp_bind]
      apply wp_mono (readDirent_exact h hoff hpart)
      rintro ⟨inum, dname⟩ t ⟨rfl, hslot⟩
      dsimp only
      split_ifs with hzero
      · refine ⟨rfl, iff_of_false Bool.false_ne_true ?_⟩
        intro hno
        apply hno k le_rfl (cut dname, inum)
        rw [hslot, direntSlot, if_neg hzero]
      · have hnone : (slots c)[k]? = some none := by
          rw [hslot, direntSlot, if_pos (not_not.mp hzero)]
        apply wp_mono (ih (k := k+1) (by omega))
        rintro r u ⟨hu, hr⟩
        refine ⟨hu, hr.trans ⟨fun hno j hj => ?_, fun hno j hj => hno j (by omega)⟩⟩
        rcases hj.eq_or_lt with rfl | hlt
        · intro p hp
          rw [hnone] at hp
          cases hp
        · exact hno j hlt
    · refine ⟨rfl, iff_of_true rfl ?_⟩
      intro j hj p hslot
      have := getElem?_slots_lt hslot
      omega

/-- From s to t nothing changed but entries of the cache that are not in use. -/
structure Same (sb : Superblock) (s t : FS) : Prop where
  sound : Sound sb t
  disk : t.disk = s.disk
  used : ∀ e, 0 < (s.inode e).ref → t.inode e = s.inode e
  unused : ∀ e, (s.inode e).ref = 0 → (t.inode e).ref = 0 ∧ (t.inode e).locked = (s.inode e).locked

theorem Got.dropped (h : Sound sb s) (hg : Got sb i ip s t) (hd : Dropped sb ip t u) : Same sb s u := by
  have hnonneg := h.cached.nonneg ip
  have hlast : ¬Last t ip := by
    rintro ⟨hv, -, hone⟩
    have hzero : (s.inode ip).ref = 0 := by
      have := hg.ref
      omega
    rw [hg.miss hzero] at hv
    cases hv
  obtain ⟨hdisk, hself⟩ := hd.kept hlast
  refine ⟨hd.sound, by rw [hdisk, hg.disk], ?_, ?_⟩
  · intro e hr
    by_cases he : e = ip
    · rw [he] at hr ⊢
      rw [hself, hg.hit hr]
      simp
    · rw [hd.other e he, hg.other e he]
  · intro e hz
    by_cases he : e = ip
    · rw [he] at hz ⊢
      refine ⟨?_, by rw [hd.locked, hg.locked]⟩
      rw [hd.ref, hg.ref]
      omega
    · rw [hd.other e he, hg.other e he]
      exact ⟨hz, rfl⟩

theorem Got.entry_eq {e : Ip} (h : Sound sb s) (hg : Got sb i ip s t) (he : 0 < (s.inode e).ref)
    (hei : (s.inode e).inum = i) : e = ip := by
  by_contra hne
  have hr : 0 < (t.inode ip).ref := by
    have := h.cached.nonneg ip
    rw [hg.ref]
    omega
  apply hne
  apply hg.sound.cached.unique e ip (by rwa [hg.other e hne]) hr
  rw [hg.other e hne, hei, hg.inum]

/-- `dirlink` would wait for a lock: the entry of the cache in which it finds the name is locked. -/
def Waits (s : FS) (c name : List Byte) : Prop :=
  ∃ e i, (s.inode e).locked = true ∧ (0 < (s.inode e).ref → (s.inode e).inum = i) ∧
    some (cut name, i) ∈ slots c

/-- What `dirlink` does: nothing for a name that is there, and else it fills a vacant slot. -/
def Linked (sb : Superblock) (dp : Ip) (c name : List Byte) (inum : ℕ) (s : FS) (r : ℤ) (t : FS) : Prop :=
  (r = -1 ∧ (∃ i, some (cut name, i) ∈ slots c ∧ ∀ e, 0 < (s.inode e).ref → (s.inode e).inum = i →
    (s.inode e).locked = false) ∧ Same sb s t) ∨
  (r = 0 ∧ (∀ i, some (cut name, i) ∉ slots c) ∧ 16 ∣ c.length ∧
    ∃ j, 16*j ≤ c.length ∧ Vacant (slots c) j ∧
      Stored sb dp ((s.inode dp).din.node (splice c (16*j) 16 (direntBytes inum name))) s t)

theorem dirlink_exact (hblocks : F outOfBlocks) (hfull : F cacheFull)
    (hpart : ¬16 ∣ c.length → F (.panic "dirlookup read")) (hdead : Waits s c name → F .deadlock)
    (hbig : MAXFILE*BSIZE < c.length+16 → F (.panic "dirlink")) (h : OpenDir sb dp c s) :
    wp F (dirlink sb dev dp name inum) (Linked sb dp c name inum s) s := by
  unfold dirlink
  rw [wp_bind]
  apply wp_mono (dirlookup_exact hfull hpart h)
  rintro (_ | ⟨ip, off⟩) t hfound
  · obtain ⟨rfl, halign, hno⟩ := hfound
    dsimp only
    rw [wp_bind, wp_getInode, wp_bind, h.size]
    apply wp_mono (emptyDirent_exact (k := 0) h halign (by omega) (by omega))
    rintro off u ⟨rfl, j, rfl, hj, hvac⟩
    rw [wp_bind]
    apply wp_mono (writei_node hblocks h.sound h.ref h.valid h.not_device)
    intro r t hr
    rw [h.toNat_ofNat hj, h.bytes] at hr
    split_ifs at hr with hok
    · obtain ⟨hr, hst⟩ := hr
      rw [if_neg (by rw [hr]; decide)]
      refine Or.inr ⟨rfl, ?_, halign, j, hj, hvac, hst⟩
      intro i hi
      obtain ⟨m, hm⟩ := List.mem_iff_getElem?.mp hi
      exact hno m (Nat.zero_le m) i hm
    · rw [if_pos (by rw [hr.1]; decide), wp_panic]
      apply hbig
      by_contra hsmall
      apply hok
      have hsixteen : (16 : BitVec 32).toNat = 16 := rfl
      have hmax : MAXFILE*BSIZE = 71680 := rfl
      unfold Writable
      rw [h.size, hsixteen]
      omega
  · obtain ⟨j, i, -, hslot, hg⟩ := hfound
    have hmem : some (cut name, i) ∈ slots c := List.mem_iff_getElem?.mpr ⟨j, hslot⟩
    have hr : 0 < (t.inode ip).ref := by
      have := h.sound.cached.nonneg ip
      rw [hg.ref]
      omega
    dsimp only
    rw [wp_bind]
    apply wp_mono (iput_exact hg.sound hr ?_)
    · intro _ u hd
      refine Or.inl ⟨rfl, ⟨i, hmem, ?_⟩, hg.dropped h.sound hd⟩
      intro e he hei
      rw [hg.entry_eq h.sound he hei, ← hg.locked, hd.free]
    · intro hlock
      refine hdead ⟨ip, i, ?_, ?_, hmem⟩
      · rw [← hg.locked, hlock]
      · intro hpos
        rw [← hg.inum, hg.hit hpos]

theorem Holds.same (h : Holds sb H W s) (hs : Same sb s t) : Holds sb H W t where
  inv := hs.sound.inv (by rw [hs.disk]; exact h.inv.dirsOk)
  refs e := by
    have hle := h.refs e
    rcases (h.inv.cached.nonneg e).eq_or_lt with hz | hr
    · rw [(hs.unused e hz.symm).1]
      omega
    · rwa [hs.used e hr]
  loaded e he := by
    obtain ⟨hH, hv⟩ := h.loaded e he
    rw [hs.used e (h.ref_pos hH)]
    exact ⟨hH, hv⟩

theorem Holds.openDir (h : Holds sb H W s) (hdp : dp ∈ W) (hdir : (s.inode dp).din.type = T_DIR) :
    OpenDir sb dp (content sb s.disk (s.inode dp).inum) s := by
  obtain ⟨hH, hv⟩ := h.loaded dp hdp
  have hr := h.ref_pos hH
  exact ⟨h.inv.sound, hr, hv, hdir, rfl, h.inv.dirsOk _ _ (h.inv.sound.node_self hr hv) hdir⟩

/-- The result of a lookup: nothing, or a new reference and the offset of the entry. -/
def LookedUp (sb : Superblock) (H W : List Ip) (s : FS) (r : Option (Ip × ℕ)) (t : FS) : Prop :=
  match r with
  | none => t = s
  | some (ip, off) => Holds sb (ip :: H) W t ∧ 16 ∣ off

theorem dirlookup_spec (h : Holds sb H W s) (hdp : dp ∈ W) :
    wp NoDoubleFree (dirlookup sb dev dp name)
      (fun r t => (s.inode dp).din.type = T_DIR ∧ LookedUp sb H W s r t) s := by
  by_cases hdir : (s.inode dp).din.type = T_DIR
  · apply wp_mono (dirlookup_exact noDoubleFree_cacheFull (fun _ => noDoubleFree_panic (by decide))
      (h.openDir hdp hdir))
    rintro (_ | ⟨ip, off⟩) t hfound
    · exact ⟨hdir, hfound.1⟩
    · obtain ⟨j, i, rfl, -, hg⟩ := hfound
      exact ⟨hdir, h.got hg, dvd_mul_right 16 j⟩
  · unfold dirlookup
    rw [wp_bind, wp_getInode, if_pos hdir]
    exact noDoubleFree_panic (by decide)

theorem dirlink_spec (h : Holds sb H W s) (hdp : dp ∈ W) (hi : inum < sb.ninodes) :
    wp NoDoubleFree (dirlink sb dev dp name inum) (fun _ t => Holds sb H W t) s := by
  by_cases hdir : (s.inode dp).din.type = T_DIR
  · have ho := h.openDir hdp hdir
    apply wp_mono (dirlink_exact noDoubleFree_outOfBlocks noDoubleFree_cacheFull
      (fun _ => noDoubleFree_panic (by decide)) (fun _ => noDoubleFree_deadlock)
      (fun _ => noDoubleFree_panic (by decide)) ho)
    rintro r t (⟨-, -, hsame⟩ | ⟨-, -, -, j, hj, -, hst⟩)
    · exact h.same hsame
    · apply h.stored hst
      intro _
      apply ho.names.splice hj
      rw [dirent_direntBytes]
      exact (Nat.mod_le ..).trans_lt hi
  · unfold dirlink dirlookup
    rw [wp_bind, wp_bind, wp_getInode, if_pos hdir]
    exact noDoubleFree_panic (by decide)

end ProvenXv6.Fs
