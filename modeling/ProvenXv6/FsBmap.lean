import ProvenXv6.FsAlloc

namespace ProvenXv6.Fs
open Ownership WeakestPre

/-- The inodes, with the copy in entry ip in the place of the one on the disk. -/
def view (sb : Superblock) (ip : Ip) (s : FS) : ℕ → Dinode :=
  Function.update (sb.dinode s.disk) (s.inode ip).inum (s.inode ip).din

/-- The entries of the inode cache in use belong to different inodes of the table. -/
structure Cached (sb : Superblock) (s : FS) : Prop where
  nonneg : ∀ e, 0 ≤ (s.inode e).ref
  range : ∀ e, 0 < (s.inode e).ref → 1 ≤ (s.inode e).inum ∧ (s.inode e).inum < sb.ninodes
  unique : ∀ e e', 0 < (s.inode e).ref → 0 < (s.inode e').ref →
    (s.inode e).inum = (s.inode e').inum → e = e'

/-- Entry e is a copy of an allocated inode. -/
def Synced (sb : Superblock) (s : FS) (e : Ip) : Prop :=
  (s.inode e).din = sb.dinode s.disk (s.inode e).inum ∧ (s.inode e).din.type ≠ 0

/-- The state while an operation works on the copy in entry ip. -/
structure Opened (sb : Superblock) (ip : Ip) (s : FS) : Prop where
  cached : Cached sb s
  held : 0 < (s.inode ip).ref
  synced : ∀ e, e ≠ ip → 0 < (s.inode e).ref → (s.inode e).valid = true → Synced sb s e
  blocks : Consistent sb (view sb ip s) s.disk (· ≠ (s.inode ip).inum)

/-- From s to t only the addresses in entry ip and blocks outside the inode table change. -/
structure Framed (sb : Superblock) (ip : Ip) (s t : FS) : Prop where
  inode : ∃ a, t.inode = Function.update s.inode ip
    { s.inode ip with din := { (s.inode ip).din with addrs := a } }
  dinode : ∀ i, i < sb.ninodes → sb.dinode t.disk i = sb.dinode s.disk i

section
variable {sb : Superblock} {ip : Ip} {s t u : FS} {F : Fault → Prop}

theorem view_self : view sb ip s (s.inode ip).inum = (s.inode ip).din := Function.update_self ..

theorem Cached.congr (h : Cached sb s) (hinum : ∀ e, (t.inode e).inum = (s.inode e).inum)
    (href : ∀ e, (t.inode e).ref = (s.inode e).ref) : Cached sb t where
  nonneg e := by
    rw [href]
    exact h.nonneg e
  range e := by
    rw [href, hinum]
    exact h.range e
  unique e e' := by
    rw [href, href, hinum, hinum]
    exact h.unique e e'

theorem Opened.live (h : Opened sb ip s) (ht : (s.inode ip).din.type ≠ 0) :
    Live sb (view sb ip s) (s.inode ip).inum := by
  obtain ⟨h1, h2⟩ := h.cached.range ip h.held
  refine ⟨h1, h2, ?_⟩
  rw [view_self]
  exact ht

namespace Framed

theorem refl : Framed sb ip s s := ⟨⟨_, (Function.update_eq_self ..).symm⟩, fun _ _ => rfl⟩

theorem trans (h : Framed sb ip s t) (h' : Framed sb ip t u) : Framed sb ip s u := by
  obtain ⟨⟨a, ha⟩, hd⟩ := h
  obtain ⟨⟨b, hb⟩, hd'⟩ := h'
  refine ⟨⟨b, ?_⟩, fun i hi => (hd' i hi).trans (hd i hi)⟩
  rw [hb, ha]
  simp only [Function.update_self, Function.update_idem]

theorem other (h : Framed sb ip s t) {e : Ip} (he : e ≠ ip) : t.inode e = s.inode e := by
  obtain ⟨a, ha⟩ := h.inode
  rw [ha, Function.update_of_ne he]

theorem self (h : Framed sb ip s t) : t.inode ip =
    { s.inode ip with din := { (s.inode ip).din with addrs := (t.inode ip).din.addrs } } := by
  obtain ⟨a, ha⟩ := h.inode
  rw [ha, Function.update_self]

theorem inum (h : Framed sb ip s t) (e : Ip) : (t.inode e).inum = (s.inode e).inum := by
  by_cases he : e = ip
  · rw [he, h.self]
  · rw [h.other he]

theorem ref (h : Framed sb ip s t) (e : Ip) : (t.inode e).ref = (s.inode e).ref := by
  by_cases he : e = ip
  · rw [he, h.self]
  · rw [h.other he]

theorem type (h : Framed sb ip s t) : (t.inode ip).din.type = (s.inode ip).din.type := by
  rw [h.self]

theorem size (h : Framed sb ip s t) : (t.inode ip).din.size = (s.inode ip).din.size := by
  rw [h.self]

theorem view_other (h : Framed sb ip s t) (j : ℕ) (hj : j ≠ (s.inode ip).inum)
    (hlt : j < sb.ninodes) : view sb ip t j = view sb ip s j := by
  unfold view
  rw [h.inum ip, Function.update_of_ne hj, Function.update_of_ne hj, h.dinode j hlt]

theorem of_inode_eq (hinode : t.inode = s.inode)
    (hdinode : ∀ i, i < sb.ninodes → sb.dinode t.disk i = sb.dinode s.disk i) : Framed sb ip s t :=
  ⟨⟨_, by rw [hinode]; exact (Function.update_eq_self ..).symm⟩, hdinode⟩

theorem view_of_inode_eq (h : Framed sb ip s t) (hinode : t.inode = s.inode) (j : ℕ)
    (hj : j < sb.ninodes) : view sb ip t j = view sb ip s j := by
  by_cases hji : j = (s.inode ip).inum
  · rw [hji, view_self, ← h.inum ip, view_self, hinode]
  · exact h.view_other j hji hj

theorem opened (h : Framed sb ip s t) (hs : Opened sb ip s)
    (ht : Consistent sb (view sb ip t) t.disk (· ≠ (s.inode ip).inum)) : Opened sb ip t where
  cached := hs.cached.congr h.inum h.ref
  held := by
    rw [h.ref]
    exact hs.held
  synced := by
    intro e he
    rw [h.other he]
    intro hr hv
    have hsync := hs.synced e he hr hv
    unfold Synced at hsync ⊢
    rw [h.other he, h.dinode _ (hs.cached.range e hr).2]
    exact hsync
  blocks := by
    rw [h.inum ip]
    exact ht

end Framed

/-- From s to t the file of entry ip gets or loses blocks; the files in P keep theirs. -/
structure Remapped (sb : Superblock) (P : ℕ → Prop) (ip : Ip) (s t : FS) : Prop
    extends Framed sb ip s t where
  after : Opened sb ip t
  keeps : Extends sb P (view sb ip s) s.disk (view sb ip t) t.disk

namespace Remapped
variable {P : ℕ → Prop}

theorem refl (h : Opened sb ip s) : Remapped sb P ip s s := ⟨.refl, h, .refl⟩

theorem trans (h : Remapped sb P ip s t) (h' : Remapped sb P ip t u) : Remapped sb P ip s u :=
  ⟨h.toFramed.trans h'.toFramed, h'.after, h.keeps.trans h'.keeps⟩

end Remapped

theorem loadAddr_spec (hF : F outOfBlocks) (h : Opened sb ip s) (htype : (s.inode ip).din.type ≠ 0)
    (k : Fin (NDIRECT+1)) :
    wp F (loadAddr sb ip k)
      (fun a t => Remapped sb (fun _ => True) ip s t ∧ a = (t.inode ip).din.addrs k ∧ a ≠ 0) s := by
  unfold loadAddr
  rw [wp_bind, wp_getInode]
  split_ifs with hk
  · rw [wp_bind]
    apply wp_mono (balloc_spec hF h.blocks.metadata)
    rintro a t ⟨hinode, ha⟩
    rw [wp_bind, wp_setDin, wp_pure]
    have ha0 := ha.ne_zero
    generalize hu : t.mapDin ip _ = u
    have hdisk : u.disk = t.disk := by rw [← hu, FS.mapDin_disk]
    have haddrs : (u.inode ip).din.addrs = Function.update (s.inode ip).din.addrs k a := by
      rw [← hu, FS.mapDin_same, hinode]
    have hframe : Framed sb ip s u := by
      refine ⟨⟨Function.update (s.inode ip).din.addrs k a, ?_⟩, by rw [hdisk]; exact ha.dinode⟩
      rw [← hu, FS.mapDin, FS.mapInode, hinode]
    rw [← hdisk] at ha
    have hself : view sb ip u (s.inode ip).inum = (u.inode ip).din := by
      rw [← hframe.inum ip, view_self]
    have hsame : (view sb ip u (s.inode ip).inum).type = (view sb ip s (s.inode ip).inum).type ∧
        (view sb ip u (s.inode ip).inum).size = (view sb ip s (s.inode ip).inum).size := by
      rw [hself, view_self, hframe.type, hframe.size]
      exact ⟨rfl, rfl⟩
    obtain ⟨hcons, hext⟩ := h.blocks.attach_addr ha (h.live htype) (by rw [view_self]; exact hk)
      hsame (by rw [hself, view_self, haddrs]) hframe.view_other
    exact ⟨⟨hframe, hframe.opened h hcons, hext⟩, by rw [haddrs, Function.update_self], ha0⟩
  · exact ⟨.refl h, rfl, hk⟩

theorem wp_loadAddr_of_ne {Q : BitVec 32 → FS → Prop} {k : Fin (NDIRECT+1)}
    (hk : (s.inode ip).din.addrs k ≠ 0) :
    wp F (loadAddr sb ip k) Q s ↔ Q ((s.inode ip).din.addrs k) s := by
  rw [loadAddr, wp_bind, wp_getInode, if_neg hk, wp_pure]

theorem bmap_of_addr {bn : ℕ} (ha : addr sb (view sb ip s) s.disk (s.inode ip).inum bn ≠ 0) :
    wp F (bmap sb ip bn)
      (fun a t => t = s ∧ a.toNat = addr sb (view sb ip s) s.disk (s.inode ip).inum bn) s := by
  obtain ⟨hbn, hr⟩ := addr_ne_zero.mp ha
  have hl := live_of_refAt hr
  rw [slot_fst] at hl
  rw [addr_of_lt hbn]
  unfold bmap
  split_ifs with h1 h2
  · rw [slot_direct _ h1, refAt_inl hl, view_self] at hr ⊢
    have hk : (s.inode ip).din.addrs ⟨bn, by omega⟩ ≠ 0 := by
      intro hz
      rw [hz] at hr
      exact hr rfl
    rw [wp_loadAddr_of_ne hk]
    exact ⟨rfl, rfl⟩
  · rw [slot_indirect _ h1 h2] at hr ⊢
    have hind := indirect_ne_zero hr
    rw [refAt_inr hl hind, view_self] at hr ⊢
    rw [view_self] at hind
    have hw : getWord (s.disk ((s.inode ip).din.addrs indirect).toNat) (bn-NDIRECT) ≠ 0 := by
      intro hz
      rw [hz] at hr
      exact hr rfl
    rw [wp_bind, wp_loadAddr_of_ne hind, wp_bind, wp_bread, if_neg hw, wp_pure]
    exact ⟨rfl, rfl⟩
  · have : MAXFILE = NDIRECT+NINDIRECT := rfl
    omega

theorem bmap_spec {bn : ℕ} (hF : F outOfBlocks) (h : Opened sb ip s) (htype : (s.inode ip).din.type ≠ 0)
    (hbn : bn < MAXFILE) :
    wp F (bmap sb ip bn)
      (fun a t => Remapped sb (fun _ => True) ip s t ∧ a ≠ 0 ∧
        addr sb (view sb ip t) t.disk (s.inode ip).inum bn = a.toNat) s := by
  have hmax : MAXFILE = NDIRECT+NINDIRECT := rfl
  unfold bmap
  split_ifs with h1 h2
  · apply wp_mono (loadAddr_spec hF h htype _)
    rintro a t ⟨hg, ha, ha0⟩
    refine ⟨hg, ha0, ?_⟩
    have hl := hg.after.live (by rw [hg.type]; exact htype)
    rw [addr_of_lt (by omega), slot_direct _ h1, ← hg.inum ip, refAt_inl hl, view_self, ← ha]
  · rw [wp_bind]
    apply wp_mono (loadAddr_spec hF h htype indirect)
    rintro a t ⟨hg, ha, ha0⟩
    have hl := hg.after.live (by rw [hg.type]; exact htype)
    have hind : (view sb ip t (t.inode ip).inum).addrs indirect = a := by rw [view_self, ha]
    rw [wp_bind, wp_bread]
    split_ifs with hw
    · rw [wp_bind]
      apply wp_mono (balloc_spec hF hg.after.blocks.metadata)
      rintro b u ⟨hinode, hb⟩
      rw [wp_bind, wp_logWrite, wp_pure]
      have ha0' : (view sb ip t (t.inode ip).inum).addrs indirect ≠ 0 := by rwa [hind]
      have hdata := (hg.after.blocks.used_indirect hl ha0').1
      rw [hind] at hdata
      -- the indirect block was read before `balloc`, which does not touch it: it is in use
      generalize hv : u.put a.toNat _ = v
      have hinode' : v.inode = t.inode := by rw [← hv, FS.put_inode, hinode]
      have hdisk : v.disk = Function.update u.disk a.toNat (setWord (t.disk a.toNat) (bn-NDIRECT) b) := by
        rw [← hv, FS.put_disk]
      have hframe : Framed sb ip t v := by
        apply Framed.of_inode_eq hinode'
        intro i hi
        rw [hdisk, sb.dinode_update_data _ hdata hi, hb.dinode i hi]
      have hview := hframe.view_of_inode_eq hinode'
      obtain ⟨hcons, hext⟩ := hg.after.blocks.attach_entry (j := ⟨bn-NDIRECT, h2⟩) hb hl ha0'
        (by rw [hind]; exact hw) (show v.disk = _ by rw [hind]; exact hdisk) hview
      have hopen := hframe.opened hg.after hcons
      refine ⟨hg.trans ⟨hframe, hopen, hext⟩, hb.ne_zero, ?_⟩
      have hlt := hl.2.1
      have hl' := hopen.live (by rw [hframe.type, hg.type]; exact htype)
      have hind' : (view sb ip v (v.inode ip).inum).addrs indirect = a := by
        rw [hframe.inum ip, hview _ hlt, hind]
      rw [addr_of_lt (by omega), slot_indirect _ h1 h2, ← hg.inum ip, ← hframe.inum ip,
        refAt_inr hl' (by rw [hind']; exact ha0), hind', hdisk, Function.update_self,
        getWord_setWord, if_pos rfl]
    · refine ⟨hg, hw, ?_⟩
      rw [addr_of_lt (by omega), slot_indirect _ h1 h2, ← hg.inum ip,
        refAt_inr hl (by rw [hind]; exact ha0), hind]
  · omega

/-- Only a missing block makes `bmap` change the state. -/
theorem bmap_grow {bn : ℕ} (hF : F outOfBlocks) (h : Opened sb ip s) (htype : (s.inode ip).din.type ≠ 0)
    (hbn : bn < MAXFILE) :
    wp F (bmap sb ip bn)
      (fun a t => Remapped sb (fun _ => True) ip s t ∧ a ≠ 0 ∧
        addr sb (view sb ip t) t.disk (s.inode ip).inum bn = a.toNat ∧
        (addr sb (view sb ip s) s.disk (s.inode ip).inum bn ≠ 0 → t = s)) s := by
  by_cases ha : addr sb (view sb ip s) s.disk (s.inode ip).inum bn = 0
  · apply wp_mono (bmap_spec hF h htype hbn)
    rintro a t ⟨hr, ha0, haddr⟩
    exact ⟨hr, ha0, haddr, fun hne => absurd ha hne⟩
  · apply wp_mono (bmap_of_addr ha)
    rintro a t ⟨rfl, haddr⟩
    have ha0 : a ≠ 0 := by
      rintro rfl
      exact ha haddr.symm
    exact ⟨.refl h, ha0, haddr.symm, fun _ => rfl⟩

end

end ProvenXv6.Fs
