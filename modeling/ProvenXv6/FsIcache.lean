import ProvenXv6.FsNodes

namespace ProvenXv6.Fs
open Ownership WeakestPre

variable {sb : Superblock} {H W : List Ip} {ip : Ip} {s t : FS} {i : ℕ} {F : Fault → Prop}

theorem Sound.of_mapInode {f : Inode → Inode} (hc : Cached sb s)
    (hb : Consistent sb (sb.dinode s.disk) s.disk (fun _ => True))
    (hsync : ∀ e, e ≠ ip → 0 < (s.inode e).ref → (s.inode e).valid = true → Synced sb s e)
    (href : 0 ≤ (f (s.inode ip)).ref)
    (hrange : 0 < (f (s.inode ip)).ref →
      1 ≤ (f (s.inode ip)).inum ∧ (f (s.inode ip)).inum < sb.ninodes)
    (hunique : 0 < (f (s.inode ip)).ref → ∀ e, e ≠ ip → 0 < (s.inode e).ref →
      (s.inode e).inum ≠ (f (s.inode ip)).inum)
    (hself : 0 < (f (s.inode ip)).ref → (f (s.inode ip)).valid = true →
      (f (s.inode ip)).din = sb.dinode s.disk (f (s.inode ip)).inum ∧ (f (s.inode ip)).din.type ≠ 0) :
    Sound sb (s.mapInode ip f) := by
  generalize hu : s.mapInode ip f = u
  have hsame : u.inode ip = f (s.inode ip) := by rw [← hu, FS.mapInode_same]
  have hother (e : Ip) (he : e ≠ ip) : u.inode e = s.inode e := by rw [← hu, FS.mapInode_of_ne s he]
  have hdisk : u.disk = s.disk := by rw [← hu, FS.mapInode_disk]
  refine ⟨⟨?_, ?_, ?_⟩, ?_, by rwa [hdisk]⟩
  · intro e
    by_cases he : e = ip
    · rwa [he, hsame]
    · rw [hother e he]
      exact hc.nonneg e
  · intro e
    by_cases he : e = ip
    · rwa [he, hsame]
    · rw [hother e he]
      exact hc.range e
  · intro e e' h1 h2 hi
    by_cases he : e = ip <;> by_cases he' : e' = ip
    · rw [he, he']
    · rw [he, hsame] at h1 hi
      rw [hother e' he'] at h2 hi
      exact absurd hi.symm (hunique h1 e' he' h2)
    · rw [he', hsame] at h2 hi
      rw [hother e he] at h1 hi
      exact absurd hi (hunique h2 e he h1)
    · rw [hother e he] at h1 hi
      rw [hother e' he'] at h2 hi
      exact hc.unique e e' h1 h2 hi
  · intro e
    unfold Synced
    rw [hdisk]
    by_cases he : e = ip
    · rwa [he, hsame]
    · rw [hother e he]
      exact hsync e he

theorem Sound.mapInode_same {f : Inode → Inode} (h : Sound sb s) (hr : 0 < (s.inode ip).ref)
    (hinum : (f (s.inode ip)).inum = (s.inode ip).inum) (hdin : (f (s.inode ip)).din = (s.inode ip).din)
    (hvalid : (f (s.inode ip)).valid = (s.inode ip).valid) (href : 0 ≤ (f (s.inode ip)).ref) :
    Sound sb (s.mapInode ip f) := by
  apply Sound.of_mapInode h.cached h.blocks (fun e _ => h.synced e) href
  · intro _
    rw [hinum]
    exact h.cached.range ip hr
  · intro _ e he hre
    rw [hinum]
    exact fun hi => he (h.cached.unique e ip hre hr hi)
  · intro _
    rw [hinum, hdin, hvalid]
    exact h.synced ip hr

/-- From s to t the caller gets a reference to inode i, in entry ip. -/
structure Got (sb : Superblock) (i : ℕ) (ip : Ip) (s t : FS) : Prop where
  sound : Sound sb t
  disk : t.disk = s.disk
  other : ∀ e, e ≠ ip → t.inode e = s.inode e
  inum : (t.inode ip).inum = i
  ref : (t.inode ip).ref = (s.inode ip).ref+1
  locked : (t.inode ip).locked = (s.inode ip).locked
  hit : 0 < (s.inode ip).ref → t.inode ip = { s.inode ip with ref := (s.inode ip).ref+1 }
  miss : (s.inode ip).ref = 0 → (t.inode ip).valid = false

def cacheFull : Fault := .panic "iget: no inodes"

theorem Sound.got (h : Sound sb s) (hr : 0 < (s.inode ip).ref) :
    Got sb (s.inode ip).inum ip s (s.mapInode ip fun e => { e with ref := e.ref+1 }) where
  sound := h.mapInode_same hr rfl rfl rfl (show 0 ≤ (s.inode ip).ref+1 by omega)
  disk := rfl
  other e he := FS.mapInode_of_ne s he _
  inum := by rw [FS.mapInode_same]
  ref := by rw [FS.mapInode_same]
  locked := by rw [FS.mapInode_same]
  hit _ := by rw [FS.mapInode_same]
  miss hz := absurd hr (by omega)

theorem iget_room (hF : (∀ e, (s.inode e).ref ≠ 0) → F cacheFull) (h : Sound sb s) (hi : 1 ≤ i ∧ i < sb.ninodes) :
    wp F (iget i) (fun ip t => Got sb i ip s t) s := by
  unfold iget
  rw [wp_bind, wp_get]
  split
  case h_1 ip hfind =>
    have hp := List.find?_some hfind
    simp only [decide_eq_true_eq] at hp
    obtain ⟨hr, rfl⟩ := hp
    exact h.got hr
  case h_2 hnone =>
    split
    case h_1 hfind =>
      apply hF
      intro e he
      have hno := List.find?_eq_none.mp hfind e (List.mem_finRange e)
      exact hno (decide_eq_true he)
    case h_2 ip hfind =>
      have hp := List.find?_some hfind
      simp only [decide_eq_true_eq] at hp
      rw [wp_bind, wp_setInode, wp_pure]
      refine ⟨?_, rfl, fun e he => FS.mapInode_of_ne s he _, by rw [FS.mapInode_same], ?_, ?_, ?_, ?_⟩
      · apply Sound.of_mapInode h.cached h.blocks (fun e _ => h.synced e) (show (0 : ℤ) ≤ 1 by decide)
        · intro _
          exact hi
        · intro _ e _ hr hinum
          have hno := List.find?_eq_none.mp hnone e (List.mem_finRange e)
          simp only [decide_eq_true_eq] at hno
          exact hno ⟨hr, hinum⟩
        · intro _ hv
          cases hv
      · rw [FS.mapInode_same, hp]
        rfl
      · rw [FS.mapInode_same]
      · intro hr
        omega
      · intro _
        rw [FS.mapInode_same]

theorem iget_exact (hF : F cacheFull) (h : Sound sb s) (hi : 1 ≤ i ∧ i < sb.ninodes) :
    wp F (iget i) (fun ip t => Got sb i ip s t) s := iget_room (fun _ => hF) h hi

theorem idup_exact (h : Sound sb s) (hr : 0 < (s.inode ip).ref) :
    wp F (idup ip) (fun r t => r = ip ∧ Got sb (s.inode ip).inum ip s t) s := by
  unfold idup
  rw [wp_bind, wp_setInode, wp_pure]
  exact ⟨rfl, h.got hr⟩

/-- From s to t the caller gets the lock of entry ip, which is loaded. -/
structure Locked (sb : Superblock) (ip : Ip) (s t : FS) : Prop where
  sound : Sound sb t
  disk : t.disk = s.disk
  other : ∀ e, e ≠ ip → t.inode e = s.inode e
  self : t.inode ip = { s.inode ip with locked := true, valid := true, din := (t.inode ip).din }
  free : (s.inode ip).locked = false

def noType : Fault := .panic "ilock: no type"

theorem ilock_exact (h : Sound sb s) (hr : 0 < (s.inode ip).ref)
    (hdead : (s.inode ip).locked = true → F .deadlock)
    (htype : node sb s.disk (s.inode ip).inum = none → F noType) :
    wp F (ilock sb ip) (fun _ t => Locked sb ip s t) s := by
  unfold ilock
  rw [wp_bind, wp_get, if_neg (by omega)]
  split_ifs with hlock hvalid
  · exact hdead hlock
  · rw [wp_setInode]
    refine ⟨h.mapInode_same hr rfl rfl rfl (h.cached.nonneg ip), rfl, fun e he => FS.mapInode_of_ne s he _, ?_,
      Bool.eq_false_of_not_eq_true hlock⟩
    rw [FS.mapInode_same, hvalid]
  · simp only [wp_bind, wp_setInode]
    split_ifs with hzero
    · exact htype (node_eq_none.mpr fun hl => hl.2.2 hzero)
    · rw [wp_pure]
      refine ⟨?_, rfl, fun e he => FS.mapInode_of_ne s he _, ?_, Bool.eq_false_of_not_eq_true hlock⟩
      · apply Sound.of_mapInode h.cached h.blocks (fun e _ => h.synced e) (h.cached.nonneg ip)
        · intro _
          exact h.cached.range ip hr
        · intro _ e he hre hi
          exact he (h.cached.unique e ip hre hr hi)
        · intro _ _
          exact ⟨rfl, hzero⟩
      · rw [FS.mapInode_same]

theorem iunlock_exact (hr : 0 < (s.inode ip).ref)
    (hlock : (s.inode ip).locked = false → F (.panic "iunlock")) :
    wp F (iunlock ip) (fun _ t => t = s.mapInode ip fun e => { e with locked := false }) s := by
  unfold iunlock
  rw [wp_bind, wp_getInode]
  split_ifs with hbad
  · exact hlock (hbad.resolve_right (by omega))
  · exact rfl

theorem refAt_eq_zero {ino : ℕ → Dinode} {d : Disk} {r : Ref}
    (h : Live sb ino r.1 → (ino r.1).addrs = fun _ => 0) : refAt sb ino d r = 0 := by
  by_contra hne
  have hl := live_of_refAt hne
  obtain ⟨i, k | j⟩ := r
  · rw [refAt_inl hl, h hl] at hne
    exact hne rfl
  · exact indirect_ne_zero hne (by rw [h hl])

/-- From s to t the inode of entry ip becomes free. -/
structure Freed (sb : Superblock) (ip : Ip) (s t : FS) : Prop where
  sound : Sound sb t
  other : ∀ e, e ≠ ip → t.inode e = s.inode e
  self : t.inode ip = { s.inode ip with valid := false, din := (t.inode ip).din }
  nodes : node sb t.disk = Function.update (node sb s.disk) (s.inode ip).inum none

theorem ifree_exact (h : Sound sb s) (hr : 0 < (s.inode ip).ref) (hv : (s.inode ip).valid = true) :
    wp F (ifree sb ip) (fun _ t => Freed sb ip s t) s := by
  unfold ifree
  rw [wp_bind]
  apply wp_mono (itrunc_spec (h.opened hr hv) (h.synced ip hr hv).2)
  rintro _ t ⟨hopen, hloc, hdin⟩
  rw [wp_bind, wp_setDin]
  have hopen : Opened sb ip (t.mapDin ip fun v => { v with type := 0 }) := by
    apply hopen.mapDin
    intro r hr
    have hold : refAt sb (view sb ip t) t.disk r = 0 := by
      apply refAt_eq_zero
      intro _
      rw [hr, view_self, hdin]
    rw [hold]
    apply refAt_eq_zero
    intro hl
    have htype := hl.2.2
    rw [hr, view_mapDin] at htype
    exact absurd rfl htype
  have hloc := hloc.trans (local_mapDin (f := fun v => { v with type := 0 }))
  rw [wp_bind]
  apply wp_mono (iupdate_spec hopen)
  rintro _ u ⟨hinode, hopen, hloc', hdisk, -⟩
  have hloc := hloc.trans hloc'
  have hzero : (u.inode ip).din.type = 0 := by rw [hinode, FS.mapDin_same]
  have hstored : (u.inode ip).din = sb.dinode u.disk (u.inode ip).inum := by rw [hinode, hdisk]
  have hdead : ¬Live sb (sb.dinode u.disk) (u.inode ip).inum := by
    intro hl
    have htype := hl.2.2
    rw [← hstored] at htype
    exact htype hzero
  have hblocks : Consistent sb (sb.dinode u.disk) u.disk (fun _ => True) := by
    have hb := hopen.blocks
    rw [view_eq hstored] at hb
    refine ⟨hb.metadata, hb.owned, ?_⟩
    intro j _ hl
    apply hb.filled j _ hl
    rintro rfl
    exact hdead hl
  rw [wp_setInode]
  refine ⟨?_, ?_, ?_, ?_⟩
  · apply Sound.of_mapInode hopen.cached hblocks hopen.synced (hopen.cached.nonneg ip)
    · exact hopen.cached.range ip
    · intro hr e he hre hi
      exact he (hopen.cached.unique e ip hre hr hi)
    · intro _ hfalse
      cases hfalse
  · intro e he
    rw [FS.mapInode_of_ne u he, hloc.other e he]
  · rw [FS.mapInode_same, hloc.self]
  · funext j
    rw [FS.mapInode_disk]
    by_cases hj : j = (s.inode ip).inum
    · rw [hj, Function.update_self, ← hloc.inum]
      exact node_eq_none.mpr hdead
    · rw [Function.update_of_ne hj, h.node_of_local hloc hj]

/-- The reference in entry ip is the last one to a loaded inode without links. -/
def Last (s : FS) (ip : Ip) : Prop :=
  (s.inode ip).valid = true ∧ (s.inode ip).din.nlink = 0 ∧ (s.inode ip).ref = 1

/-- From s to t a reference to entry ip is given back. -/
structure Dropped (sb : Superblock) (ip : Ip) (s t : FS) : Prop where
  sound : Sound sb t
  other : ∀ e, e ≠ ip → t.inode e = s.inode e
  inum : (t.inode ip).inum = (s.inode ip).inum
  ref : (t.inode ip).ref = (s.inode ip).ref-1
  locked : (t.inode ip).locked = (s.inode ip).locked
  free : (s.inode ip).locked = false
  last : Last s ip → node sb t.disk = Function.update (node sb s.disk) (s.inode ip).inum none
  kept : ¬Last s ip → t.disk = s.disk ∧ t.inode ip = { s.inode ip with ref := (s.inode ip).ref-1 }

theorem iput_exact (h : Sound sb s) (hr : 0 < (s.inode ip).ref)
    (hdead : (s.inode ip).locked = true → F .deadlock) :
    wp F (iput sb ip) (fun _ t => Dropped sb ip s t) s := by
  unfold iput
  rw [wp_bind, wp_getInode]
  split_ifs with hlock hlast
  · exact hdead hlock
  · rw [wp_bind]
    apply wp_mono (ifree_exact h hr hlast.1)
    intro _ t ht
    rw [wp_setInode]
    have hself := ht.self
    have hsound : Sound sb (t.mapInode ip fun e => { e with ref := e.ref-1 }) := by
      apply ht.sound.mapInode_same (by rw [hself]; exact hr) rfl rfl rfl
      rw [hself]
      show 0 ≤ (s.inode ip).ref-1
      omega
    refine ⟨hsound, ?_, ?_, ?_, ?_, Bool.eq_false_of_not_eq_true hlock, fun _ => ht.nodes, ?_⟩
    · intro e he
      rw [FS.mapInode_of_ne t he, ht.other e he]
    · rw [FS.mapInode_same, hself]
    · rw [FS.mapInode_same, hself]
    · rw [FS.mapInode_same, hself]
    · exact fun hnot => absurd hlast hnot
  · rw [wp_setInode]
    have hsound : Sound sb (s.mapInode ip fun e => { e with ref := e.ref-1 }) :=
      h.mapInode_same hr rfl rfl rfl (show 0 ≤ (s.inode ip).ref-1 by omega)
    refine ⟨hsound, fun e he => FS.mapInode_of_ne s he _, ?_, ?_, ?_, Bool.eq_false_of_not_eq_true hlock,
      fun hl => absurd hl hlast, fun _ => ⟨rfl, FS.mapInode_same s ip _⟩⟩
    · rw [FS.mapInode_same]
    · rw [FS.mapInode_same]
    · rw [FS.mapInode_same]

theorem updateDin_exact {f : Dinode → Dinode} (h : Sound sb s) (hr : 0 < (s.inode ip).ref)
    (hv : (s.inode ip).valid = true)
    (hf : ∀ v, (f v).type = v.type ∧ (f v).size = v.size ∧ (f v).addrs = v.addrs) :
    wp F (iupdate sb ip)
      (fun _ t => Stored sb ip ((f (s.inode ip).din).node (content sb s.disk (s.inode ip).inum)) s t)
      (s.mapDin ip f) := by
  obtain ⟨hdin, htype⟩ := h.synced ip hr hv
  have hf' := hf (s.inode ip).din
  apply wp_mono (storeDin_spec (h.opened hr hv) hf'.1 hf'.2.2)
  rintro _ t ⟨hopen, hloc, hdin', hdisk, hext⟩
  have hsync : Synced sb t ip := by
    refine ⟨by rw [hdin', hloc.inum, hdisk], ?_⟩
    rw [hdin', hf'.1]
    exact htype
  have hsize : (t.inode ip).din.size = (s.inode ip).din.size := by rw [hdin', hf'.2.1]
  have hbytes (p : ℕ) (hp : p < (s.inode ip).din.size.toNat) := h.addr_ne_zero hr hv hp
  have hst := h.stored hopen hloc hsync fun p hp => by
    rw [hloc.inum, (hext _ trivial _ (hbytes p (by rwa [← hsize]))).1]
    exact hbytes p (by rwa [← hsize])
  have hcontent : content sb t.disk (t.inode ip).inum = content sb s.disk (s.inode ip).inum := by
    unfold content
    rw [← hsync.1, hsize, hdin]
    apply List.map_congr_left
    intro p hp
    have hb := hext.byteAt trivial (hbytes p (by rw [hdin]; exact List.mem_range.mp hp))
    rw [view_eq hdin, view_eq hsync.1] at hb
    rw [hloc.inum]
    exact hb
  rwa [hcontent, hdin'] at hst

def freshNode (type : BitVec 16) : Option Node := if type = 0 then none else some ⟨type, 0, 0, 0, []⟩

theorem Sound.ialloc {type : BitVec 16} (h : Sound sb s) (hi : 1 ≤ i ∧ i < sb.ninodes)
    (hfree : (sb.dinode s.disk i).type = 0) (hinode : t.inode = s.inode)
    (hw : InodeWritten sb i { Dinode.zero with type := type } s.disk t.disk) :
    Sound sb t ∧ node sb t.disk = Function.update (node sb s.disk) i (freshNode type) := by
  have hother (j : ℕ) (hj : j ≠ i) : sb.dinode t.disk j = sb.dinode s.disk j := by
    rw [hw.dinode, if_neg hj]
  have hself : sb.dinode t.disk i = { Dinode.zero with type := type } := by
    rw [hw.dinode, if_pos rfl]
  have href (r : Ref) : refAt sb (sb.dinode t.disk) t.disk r = refAt sb (sb.dinode s.disk) s.disk r := by
    by_cases hr : r.1 = i
    · have hnew : refAt sb (sb.dinode t.disk) t.disk r = 0 := by
        apply refAt_eq_zero
        intro _
        rw [hr, hself]
        rfl
      rw [hnew]
      symm
      apply refAt_eq_zero
      intro hl
      have htype := hl.2.2
      rw [hr] at htype
      exact absurd hfree htype
    · apply refAt_other (fun j hj _ => hother j hj) _ hr
      intro j _ hl h0
      exact hw.data _ (h.blocks.used_indirect hl h0).1
  have hext := h.blocks.extends_congr href hw.data (fun _ => True)
  have hlive (j : ℕ) (hj : j ≠ i) : Live sb (sb.dinode t.disk) j ↔ Live sb (sb.dinode s.disk) j := by
    unfold Live
    rw [hother j hj]
  have hblocks := (h.blocks.mono (Q := (· ≠ i)) fun _ _ => trivial).congr href
    (fun j hj hl => ⟨(hlive j hj).mp hl, by rw [hother j hj]⟩) hw.bit
  have hempty : (sb.dinode t.disk i).size.toNat = 0 := by
    rw [hself]
    rfl
  refine ⟨⟨h.cached.congr (fun e => by rw [hinode]) (fun e => by rw [hinode]), ?_, hblocks.metadata,
    hblocks.owned, ?_⟩, ?_⟩
  · intro e
    rw [hinode]
    intro hr hv
    obtain ⟨hdin, htype⟩ := h.synced e hr hv
    -- the entries that are loaded are not for a free inode
    have hne : (s.inode e).inum ≠ i := by
      rintro rfl
      rw [hdin] at htype
      exact htype hfree
    unfold Synced
    rw [hinode, hother _ hne]
    exact ⟨hdin, htype⟩
  · intro j _ hl
    by_cases hj : j = i
    · intro bn hbn
      rw [hj, hempty] at hbn
      omega
    · exact hblocks.filled j hj hl
  · funext j
    by_cases hj : j = i
    · subst hj
      rw [Function.update_self, freshNode]
      split_ifs with htype
      · refine node_eq_none.mpr fun hl => hl.2.2 ?_
        rw [hself]
        exact htype
      · have hl : Live sb (sb.dinode t.disk) j := ⟨hi.1, hi.2, by rw [hself]; exact htype⟩
        rw [node_of_live hl, content, hempty, hself]
        rfl
    · rw [Function.update_of_ne hj]
      by_cases hl : Live sb (sb.dinode s.disk) j
      · have hbytes : content sb t.disk j = content sb s.disk j := by
          unfold content
          rw [hother j hj]
          apply List.map_congr_left
          intro p hp
          apply hext.byteAt trivial
          apply h.blocks.filled j trivial hl
          have := List.mem_range.mp hp
          have := Nat.div_mul_le_self p BSIZE
          omega
        rw [node_of_live hl, node_of_live ((hlive j hj).mpr hl), hbytes, hother j hj]
      · rw [node_eq_none.mpr hl, node_eq_none.mpr (mt (hlive j hj).mp hl)]

theorem ialloc_exact (hF : F (.panic "ialloc: no inodes")) (hF' : F cacheFull) (h : Sound sb s)
    (type : BitVec 16) :
    wp F (ialloc sb type) (fun ip t => ∃ i u, (1 ≤ i ∧ i < sb.ninodes) ∧ node sb s.disk i = none ∧
      Sound sb u ∧ u.inode = s.inode ∧ node sb u.disk = Function.update (node sb s.disk) i (freshNode type) ∧
      Got sb i ip u t) s := by
  unfold ialloc
  rw [wp_bind, wp_get]
  split
  case h_1 => exact hF
  case h_2 i hfind =>
    have hfree := List.find?_some hfind
    simp only [decide_eq_true_eq] at hfree
    have hmem := List.mem_range'_1.mp (List.mem_of_find?_eq_some hfind)
    have hi : 1 ≤ i ∧ i < sb.ninodes := by omega
    rw [wp_bind]
    apply wp_mono (writeDinode_spec hi.2 _)
    rintro _ u ⟨hinode, hw⟩
    obtain ⟨hu, hnodes⟩ := h.ialloc hi hfree hinode hw
    apply wp_mono (iget_exact hF' hu hi)
    intro ip t hg
    exact ⟨i, u, hi, node_eq_none.mpr fun hl => hl.2.2 hfree, hu, hinode, hnodes, hg⟩

namespace Holds

theorem got (h : Holds sb H W s) (hg : Got sb i ip s t) : Holds sb (ip :: H) W t where
  inv := hg.sound.inv (by rw [hg.disk]; exact h.inv.dirsOk)
  refs e := by
    have hle := h.refs e
    by_cases he : e = ip
    · rw [he] at hle ⊢
      rw [hg.ref, List.count_cons_self]
      omega
    · rw [hg.other e he, List.count_cons_of_ne (Ne.symm he)]
      exact hle
  loaded e hW := by
    obtain ⟨hH, hv⟩ := h.loaded e hW
    refine ⟨List.mem_cons_of_mem _ hH, ?_⟩
    by_cases he : e = ip
    · rw [he] at hH hv ⊢
      rw [hg.hit (h.ref_pos hH), hv]
    · rw [hg.other e he, hv]

theorem locked (h : Holds sb H W s) (hip : ip ∈ H) (hl : Locked sb ip s t) : Holds sb H (ip :: W) t where
  inv := hl.sound.inv (by rw [hl.disk]; exact h.inv.dirsOk)
  refs e := by
    by_cases he : e = ip
    · rw [he, hl.self]
      exact h.refs ip
    · rw [hl.other e he]
      exact h.refs e
  loaded e he := by
    by_cases hei : e = ip
    · rw [hei, hl.self]
      exact ⟨hip, rfl⟩
    · rw [hl.other e hei]
      exact h.loaded e (List.mem_of_ne_of_mem hei he)

theorem unlocked (h : Holds sb H (ip :: W) s) :
    Holds sb H W (s.mapInode ip fun e => { e with locked := false }) where
  inv := by
    have hr := h.ref_pos (h.loaded ip List.mem_cons_self).1
    exact (h.inv.sound.mapInode_same hr rfl rfl rfl (h.inv.cached.nonneg ip)).inv h.inv.dirsOk
  refs e := by
    by_cases he : e = ip
    · rw [he, FS.mapInode_same]
      exact h.refs ip
    · rw [FS.mapInode_of_ne s he]
      exact h.refs e
  loaded e he := by
    by_cases hei : e = ip
    · rw [hei, FS.mapInode_same]
      exact h.loaded ip List.mem_cons_self
    · rw [FS.mapInode_of_ne s hei]
      exact h.loaded e (List.mem_cons_of_mem _ he)

theorem dropped (h : Holds sb (ip :: H) W s) (hW : ∀ e, e ∈ W → e ∈ H) (hd : Dropped sb ip s t) :
    Holds sb H W t where
  inv := by
    apply hd.sound.inv
    by_cases hlast : Last s ip
    · rw [hd.last hlast]
      exact h.inv.dirsOk.update fun _ hx => absurd hx (by simp)
    · rw [(hd.kept hlast).1]
      exact h.inv.dirsOk
  refs e := by
    have hle := h.refs e
    by_cases he : e = ip
    · rw [he, List.count_cons_self] at hle
      rw [he, hd.ref]
      omega
    · rw [List.count_cons_of_ne (Ne.symm he)] at hle
      rwa [hd.other e he]
  loaded e he := by
    refine ⟨hW e he, ?_⟩
    obtain ⟨-, hv⟩ := h.loaded e he
    by_cases hei : e = ip
    · rw [hei] at hv ⊢
      -- another reference to the entry is held, so it is not the last one
      have hlast : ¬Last s ip := by
        rintro ⟨-, -, hone⟩
        have hle := h.refs ip
        have hpos := List.count_pos_iff.mpr (hei ▸ hW e he)
        rw [List.count_cons_self] at hle
        omega
      rw [(hd.kept hlast).2, hv]
    · rw [hd.other e hei, hv]

theorem stored {nd : Node} (h : Holds sb H W s) (hst : Stored sb ip nd s t)
    (hdir : nd.type = T_DIR → NamesInodes sb nd.data) : Holds sb H W t where
  inv := by
    apply hst.sound.inv
    rw [hst.nodes]
    refine h.inv.dirsOk.update fun nd' hx => ?_
    rw [← Option.some.inj hx]
    exact hdir
  refs e := by
    by_cases he : e = ip
    · rw [he, hst.self]
      exact h.refs ip
    · rw [hst.other e he]
      exact h.refs e
  loaded e he := by
    refine ⟨(h.loaded e he).1, ?_⟩
    by_cases hei : e = ip
    · rw [hei, hst.self]
      exact (h.loaded ip (hei ▸ he)).2
    · rw [hst.other e hei]
      exact (h.loaded e he).2

end Holds

theorem noDoubleFree_cacheFull : NoDoubleFree cacheFull := noDoubleFree_panic (by decide)

theorem noDoubleFree_deadlock : NoDoubleFree .deadlock := Fault.noConfusion

theorem iget_spec (h : Holds sb H W s) (hi : 1 ≤ i ∧ i < sb.ninodes) :
    wp NoDoubleFree (iget i) (fun ip t => Holds sb (ip :: H) W t) s :=
  wp_mono (iget_exact noDoubleFree_cacheFull h.inv.sound hi) fun _ _ hg => h.got hg

theorem idup_spec (h : Holds sb H W s) (hip : ip ∈ H) :
    wp NoDoubleFree (idup ip) (fun r t => Holds sb (r :: H) W t) s := by
  apply wp_mono (idup_exact h.inv.sound (h.ref_pos hip))
  rintro _ t ⟨rfl, hg⟩
  exact h.got hg

theorem ilock_spec (h : Holds sb H W s) (hip : ip ∈ H) :
    wp NoDoubleFree (ilock sb ip)
      (fun _ t => Holds sb H (ip :: W) t ∧ t.disk = s.disk ∧
        (t.inode ip).inum = (s.inode ip).inum) s := by
  apply wp_mono (ilock_exact h.inv.sound (h.ref_pos hip) (fun _ => noDoubleFree_deadlock)
    fun _ => noDoubleFree_panic (by decide))
  intro _ t hl
  exact ⟨h.locked hip hl, hl.disk, by rw [hl.self]⟩

theorem iunlock_spec (h : Holds sb H (ip :: W) s) :
    wp NoDoubleFree (iunlock ip) (fun _ t => Holds sb H W t) s := by
  have hr := h.ref_pos (h.loaded ip List.mem_cons_self).1
  apply wp_mono (iunlock_exact hr fun _ => noDoubleFree_panic (by decide))
  rintro _ t rfl
  exact h.unlocked

theorem iput_spec (h : Holds sb (ip :: H) W s) (hW : ∀ e, e ∈ W → e ∈ H) :
    wp NoDoubleFree (iput sb ip) (fun _ t => Holds sb H W t) s :=
  wp_mono (iput_exact h.inv.sound (h.ref_pos List.mem_cons_self) fun _ => noDoubleFree_deadlock)
    fun _ _ hd => h.dropped hW hd

theorem iunlockput_spec (h : Holds sb (ip :: H) (ip :: W) s) (hW : ∀ e, e ∈ W → e ∈ H) :
    wp NoDoubleFree (iunlockput sb ip) (fun _ t => Holds sb H W t) s := by
  unfold iunlockput
  rw [wp_bind]
  apply wp_mono (iunlock_spec h)
  intro _ t ht
  exact iput_spec ht hW

theorem updateDin_spec {f : Dinode → Dinode} (h : Holds sb H W s) (hip : ip ∈ W)
    (hf : ∀ v, (f v).type = v.type ∧ (f v).size = v.size ∧ (f v).addrs = v.addrs) :
    wp NoDoubleFree (iupdate sb ip) (fun _ t => Holds sb H W t) (s.mapDin ip f) := by
  obtain ⟨hH, hv⟩ := h.loaded ip hip
  have hr := h.ref_pos hH
  apply wp_mono (updateDin_exact h.inv.sound hr hv hf)
  intro _ t hst
  apply h.stored hst
  intro hdir
  have hold := h.inv.dirsOk _ _ (h.inv.sound.node_self hr hv)
  exact hold ((hf _).1.symm.trans hdir)

theorem ialloc_spec (h : Holds sb H W s) (type : BitVec 16) :
    wp NoDoubleFree (ialloc sb type) (fun ip t => Holds sb (ip :: H) W t) s := by
  apply wp_mono (ialloc_exact (noDoubleFree_panic (by decide)) noDoubleFree_cacheFull h.inv.sound type)
  rintro ip t ⟨i, u, -, -, hu, hinode, hnodes, hg⟩
  have hdirs : DirsOk sb (node sb u.disk) := by
    rw [hnodes]
    refine h.inv.dirsOk.update fun nd hx _ => ?_
    unfold freshNode at hx
    split_ifs at hx
    rw [← Option.some.inj hx]
    exact namesInodes_nil
  have hholds : Holds sb H W u := ⟨hu.inv hdirs, by rw [hinode]; exact h.refs, by rw [hinode]; exact h.loaded⟩
  exact hholds.got hg

end ProvenXv6.Fs
