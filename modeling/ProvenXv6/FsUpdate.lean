import ProvenXv6.FsBmap

namespace ProvenXv6.Fs
open Ownership WeakestPre

/-- From d to d' only the inode i of the table changes. -/
structure InodeWritten (sb : Superblock) (i : ℕ) (v : Dinode) (d d' : Disk) : Prop where
  bit : ∀ c, sb.bit d' c = sb.bit d c
  dinode : ∀ j, sb.dinode d' j = if j = i then v else sb.dinode d j
  data : ∀ a, sb.datastart ≤ a → d' a = d a

section Tables
variable {sb : Superblock} {ino ino' : ℕ → Dinode} {d d' : Disk} {P : ℕ → Prop}

theorem Consistent.congr (h : Consistent sb ino d P)
    (href : ∀ r, refAt sb ino' d' r = refAt sb ino d r)
    (hP : ∀ i, P i → Live sb ino' i → Live sb ino i ∧ (ino' i).size = (ino i).size)
    (hbit : ∀ c, sb.bit d' c = sb.bit d c) : Consistent sb ino' d' P where
  metadata b hb := by
    rw [hbit b]
    exact h.metadata b hb
  owned := by
    apply h.owned.congr href
    intro c
    unfold Used
    rw [hbit c]
  filled i hi hl bn hbn := by
    obtain ⟨hl, hsize⟩ := hP i hi hl
    rw [addr_congr (fun r _ => href r)]
    apply h.filled i hi hl
    rwa [← hsize]

theorem Consistent.refAt_congr (h : Consistent sb ino d P)
    (hino : ∀ j, j < sb.ninodes → ino' j = ino j) (hdata : ∀ a, sb.datastart ≤ a → d' a = d a)
    (r : Ref) : refAt sb ino' d' r = refAt sb ino d r := by
  apply Fs.refAt_congr
  · exact live_congr (fun j hj => by rw [hino j hj]) r.1
  · intro hl
    rw [hino _ hl.2.1]
  · intro hl h0
    exact hdata _ (h.used_indirect hl h0).1

theorem Consistent.extends_congr (h : Consistent sb ino d P)
    (href : ∀ r, refAt sb ino' d' r = refAt sb ino d r)
    (hdata : ∀ a, sb.datastart ≤ a → d' a = d a) (Q : ℕ → Prop) : Extends sb Q ino d ino' d' := by
  intro i _ bn ha
  exact ⟨addr_congr (fun r _ => href r) bn, hdata _ (h.used_addr ha).1⟩

end Tables

/-- From s to t only the file of entry ip and its copy in the entry change. -/
structure Local (sb : Superblock) (ip : Ip) (s t : FS) : Prop where
  other : ∀ e, e ≠ ip → t.inode e = s.inode e
  self : t.inode ip = { s.inode ip with din := (t.inode ip).din }
  dinode : ∀ j, j ≠ (s.inode ip).inum → j < sb.ninodes → sb.dinode t.disk j = sb.dinode s.disk j
  keeps : Extends sb (· ≠ (s.inode ip).inum) (sb.dinode s.disk) s.disk (sb.dinode t.disk) t.disk

section
variable {sb : Superblock} {ip : Ip} {s t u : FS} {d : Disk} {F : Fault → Prop}

namespace Local

theorem inum (h : Local sb ip s t) : (t.inode ip).inum = (s.inode ip).inum := by rw [h.self]

theorem trans (h : Local sb ip s t) (h' : Local sb ip t u) : Local sb ip s u where
  other e he := (h'.other e he).trans (h.other e he)
  self := by rw [h'.self, h.self]
  dinode j hj hlt := by
    rw [h'.dinode j (by rw [h.inum]; exact hj) hlt, h.dinode j hj hlt]
  keeps := by
    have hk := h'.keeps
    rw [h.inum] at hk
    exact h.keeps.trans hk

end Local

theorem addr_view {i : ℕ} (hi : i ≠ (s.inode ip).inum) (bn : ℕ) :
    addr sb (view sb ip s) d i bn = addr sb (sb.dinode s.disk) d i bn := by
  apply addr_congr
  rintro r rfl
  have hview : view sb ip s r.1 = sb.dinode s.disk r.1 := Function.update_of_ne hi ..
  apply Fs.refAt_congr
  · unfold Live
    rw [hview]
  · intro _
    rw [hview]
  · intro _ _
    rfl

theorem Remapped.local {P : ℕ → Prop} (h : Remapped sb P ip s t)
    (hP : ∀ i, i ≠ (s.inode ip).inum → P i) : Local sb ip s t where
  other e he := h.other he
  self := by
    rw [h.self]
  dinode j _ hlt := h.dinode j hlt
  keeps := by
    intro i hi bn ha
    rw [← addr_view hi] at ha ⊢
    rw [← addr_view (by rw [h.inum ip]; exact hi)]
    exact h.keeps i (hP i hi) bn ha

theorem local_mapDin {f : Dinode → Dinode} :
    Local sb ip s (s.mapDin ip f) where
  other e he := FS.mapDin_of_ne s he _
  self := by
    rw [FS.mapDin_same]
  dinode _ _ _ := rfl
  keeps := .refl

theorem writeDinode_spec {i : ℕ} (hi : i < sb.ninodes) (v : Dinode) :
    wp F (writeDinode sb i v)
      (fun _ t => t.inode = s.inode ∧ InodeWritten sb i v s.disk t.disk) s := by
  unfold writeDinode
  rw [wp_bind, wp_bread, wp_logWrite, FS.put_disk]
  refine ⟨rfl, ?_, fun j => sb.dinode_write s.disk i j v, ?_⟩
  · intro c
    have := sb.IBLOCK_lt_BBLOCK hi c
    rw [sb.bit_update _ (by omega)]
  · intro a ha
    have := sb.IBLOCK_lt hi
    rw [Function.update_of_ne (by omega)]

theorem iupdate_spec (h : Opened sb ip s) :
    wp F (iupdate sb ip)
      (fun _ t => t.inode = s.inode ∧ Opened sb ip t ∧ Local sb ip s t ∧
        sb.dinode t.disk (s.inode ip).inum = (s.inode ip).din ∧
        ∀ a, sb.datastart ≤ a → t.disk a = s.disk a) s := by
  have hrange := (h.cached.range ip h.held).2
  unfold iupdate
  rw [wp_bind, wp_getInode]
  apply wp_mono (writeDinode_spec hrange _)
  rintro _ t ⟨hinode, hw⟩
  have hview (j : ℕ) : view sb ip t j = view sb ip s j := by
    unfold view
    rw [hinode]
    by_cases hj : j = (s.inode ip).inum
    · rw [hj, Function.update_self, Function.update_self]
    · rw [Function.update_of_ne hj, Function.update_of_ne hj, hw.dinode, if_neg hj]
  have href := h.blocks.refAt_congr (fun j _ => hview j) hw.data
  have hcached := h.cached.congr (t := t) (fun e => by rw [hinode]) (fun e => by rw [hinode])
  refine ⟨hinode, ⟨hcached, by rw [hinode]; exact h.held, ?_, ?_⟩, ⟨?_, ?_, ?_, ?_⟩, ?_, hw.data⟩
  · intro e he
    rw [hinode]
    intro hr hv
    obtain ⟨hs1, hs2⟩ := h.synced e he hr hv
    -- no two entries are for one inode
    have hne : (s.inode e).inum ≠ (s.inode ip).inum := fun hi =>
      he (h.cached.unique e ip hr h.held hi)
    unfold Synced
    rw [hinode, hw.dinode, if_neg hne]
    exact ⟨hs1, hs2⟩
  · rw [hinode]
    apply h.blocks.congr href _ hw.bit
    intro i _ hl
    unfold Live at hl ⊢
    rw [hview] at hl ⊢
    exact ⟨hl, rfl⟩
  · intro e _
    rw [hinode]
  · rw [hinode]
  · intro j hj _
    rw [hw.dinode, if_neg hj]
  · intro i hi bn ha
    rw [← addr_view hi] at ha ⊢
    rw [← addr_view (by rw [hinode]; exact hi)]
    exact h.blocks.extends_congr href hw.data (fun _ => True) i trivial bn ha
  · rw [hw.dinode, if_pos rfl]

theorem Opened.mapDin {f : Dinode → Dinode} (h : Opened sb ip s)
    (href : ∀ r : Ref, r.1 = (s.inode ip).inum →
      refAt sb (view sb ip (s.mapDin ip f)) s.disk r =
        refAt sb (view sb ip s) s.disk r) :
    Opened sb ip (s.mapDin ip f) := by
  generalize hu : s.mapDin ip f = u at href ⊢
  have hself : u.inode ip = { s.inode ip with din := f (s.inode ip).din } := by
    rw [← hu, FS.mapDin_same]
  have hother (e : Ip) (he : e ≠ ip) : u.inode e = s.inode e := by
    rw [← hu, FS.mapDin_of_ne s he]
  have hdisk : u.disk = s.disk := by rw [← hu, FS.mapDin_disk]
  have hinum (e : Ip) : (u.inode e).inum = (s.inode e).inum := by
    by_cases he : e = ip
    · rw [he, hself]
    · rw [hother e he]
  have hrefs (e : Ip) : (u.inode e).ref = (s.inode e).ref := by
    by_cases he : e = ip
    · rw [he, hself]
    · rw [hother e he]
  have hview (j : ℕ) (hj : j ≠ (s.inode ip).inum) : view sb ip u j = view sb ip s j := by
    unfold view
    rw [hinum, hdisk, Function.update_of_ne hj, Function.update_of_ne hj]
  refine ⟨h.cached.congr hinum hrefs, by rw [hrefs]; exact h.held, ?_, ?_⟩
  · intro e he
    unfold Synced
    rw [hother e he, hdisk]
    exact h.synced e he
  · rw [hinum, hdisk]
    apply h.blocks.congr _ _ (fun _ => rfl)
    · intro r
      by_cases hr : r.1 = (s.inode ip).inum
      · exact href r hr
      · exact refAt_other (fun j hj _ => hview j hj) (fun _ _ _ _ => rfl) hr
    · intro i hi hl
      unfold Live at hl ⊢
      rw [hview i hi] at hl ⊢
      exact ⟨hl, rfl⟩

theorem view_mapDin (f : Dinode → Dinode) :
    view sb ip (s.mapDin ip f) (s.inode ip).inum =
      f (s.inode ip).din := by
  unfold view
  rw [FS.mapDin_same]
  exact Function.update_self ..

theorem Opened.mapDin_of_same {f : Dinode → Dinode} (h : Opened sb ip s)
    (htype : (f (s.inode ip).din).type = (s.inode ip).din.type)
    (haddrs : (f (s.inode ip).din).addrs = (s.inode ip).din.addrs) :
    Opened sb ip (s.mapDin ip f) := by
  apply h.mapDin
  intro r hr
  apply Fs.refAt_congr
  · unfold Live
    rw [hr, view_mapDin, view_self, htype]
  · intro _
    rw [hr, view_mapDin, view_self, haddrs]
  · intro _ _
    rfl

theorem storeDin_spec {f : Dinode → Dinode} (h : Opened sb ip s)
    (htype : (f (s.inode ip).din).type = (s.inode ip).din.type)
    (haddrs : (f (s.inode ip).din).addrs = (s.inode ip).din.addrs) :
    wp F (iupdate sb ip)
      (fun _ t => Opened sb ip t ∧ Local sb ip s t ∧ (t.inode ip).din = f (s.inode ip).din ∧
        sb.dinode t.disk (s.inode ip).inum = f (s.inode ip).din ∧
        Extends sb (fun _ => True) (view sb ip s) s.disk (view sb ip t) t.disk) (s.mapDin ip f) := by
  apply wp_mono (iupdate_spec (h.mapDin_of_same (f := f) htype haddrs))
  rintro _ t ⟨hinode, hopen, hloc', hdisk, hdata⟩
  have hloc := local_mapDin.trans hloc'
  have hdin : (t.inode ip).din = f (s.inode ip).din := by rw [hinode, FS.mapDin_same]
  refine ⟨hopen, hloc, hdin, ?_, ?_⟩
  · rw [FS.mapDin_same] at hdisk
    exact hdisk
  · intro i _ bn ha
    by_cases hi : i = (s.inode ip).inum
    · refine ⟨?_, hdata _ (h.blocks.used_addr ha).1⟩
      apply addr_congr
      intro r hr
      have hview : view sb ip t r.1 = f (s.inode ip).din := by
        rw [hr, hi, ← hloc.inum, view_self, hdin]
      apply Fs.refAt_congr
      · unfold Live
        rw [hview, hr, hi, view_self, htype]
      · intro _
        rw [hview, hr, hi, view_self, haddrs]
      · intro hl h0
        exact hdata _ (h.blocks.used_indirect hl h0).1
    · rw [addr_view hi] at ha ⊢
      rw [addr_view (by rw [hloc.inum]; exact hi)]
      exact hloc.keeps i hi bn ha

end

end ProvenXv6.Fs
