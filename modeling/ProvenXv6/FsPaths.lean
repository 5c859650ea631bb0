import ProvenXv6.FsDirs

namespace ProvenXv6.Fs
open LittleEndian WeakestPre

variable {sb : Superblock} {dev : Devsw} {H W : List Ip} {cwd dp ip : Ip} {s t : FS}

/-- The result of a path lookup: nothing, or one more reference. -/
def Resolved (sb : Superblock) (H W : List Ip) (r : Option (Ip × List Byte)) (t : FS) : Prop :=
  match r with
  | none => Holds sb H W t
  | some (ip, _) => Holds sb (ip :: H) W t

theorem namexLoop_spec {parent : Bool} {fuel : ℕ} {path name : List Byte}
    (h : Holds sb (ip :: H) W s) (hW : ∀ e, e ∈ W → e ∈ H) :
    wp NoDoubleFree (namexLoop sb dev parent fuel ip path name) (Resolved sb H W) s := by
  induction fuel generalizing s ip path name with
  | zero => exact Fault.noConfusion
  | succ fuel ih =>
    unfold namexLoop
    split
    case h_1 =>
      split_ifs
      · rw [wp_bind]
        apply wp_mono (iput_spec h hW)
        intro _ t ht
        exact ht
      · exact h
    case h_2 name path _ =>
      rw [wp_bind]
      apply wp_mono (ilock_spec h List.mem_cons_self)
      rintro _ t ⟨ht, -, -⟩
      rw [wp_bind, wp_getInode]
      split_ifs with hdir hlast
      · rw [wp_bind]
        apply wp_mono (iunlockput_spec ht hW)
        intro _ u hu
        exact hu
      · rw [wp_bind]
        apply wp_mono (iunlock_spec ht)
        intro _ u hu
        exact hu
      · rw [wp_bind]
        apply wp_mono (dirlookup_spec ht List.mem_cons_self)
        rintro (_ | ⟨next, off⟩) u ⟨-, hfound⟩
        · obtain rfl : u = t := hfound
          dsimp only
          rw [wp_bind]
          apply wp_mono (iunlockput_spec ht hW)
          intro _ v hv
          exact hv
        · -- the reference to the next directory is taken before this one is dropped
          have hu := hfound.1.perm (List.Perm.swap ..) (.refl _)
          dsimp only
          rw [wp_bind]
          apply wp_mono (iunlockput_spec hu fun e he => List.mem_cons_of_mem _ (hW e he))
          intro _ v hv
          exact ih hv

/-- The root is an inode of the table, since the current directory is one. -/
theorem namex_spec {parent : Bool} {path : List Byte} (h : Holds sb H W s) (hcwd : cwd ∈ H) :
    wp NoDoubleFree (namex sb dev cwd path parent) (Resolved sb H W) s := by
  have hW (e : Ip) (he : e ∈ W) : e ∈ H := (h.loaded e he).1
  have hroot : 1 ≤ ROOTINO ∧ ROOTINO < sb.ninodes := by
    have := h.inv.cached.range cwd (h.ref_pos hcwd)
    unfold ROOTINO
    omega
  unfold namex
  split_ifs
  · rw [wp_bind]
    apply wp_mono (iget_spec h hroot)
    intro ip t ht
    exact namexLoop_spec ht hW
  · rw [wp_bind]
    apply wp_mono (idup_spec h hcwd)
    intro ip t ht
    exact namexLoop_spec ht hW

theorem Holds.inum_lt (h : Holds sb H W s) (hip : ip ∈ H) : (s.inode ip).inum < sb.ninodes :=
  (h.inv.cached.range ip (h.ref_pos hip)).2

theorem createDots_spec {type : BitVec 16} (h : Holds sb H W s) (hdp : dp ∈ W) (hip : ip ∈ W) :
    wp NoDoubleFree (createDots sb dev type dp ip) (fun _ t => Holds sb H W t) s := by
  have hW (e : Ip) (he : e ∈ W) : e ∈ H := (h.loaded e he).1
  unfold createDots
  split_ifs
  · rw [wp_bind, wp_setDin, wp_bind]
    apply wp_mono (updateDin_spec h hdp (by intro _; exact ⟨rfl, rfl, rfl⟩))
    intro _ t ht
    rw [wp_bind, wp_getInode, wp_bind]
    apply wp_mono (dirlink_spec ht hip (ht.inum_lt (hW ip hip)))
    intro r u hu
    split_ifs
    · exact noDoubleFree_panic (by decide)
    · rw [wp_bind, wp_getInode, wp_bind]
      apply wp_mono (dirlink_spec hu hip (hu.inum_lt (hW dp hdp)))
      intro r v hv
      split_ifs
      · exact noDoubleFree_panic (by decide)
      · exact hv
  · exact h

theorem create_spec {path : List Byte} {type major minor : BitVec 16} (h : Holds sb H [] s)
    (hcwd : cwd ∈ H) :
    wp NoDoubleFree (create sb dev cwd path type major minor)
      (fun r t => match r with
        | none => Holds sb H [] t
        | some ip => Holds sb (ip :: H) [ip] t) s := by
  unfold create
  rw [wp_bind]
  apply wp_mono (namex_spec h hcwd)
  rintro (_ | ⟨dp, name⟩) t ht
  · exact ht
  have ht : Holds sb (dp :: H) [] t := ht
  dsimp only
  rw [wp_bind]
  apply wp_mono (ilock_spec ht List.mem_cons_self)
  rintro _ t ⟨ht, -, -⟩
  rw [wp_bind]
  apply wp_mono (dirlookup_spec ht List.mem_cons_self)
  rintro (_ | ⟨ip, off⟩) u ⟨-, hfound⟩
  · obtain rfl : u = t := hfound
    dsimp only
    rw [wp_bind]
    apply wp_mono (ialloc_spec ht type)
    intro ip t ht
    rw [wp_bind]
    apply wp_mono (ilock_spec ht List.mem_cons_self)
    rintro _ t ⟨ht, -, -⟩
    have hdp : dp ∈ [ip, dp] := List.mem_cons_of_mem _ List.mem_cons_self
    rw [wp_bind, wp_setDin, wp_bind]
    apply wp_mono (updateDin_spec ht List.mem_cons_self (by intro _; exact ⟨rfl, rfl, rfl⟩))
    intro _ t ht
    rw [wp_bind]
    apply wp_mono (createDots_spec ht hdp List.mem_cons_self)
    intro _ t ht
    rw [wp_bind, wp_getInode, wp_bind]
    apply wp_mono (dirlink_spec ht hdp (ht.inum_lt List.mem_cons_self))
    intro r t ht
    split_ifs
    · exact noDoubleFree_panic (by decide)
    · have ht := ht.perm (List.Perm.swap ..) (List.Perm.swap ..)
      rw [wp_bind]
      apply wp_mono (iunlockput_spec ht (by simp))
      intro _ t ht
      exact ht
  · have hu := hfound.1.perm (List.Perm.swap ..) (.refl _)
    dsimp only
    rw [wp_bind]
    apply wp_mono (iunlockput_spec hu (by simp))
    intro _ t ht
    rw [wp_bind]
    apply wp_mono (ilock_spec ht List.mem_cons_self)
    rintro _ t ⟨ht, -, -⟩
    rw [wp_bind, wp_getInode]
    split_ifs
    · exact ht
    · rw [wp_bind]
      apply wp_mono (iunlockput_spec ht (by simp))
      intro _ t ht
      exact ht

theorem isFullDir_spec (h : Holds sb H W s) (hip : ip ∈ W) :
    wp NoDoubleFree (isFullDir sb dev ip) (fun _ t => t = s) s := by
  unfold isFullDir
  rw [wp_bind, wp_getInode]
  split_ifs with hdir
  · have ho := h.openDir hip hdir
    rw [wp_bind]
    apply wp_mono (isdirempty_exact (k := 2) ho (fun _ => noDoubleFree_panic (by decide))
      (by rw [ho.size]; omega))
    rintro _ t ⟨rfl, -⟩
    exact rfl
  · exact rfl

theorem dirWriteOk_entry {d : Disk} {i off : ℕ} (src : ℕ → Byte) (h : WellFormed sb d)
    (hi : 1 ≤ i ∧ i < sb.ninodes) (halign : 16 ∣ off)
    (hsrc : (dirent ((List.range 16).map src)).1 < sb.ninodes) : DirWriteOk sb d i src off 16 := by
  intro hdir hoff
  obtain ⟨j, rfl⟩ := halign
  have hl : Live sb (sb.dinode d) i := ⟨hi.1, hi.2, by rw [hdir]; decide⟩
  have hold : NamesInodes sb (content sb d i) := (wellFormed_iff.mp h).2 i _ (node_of_live hl) hdir
  have hnew := hold.splice (by rwa [length_content]) hsrc
  rwa [content, splice_map_range _ _ hoff, namesInodes_map_range] at hnew

theorem removeDirent_spec {off : ℕ} (h : Holds sb H W s) (hdp : dp ∈ W) (halign : 16 ∣ off) :
    wp NoDoubleFree (removeDirent sb dev dp ip off) (fun _ t => Holds sb H W t) s := by
  have hrange := h.inv.cached.range dp (h.ref_pos (h.loaded dp hdp).1)
  have halign : 16 ∣ (BitVec.ofNat 32 off).toNat := by
    rw [BitVec.toNat_ofNat]
    omega
  have hok := dirWriteOk_entry (fun _ => 0) h.inv.disk hrange halign (show 0 < sb.ninodes by omega)
  unfold removeDirent
  rw [wp_bind]
  apply wp_mono (writei_spec h hdp hok)
  intro r t ht
  split_ifs
  · exact noDoubleFree_panic (by decide)
  · rw [wp_bind, wp_getInode]
    split_ifs
    · rw [wp_bind, wp_setDin]
      exact updateDin_spec ht hdp (by intro _; exact ⟨rfl, rfl, rfl⟩)
    · exact ht

theorem unlink_spec {path : List Byte} (h : Holds sb H [] s) (hcwd : cwd ∈ H) :
    wp NoDoubleFree (unlink sb dev cwd path) (fun _ t => Holds sb H [] t) s := by
  -- the ways out that drop the directory only
  have hbad (dp : Ip) (t : FS) (ht : Holds sb (dp :: H) [dp] t) :
      wp NoDoubleFree (do
          iunlockput sb dp
          pure (-1 : ℤ)) (fun _ t => Holds sb H [] t) t := by
    rw [wp_bind]
    apply wp_mono (iunlockput_spec ht (by simp))
    intro _ u hu
    exact hu
  unfold unlink
  rw [wp_bind]
  apply wp_mono (namex_spec h hcwd)
  rintro (_ | ⟨dp, name⟩) t ht
  · exact ht
  have ht : Holds sb (dp :: H) [] t := ht
  dsimp only
  rw [wp_bind]
  apply wp_mono (ilock_spec ht List.mem_cons_self)
  rintro _ t ⟨ht, -, -⟩
  split_ifs with hdots
  · exact hbad dp t ht
  rw [wp_bind]
  apply wp_mono (dirlookup_spec ht List.mem_cons_self)
  rintro (_ | ⟨ip, off⟩) u ⟨-, hfound⟩
  · obtain rfl : u = t := hfound
    exact hbad dp u ht
  obtain ⟨hu, halign⟩ := hfound
  dsimp only
  rw [wp_bind]
  apply wp_mono (ilock_spec hu List.mem_cons_self)
  rintro _ t ⟨ht, -, -⟩
  have hdp : dp ∈ [ip, dp] := List.mem_cons_of_mem _ List.mem_cons_self
  rw [wp_bind, wp_getInode]
  split_ifs with hnlink
  · exact noDoubleFree_panic (by decide)
  rw [wp_bind]
  apply wp_mono (isFullDir_spec ht List.mem_cons_self)
  rintro full u rfl
  split_ifs with hfull
  · rw [wp_bind]
    apply wp_mono (iunlockput_spec ht (by simp))
    intro _ t ht
    exact hbad dp t ht
  · rw [wp_bind]
    apply wp_mono (removeDirent_spec ht hdp halign)
    intro _ t ht
    have ht := ht.perm (List.Perm.swap ..) (List.Perm.swap ..)
    rw [wp_bind]
    apply wp_mono (iunlockput_spec ht (by simp))
    intro _ t ht
    rw [wp_bind, wp_setDin, wp_bind]
    apply wp_mono (updateDin_spec ht List.mem_cons_self (by intro _; exact ⟨rfl, rfl, rfl⟩))
    intro _ t ht
    rw [wp_bind]
    apply wp_mono (iunlockput_spec ht (by simp))
    intro _ t ht
    exact ht

end ProvenXv6.Fs
