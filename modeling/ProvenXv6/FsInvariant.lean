import ProvenXv6.FsTrunc

namespace ProvenXv6.Fs
open LittleEndian Ownership WeakestPre

def entryInum (sb : Superblock) (ino : ℕ → Dinode) (d : Disk) (i k : ℕ) : ℕ :=
  readLE (byteAt sb ino d i) (16*k) 2

/-- The entries of directory i name inodes of the table. -/
def EntriesOk (sb : Superblock) (ino : ℕ → Dinode) (d : Disk) (i : ℕ) : Prop :=
  ∀ k, 16*k+16 ≤ (ino i).size.toNat → entryInum sb ino d i k < sb.ninodes

/-- A disk whose bitmap agrees with its inodes, without holes in files, and whose
directories name inodes of the table. -/
structure WellFormed (sb : Superblock) (d : Disk) : Prop where
  blocks : Consistent sb (sb.dinode d) d (fun _ => True)
  dirs : ∀ i, Live sb (sb.dinode d) i → (sb.dinode d i).type = T_DIR → EntriesOk sb (sb.dinode d) d i

/-- The inode cache agrees with the disk, and the bitmap with the inodes. -/
structure Sound (sb : Superblock) (s : FS) : Prop where
  cached : Cached sb s
  synced : ∀ e, 0 < (s.inode e).ref → (s.inode e).valid = true → Synced sb s e
  blocks : Consistent sb (sb.dinode s.disk) s.disk (fun _ => True)

structure Inv (sb : Superblock) (s : FS) : Prop where
  cached : Cached sb s
  synced : ∀ e, 0 < (s.inode e).ref → (s.inode e).valid = true → Synced sb s e
  disk : WellFormed sb s.disk

section
variable {sb : Superblock} {ip : Ip} {s t : FS}

theorem view_eq (h : (s.inode ip).din = sb.dinode s.disk (s.inode ip).inum) :
    view sb ip s = sb.dinode s.disk := by
  unfold view
  rw [h, Function.update_eq_self]

theorem Sound.opened (h : Sound sb s) (hr : 0 < (s.inode ip).ref) (hv : (s.inode ip).valid = true) :
    Opened sb ip s where
  cached := h.cached
  held := hr
  synced e _ := h.synced e
  blocks := by
    rw [view_eq (h.synced ip hr hv).1]
    exact h.blocks.mono fun _ _ => trivial

theorem Inv.sound (h : Inv sb s) : Sound sb s := ⟨h.cached, h.synced, h.disk.blocks⟩

end

/-- The entries H are referred to, those in W are locked and loaded as well. -/
structure Holds (sb : Superblock) (H W : List Ip) (s : FS) : Prop where
  inv : Inv sb s
  refs : ∀ e, (H.count e : ℤ) ≤ (s.inode e).ref
  loaded : ∀ e, e ∈ W → e ∈ H ∧ (s.inode e).valid = true

namespace Holds
variable {sb : Superblock} {H W : List Ip} {ip : Ip} {s t : FS}

theorem ref_pos (h : Holds sb H W s) (hip : ip ∈ H) : 0 < (s.inode ip).ref := by
  have hcount := List.count_pos_iff.mpr hip
  have := h.refs ip
  omega

theorem synced (h : Holds sb H W s) (hip : ip ∈ W) : Synced sb s ip :=
  h.inv.synced ip (h.ref_pos (h.loaded ip hip).1) (h.loaded ip hip).2

theorem perm {H' W' : List Ip} (h : Holds sb H W s) (hH : H.Perm H') (hW : W.Perm W') :
    Holds sb H' W' s where
  inv := h.inv
  refs e := by
    rw [← hH.count_eq e]
    exact h.refs e
  loaded e he := by
    obtain ⟨hmem, hv⟩ := h.loaded e (hW.mem_iff.mpr he)
    exact ⟨hH.mem_iff.mp hmem, hv⟩

end Holds

end ProvenXv6.Fs
