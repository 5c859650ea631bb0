import ProvenXv6.FsOps
import ProvenXv6.StepSystem

namespace ProvenXv6.Fs
open LittleEndian Ownership WeakestPre StepSystem

/-- Every block number in a slot of an allocated inode is that of a data block in
use, and every data block in use is in one slot. -/
def OwnsBlocks (sb : Superblock) (d : Disk) : Prop :=
  (∀ r, refAt sb (sb.dinode d) d r ≠ 0 → Used sb d (refAt sb (sb.dinode d) d r)) ∧
    ∀ b, Used sb d b → ∃! r, refAt sb (sb.dinode d) d r = b

section
variable {sb : Superblock} {dev : Devsw} {s : FS} {d : Disk}

theorem WellFormed.ownsBlocks (h : WellFormed sb d) : OwnsBlocks sb d := by
  refine ⟨fun r hr => h.blocks.used_refAt hr, ?_⟩
  intro b hb
  obtain ⟨hne, r, rfl⟩ := (h.blocks.owned.used_iff b).mp hb
  refine ⟨r, rfl, ?_⟩
  intro q hq
  exact (h.blocks.owned.unique r q hne hq.symm).symm

/-- From a well-formed image, after any operations that complete, the bitmap and
the slots of the allocated inodes agree, and no operation frees a free block. -/
theorem blocks_owned (h : WellFormed sb d) {ops : List Op}
    (hrun : Run (step sb dev) (fun s op _ => Given sb s op ∧ KeepsDirs sb s op) (boot d) ops s) :
    OwnsBlocks sb s.disk ∧ ∀ op, Given sb s op → KeepsDirs sb s op →
      perform sb dev op s ≠ .error (.panic "freeing free block") := by
  have hinv : Inv sb s := hrun.invariant (inv_boot h) fun _ _ _ hi hs hop => inv_step hi hs hop
  refine ⟨hinv.disk.ownsBlocks, ?_⟩
  intro op hgiven hdirs herror
  exact wp_error (perform_spec op hinv hgiven hdirs) herror rfl

end

section Tiny

def tinySuperblock : Superblock := ⟨8, 4, 3, 2, 3, by decide, by decide, by decide, by decide⟩

def noDevices : Devsw := ⟨fun _ => none, fun _ => none⟩

def rootDinode : Dinode := ⟨T_DIR, 0, 0, 1, 16, Function.update (fun _ => 0) 0 4⟩

def staleDinode : Dinode := ⟨T_FILE, 0, 0, 1, 0, Function.update (fun _ => 0) 0 4⟩

/-- The disk whose root directory names inode x as "a". -/
def rootImage (x : Byte) : Disk := fun b j =>
  if b = 2 then
    if j/64 = 1 then rootDinode.encode (j%64) else if j/64 = 5 then staleDinode.encode (j%64) else 0
  else if b = 3 then if j = 0 then 0x1f else 0
  else if b = 4 then if j = 0 then x else if j = 2 then 97 else 0
  else 0

theorem rootImage_dinode (x : Byte) : tinySuperblock.dinode (rootImage x) 1 = rootDinode := by
  apply decode_of_encode
  intro j hj
  show (if (64+j)/64 = 1 then rootDinode.encode ((64+j)%64) else _) = rootDinode.encode j
  rw [if_pos (by omega), Nat.add_mod_left, Nat.mod_eq_of_lt hj]

theorem rootImage_live (x : Byte) (i : ℕ) :
    Live tinySuperblock (tinySuperblock.dinode (rootImage x)) i ↔ i = 1 := by
  constructor
  · rintro ⟨h1, h2, h3⟩
    have h2 : i < 3 := h2
    obtain rfl | rfl : i = 1 ∨ i = 2 := by omega
    · rfl
    · exact absurd rfl h3
  · rintro rfl
    refine ⟨le_rfl, by decide, ?_⟩
    rw [rootImage_dinode]
    decide

theorem rootImage_refAt (x : Byte) (r : Ref) :
    refAt tinySuperblock (tinySuperblock.dinode (rootImage x)) (rootImage x) r =
      if r = (1, .inl 0) then 4 else 0 := by
  have hl := (rootImage_live x 1).mpr rfl
  have haddrs : ∀ k, k ≠ 0 → rootDinode.addrs k = 0 := by decide
  by_cases hr : r.1 = 1
  · obtain ⟨i, k | j⟩ := r
    · obtain rfl : i = 1 := hr
      rw [refAt_inl hl, rootImage_dinode]
      by_cases hk : k = 0
      · rw [hk, if_pos rfl]
        rfl
      · rw [if_neg (by simpa using hk), haddrs k hk]
        rfl
    · obtain rfl : i = 1 := hr
      rw [if_neg (by simp)]
      by_contra hne
      apply indirect_ne_zero hne
      rw [rootImage_dinode]
      exact haddrs indirect (by decide)
  · have hzero : refAt tinySuperblock (tinySuperblock.dinode (rootImage x)) (rootImage x) r = 0 :=
      refAt_eq_zero fun hl => absurd ((rootImage_live x _).mp hl) hr
    rw [hzero, if_neg]
    rintro rfl
    exact hr rfl

theorem rootImage_bit (x : Byte) {b : ℕ} (hb : b < 8) :
    tinySuperblock.bit (rootImage x) b = decide (b < 5) := by
  have hall : ∀ c, c < 8 → getBit (fun j => if j = 0 then 0x1f else 0) c = decide (c < 5) := by
    decide
  have hblock : tinySuperblock.BBLOCK b = 3 := by
    unfold Superblock.BBLOCK BPB BSIZE
    have : tinySuperblock.bmapstart = 3 := rfl
    omega
  have hmod : b%BPB = b := Nat.mod_eq_of_lt (by unfold BPB BSIZE; omega)
  rw [← hall b hb, Superblock.bit, hblock, hmod]
  rfl

theorem rootImage_used (x : Byte) (b : ℕ) : Used tinySuperblock (rootImage x) b ↔ b = 4 := by
  constructor
  · rintro ⟨h1, h2, h3⟩
    have h1 : 4 ≤ b := h1
    rw [rootImage_bit x h2, decide_eq_true_eq] at h3
    omega
  · rintro rfl
    exact ⟨le_rfl, by decide, by rw [rootImage_bit x (by decide)]; rfl⟩

theorem rootImage_consistent (x : Byte) :
    Consistent tinySuperblock (tinySuperblock.dinode (rootImage x)) (rootImage x) (fun _ => True) where
  metadata b hb := by
    have hb : b < 4 := hb
    rw [rootImage_bit x (by omega), decide_eq_true (by omega)]
  owned := by
    constructor
    · intro r r' hne he
      simp only [rootImage_refAt] at hne he
      split_ifs at hne he with h1 h2
      · rw [h1, h2]
      · exact absurd rfl hne
    · intro b
      rw [rootImage_used]
      constructor
      · rintro rfl
        exact ⟨by decide, (1, .inl 0), by rw [rootImage_refAt, if_pos rfl]⟩
      · rintro ⟨hne, r, hr⟩
        rw [rootImage_refAt] at hr
        split_ifs at hr
        · exact hr.symm
        · exact absurd hr.symm hne
  filled i _ hl bn hbn := by
    obtain rfl := (rootImage_live x i).mp hl
    rw [rootImage_dinode] at hbn
    have hbn : bn*512 < 16 := hbn
    obtain rfl : bn = 0 := by omega
    rw [addr_of_lt (by decide), rootImage_refAt, if_pos (by decide)]
    decide

theorem rootImage_wellFormed : WellFormed tinySuperblock (rootImage 0) where
  blocks := rootImage_consistent 0
  dirs i hl _ k hk := by
    obtain rfl := (rootImage_live 0 i).mp hl
    rw [rootImage_dinode] at hk
    have hk : 16*k+16 ≤ 16 := hk
    obtain rfl : k = 0 := by omega
    decide +kernel

/-- What the image and the operations must keep about directories is needed for
the ownership of the blocks. First an image whose root directory names an inode
behind the table: `unlink` takes the bytes there for a file and frees its blocks.
Then an image without it, and a `writei` that makes the directory name that inode. -/
theorem unlink_frees_owned_block :
    (∃ ops s, Consistent tinySuperblock (tinySuperblock.dinode (rootImage 5)) (rootImage 5)
        (fun _ => True) ∧
      Run (step tinySuperblock noDevices)
        (fun s op _ => Given tinySuperblock s op ∧ KeepsDirs tinySuperblock s op)
        (boot (rootImage 5)) ops s ∧ ¬OwnsBlocks tinySuperblock s.disk) ∧
    ∃ ops s, WellFormed tinySuperblock (rootImage 0) ∧
      Run (step tinySuperblock noDevices) (fun s op _ => Given tinySuperblock s op)
        (boot (rootImage 0)) ops s ∧ ¬OwnsBlocks tinySuperblock s.disk := by
  have hnot (s : FS) (h4 : refAt tinySuperblock (tinySuperblock.dinode s.disk) s.disk (1, .inl 0) = 4)
      (hbit : tinySuperblock.bit s.disk 4 = false) : ¬OwnsBlocks tinySuperblock s.disk := by
    rintro ⟨hused, -⟩
    obtain ⟨-, -, h⟩ := hused (1, .inl 0) (by rw [h4]; decide)
    rw [h4, hbit] at h
    contradiction
  have hroot : ∃ s ∈ exec (guarded (step tinySuperblock noDevices)
      fun s op _ => Given tinySuperblock s op ∧ KeepsDirs tinySuperblock s op) (boot (rootImage 5))
      [.iget 1, .unlink ⟨0, by decide⟩ [47, 97]],
      refAt tinySuperblock (tinySuperblock.dinode s.disk) s.disk (1, .inl 0) = 4 ∧
        tinySuperblock.bit s.disk 4 = false := by
    decide +kernel
  have hwrite : ∃ s ∈ exec (guarded (step tinySuperblock noDevices)
      fun s op _ => Given tinySuperblock s op) (boot (rootImage 0))
      [.iget 1, .writei ⟨0, by decide⟩ (fun _ => 5) 0 1, .unlink ⟨0, by decide⟩ [47, 97]],
      refAt tinySuperblock (tinySuperblock.dinode s.disk) s.disk (1, .inl 0) = 4 ∧
        tinySuperblock.bit s.disk 4 = false := by
    decide +kernel
  obtain ⟨s, hs, href, hbit⟩ := hroot
  obtain ⟨t, ht, href', hbit'⟩ := hwrite
  exact ⟨⟨_, s, rootImage_consistent 5, run_guarded hs, hnot s href hbit⟩,
    ⟨_, t, rootImage_wellFormed, run_guarded ht, hnot t href' hbit'⟩⟩

/-- A file is created in the root directory and written, its name is removed and
its inode freed. -/
theorem blocks_owned_create_unlink :
    ∃ s t, Run (step tinySuperblock noDevices)
        (fun s op _ => Given tinySuperblock s op ∧ KeepsDirs tinySuperblock s op) (boot (rootImage 0))
        [.iget 1, .create ⟨0, by decide⟩ [47, 97] T_FILE 0 0, .writei ⟨1, by decide⟩ (fun _ => 7) 0 1] s ∧
      Used tinySuperblock s.disk 5 ∧ OwnsBlocks tinySuperblock s.disk ∧
      Run (step tinySuperblock noDevices)
        (fun s op _ => Given tinySuperblock s op ∧ KeepsDirs tinySuperblock s op) s
        [.unlink ⟨0, by decide⟩ [47, 97], .iput ⟨1, by decide⟩] t ∧
      ¬Used tinySuperblock t.disk 5 ∧ OwnsBlocks tinySuperblock t.disk := by
  have htrace : ∃ s ∈ exec (guarded (step tinySuperblock noDevices)
        fun s op _ => Given tinySuperblock s op ∧ KeepsDirs tinySuperblock s op) (boot (rootImage 0))
        [.iget 1, .create ⟨0, by decide⟩ [47, 97] T_FILE 0 0, .writei ⟨1, by decide⟩ (fun _ => 7) 0 1],
      tinySuperblock.bit s.disk 5 = true ∧
        ∃ t ∈ exec (guarded (step tinySuperblock noDevices)
          fun s op _ => Given tinySuperblock s op ∧ KeepsDirs tinySuperblock s op) s
          [.unlink ⟨0, by decide⟩ [47, 97], .iput ⟨1, by decide⟩], tinySuperblock.bit t.disk 5 = false := by
    decide +kernel
  obtain ⟨s, hs, hbit, t, ht, hbit'⟩ := htrace
  have hrun := run_guarded hs
  have hrun' := run_guarded ht
  refine ⟨s, t, hrun, ⟨by decide, by decide, hbit⟩, (blocks_owned rootImage_wellFormed hrun).1, hrun', ?_,
    (blocks_owned rootImage_wellFormed (hrun.append hrun')).1⟩
  rintro ⟨-, -, hused⟩
  rw [hbit'] at hused
  contradiction

end Tiny

end ProvenXv6.Fs
