import ProvenXv6.FsOwnership
import ProvenXv6.KernWrite

namespace ProvenXv6.Kern
open WeakestPre
open Fs (Byte Superblock Devsw FS outOfBlocks MAXFILE BSIZE)

section
variable {sb : Superblock} {dev : Devsw} {pipewrite : ℕ → (ℕ → Byte) → ℤ → JourM ℤ} {f : FilePtr}
  {addr : ℕ → Byte} {n : ℕ} {j t : Journal} {F : Stop → Prop}

def Journal.size (sb : Superblock) (j : Journal) (f : FilePtr) : ℕ :=
  (sb.dinode j.kern.fs.disk (j.inum f)).size.toNat

theorem length_content : (j.content sb f).length = j.size sb f := Fs.length_content

/-- `filewrite` returned r for n bytes: all are written, or nothing has changed. -/
def Agrees (sb : Superblock) (f : FilePtr) (n : ℕ) (j : Journal) (r : ℤ) (t : Journal) : Prop :=
  r = n ∧ t.off f = j.off f+n ∨
    r = -1 ∧ t.off f = j.off f ∧ t.size sb f = j.size sb f ∧ t.content sb f = j.content sb f

/-- The first chunk fits into the largest file, but not all n bytes. -/
def CutShort (sb : Superblock) (f : FilePtr) (n : ℕ) (j : Journal) : Prop :=
  (j.kern.file f).writable = true ∧ j.off f ≤ j.size sb f ∧
    j.off f+maxWrite ≤ MAXFILE*BSIZE ∧ MAXFILE*BSIZE < j.off f+n

theorem Moved.agrees (h : Moved sb f j (j.content sb f) (j.off f) t) : Agrees sb f n j (-1) t :=
  Or.inr ⟨rfl, h.off, by rw [← length_content, ← length_content, h.content], h.content⟩

theorem wp_filewrite {Q : ℤ → Journal → Prop} (h : OpenFile sb f j) (hw : (j.kern.file f).writable = true) :
    wp F (filewrite sb dev pipewrite f addr n) Q j ↔ wp F (writeChunks sb dev f addr n (n+1) 0)
      (fun i t => Q (if i = n then n else -1) t) j := by
  unfold filewrite
  rw [wp_bind, wp_onKern, wp_getFile, if_neg (by rw [hw]; decide), h.type]
  simp only [wp_bind, wp_pure, Int.toNat_natCast]

section Stops
variable {k : ℕ} (ht : WrittenTo sb f addr n j k t)

include ht

theorem WrittenTo.fits_iff (hk : 0 < k ∨ j.off f ≤ j.size sb f) (m : ℕ) :
    Fits sb f t m ↔ j.off f+k+m ≤ MAXFILE*BSIZE := by
  have hoff : j.off f ≤ (j.content sb f).length := hk.elim (fun h => (ht.fits h).1.1) fun h => by rwa [length_content]
  unfold Fits
  rw [ht.content, ht.off, Fs.length_splice _ hoff]
  omega

/-- A loop that stops at once because the first chunk does not fit has not changed anything. -/
theorem WrittenTo.not_cutShort (hk : k = 0) (hstop : k < n → ¬Fits sb f t (chunk n k)) : ¬CutShort sb f n j := by
  rintro ⟨-, hoff, hfirst, hend⟩
  have hmax : maxWrite = 1536 := by decide
  refine hstop (by omega) ((ht.fits_iff (Or.inr hoff) _).mpr ?_)
  unfold chunk
  omega

theorem WrittenTo.cutShort (hw : (j.kern.file f).writable = true) (hk : 0 < k) (hlt : k < n)
    (hstop : ¬Fits sb f t (chunk n k)) : CutShort sb f n j := by
  obtain ⟨⟨hoff, hfit⟩, hfirst⟩ := ht.fits hk
  rw [ht.fits_iff (Or.inl hk)] at hstop
  unfold chunk at hfirst hstop
  exact ⟨hw, by rwa [← length_content], by omega, by omega⟩

end Stops

/-- `filewrite` returns n with the offset advanced by n or -1 with nothing changed, unless the file
reaches its largest size behind the first chunk. -/
theorem filewrite_agrees_iff (h : OpenFile sb f j) (hn : n < 0x80000000) :
    wp (· = .fs outOfBlocks) (filewrite sb dev pipewrite f addr n)
      (fun r t => Agrees sb f n j r t ↔ ¬CutShort sb f n j) j := by
  by_cases hw : (j.kern.file f).writable = true
  swap
  · unfold filewrite
    rw [wp_bind, wp_onKern, wp_getFile, if_pos (Bool.eq_false_of_not_eq_true hw)]
    exact iff_of_true (Or.inr ⟨rfl, rfl, rfl, rfl⟩) fun hc => hw hc.1
  rw [wp_filewrite h hw]
  apply wp_mono (writeChunks_spec h (by omega))
  rintro _ t ⟨k, rfl, hk, ht, hstop⟩
  rcases Nat.lt_or_ge k n with hlt | hge
  · rw [if_neg (by omega)]
    rcases Nat.eq_zero_or_pos k with rfl | hpos
    · have hback : Moved sb f j (j.content sb f) (j.off f) t := by
        have := ht.toMoved
        rwa [Fs.splice_zero] at this
      exact iff_of_true hback.agrees (ht.not_cutShort rfl hstop)
    · -- the chunks before the one that failed stay written
      refine iff_of_false ?_ (not_not.mpr (ht.cutShort hw hpos hlt (hstop hlt)))
      rintro (⟨hr, -⟩ | ⟨-, hoff, -⟩)
      · omega
      · rw [ht.off] at hoff
        omega
  · obtain rfl : k = n := by omega
    rw [if_pos rfl]
    refine iff_of_true (Or.inl ⟨rfl, ht.off⟩) ?_
    rintro ⟨-, -, hfirst, hend⟩
    have hpos : 0 < k := by omega
    have := (ht.fits hpos).1.2
    omega

end

end ProvenXv6.Kern

namespace ProvenXv6.Fs
open LittleEndian

def largeSuperblock : Superblock where
  size := 146
  nblocks := 142
  ninodes := 3
  inodestart := 2
  bmapstart := 3
  inodes_lt := tinySuperblock.inodes_lt
  bitmap_lt b hb := by
    unfold BPB BSIZE
    omega
  nonempty := by decide
  fits := by decide

/-- The file has the blocks 5 to 16, and those whose numbers are in block 17. -/
def largeDinode : Dinode := ⟨T_FILE, 0, 0, 1, 71680, fun k => BitVec.ofNat 32 (5+k)⟩

def largeImage : Disk := fun b j =>
  if b = 2 then
    if j/64 = 1 then rootDinode.encode (j%64) else if j/64 = 2 then largeDinode.encode (j%64) else 0
  else if b = 3 then 0xff
  else if b = 4 then if j = 0 then 2 else if j = 2 then 97 else 0
  else if b = 17 then byteLE (18+j/4) (j%4)
  else 0

theorem largeImage_dinode_root : largeSuperblock.dinode largeImage 1 = rootDinode := by
  apply decode_of_encode
  intro j hj
  show (if (64+j)/64 = 1 then rootDinode.encode ((64+j)%64) else _) = rootDinode.encode j
  rw [if_pos (by omega), Nat.add_mod_left, Nat.mod_eq_of_lt hj]

theorem largeImage_dinode : largeSuperblock.dinode largeImage 2 = largeDinode := by
  apply decode_of_encode
  intro j hj
  show (if (128+j)/64 = 1 then _ else if (128+j)/64 = 2 then largeDinode.encode ((128+j)%64) else _) =
    largeDinode.encode j
  rw [if_neg (by omega), if_pos (by omega)]
  congr 1
  omega

theorem largeImage_live (i : ℕ) :
    Live largeSuperblock (largeSuperblock.dinode largeImage) i ↔ i = 1 ∨ i = 2 := by
  constructor
  · rintro ⟨h1, h2, -⟩
    have h2 : i < 3 := h2
    omega
  · rintro (rfl | rfl)
    · exact ⟨by decide, by decide, by rw [largeImage_dinode_root]; decide⟩
    · exact ⟨by decide, by decide, by rw [largeImage_dinode]; decide⟩

/-- Where the block numbers of the image are. -/
def largeRef : Ref → ℕ
  | (i, .inl k) => if i = 1 ∧ k.val = 0 then 4 else if i = 2 then 5+k else 0
  | (i, .inr j) => if i = 2 then 18+j else 0

theorem largeImage_word (j : Fin NINDIRECT) : (getWord (largeImage 17) j).toNat = 18+j := by
  have hj : j.val < 128 := j.isLt
  have hbytes : readLE (largeImage 17) (4*j) 4 = (18+j)%256^4 := by
    apply readLE_of_bytes
    intro k hk
    show byteLE (18+(4*j+k)/4) ((4*j+k)%4) = byteLE (18+j) k
    congr 1 <;> omega
  rw [getWord, hbytes, BitVec.toNat_ofNat]
  omega

theorem largeImage_refAt (r : Ref) :
    refAt largeSuperblock (largeSuperblock.dinode largeImage) largeImage r = largeRef r := by
  have h1 := (largeImage_live 1).mpr (Or.inl rfl)
  have h2 := (largeImage_live 2).mpr (Or.inr rfl)
  obtain ⟨i, k⟩ := r
  by_cases hi : i = 1 ∨ i = 2
  swap
  · rw [refAt_eq_zero fun hl => absurd ((largeImage_live _).mp hl) hi]
    cases k <;> simp only [largeRef] <;> split_ifs <;> omega
  rcases hi with rfl | rfl
  · cases k with
    | inl k =>
      have haddrs : ∀ k, (rootDinode.addrs k).toNat = if k.val = 0 then 4 else 0 := by decide
      rw [refAt_inl h1, largeImage_dinode_root, haddrs]
      simp [largeRef]
    | inr j =>
      by_contra hne
      apply indirect_ne_zero hne
      rw [largeImage_dinode_root]
      decide
  · cases k with
    | inl k =>
      have haddrs : ∀ k, (largeDinode.addrs k).toNat = 5+k.val := by decide
      rw [refAt_inl h2, largeImage_dinode, haddrs]
      simp only [largeRef]
      split_ifs <;> omega
    | inr j =>
      rw [refAt_inr h2 (by rw [largeImage_dinode]; decide), largeImage_dinode]
      exact largeImage_word j

theorem largeImage_bit {b : ℕ} (hb : b < 146) : largeSuperblock.bit largeImage b = true := by
  have hblock : largeSuperblock.BBLOCK b = 3 := by
    unfold Superblock.BBLOCK BPB BSIZE
    have : largeSuperblock.bmapstart = 3 := rfl
    omega
  have hall : ∀ k, k < 8 → (0xff : Byte).getLsbD k = true := by decide
  rw [Superblock.bit, hblock]
  exact hall _ (Nat.mod_lt _ (by decide))

theorem largeImage_used (b : ℕ) : Used largeSuperblock largeImage b ↔ 4 ≤ b ∧ b < 146 := by
  constructor
  · rintro ⟨h1, h2, -⟩
    exact ⟨h1, h2⟩
  · rintro ⟨h1, h2⟩
    exact ⟨h1, h2, largeImage_bit h2⟩

theorem largeRef_inj {r r' : Ref} (hne : largeRef r ≠ 0) (he : largeRef r = largeRef r') : r = r' := by
  obtain ⟨i, k | j⟩ := r <;> obtain ⟨i', k' | j'⟩ := r' <;> simp only [largeRef] at hne he
  · have : k.val < 13 := k.isLt
    have : k'.val < 13 := k'.isLt
    obtain ⟨rfl, hk⟩ : i = i' ∧ k.val = k'.val := by split_ifs at hne he <;> omega
    rw [Fin.ext hk]
  · have : k.val < 13 := k.isLt
    split_ifs at hne he <;> omega
  · have : k'.val < 13 := k'.isLt
    split_ifs at hne he <;> omega
  · obtain ⟨rfl, hj⟩ : i = i' ∧ j.val = j'.val := by split_ifs at hne he <;> omega
    rw [Fin.ext hj]

theorem largeRef_onto {b : ℕ} (h1 : 4 ≤ b) (h2 : b < 146) : ∃ r, largeRef r = b := by
  rcases Nat.lt_or_ge b 5 with h | h
  · exact ⟨(1, .inl ⟨0, by decide⟩), by rw [largeRef, if_pos ⟨rfl, rfl⟩]; omega⟩
  rcases Nat.lt_or_ge b 18 with h' | h'
  · refine ⟨(2, .inl ⟨b-5, by unfold NDIRECT; omega⟩), ?_⟩
    rw [largeRef, if_neg (by omega), if_pos rfl]
    exact Nat.add_sub_of_le h
  · refine ⟨(2, .inr ⟨b-18, by unfold NINDIRECT BSIZE; omega⟩), ?_⟩
    rw [largeRef, if_pos rfl]
    exact Nat.add_sub_of_le h'

theorem largeImage_consistent :
    Consistent largeSuperblock (largeSuperblock.dinode largeImage) largeImage (fun _ => True) where
  metadata b hb := by
    have hb : b < 4 := hb
    exact largeImage_bit (by omega)
  owned := by
    constructor
    · intro r r' hne he
      rw [largeImage_refAt] at hne
      rw [largeImage_refAt, largeImage_refAt] at he
      exact largeRef_inj hne he
    · intro b
      simp only [largeImage_used, largeImage_refAt]
      constructor
      · rintro ⟨h1, h2⟩
        exact ⟨by omega, largeRef_onto h1 h2⟩
      · rintro ⟨hne, ⟨i, k | j⟩, rfl⟩ <;> simp only [largeRef] at hne ⊢
        · have : k.val < 13 := k.isLt
          split_ifs at hne ⊢ <;> omega
        · have : j.val < 128 := j.isLt
          split_ifs at hne ⊢ <;> omega
  filled i _ hl bn hbn := by
    have hmax : MAXFILE = 140 := by decide
    rcases (largeImage_live i).mp hl with rfl | rfl
    · rw [largeImage_dinode_root] at hbn
      have hbn : bn*512 < 16 := hbn
      obtain rfl : bn = 0 := by omega
      rw [addr_of_lt (by decide), largeImage_refAt]
      decide
    · rw [largeImage_dinode] at hbn
      have hbn : bn*512 < 71680 := hbn
      rw [addr_of_lt (by omega), largeImage_refAt]
      by_cases hd : bn < NDIRECT
      · rw [slot_direct 2 hd]
        simp [largeRef]
      · rw [slot_indirect 2 hd (by unfold NDIRECT NINDIRECT BSIZE at *; omega)]
        simp [largeRef]

end ProvenXv6.Fs

namespace ProvenXv6.Kern
open WeakestPre
open Fs (Byte Superblock Devsw FS outOfBlocks MAXFILE BSIZE largeSuperblock largeImage largeDinode noDevices)

theorem nfile_pos : 0 < NFILE := by decide

def largeFs : FS where
  disk := largeImage
  inode e := if e.val = 0 then ⟨2, 1, true, false, largeDinode⟩ else ⟨0, 0, false, false, .zero⟩

def largeAt (off : ℕ) : Journal where
  kern := { bareKernel largeFs ⟨[], [], fun _ _ => 0⟩ with
    file := fun f => if f.val = 0 then ⟨.FD_INODE, 1, true, true, 0, ⟨0, ninode_pos⟩, off⟩
      else ⟨.FD_NONE, 0, false, false, 0, ⟨0, ninode_pos⟩, 0⟩ }
  log := []
  txns := []

def noPipe : ℕ → (ℕ → Byte) → ℤ → JourM ℤ := fun _ _ _ => pure (-1)

theorem largeFs_inode {e : Fs.Ip} (he : e.val = 0) : largeFs.inode e = ⟨2, 1, true, false, largeDinode⟩ := if_pos he

theorem largeFs_unused {e : Fs.Ip} (he : e.val ≠ 0) : largeFs.inode e = ⟨0, 0, false, false, .zero⟩ := if_neg he

theorem largeFs_ref {e : Fs.Ip} (h : 0 < (largeFs.inode e).ref) : e.val = 0 := by
  by_contra he
  rw [largeFs_unused he] at h
  exact absurd h (by decide)

theorem largeFs_sound : Fs.Sound largeSuperblock largeFs where
  cached := by
    refine ⟨fun e => ?_, fun e he => ?_, fun e e' he he' _ => ?_⟩
    · by_cases he : e.val = 0
      · rw [largeFs_inode he]
        decide
      · rw [largeFs_unused he]
    · rw [largeFs_inode (largeFs_ref he)]
      decide
    · exact Fin.ext ((largeFs_ref he).trans (largeFs_ref he').symm)
  synced e he _ := by
    rw [Fs.Synced, largeFs_inode (largeFs_ref he)]
    exact ⟨Fs.largeImage_dinode.symm, by decide⟩
  blocks := Fs.largeImage_consistent

theorem largeAt_open {off : ℕ} (hoff : off < 0x100000000) : OpenFile largeSuperblock ⟨0, nfile_pos⟩ (largeAt off) :=
  ⟨rfl, hoff, largeFs_sound, Int.one_pos, rfl, congrArg Fs.Dinode.type Fs.largeImage_dinode⟩

/-- Of 1537 bytes the first 1536 are written, the offset moves over them, and -1 is returned. -/
theorem filewrite_cut_short : OpenFile largeSuperblock ⟨0, nfile_pos⟩ (largeAt 70144) ∧
    ∃ r t, filewrite largeSuperblock noDevices noPipe ⟨0, nfile_pos⟩ (fun _ => 7) 1537 (largeAt 70144) = .ok (r, t) ∧
      r = -1 ∧ (largeAt 70144).off ⟨0, nfile_pos⟩ = 70144 ∧ t.off ⟨0, nfile_pos⟩ = 71680 ∧
      ¬Agrees largeSuperblock ⟨0, nfile_pos⟩ 1537 (largeAt 70144) r t := by
  have htrace : ∃ p ∈ (filewrite largeSuperblock noDevices noPipe ⟨0, nfile_pos⟩ (fun _ => 7) 1537 (largeAt 70144)).toOption,
      p.1 = -1 ∧ p.2.off ⟨0, nfile_pos⟩ = 71680 := by
    decide +kernel
  obtain ⟨⟨r, t⟩, hmem, hr, hoff⟩ := htrace
  have hr : r = -1 := hr
  have hoff : t.off ⟨0, nfile_pos⟩ = 71680 := hoff
  refine ⟨largeAt_open (by decide), r, t, ok_of_mem_toOption hmem, hr, rfl, hoff, ?_⟩
  rintro (⟨hn, -⟩ | ⟨-, hback, -⟩)
  · rw [hr] at hn
    exact absurd hn (by decide)
  · rw [hoff] at hback
    exact absurd hback (by decide)

/-- Of 1536 bytes all are written. -/
theorem filewrite_agrees_largeAt : ∃ r t,
    filewrite largeSuperblock noDevices noPipe ⟨0, nfile_pos⟩ (fun _ => 7) 1536 (largeAt 70144) = .ok (r, t) ∧
      Agrees largeSuperblock ⟨0, nfile_pos⟩ 1536 (largeAt 70144) r t := by
  have htrace : ∃ p ∈ (filewrite largeSuperblock noDevices noPipe ⟨0, nfile_pos⟩ (fun _ => 7) 1536 (largeAt 70144)).toOption,
      p.1 = 1536 := by
    decide +kernel
  obtain ⟨⟨r, t⟩, hmem, -⟩ := htrace
  have hrun := ok_of_mem_toOption hmem
  refine ⟨r, t, hrun, (wp_ok (filewrite_agrees_iff (largeAt_open (by decide)) (by decide)) hrun).mpr ?_⟩
  rintro ⟨-, -, -, hend⟩
  exact absurd hend (by decide)

end ProvenXv6.Kern
