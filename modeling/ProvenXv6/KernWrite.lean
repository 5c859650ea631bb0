import ProvenXv6.FsWrite
import ProvenXv6.KernRules
import ProvenXv6.KernWriteModel

namespace ProvenXv6.Kern
open WeakestPre Recording
open Fs (Byte Superblock Devsw Ip FS Fault outOfBlocks splice MAXFILE BSIZE)

variable {sb : Superblock} {dev : Devsw} {f : FilePtr} {j t : Journal} {F : Stop → Prop} {α : Type}

section Rules

@[simp] theorem wp_onKern (m : KernM α) (Q : α → Journal → Prop) :
    wp F (onKern m) Q j ↔ wp F m (fun a k => Q a { j with kern := k }) j.kern := by
  unfold wp onKern
  cases m j.kern <;> rfl

@[simp] theorem wp_onLog (m : Fs.Logged.LogM α) (Q : α → Journal → Prop) :
    wp F (onLog m) Q j ↔ wp (fun e => F (.fs e)) m
      (fun a s => Q a { j with kern := { j.kern with fs := s.state }, log := s.record }) ⟨j.kern.fs, j.log⟩ := by
  unfold wp onLog
  cases m ⟨j.kern.fs, j.log⟩ <;> rfl

end Rules

namespace Journal

def ip (j : Journal) (f : FilePtr) : Ip := (j.kern.file f).ip

def inum (j : Journal) (f : FilePtr) : ℕ := (j.kern.fs.inode (j.ip f)).inum

def off (j : Journal) (f : FilePtr) : ℕ := (j.kern.file f).off

def content (sb : Superblock) (j : Journal) (f : FilePtr) : List Byte := Fs.content sb j.kern.fs.disk (j.inum f)

end Journal

/-- f is open on a regular file, of which nobody holds the lock. -/
structure OpenFile (sb : Superblock) (f : FilePtr) (j : Journal) : Prop where
  type : (j.kern.file f).type = .FD_INODE
  off_lt : j.off f < 0x100000000
  sound : Fs.Sound sb j.kern.fs
  held : 0 < (j.kern.fs.inode (j.ip f)).ref
  unlocked : (j.kern.fs.inode (j.ip f)).locked = false
  regular : (sb.dinode j.kern.fs.disk (j.inum f)).type = Fs.T_FILE

/-- The chunk of n1 bytes at the offset of f can be written. -/
def Fits (sb : Superblock) (f : FilePtr) (j : Journal) (n1 : ℕ) : Prop :=
  j.off f ≤ (j.content sb f).length ∧ j.off f+n1 ≤ MAXFILE*BSIZE

/-- After a chunk: f is open on the same file, which has these bytes now. -/
structure Moved (sb : Superblock) (f : FilePtr) (j : Journal) (c : List Byte) (off : ℕ) (t : Journal) : Prop where
  file : OpenFile sb f t
  ip : t.ip f = j.ip f
  inum : t.inum f = j.inum f
  writable : (t.kern.file f).writable = (j.kern.file f).writable
  content : t.content sb f = c
  off : t.off f = off

theorem Moved.trans {c c' : List Byte} {off off' : ℕ} {u : Journal} (h : Moved sb f j c off t)
    (h' : Moved sb f t c' off' u) : Moved sb f j c' off' u where
  file := h'.file
  ip := h'.ip.trans h.ip
  inum := h'.inum.trans h.inum
  writable := h'.writable.trans h.writable
  content := h'.content
  off := h'.off

/-- The journal after a chunk for which `writei` returned r in the state u. -/
def Journal.afterChunk (j : Journal) (f : FilePtr) (r : ℤ) (u : Recorded FS ℕ) : Journal where
  kern := { j.kern with
    fs := u.state.mapInode (j.ip f) fun e => { e with locked := false }
    file := Function.update j.kern.file f { j.kern.file f with
      off := if r > 0 then (j.off f+r.toNat)%0x100000000 else j.off f }
    ops := j.kern.ops ++ [.begin_op] ++ [.end_op] }
  log := []
  txns := j.txns ++ [u.record]

section Chunk
variable {src : ℕ → Byte} {n1 : ℤ}

theorem OpenFile.live (h : OpenFile sb f j) : Fs.Live sb (sb.dinode j.kern.fs.disk) (j.inum f) := by
  obtain ⟨h1, h2⟩ := h.sound.cached.range _ h.held
  exact ⟨h1, h2, by rw [h.regular]; decide⟩

theorem OpenFile.locked {s : FS} (h : OpenFile sb f j) (hl : Fs.Locked sb (j.ip f) j.kern.fs s) :
    0 < (s.inode (j.ip f)).ref ∧ (s.inode (j.ip f)).valid = true ∧ (s.inode (j.ip f)).inum = j.inum f ∧
      (s.inode (j.ip f)).din = sb.dinode j.kern.fs.disk (j.inum f) := by
  have hr : 0 < (s.inode (j.ip f)).ref := by
    rw [hl.self]
    exact h.held
  have hv : (s.inode (j.ip f)).valid = true := by rw [hl.self]
  have hinum : (s.inode (j.ip f)).inum = j.inum f := by
    rw [hl.self]
    rfl
  exact ⟨hr, hv, hinum, by rw [(hl.sound.synced _ hr hv).1, hinum, hl.disk]⟩

theorem OpenFile.locked_type {s : FS} (h : OpenFile sb f j) (hl : Fs.Locked sb (j.ip f) j.kern.fs s) :
    (s.inode (j.ip f)).din.type = Fs.T_FILE := by
  rw [(h.locked hl).2.2.2, h.regular]

theorem OpenFile.writable_iff {s : FS} (h : OpenFile sb f j)
    (hl : Fs.Locked sb (j.ip f) j.kern.fs s) (off n : ℕ) :
    Fs.Writable s (j.ip f) off n ↔ off ≤ (j.content sb f).length ∧ off+n ≤ MAXFILE*BSIZE := by
  have hmax : MAXFILE*BSIZE = 71680 := by decide
  unfold Fs.Writable Journal.content
  rw [(h.locked hl).2.2.2, Fs.length_content]
  omega

theorem OpenFile.toNat_off (h : OpenFile sb f j) : (BitVec.ofNat 32 (j.off f)).toNat = j.off f := by
  have := h.off_lt
  rw [BitVec.toNat_ofNat]
  omega

theorem toNat_length {m : ℕ} (hm : m < 0x100000000) : (BitVec.ofInt 32 (m : ℤ)).toNat = m := by
  rw [BitVec.ofInt_natCast, BitVec.toNat_ofNat]
  omega

theorem OpenFile.writei {G : Fault → Prop} {s : FS} {off n : BitVec 32} (hG : G outOfBlocks) (h : OpenFile sb f j)
    (hl : Fs.Locked sb (j.ip f) j.kern.fs s) :
    wp G (Fs.Logged.writei sb dev (j.ip f) src off n) (fun r u =>
      if off.toNat ≤ (j.content sb f).length ∧ off.toNat+n.toNat ≤ MAXFILE*BSIZE then
        r = n.toNat ∧ Fs.Stored sb (j.ip f) ((sb.dinode j.kern.fs.disk (j.inum f)).node
          (splice (j.content sb f) off.toNat n.toNat src)) s u.state
      else r = -1 ∧ u.state = s) ⟨s, []⟩ := by
  obtain ⟨hr, hv, hinum, hdin⟩ := h.locked hl
  have hcase := h.writable_iff hl off.toNat n.toNat
  have hdev : (s.inode (j.ip f)).din.type ≠ Fs.T_DEV := by
    rw [h.locked_type hl]
    decide
  refine wp_mono (((Fs.Logged.writei_erases src off n).wp_iff (s := ⟨s, []⟩) _).mpr
    (Fs.writei_node hG hl.sound hr hv hdev)) ?_
  intro r u hru
  simp only [hcase, hdin, hinum, hl.disk] at hru
  exact hru

theorem wp_writeChunk {Q : ℤ → Journal → Prop} (h : OpenFile sb f j)
    (hw : ∀ s, Fs.Locked sb (j.ip f) j.kern.fs s →
      wp (fun e => F (.fs e))
        (Fs.Logged.writei sb dev (j.ip f) src (BitVec.ofNat 32 (j.off f)) (BitVec.ofInt 32 n1))
        (fun r u => Q r (j.afterChunk f r u)) ⟨s, []⟩) :
    wp F (writeChunk sb dev f src n1) Q j := by
  unfold writeChunk Journal.begin_op Journal.end_op
  simp only [wp_bind, wp_onKern, wp_begin_op, wp_modify, wp_getFile, wp_onFs]
  have hlock : wp (fun e => F (.fs e)) (Fs.ilock sb (j.ip f))
      (fun _ s => Fs.Locked sb (j.ip f) j.kern.fs s) j.kern.fs :=
    Fs.ilock_exact h.sound h.held (fun hl => absurd (h.unlocked.symm.trans hl) Bool.false_ne_true)
      fun hn => absurd h.live (Fs.node_eq_none.mp hn)
  refine wp_mono hlock ?_
  intro _ s hl
  rw [wp_onLog]
  refine wp_mono (wp_and (h.writei (G := fun _ => True) trivial hl) (hw s hl) fun _ _ he => he) ?_
  rintro r u ⟨hru, hQ⟩
  have hself : u.state.inode (j.ip f) = { s.inode (j.ip f) with din := (u.state.inode (j.ip f)).din } := by
    split_ifs at hru
    · exact hru.2.self
    · rw [hru.2]
  have hr : 0 < (u.state.inode (j.ip f)).ref := by
    rw [hself]
    exact (h.locked hl).1
  have hlocked : (u.state.inode (j.ip f)).locked = true := by rw [hself, hl.self]
  simp only [wp_setFile, wp_end_op, wp_pure]
  have hunlock : wp (fun e => F (.fs e)) (Fs.iunlock (j.ip f))
      (fun _ t => t = u.state.mapInode (j.ip f) fun e => { e with locked := false }) u.state :=
    Fs.iunlock_exact hr fun hl => absurd (hlocked.symm.trans hl) (by decide)
  refine wp_mono hunlock ?_
  rintro _ t rfl
  exact hQ

section
variable {r : ℤ} {u : Recorded FS ℕ}

theorem file_afterChunk : (j.afterChunk f r u).kern.file f = { j.kern.file f with
    off := if r > 0 then (j.off f+r.toNat)%0x100000000 else j.off f } := Function.update_self ..

theorem ip_afterChunk : (j.afterChunk f r u).ip f = j.ip f := by
  rw [Journal.ip, file_afterChunk]
  rfl

theorem inode_afterChunk : (j.afterChunk f r u).kern.fs.inode (j.ip f) =
    { u.state.inode (j.ip f) with locked := false } := by
  rw [Journal.afterChunk, FS.mapInode_same]

theorem off_afterChunk : (j.afterChunk f r u).off f =
    if r > 0 then (j.off f+r.toNat)%0x100000000 else j.off f := by
  rw [Journal.off, file_afterChunk]

end

theorem OpenFile.moved {r : ℤ} {c : List Byte} {s : FS} {u : Recorded FS ℕ} (h : OpenFile sb f j)
    (hl : Fs.Locked sb (j.ip f) j.kern.fs s) (hs : Fs.Sound sb u.state)
    (hself : u.state.inode (j.ip f) = { s.inode (j.ip f) with din := (u.state.inode (j.ip f)).din })
    (hnode : Fs.node sb u.state.disk (j.inum f) = some ((sb.dinode j.kern.fs.disk (j.inum f)).node c)) :
    Moved sb f j c ((j.afterChunk f r u).off f) (j.afterChunk f r u) := by
  have hr : 0 < (u.state.inode (j.ip f)).ref := by
    rw [hself]
    exact (h.locked hl).1
  have hinum : (j.afterChunk f r u).inum f = j.inum f := by
    rw [Journal.inum, ip_afterChunk, inode_afterChunk, hself]
    exact (h.locked hl).2.2.1
  have hlive : Fs.Live sb (sb.dinode u.state.disk) (j.inum f) := by
    by_contra hnot
    rw [Fs.node_eq_none.mpr hnot] at hnode
    contradiction
  rw [Fs.node_of_live hlive] at hnode
  obtain ⟨htype, -, -, -, hdata⟩ := Fs.Node.mk.inj (Option.some.inj hnode)
  refine ⟨⟨?_, ?_, ?_, ?_, ?_, ?_⟩, ip_afterChunk, hinum, ?_, ?_, rfl⟩
  · rw [file_afterChunk]
    exact h.type
  · rw [off_afterChunk]
    split_ifs
    · exact Nat.mod_lt _ (by decide)
    · exact h.off_lt
  · show Fs.Sound sb (u.state.mapInode (j.ip f) fun e => { e with locked := false })
    exact hs.mapInode_same hr rfl rfl rfl (hs.cached.nonneg _)
  · rw [ip_afterChunk, inode_afterChunk]
    exact hr
  · rw [ip_afterChunk, inode_afterChunk]
  · rw [hinum]
    exact htype.trans h.regular
  · rw [file_afterChunk]
  · rw [Journal.content, hinum]
    exact hdata

theorem writeChunk_spec {n1 : ℕ} (h : OpenFile sb f j) (hn : n1 < 0x100000000) :
    wp (· = .fs outOfBlocks) (writeChunk sb dev f src n1) (fun r t =>
      Fits sb f j n1 ∧ r = n1 ∧ Moved sb f j (splice (j.content sb f) (j.off f) n1 src) (j.off f+n1) t ∨
      ¬Fits sb f j n1 ∧ r = -1 ∧ Moved sb f j (j.content sb f) (j.off f) t) j := by
  refine wp_writeChunk h fun s hl => wp_mono (h.writei rfl hl) ?_
  intro r u hru
  rw [h.toNat_off, toNat_length hn] at hru
  split_ifs at hru with hfit
  · obtain ⟨rfl, hst⟩ := hru
    refine Or.inl ⟨hfit, rfl, ?_⟩
    have hmax : MAXFILE*BSIZE = 71680 := by decide
    have hto : (j.afterChunk f n1 u).off f = j.off f+n1 := by
      rw [off_afterChunk]
      have := hfit.2
      split_ifs <;> omega
    rw [← hto]
    apply h.moved hl hst.sound hst.self
    rw [hst.nodes, (h.locked hl).2.2.1, Function.update_self]
  · obtain ⟨rfl, hu⟩ := hru
    refine Or.inr ⟨hfit, rfl, ?_⟩
    have hstay : (j.afterChunk f (-1) u).off f = j.off f := by
      rw [off_afterChunk, if_neg (by decide)]
    have hm := h.moved (r := -1) (u := u) hl (by rw [hu]; exact hl.sound) (by rw [hu])
      (by rw [hu, hl.disk, Fs.node_of_live h.live])
    rwa [hstay] at hm

end Chunk

section Loop
variable {addr : ℕ → Byte} {n : ℕ}

def chunk (n i : ℕ) : ℕ := min maxWrite (n-i)

theorem chunk_eq {i : ℕ} (hi : i < n) :
    (if (n : ℤ)-i > maxWrite then (maxWrite : ℤ) else (n : ℤ)-i) = (chunk n i : ℕ) := by
  unfold chunk
  split_ifs <;> omega

theorem chunk_pos {i : ℕ} (hi : i < n) : 0 < chunk n i := by
  have : maxWrite = 1536 := by decide
  unfold chunk
  omega

theorem chunk_le (i : ℕ) : i+chunk n i ≤ max i n := by
  unfold chunk
  omega

theorem writeChunks_of_lt {fuel i : ℕ} (hi : i < n) :
    writeChunks sb dev f addr n (fuel+1) i = (do
      let r ← writeChunk sb dev f (fun p => addr (i+p)) (chunk n i : ℕ)
      if r < 0 then pure (i : ℤ)
      else if r ≠ (chunk n i : ℕ) then onKern (panic "short filewrite")
      else writeChunks sb dev f addr n fuel (i+r)) := by
  rw [writeChunks, if_pos (by omega), chunk_eq hi, Int.toNat_natCast]

theorem writeChunks_rule {I Q : ℕ → Journal → Prop} {fuel i : ℕ}
    (hstep : ∀ i t, i < n → I i t → wp F (writeChunk sb dev f (fun p => addr (i+p)) (chunk n i : ℕ))
      (fun r u => r = (chunk n i : ℕ) ∧ I (i+chunk n i) u ∨ r = -1 ∧ Q i u) t)
    (hend : ∀ t, I n t → Q n t) (hfuel : n-i < fuel) (hi : i ≤ n) (hI : I i j) :
    wp F (writeChunks sb dev f addr n fuel i) (fun r t => ∃ k : ℕ, r = k ∧ k ≤ n ∧ Q k t) j := by
  induction fuel generalizing i j with
  | zero => omega
  | succ fuel ih =>
    rcases Nat.lt_or_ge i n with hlt | hge
    · have hpos := chunk_pos hlt
      have hle := chunk_le (n := n) i
      rw [writeChunks_of_lt hlt, wp_bind]
      apply wp_mono (hstep i j hlt hI)
      rintro r t (⟨rfl, ht⟩ | ⟨rfl, ht⟩)
      · rw [if_neg (by omega), if_neg (fun hne => hne rfl), ← Nat.cast_add]
        exact ih (by omega) (by omega) ht
      · rw [if_pos (by decide)]
        exact ⟨i, rfl, hi, ht⟩
    · obtain rfl : i = n := by omega
      rw [writeChunks, if_neg (lt_irrefl _)]
      exact ⟨i, rfl, le_rfl, hend j hI⟩

/-- The first i bytes are written. -/
structure WrittenTo (sb : Superblock) (f : FilePtr) (addr : ℕ → Byte) (n : ℕ) (j : Journal) (i : ℕ) (t : Journal) :
    Prop extends Moved sb f j (splice (j.content sb f) (j.off f) i addr) (j.off f+i) t where
  fits : 0 < i → Fits sb f j i ∧ chunk n 0 ≤ i

theorem WrittenTo.refl (h : OpenFile sb f j) : WrittenTo sb f addr n j 0 j :=
  ⟨⟨h, rfl, rfl, rfl, (Fs.splice_zero _ _ _).symm, rfl⟩, fun h => absurd h (lt_irrefl 0)⟩

theorem WrittenTo.step {i : ℕ} (h : WrittenTo sb f addr n j i t) (hn : n < 0x100000000) (hi : i < n) :
    wp (· = .fs outOfBlocks) (writeChunk sb dev f (fun p => addr (i+p)) (chunk n i : ℕ))
      (fun r u => r = (chunk n i : ℕ) ∧ WrittenTo sb f addr n j (i+chunk n i) u ∨
        r = -1 ∧ WrittenTo sb f addr n j i u ∧ ¬Fits sb f u (chunk n i)) t := by
  have hle := chunk_le (n := n) i
  apply wp_mono (writeChunk_spec h.file (by omega))
  rintro r u (⟨hfit, rfl, hu⟩ | ⟨hfit, rfl, hu⟩)
  · have hoff : j.off f ≤ (j.content sb f).length := by
      rcases Nat.eq_zero_or_pos i with rfl | hpos
      · have := hfit.1
        rwa [h.content, h.off, Fs.splice_zero] at this
      · exact (h.fits hpos).1.1
    have hend := hfit.2
    rw [h.content, h.off] at hu
    rw [Fs.splice_splice hoff, Nat.add_assoc] at hu
    rw [h.off, Nat.add_assoc] at hend
    refine Or.inl ⟨rfl, h.toMoved.trans hu, fun _ => ⟨⟨hoff, hend⟩, ?_⟩⟩
    unfold chunk
    omega
  · have hback : Moved sb f t (t.content sb f) (t.off f) u := hu
    rw [h.content, h.off] at hu
    refine Or.inr ⟨rfl, ⟨h.toMoved.trans hu, h.fits⟩, fun hfit' => hfit ?_⟩
    unfold Fits at hfit' ⊢
    rwa [hback.content, hback.off] at hfit'

/-- A run of the loop of `filewrite`: the first k bytes are written, and the next chunk does not fit. -/
theorem writeChunks_spec (h : OpenFile sb f j) (hn : n < 0x100000000) :
    wp (· = .fs outOfBlocks) (writeChunks sb dev f addr n (n+1) 0) (fun r t => ∃ k : ℕ, r = k ∧ k ≤ n ∧
      WrittenTo sb f addr n j k t ∧ (k < n → ¬Fits sb f t (chunk n k))) j := by
  apply writeChunks_rule (I := WrittenTo sb f addr n j) _ _ (by omega) (Nat.zero_le n) (.refl h)
  · intro i t hi ht
    apply wp_mono (ht.step hn hi)
    rintro r u (hu | ⟨hr, hu, hfit⟩)
    · exact Or.inl hu
    · exact Or.inr ⟨hr, hu, fun _ => hfit⟩
  · intro t ht
    exact ⟨ht, fun hlt => absurd hlt (lt_irrefl n)⟩

end Loop

end ProvenXv6.Kern
