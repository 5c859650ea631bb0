import ProvenXv6.FsLogSpace
import ProvenXv6.FsWriteSplit
import ProvenXv6.KernWriteResult

namespace ProvenXv6.Kern
open WeakestPre Recording
open Fs (Byte Superblock Devsw FS outOfBlocks splice MAXFILE BSIZE Alike)

variable {sb : Superblock} {dev : Devsw} {f : FilePtr} {addr : ℕ → Byte} {n : ℕ} {j t : Journal} {F : Stop → Prop}

theorem OpenFile.opened {s : FS} (h : OpenFile sb f j) (hl : Fs.Locked sb (j.ip f) j.kern.fs s) :
    Fs.Opened sb (j.ip f) s ∧ (s.inode (j.ip f)).din.type ≠ 0 ∧ (s.inode (j.ip f)).din.type ≠ Fs.T_DEV := by
  refine ⟨hl.sound.opened (h.locked hl).1 (h.locked hl).2.1, ?_⟩
  rw [h.locked_type hl]
  decide

theorem touched_le (off : ℕ) {m : ℕ} (h : m ≤ maxWrite) : Fs.Logged.touched off m ≤ 4 := by
  have hmax : maxWrite = 1536 := by decide
  unfold Fs.Logged.touched BSIZE
  split_ifs <;> omega

/-- The transactions since j are no larger than what `begin_op` reserves. -/
def Reserved (j t : Journal) : Prop :=
  ∃ new, t.txns = j.txns ++ new ∧ ∀ l ∈ new, l.toFinset.card ≤ Log.MAXOPBLOCKS

theorem Reserved.refl : Reserved j j := ⟨[], (List.append_nil _).symm, fun _ hl => absurd hl List.not_mem_nil⟩

theorem Reserved.step {src : ℕ → Byte} {m : ℕ} (h : Reserved j t) (ht : OpenFile sb f t)
    (hsize : sb.size ≤ Fs.FSSIZE) (hm : m ≤ maxWrite) :
    wp (fun _ => True) (writeChunk sb dev f src m) (fun _ u => Reserved j u) t := by
  have hmax : maxWrite = 1536 := by decide
  obtain ⟨new, hnew, hle⟩ := h
  refine wp_writeChunk ht fun s hl => ?_
  obtain ⟨hopen, htype, -⟩ := ht.opened hl
  refine wp_mono (Fs.Logged.writei_log (s := ⟨s, []⟩) hsize trivial hopen htype) ?_
  rintro r u ⟨l, hl, hcard⟩
  rw [List.nil_append] at hl
  refine ⟨new ++ [l], ?_, fun l' hl' => ?_⟩
  · show t.txns ++ [u.record] = _
    rw [hnew, hl, List.append_assoc]
  · rcases List.mem_append.mp hl' with hl' | hl'
    · exact hle l' hl'
    · have := touched_le (BitVec.ofNat 32 (t.off f)).toNat hm
      rw [toNat_length (by omega)] at hcard
      rw [List.mem_singleton.mp hl']
      exact hcard.trans (by unfold Log.MAXOPBLOCKS; omega)

/-- Before the first chunk one run of the loop of `writei` can write the i bytes that are written now:
what it leads to differs in the inode table at most. -/
def InOneRun (sb : Superblock) (f : FilePtr) (addr : ℕ → Byte) (j : Journal) (i : ℕ) (t : Journal) : Prop :=
  ∀ s, Fs.Locked sb (j.ip f) j.kern.fs s → ∃ u, Fs.writeLoop sb (j.ip f) addr i 0 (j.off f) i s = .ok ((), u) ∧
    (∀ b, sb.bmapstart ≤ b → u.disk b = t.kern.fs.disk b) ∧
    (u.inode (j.ip f)).din.addrs = (sb.dinode t.kern.fs.disk (j.inum f)).addrs

theorem InOneRun.refl (h : OpenFile sb f j) : InOneRun sb f addr j 0 j := by
  intro s hl
  exact ⟨s, rfl, fun b _ => by rw [hl.disk], by rw [(h.locked hl).2.2.2]⟩

theorem InOneRun.alike {i : ℕ} {s u : FS} (ht : WrittenTo sb f addr n j i t)
    (hl : Fs.Locked sb (t.ip f) t.kern.fs s) (hdisk : ∀ b, sb.bmapstart ≤ b → u.disk b = t.kern.fs.disk b)
    (haddrs : (u.inode (j.ip f)).din.addrs = (sb.dinode t.kern.fs.disk (j.inum f)).addrs) :
    Alike sb (t.ip f) s u := by
  refine ⟨fun b hb => by rw [hdisk b hb, hl.disk], ?_⟩
  rw [(ht.file.locked hl).2.2.2, ht.inum, ← haddrs, ht.ip]

theorem InOneRun.step {i m : ℕ} (h : InOneRun sb f addr j i t) (hj : OpenFile sb f j) (ht : WrittenTo sb f addr n j i t)
    (hm : m < 0x100000000) :
    wp (fun _ => True) (writeChunk sb dev f (fun p => addr (i+p)) m)
      (fun r u => r = -1 ∨ InOneRun sb f addr j (i+m) u) t := by
  have hoff := ht.file.toNat_off
  have hlen := toNat_length hm
  refine wp_writeChunk ht.file fun s hl => ?_
  obtain ⟨hopen, htype, hdev⟩ := ht.file.opened hl
  have hself := wp_self (Fs.writei sb dev (t.ip f) (fun p => addr (i+p)) (BitVec.ofNat 32 (t.off f))
    (BitVec.ofInt 32 (m : ℤ))) s
  have hrun := ((Fs.Logged.writei_erases _ _ _).wp_iff (s := ⟨s, []⟩) _).mpr hself
  refine wp_mono (wp_and (H := fun _ => True) hrun (ht.file.writei (G := fun _ => True) trivial hl)
    fun _ _ _ => trivial) ?_
  rintro r v ⟨hok, hr⟩
  rw [hoff, hlen] at hr
  split_ifs at hr with hfit
  swap
  · exact Or.inl hr.1
  refine Or.inr fun s₀ hl₀ => ?_
  obtain ⟨u, hu, hdisk, haddrs⟩ := h s₀ hl₀
  have hwritable := (ht.file.writable_iff hl _ _).mpr hfit
  rw [← hoff, ← hlen] at hwritable
  obtain ⟨w, hw, hwv⟩ := wp_ok (Fs.writei_loop (F := fun _ => True) hopen htype hdev hwritable fun _ _ => trivial) hok
  rw [hoff, hlen] at hw
  -- the loop runs in the same way in the state that the earlier chunks would have led to in one run
  obtain ⟨u', hu', hwu⟩ := (Fs.writeLoop_follows (InOneRun.alike ht hl hdisk haddrs) hopen htype hfit.2).run hw
  obtain ⟨hopen₀, htype₀, -⟩ := hj.opened hl₀
  rw [Fs.writeLoop_shift, Nat.add_zero, ht.off, ht.ip] at hu'
  have hend : j.off f+(i+m) ≤ MAXFILE*BSIZE := by
    have := hfit.2
    rw [ht.off] at this
    omega
  refine ⟨u', Fs.writeLoop_join hopen₀ htype₀ hend le_rfl le_rfl le_rfl hu (by rwa [Nat.zero_add]), ?_, ?_⟩
  · intro b hb
    rw [hwu.disk b hb, ← hwv.disk b hb]
    rfl
  · obtain ⟨href, hvalid, hinum, -⟩ := ht.file.locked hl
    obtain ⟨-, hst⟩ := hr
    have hsync := (hst.sound.synced (t.ip f) (by rw [hst.self]; exact href) (by rw [hst.self]; exact hvalid)).1
    have hv : (v.state.inode (t.ip f)).inum = j.inum f := by
      rw [hst.self]
      exact hinum.trans ht.inum
    rw [hv] at hsync
    rw [← ht.ip, hwu.addrs, ← hwv.addrs, hsync]
    rfl

theorem writeChunks_transactions (h : OpenFile sb f j) (hsize : sb.size ≤ Fs.FSSIZE) (hn : n < 0x100000000) :
    wp (· = .fs outOfBlocks) (writeChunks sb dev f addr n (n+1) 0) (fun r t => ∃ k : ℕ, r = k ∧ k ≤ n ∧
      WrittenTo sb f addr n j k t ∧ Reserved j t ∧ (k = n → InOneRun sb f addr j n t)) j := by
  apply writeChunks_rule
    (I := fun i t => WrittenTo sb f addr n j i t ∧ Reserved j t ∧ InOneRun sb f addr j i t)
    _ _ (by omega) (Nat.zero_le n) ⟨.refl h, .refl, .refl h⟩
  · rintro i t hi ⟨ht, hres, hone⟩
    have hle : chunk n i ≤ maxWrite := min_le_left ..
    have hlt : chunk n i < 0x100000000 := hle.trans_lt (by decide)
    refine wp_mono (wp_and (ht.step hn hi)
      (wp_and (H := fun _ => True) (hres.step ht.file hsize hle) (hone.step h ht hlt) fun _ _ _ => trivial)
      fun _ he _ => he) ?_
    rintro r u ⟨⟨rfl, hu⟩ | ⟨rfl, hu, -⟩, hres', hone'⟩
    · exact Or.inl ⟨rfl, hu, hres', hone'.resolve_left (by omega)⟩
    · exact Or.inr ⟨rfl, hu, hres', fun he => absurd he (by omega)⟩
  · rintro t ⟨ht, hres, hone⟩
    exact ⟨ht, hres, fun _ => hone⟩

theorem writeChunk_ends (h : OpenFile sb f j) (hn : n < 0x100000000)
    (hloop : Fits sb f j n → ∀ s, Fs.Locked sb (j.ip f) j.kern.fs s →
      ∃ t, Fs.writeLoop sb (j.ip f) addr n 0 (j.off f) n s = .ok ((), t)) :
    wp (fun _ => False) (writeChunk sb dev f addr n) (fun _ u =>
      Fits sb f j n ∧ u.content sb f = splice (j.content sb f) (j.off f) n addr ∨
        ¬Fits sb f j n ∧ u.content sb f = j.content sb f) j := by
  have hends : wp (fun _ => False) (writeChunk sb dev f addr n) (fun _ _ => True) j := by
    refine wp_writeChunk h fun s hl => ?_
    obtain ⟨hopen, htype, hdev⟩ := h.opened hl
    refine ((Fs.Logged.writei_erases _ _ _).wp_iff (s := ⟨s, []⟩) fun _ _ => True).mpr
      (Fs.writei_ends hopen htype hdev ?_)
    rw [h.toNat_off, toNat_length hn, h.writable_iff hl]
    exact fun hfit => hloop hfit s hl
  apply wp_mono (wp_and (H := fun _ => False) hends (writeChunk_spec h hn) fun _ he _ => he)
  rintro r u ⟨-, ⟨hfit, -, hu⟩ | ⟨hfit, -, hu⟩⟩
  · exact Or.inl ⟨hfit, hu.content⟩
  · exact Or.inr ⟨hfit, hu.content⟩

theorem unsplit_content (h : OpenFile sb f j) (hn : n < 0x100000000) (ht : WrittenTo sb f addr n j n t)
    (hone : InOneRun sb f addr j n t) :
    wp (fun _ => False) (writeChunk sb dev f addr n) (fun _ u => u.content sb f = t.content sb f) j := by
  refine wp_mono (writeChunk_ends h hn fun _ s hl => ?_) ?_
  · obtain ⟨u, hu, -⟩ := hone s hl
    exact ⟨u, hu⟩
  · rintro _ u (⟨-, hu⟩ | ⟨hfit, hu⟩)
    · rw [hu, ht.content]
    · -- nothing is refused but a write of no bytes behind the end of the file
      obtain rfl : n = 0 := by
        by_contra h0
        exact hfit (ht.fits (Nat.pos_of_ne_zero h0)).1
      rw [hu, ht.content, Fs.splice_zero]

/-- A negative length is one of more bytes than a file can have. -/
theorem unsplit_negative {n : ℤ} (h : OpenFile sb f j) (hlo : -0x80000000 ≤ n) (hneg : n < 0) :
    wp (fun _ => False) (writeChunk sb dev f addr n) (fun _ u => u.content sb f = j.content sb f) j := by
  have hmax : MAXFILE*BSIZE = 71680 := by decide
  obtain ⟨m, hm⟩ : ∃ m : ℕ, (m : ℤ) = n+0x100000000 := ⟨(n+0x100000000).toNat, by omega⟩
  have hwrap : BitVec.ofInt 32 n = BitVec.ofInt 32 (m : ℤ) := by
    have hzero : BitVec.ofInt 32 0x100000000 = 0#32 := by decide
    rw [hm, BitVec.ofInt_add, hzero, BitVec.add_zero]
  have hsame : writeChunk sb dev f addr n = writeChunk sb dev f addr m := by
    unfold writeChunk
    rw [hwrap]
  have hbig : ¬Fits sb f j m := fun hfit => by
    have := hfit.2
    omega
  rw [hsame]
  apply wp_mono (writeChunk_ends h (by omega) fun hfit => absurd hfit hbig)
  rintro _ u (⟨hfit, -⟩ | ⟨-, hu⟩)
  · exact absurd hfit hbig
  · exact hu

variable {pipewrite : ℕ → (ℕ → Byte) → ℤ → JourM ℤ}

/-- Each transaction of `filewrite` calls `log_write` on at most MAXOPBLOCKS blocks, and when all n bytes are
written the file is as after one `writei` of n bytes. -/
theorem filewrite_transactions {n : ℤ} (h : OpenFile sb f j) (hsize : sb.size ≤ Fs.FSSIZE)
    (hlo : -0x80000000 ≤ n) (hhi : n < 0x80000000) :
    wp (· = .fs outOfBlocks) (filewrite sb dev pipewrite f addr n) (fun r t =>
      Reserved j t ∧
      (r = n → wp (fun _ => False) (writeChunk sb dev f addr n) (fun _ u => u.content sb f = t.content sb f) j)) j := by
  by_cases hw : (j.kern.file f).writable = true
  swap
  · unfold filewrite
    rw [wp_bind, wp_onKern, wp_getFile, if_pos (Bool.eq_false_of_not_eq_true hw)]
    exact ⟨.refl, fun hn => unsplit_negative h hlo (by omega)⟩
  rcases lt_or_ge n 0 with hneg | hpos
  · unfold filewrite
    rw [wp_bind, wp_onKern, wp_getFile, if_neg (by rw [hw]; decide), h.type, wp_bind, writeChunks, if_neg (by omega)]
    exact ⟨.refl, fun _ => unsplit_negative h hlo hneg⟩
  · obtain ⟨m, rfl⟩ := Int.eq_ofNat_of_zero_le hpos
    rw [wp_filewrite h hw]
    apply wp_mono (writeChunks_transactions h hsize (by omega))
    rintro _ t ⟨k, rfl, hk, ht, hres, hone⟩
    refine ⟨hres, fun hr => ?_⟩
    obtain rfl : k = m := by
      split_ifs at hr
      omega
    exact unsplit_content h (by omega) ht (hone rfl)

/-- Two chunks at the end of a file that has the largest size. -/
theorem filewrite_transactions_largeAt : ∃ r t,
    filewrite Fs.largeSuperblock Fs.noDevices noPipe ⟨0, nfile_pos⟩ (fun _ => 7) 3072 (largeAt 68608) = .ok (r, t) ∧
      t.txns.length = 2 ∧ Reserved (largeAt 68608) t ∧
      wp (fun _ => False) (writeChunk Fs.largeSuperblock Fs.noDevices ⟨0, nfile_pos⟩ (fun _ => 7) 3072)
        (fun _ u => u.content Fs.largeSuperblock ⟨0, nfile_pos⟩ = t.content Fs.largeSuperblock ⟨0, nfile_pos⟩)
        (largeAt 68608) := by
  have htrace : ∃ p ∈ (filewrite Fs.largeSuperblock Fs.noDevices noPipe ⟨0, nfile_pos⟩ (fun _ => 7) 3072
      (largeAt 68608)).toOption, p.1 = 3072 ∧ p.2.txns.length = 2 := by
    decide +kernel
  have hopen : OpenFile Fs.largeSuperblock ⟨0, nfile_pos⟩ (largeAt 68608) := largeAt_open (by decide)
  generalize largeAt 68608 = j at htrace hopen ⊢
  obtain ⟨⟨r, t⟩, hmem, hr, hlen⟩ := htrace
  have hrun := ok_of_mem_toOption hmem
  obtain ⟨hres, hsame⟩ := wp_ok (filewrite_transactions hopen (by decide) (by decide) (by decide)) hrun
  exact ⟨r, t, hrun, hlen, hres, hsame hr⟩

end ProvenXv6.Kern
