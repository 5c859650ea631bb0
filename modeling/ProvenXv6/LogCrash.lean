import Mathlib.Data.List.Nodup
import ProvenXv6.LogModel

namespace ProvenXv6.Log
open CrashLogic

section Area
variable (L : LogArea)

theorem header_toNat : L.header.toNat = L.start := by
  have := L.fits
  have := L.nonempty
  simp only [LogArea.header, BitVec.toNat_ofNat]
  omega

theorem slot_toNat {tail : ℕ} (h : tail+1 < L.size) : (L.slot tail).toNat = L.start+tail+1 := by
  have := L.fits
  simp only [LogArea.slot, BitVec.toNat_ofNat]
  omega

theorem contains_header : L.Contains L.header := by
  have := L.nonempty
  rw [LogArea.Contains, header_toNat]
  omega

theorem contains_slot {tail : ℕ} (h : tail+1 < L.size) : L.Contains (L.slot tail) := by
  rw [LogArea.Contains, slot_toNat L h]
  omega

theorem slot_ne_header {tail : ℕ} (h : tail+1 < L.size) : L.header ≠ L.slot tail := by
  intro he
  have := congrArg BitVec.toNat he
  rw [header_toNat, slot_toNat L h] at this
  omega

theorem slot_injective {i j : ℕ} (hi : i+1 < L.size) (hj : j+1 < L.size) (h : L.slot i = L.slot j) :
    i = j := by
  have := congrArg BitVec.toNat h
  rw [slot_toNat L hi, slot_toNat L hj] at this
  omega

end Area

theorem decode_of_zero {b : Block} (h : b ⟨0, by decide⟩ = 0) :
    LogHeader.decode b = some .empty := by
  have hn : (b ⟨0, by decide⟩).toInt = 0 := by
    rw [h]
    rfl
  have hle : (b ⟨0, by decide⟩).toInt ≤ LOGSIZE := by
    rw [hn]
    decide
  simp only [LogHeader.decode, dif_pos hle, Option.some.injEq]
  rw [LogHeader.empty, LogHeader.mk.injEq, List.ofFn_eq_nil_iff, hn]
  rfl

theorem encode_count (lh : LogHeader) (old : Block) :
    (lh.encode old ⟨0, by decide⟩).toInt = lh.block.length := by
  have hle := lh.le
  have h0 : lh.encode old ⟨0, by decide⟩ = BitVec.ofNat 32 lh.block.length := by
    simp [LogHeader.encode]
  simp only [LOGSIZE] at hle
  rw [h0, BitVec.toInt_eq_toNat_bmod, BitVec.toNat_ofNat, Nat.mod_eq_of_lt (by omega)]
  apply Int.bmod_eq_of_le <;> omega

theorem decode_encode (lh : LogHeader) (old : Block) :
    LogHeader.decode (lh.encode old) = some lh := by
  have hn := encode_count lh old
  have hle : (lh.encode old ⟨0, by decide⟩).toInt ≤ LOGSIZE := by
    rw [hn]
    exact_mod_cast lh.le
  simp only [LogHeader.decode, dif_pos hle, Option.some.injEq]
  apply LogHeader.ext
  apply List.ext_getElem
  · simp [hn]
  · intro i h₁ h₂
    simp [LogHeader.encode, List.getElem?_eq_getElem h₂]

/-- What `log_write` keeps: the header names each pinned block once, all of them
home blocks, and there is a log block for each. -/
structure Recorded (L : LogArea) (s : LogState) : Prop where
  nodup : s.lh.block.Nodup
  fits : s.lh.block.length < L.size
  home : ∀ b ∈ s.lh.block, ¬L.Contains b
  pinned : ∀ b, b ∈ s.lh.block ↔ (s.pinned b).isSome

/-- No operation has written yet. -/
def LogState.Fresh (s : LogState) : Prop := s.lh = .empty ∧ ∀ b, s.pinned b = none

theorem recorded_fresh {L : LogArea} {s : LogState} (h : s.Fresh) : Recorded L s := by
  obtain ⟨hlh, hpin⟩ := h
  have hnil : s.lh.block = [] := by
    rw [hlh]
    rfl
  refine ⟨?_, ?_, ?_, ?_⟩
  · simp [hnil]
  · simpa [hnil] using L.nonempty
  · simp [hnil]
  · simp [hnil, hpin]

theorem logWrite_cases {L : LogArea} {s s' : LogState} {b : Buf} (hs : s.logWrite L b = some s') :
    s.lh.block.length+1 < L.size ∧
    s'.lh.block = (if b.blockno ∈ s.lh.block then s.lh.block else s.lh.block ++ [b.blockno]) ∧
    s'.pinned = Function.update s.pinned b.blockno (some b.data) := by
  unfold LogState.logWrite at hs
  split_ifs at hs with hfull hout hmem
  all_goals
    push Not at hfull
    have hroom := hfull.2
    obtain rfl := Option.some.inj hs
  · exact ⟨by omega, by simp [hmem], rfl⟩
  · exact ⟨by omega, by simp [hmem], rfl⟩

theorem recorded_logWrite {L : LogArea} {s s' : LogState} {b : Buf} (h : Recorded L s)
    (hb : ¬L.Contains b.blockno) (hs : s.logWrite L b = some s') : Recorded L s' := by
  obtain ⟨hroom, hblock, hpin⟩ := logWrite_cases hs
  have hmem : ∀ c, c ∈ s'.lh.block ↔ c ∈ s.lh.block ∨ c = b.blockno := by
    intro c
    rw [hblock]
    split_ifs with hb
    · exact ⟨Or.inl, fun hc => hc.elim id (fun he => he ▸ hb)⟩
    · simp
  refine ⟨?_, ?_, ?_, ?_⟩
  · rw [hblock]
    split_ifs with hb
    · exact h.nodup
    · rw [← List.concat_eq_append]
      exact List.Nodup.concat hb h.nodup
  · rw [hblock]
    split_ifs
    · exact h.fits
    · simpa using hroom
  · intro c hc
    rcases (hmem c).mp hc with hc | rfl
    · exact h.home c hc
    · exact hb
  · intro c
    rw [hmem c, hpin]
    by_cases hc : c = b.blockno
    · simp [hc]
    · simp [hc, h.pinned c]

theorem bread_logWrite {L : LogArea} {s s' : LogState} {b : Buf} (hs : s.logWrite L b = some s')
    (d : Disk) : s'.bread d = Function.update (s.bread d) b.blockno b.data := by
  obtain ⟨-, -, hpin⟩ := logWrite_cases hs
  funext c
  by_cases hc : c = b.blockno
  · subst hc
    simp [LogState.bread, hpin]
  · simp [LogState.bread, hpin, Function.update_of_ne hc]

theorem recorded_logWrites {L : LogArea} {s s' : LogState} {bufs : List Buf} (h : Recorded L s)
    (hb : ∀ b ∈ bufs, ¬L.Contains b.blockno) (hs : bufs.foldlM (LogState.logWrite L) s = some s')
    (d : Disk) : Recorded L s' ∧
      s'.bread d = applyWrites (bufs.map fun b => (b.blockno, b.data)) (s.bread d) := by
  induction bufs generalizing s with
  | nil =>
    obtain rfl := Option.some.inj hs
    exact ⟨h, rfl⟩
  | cons b bufs ih =>
    rw [List.foldlM_cons] at hs
    obtain ⟨s₁, hs₁, hs⟩ := Option.bind_eq_some_iff.mp hs
    have hrec := recorded_logWrite h (hb b (by simp)) hs₁
    obtain ⟨hr, hbread⟩ := ih hrec (fun c hc => hb c (List.mem_cons_of_mem _ hc)) hs
    refine ⟨hr, ?_⟩
    rw [hbread, bread_logWrite hs₁]
    rfl

section Crash
variable {L : LogArea} {s : LogState} {d₀ : Disk}

/-- The on-disk header is empty and the home blocks are those of v. -/
structure Clean (L : LogArea) (v d : Disk) : Prop where
  count : d L.header ⟨0, by decide⟩ = 0
  home : ∀ b, ¬L.Contains b → d b = v b

/-- The transaction of s is in the log of d, whatever its home blocks hold. -/
structure Committed (L : LogArea) (s : LogState) (d₀ d : Disk) : Prop where
  header : LogHeader.decode (d L.header) = some s.lh
  logged : ∀ i b, s.lh.block[i]? = some b → d (L.slot i) = s.bread d₀ b
  home : ∀ b, ¬L.Contains b → b ∉ s.lh.block → d b = d₀ b

/-- What a crash may leave: the transaction has not begun, is in the log, or is over. -/
def Recoverable (L : LogArea) (s : LogState) (d₀ d : Disk) : Prop :=
  Clean L d₀ d ∨ Committed L s d₀ d ∨ Clean L (s.bread d₀) d

theorem triple_withEntry {lh : LogHeader} {tail : ℕ} {p : BlockNo → Prog BlockNo Block}
    {P Q C : Disk → Prop} (htail : tail < lh.block.length)
    (h : ∀ b, lh.block[tail]? = some b → Triple P (p b) Q C) :
    Triple P (withEntry lh tail p) Q C := by
  have hb : lh.block[tail]? = some lh.block[tail] := List.getElem?_eq_getElem htail
  unfold withEntry
  rw [hb]
  exact h _ hb

theorem Recorded.bread_of_mem (hr : Recorded L s) {b : BlockNo} (hb : b ∈ s.lh.block) (d : Disk) :
    s.bread d b = s.bread d₀ b := by
  obtain ⟨x, hx⟩ := Option.isSome_iff_exists.mp ((hr.pinned b).mp hb)
  simp [LogState.bread, hx]

theorem Recorded.bread_of_notMem (hr : Recorded L s) {b : BlockNo} (hb : b ∉ s.lh.block) (d : Disk) :
    s.bread d b = d b := by
  have hnone : s.pinned b = none := by
    rw [hr.pinned b] at hb
    simpa using hb
  simp [LogState.bread, hnone]

theorem Recorded.slot_fits (hr : Recorded L s) {i : ℕ} {b : BlockNo} (hb : s.lh.block[i]? = some b) :
    i+1 < L.size := by
  have hi : i < s.lh.block.length := (List.getElem?_eq_some_iff.mp hb).1
  have := hr.fits
  omega

theorem Clean.update_slot {v d : Disk} {i : ℕ} (h : Clean L v d) (hi : i+1 < L.size) (x : Block) :
    Clean L v (Function.update d (L.slot i) x) where
  count := by
    rw [Function.update_of_ne (slot_ne_header L hi)]
    exact h.count
  home := by
    intro b hb
    have hne : b ≠ L.slot i := fun he => hb (he ▸ contains_slot L hi)
    rw [Function.update_of_ne hne]
    exact h.home b hb

/-- `write_log` fills the log blocks and touches nothing that recovery reads. -/
theorem triple_writeLog (hr : Recorded L s) :
    Triple (Clean L d₀) (writeLog L s)
      (fun d => Clean L d₀ d ∧ ∀ i b, s.lh.block[i]? = some b → d (L.slot i) = s.bread d₀ b)
      (Recoverable L s d₀) := by
  let I (n : ℕ) (d : Disk) : Prop :=
    Clean L d₀ d ∧ ∀ i b, i < n → s.lh.block[i]? = some b → d (L.slot i) = s.bread d₀ b
  have hloop : Triple (I 0) (writeLog L s) (I s.lh.block.length) (Recoverable L s d₀) := by
    refine triple_loop I ?_ (fun d hd => Or.inl hd.1)
    intro n hn
    apply triple_withEntry hn
    intro b hb
    have hfit := hr.slot_fits hb
    refine triple_write (fun d hd => Or.inl hd.1) ?_ (fun d hd => Or.inl hd.1)
    intro d hd
    refine ⟨hd.1.update_slot hfit _, ?_⟩
    intro i c hi hc
    by_cases hin : i = n
    · subst hin
      obtain rfl := Option.some.inj (hb.symm.trans hc)
      rw [Function.update_self]
      exact hr.bread_of_mem (List.mem_of_getElem? hb) d
    · have hne : L.slot i ≠ L.slot n := fun he => hin (slot_injective L (hr.slot_fits hc) hfit he)
      rw [Function.update_of_ne hne]
      exact hd.2 i c (by omega) hc
  refine hloop.weaken (fun d hd => ⟨hd, by simp⟩) (fun d hd => ⟨hd.1, fun i b hb => ?_⟩)
  exact hd.2 i b (List.getElem?_eq_some_iff.mp hb).1 hb

/-- The header write is the commit point. -/
theorem triple_writeHead (hr : Recorded L s) :
    Triple (fun d => Clean L d₀ d ∧ ∀ i b, s.lh.block[i]? = some b → d (L.slot i) = s.bread d₀ b)
      (writeHead L s.lh) (Committed L s d₀) (Recoverable L s d₀) := by
  refine triple_write (fun d hd => Or.inl hd.1) ?_ (fun d hd => Or.inr (Or.inl hd))
  intro d hd
  refine ⟨?_, ?_, ?_⟩
  · rw [Function.update_self]
    exact decode_encode s.lh _
  · intro i b hb
    rw [Function.update_of_ne (slot_ne_header L (hr.slot_fits hb)).symm]
    exact hd.2 i b hb
  · intro b hb _
    have hne : b ≠ L.header := fun he => hb (he ▸ contains_header L)
    rw [Function.update_of_ne hne]
    exact hd.1.home b hb

theorem Committed.update_home {d : Disk} {b : BlockNo} (hr : Recorded L s) (h : Committed L s d₀ d)
    (hb : b ∈ s.lh.block) (x : Block) : Committed L s d₀ (Function.update d b x) where
  header := by
    have hne : L.header ≠ b := fun he => hr.home b hb (he ▸ contains_header L)
    rw [Function.update_of_ne hne]
    exact h.header
  logged := by
    intro i c hc
    have hne : L.slot i ≠ b := fun he => hr.home b hb (he ▸ contains_slot L (hr.slot_fits hc))
    rw [Function.update_of_ne hne]
    exact h.logged i c hc
  home := by
    intro c hc hmem
    have hne : c ≠ b := fun he => hmem (he ▸ hb)
    rw [Function.update_of_ne hne]
    exact h.home c hc hmem

theorem triple_installTrans (hr : Recorded L s) :
    Triple (Committed L s d₀) (installTrans L s.lh)
      (fun d => Committed L s d₀ d ∧ ∀ b ∈ s.lh.block, d b = s.bread d₀ b)
      (Recoverable L s d₀) := by
  let I (n : ℕ) (d : Disk) : Prop :=
    Committed L s d₀ d ∧ ∀ i b, i < n → s.lh.block[i]? = some b → d b = s.bread d₀ b
  have hloop : Triple (I 0) (installTrans L s.lh) (I s.lh.block.length) (Recoverable L s d₀) := by
    refine triple_loop I ?_ (fun d hd => Or.inr (Or.inl hd.1))
    intro n hn
    apply triple_withEntry hn
    intro b hb
    refine triple_write (fun d hd => Or.inr (Or.inl hd.1)) ?_ (fun d hd => Or.inr (Or.inl hd.1))
    intro d hd
    refine ⟨hd.1.update_home hr (List.mem_of_getElem? hb) _, ?_⟩
    intro i c hi hc
    by_cases hcb : c = b
    · subst hcb
      rw [Function.update_self]
      exact hd.1.logged n c hb
    · rw [Function.update_of_ne hcb]
      have hin : i ≠ n := by
        rintro rfl
        exact hcb (Option.some.inj (hc.symm.trans hb))
      exact hd.2 i c (by omega) hc
  refine hloop.weaken (fun d hd => ⟨hd, by simp⟩) (fun d hd => ⟨hd.1, fun b hb => ?_⟩)
  obtain ⟨i, hi⟩ := List.mem_iff_getElem?.mp hb
  exact hd.2 i b (List.getElem?_eq_some_iff.mp hi).1 hi

/-- Erasing the header ends the transaction. -/
theorem triple_clearHead (hr : Recorded L s) :
    Triple (fun d => Committed L s d₀ d ∧ ∀ b ∈ s.lh.block, d b = s.bread d₀ b)
      (writeHead L .empty) (Clean L (s.bread d₀)) (Recoverable L s d₀) := by
  refine triple_write (fun d hd => Or.inr (Or.inl hd.1)) ?_ (fun d hd => Or.inr (Or.inr hd))
  intro d hd
  refine ⟨?_, ?_⟩
  · rw [Function.update_self]
    rfl
  · intro b hb
    have hne : b ≠ L.header := fun he => hb (he ▸ contains_header L)
    rw [Function.update_of_ne hne]
    by_cases hmem : b ∈ s.lh.block
    · exact hd.2 b hmem
    · rw [hd.1.home b hb hmem, hr.bread_of_notMem hmem]

theorem triple_install (hr : Recorded L s) :
    Triple (Committed L s d₀) (seq (installTrans L s.lh) (writeHead L .empty))
      (Clean L (s.bread d₀)) (Recoverable L s d₀) :=
  triple_seq (triple_installTrans hr) (triple_clearHead hr)

theorem triple_commit (hr : Recorded L s) :
    Triple (Clean L d₀) (commit L s) (Clean L (s.bread d₀)) (Recoverable L s d₀) := by
  unfold commit
  split_ifs with hn
  · exact triple_seq (triple_writeLog hr) (triple_seq (triple_writeHead hr) (triple_install hr))
  · -- an empty transaction changes nothing
    have hnil : s.lh.block = [] := List.eq_nil_of_length_eq_zero (by omega)
    have hsame : s.bread d₀ = d₀ := by
      funext b
      exact hr.bread_of_notMem (by simp [hnil]) d₀
    rw [hsame]
    exact triple_skip fun d hd => Or.inl hd

theorem triple_recover_clean (v : Disk) :
    Triple (Clean L v) (recoverFromLog L) (Clean L v) (Clean L v) := by
  refine triple_read (fun d hd => decode_of_zero hd.count) ?_
  refine triple_seq (triple_skip fun d hd => hd) (triple_write (fun d hd => hd) ?_ (fun d hd => hd))
  intro d hd
  refine ⟨?_, ?_⟩
  · rw [Function.update_self]
    rfl
  · intro b hb
    have hne : b ≠ L.header := fun he => hb (he ▸ contains_header L)
    rw [Function.update_of_ne hne]
    exact hd.home b hb

theorem triple_recover (hr : Recorded L s) :
    Triple (Recoverable L s d₀) (recoverFromLog L)
      (fun d => Clean L d₀ d ∨ Clean L (s.bread d₀) d) (Recoverable L s d₀) := by
  have hbefore : Triple (Clean L d₀) (recoverFromLog L)
      (fun d => Clean L d₀ d ∨ Clean L (s.bread d₀) d) (Recoverable L s d₀) :=
    ((triple_recover_clean d₀).weaken (fun _ h => h) fun _ => Or.inl).mono_crash fun _ => Or.inl
  have hafter : Triple (Clean L (s.bread d₀)) (recoverFromLog L)
      (fun d => Clean L d₀ d ∨ Clean L (s.bread d₀) d) (Recoverable L s d₀) :=
    ((triple_recover_clean _).weaken (fun _ h => h) fun _ => Or.inr).mono_crash
      fun _ h => Or.inr (Or.inr h)
  have hlogged : Triple (Committed L s d₀) (recoverFromLog L)
      (fun d => Clean L d₀ d ∨ Clean L (s.bread d₀) d) (Recoverable L s d₀) := by
    have h : Triple (Committed L s d₀) (recoverFromLog L) (Clean L (s.bread d₀))
        (Recoverable L s d₀) :=
      triple_read (r := fun lh => seq (installTrans L lh) (writeHead L .empty))
        (fun d hd => hd.header) (triple_install hr)
    exact h.weaken (fun _ h => h) fun _ => Or.inr
  intro d hd
  rcases hd with hd | hd | hd
  · exact hbefore d hd
  · exact hlogged d hd
  · exact hafter d hd

end Crash

/-- From a disk with an empty log, crash `commit` of any transaction recorded by
`log_write` after any of its block writes, and recovery after any of its own as
often as you like: the recovery that completes leaves the log empty and every
home block as before the transaction, or every one as after it. -/
theorem commit_crash_atomic (L : LogArea) (d : Disk) (hempty : d L.header ⟨0, by decide⟩ = 0)
    (bufs : List Buf) (hhome : ∀ b ∈ bufs, ¬L.Contains b.blockno) (s₀ s : LogState)
    (hfresh : s₀.Fresh) (hs : bufs.foldlM (LogState.logWrite L) s₀ = some s) :
    ∃ ws, commit L s d = some ws ∧
      ∀ k d', Reboots (recoverFromLog L) (applyWrites (ws.take k) d) d' →
        ∃ vs, recoverFromLog L d' = some vs ∧
          applyWrites vs d' L.header ⟨0, by decide⟩ = 0 ∧
          ((∀ b, ¬L.Contains b → applyWrites vs d' b = d b) ∨
            ∀ b, ¬L.Contains b → applyWrites vs d' b =
              applyWrites (bufs.map fun b => (b.blockno, b.data)) d b) := by
  obtain ⟨hr, hbread⟩ := recorded_logWrites (recorded_fresh hfresh) hhome hs d
  have hstart : s₀.bread d = d := by
    funext b
    simp [LogState.bread, hfresh.2 b]
  rw [hstart] at hbread
  obtain ⟨ws, hws, hcrash, -⟩ := triple_commit hr d ⟨hempty, fun b _ => rfl⟩
  refine ⟨ws, hws, ?_⟩
  intro k d' hd'
  obtain ⟨vs, hvs, hend⟩ := (triple_recover hr).recovers (hcrash k) hd'
  refine ⟨vs, hvs, ?_⟩
  rw [hbread] at hend
  rcases hend with hend | hend
  · exact ⟨hend.count, Or.inl hend.home⟩
  · exact ⟨hend.count, Or.inr hend.home⟩

/-- Two blocks, of which one is written twice, in a log of four blocks. -/
theorem commit_crash_atomic_two_blocks :
    let L : LogArea := ⟨2, 4, by decide, by decide⟩
    let d : Disk := fun _ _ => 0
    let bufs : List Buf := [⟨40, fun _ => 1⟩, ⟨41, fun _ => 2⟩, ⟨40, fun _ => 3⟩]
    ∃ s, bufs.foldlM (LogState.logWrite L) ⟨1, .empty, fun _ => none⟩ = some s ∧
      s.lh.block = [40, 41] ∧
      ∃ ws, commit L s d = some ws ∧
        ∀ k d', Reboots (recoverFromLog L) (applyWrites (ws.take k) d) d' →
          ∃ vs, recoverFromLog L d' = some vs ∧
            applyWrites vs d' L.header ⟨0, by decide⟩ = 0 ∧
            ((∀ b, ¬L.Contains b → applyWrites vs d' b = d b) ∨
              ∀ b, ¬L.Contains b → applyWrites vs d' b =
                applyWrites (bufs.map fun b => (b.blockno, b.data)) d b) := by
  intro L d bufs
  have hrun : ∃ s ∈ bufs.foldlM (LogState.logWrite L) ⟨1, .empty, fun _ => none⟩,
      s.lh.block = [40, 41] := by decide
  obtain ⟨s, hs, hblock⟩ := hrun
  exact ⟨s, hs, hblock, commit_crash_atomic L d rfl bufs (by decide) _ s ⟨rfl, fun _ => rfl⟩ hs⟩

end ProvenXv6.Log
