import ProvenXv6.FsLogModel
import ProvenXv6.FsWrite

namespace ProvenXv6.Fs
open Recording WeakestPre

def FSSIZE : ℕ := 1000

theorem BBLOCK_eq {sb : Superblock} (hsize : sb.size ≤ FSSIZE) {b : ℕ} (hb : b < sb.size) :
    sb.BBLOCK b = sb.bmapstart := by
  unfold FSSIZE at hsize
  rw [Superblock.BBLOCK, Nat.div_eq_of_lt (by unfold BPB BSIZE; omega), Nat.zero_add]

namespace Logged

variable {sb : Superblock} {dev : Devsw} {ip : Ip} {s t : Recorded FS ℕ} {F : Fault → Prop}

def addrOf (ip : Ip) (s : Recorded FS ℕ) (k : Fin (NDIRECT+1)) : BitVec 32 := (s.state.inode ip).din.addrs k

/-- Addresses that are there stay. -/
def Stays (ip : Ip) (s t : Recorded FS ℕ) : Prop := ∀ k, addrOf ip s k ≠ 0 → addrOf ip t k = addrOf ip s k

theorem Stays.trans {u : Recorded FS ℕ} (h : Stays ip s t) (h' : Stays ip t u) : Stays ip s u := by
  intro k hk
  rw [h' k (by rwa [h k hk]), h k hk]

theorem Stays.of_inode (h : t.state.inode = s.state.inode) : Stays ip s t := by
  intro k _
  rw [addrOf, h, addrOf]

@[simp] theorem wp_logWrite (b : ℕ) (x : Block) (Q : Unit → Recorded FS ℕ → Prop) :
    wp F (logWrite b x) Q s ↔ Q () ⟨s.state.put b x, s.record ++ [b]⟩ := Iff.rfl

theorem balloc_log (hsize : sb.size ≤ FSSIZE) (hF : F outOfBlocks) :
    wp F (balloc sb) (fun a t => t.state.inode = s.state.inode ∧
      Notes (fun b => b = sb.bmapstart ∨ b = a.toNat) s t) s := by
  unfold balloc
  rw [wp_bind, wp_silent, wp_get]
  cases hfind : (List.range sb.size).find? (fun b => !sb.bit s.state.disk b) with
  | none => exact hF
  | some b =>
    have hlt : b < sb.size := List.mem_range.mp (List.mem_of_find?_eq_some hfind)
    have htoNat : (BitVec.ofNat 32 b).toNat = b := by
      rw [BitVec.toNat_ofNat]
      exact Nat.mod_eq_of_lt (hlt.trans sb.fits)
    simp only [wp_bind, wp_logWrite, wp_pure, BBLOCK_eq hsize hlt, htoNat]
    refine ⟨rfl, Notes.trans (t := ⟨s.state, s.record ++ [sb.bmapstart]⟩) ?_ ?_⟩
    · exact Notes.one rfl (Or.inl rfl)
    · exact Notes.one rfl (Or.inr rfl)

theorem loadAddr_log (hsize : sb.size ≤ FSSIZE) (hF : F outOfBlocks) (k : Fin (NDIRECT+1)) :
    wp F (loadAddr sb ip k) (fun a t => a = addrOf ip t k ∧ Stays ip s t ∧
      Notes (fun b => b = sb.bmapstart ∨ b = a.toNat) s t) s := by
  unfold loadAddr
  rw [wp_bind, wp_silent, wp_getInode]
  split_ifs with hk
  · rw [wp_bind]
    apply wp_mono (balloc_log hsize hF)
    rintro a t ⟨hinode, hnotes⟩
    simp only [wp_bind, wp_silent, wp_setDin, wp_pure]
    have hself (j : Fin (NDIRECT+1)) : addrOf ip ⟨t.state.mapDin ip fun v =>
        { v with addrs := Function.update v.addrs k a }, t.record⟩ j =
          Function.update ((s.state.inode ip).din.addrs) k a j := by
      rw [addrOf, FS.mapDin_same, hinode]
    refine ⟨?_, fun j hj => ?_, hnotes⟩
    · rw [hself, Function.update_self]
    · rw [hself, Function.update_of_ne]
      · rfl
      · rintro rfl
        exact hj hk
  · exact ⟨rfl, fun _ _ => rfl, Notes.of_eq rfl⟩

/-- The bitmap block, the blocks A and the indirect block of the file. -/
def Reached (sb : Superblock) (ip : Ip) (A : List ℕ) (t : Recorded FS ℕ) (b : ℕ) : Prop :=
  b = sb.bmapstart ∨ b ∈ A ∨ addrOf ip t indirect ≠ 0 ∧ b = (addrOf ip t indirect).toNat

theorem Reached.later {A A' : List ℕ} {b : ℕ} (h : Stays ip s t) (hA : ∀ a ∈ A, a ∈ A')
    (hb : Reached sb ip A s b) : Reached sb ip A' t b := by
  rcases hb with hb | hb | ⟨h0, hb⟩
  · exact Or.inl hb
  · exact Or.inr (Or.inl (hA b hb))
  · have hsame := h indirect h0
    exact Or.inr (Or.inr ⟨by rwa [hsame], by rwa [hsame]⟩)

theorem bmap_log {bn : ℕ} (hsize : sb.size ≤ FSSIZE) (hF : F outOfBlocks) (h : Opened sb ip s.state)
    (htype : (s.state.inode ip).din.type ≠ 0) (hbn : bn < MAXFILE) :
    wp F (bmap sb ip bn) (fun a t => Stays ip s t ∧ Notes (Reached sb ip [a.toNat] t) s t) s := by
  have hmax : MAXFILE = NDIRECT+NINDIRECT := rfl
  unfold bmap
  split_ifs with h1 h2
  · apply wp_mono (loadAddr_log hsize hF _)
    rintro a t ⟨-, hstays, hnotes⟩
    exact ⟨hstays, hnotes.mono fun b hb => hb.imp_right fun hb => Or.inl (List.mem_singleton.mpr hb)⟩
  · rw [wp_bind]
    have hspec := ((loadAddr_erases indirect).wp_iff (F := F) (s := s) _).mpr (loadAddr_spec hF h htype indirect)
    refine wp_mono (wp_and hspec (loadAddr_log hsize hF indirect) fun _ he _ => he) ?_
    rintro a t ⟨⟨-, -, ha0⟩, rfl, hstays, hnotes⟩
    rw [wp_bind, wp_silent, wp_bread]
    split_ifs with hw
    · rw [wp_bind]
      apply wp_mono (balloc_log hsize hF)
      rintro a' u ⟨hinode, hnotes'⟩
      rw [wp_bind, wp_logWrite, wp_pure]
      have hstays' : Stays ip t u := Stays.of_inode hinode
      refine ⟨hstays.trans hstays', Notes.mono ?_ fun b hb => Reached.later hstays' (fun _ ha => ha) hb⟩
      refine ((hnotes.mono fun b hb => ?_).trans (hnotes'.mono fun b hb => ?_)).trans (Notes.one rfl ?_)
      · exact hb.imp_right fun hb => Or.inr ⟨ha0, hb⟩
      · exact hb.imp_right fun hb => Or.inl (List.mem_singleton.mpr hb)
      · exact Or.inr (Or.inr ⟨ha0, rfl⟩)
    · exact ⟨hstays, hnotes.mono fun b hb => hb.imp_right fun hb => Or.inr ⟨ha0, hb⟩⟩
  · omega

/-- The number of blocks that a write of rem bytes at off reaches. -/
def touched (off rem : ℕ) : ℕ := if rem = 0 then 0 else (off%BSIZE+rem+BSIZE-1)/BSIZE

theorem touched_next (off : ℕ) {rem : ℕ} (h : rem ≠ 0) :
    1+touched (off+min rem (BSIZE-off%BSIZE)) (rem-min rem (BSIZE-off%BSIZE)) ≤ touched off rem := by
  unfold touched BSIZE
  rw [if_neg h]
  split_ifs <;> omega

theorem writeLoop_log {src : ℕ → Byte} {fuel tot off rem : ℕ} (hsize : sb.size ≤ FSSIZE) (hF : F outOfBlocks)
    (h : Opened sb ip s.state) (htype : (s.state.inode ip).din.type ≠ 0) (hmax : off+rem ≤ MAXFILE*BSIZE) :
    wp F (writeLoop sb ip src fuel tot off rem) (fun _ t => Stays ip s t ∧
      ∃ A : List ℕ, A.length ≤ touched off rem ∧ Notes (Reached sb ip A t) s t) s := by
  have hnone (s : Recorded FS ℕ) (off rem : ℕ) : Stays ip s s ∧
      ∃ A : List ℕ, A.length ≤ touched off rem ∧ Notes (Reached sb ip A s) s s :=
    ⟨fun _ _ => rfl, [], Nat.zero_le _, Notes.of_eq rfl⟩
  induction fuel generalizing tot off rem s with
  | zero => exact hnone s off rem
  | succ fuel ih =>
    unfold writeLoop
    split_ifs with hrem
    · exact hnone s off rem
    · rw [wp_bind]
      have hbn : off/BSIZE < MAXFILE := Nat.div_lt_of_lt_mul (by rw [Nat.mul_comm]; omega)
      have hspec := ((bmap_erases (off/BSIZE)).wp_iff (F := F) (s := s) _).mpr (bmap_spec hF h htype hbn)
      refine wp_mono (wp_and hspec (bmap_log hsize hF h htype hbn) fun _ he _ => he) ?_
      rintro a t ⟨⟨hr, ha0, haddr⟩, hstays, hnotes⟩
      simp only [wp_bind, wp_silent, wp_bread, wp_logWrite]
      have hnext := touched_next off hrem
      generalize hm : min rem (BSIZE-off%BSIZE) = m at hnext
      generalize hx : copyIn _ _ _ _ = x
      have hput := (hr.put ha0 haddr x).2
      -- one round of the loop notes the blocks of `bmap` and the block that is written
      have hround : Notes (Reached sb ip [a.toNat] t) s ⟨t.state.put a.toNat x, t.record ++ [a.toNat]⟩ :=
        hnotes.trans (Notes.one rfl (Or.inr (Or.inl (List.mem_singleton_self _))))
      have hm' : off+m+(rem-m) ≤ MAXFILE*BSIZE := by omega
      apply wp_mono (ih hput (by rw [FS.put_inode, hr.type]; exact htype) hm')
      rintro _ u ⟨hstays', A, hlen, hnotes'⟩
      refine ⟨hstays.trans hstays', a.toNat :: A, ?_, (hround.mono fun b hb => ?_).trans (hnotes'.mono fun b hb => ?_)⟩
      · rw [List.length_cons]
        omega
      · exact Reached.later hstays' (fun c hc => List.mem_singleton.mp hc ▸ List.mem_cons_self) hb
      · exact Reached.later (fun _ _ => rfl) (fun c hc => List.mem_cons_of_mem _ hc) hb

theorem iupdate_log : wp F (iupdate sb ip)
    (fun _ t => t.state.inode = s.state.inode ∧ Notes (· = sb.IBLOCK (s.state.inode ip).inum) s t) s := by
  unfold iupdate
  simp only [wp_bind, wp_silent, wp_getInode, wp_bread, wp_logWrite]
  exact ⟨rfl, Notes.one rfl rfl⟩

theorem writei_log {src : ℕ → Byte} {off n : BitVec 32} (hsize : sb.size ≤ FSSIZE) (hF : F outOfBlocks)
    (h : Opened sb ip s.state) (htype : (s.state.inode ip).din.type ≠ 0) :
    wp F (writei sb dev ip src off n) (fun _ t => ∃ l, t.record = s.record ++ l ∧
      l.toFinset.card ≤ touched off.toNat n.toNat+3) s := by
  have hnone : ∃ l, s.record = s.record ++ l ∧ l.toFinset.card ≤ touched off.toNat n.toNat+3 :=
    ⟨[], (List.append_nil _).symm, Nat.zero_le _⟩
  unfold writei
  rw [wp_bind, wp_silent, wp_getInode]
  split_ifs with hdev hrange hbig
  · cases devEntry dev.write (s.state.inode ip).din.major <;> exact hnone
  · exact hnone
  · exact hnone
  · have hmax : off.toNat+n.toNat ≤ MAXFILE*BSIZE := by
      have : MAXFILE*BSIZE = 71680 := by decide
      rw [this] at hbig ⊢
      bv_omega
    rw [wp_bind]
    apply wp_mono (writeLoop_log hsize hF h htype hmax)
    rintro _ t ⟨-, A, hlen, hnotes⟩
    have hlist (b : ℕ) (hb : Reached sb ip A t b ∨ b = sb.IBLOCK (t.state.inode ip).inum) :
        b ∈ sb.bmapstart :: (addrOf ip t indirect).toNat :: sb.IBLOCK (t.state.inode ip).inum :: A := by
      rcases hb with (rfl | hb | ⟨-, rfl⟩) | rfl <;> simp [*]
    have hcard {u : Recorded FS ℕ}
        (hu : Notes (fun b => Reached sb ip A t b ∨ b = sb.IBLOCK (t.state.inode ip).inum) s u) :
        ∃ l, u.record = s.record ++ l ∧ l.toFinset.card ≤ touched off.toNat n.toNat+3 := by
      obtain ⟨l, hl, hle⟩ := (hu.mono hlist).card_le
      exact ⟨l, hl, hle.trans (by rw [List.length_cons, List.length_cons, List.length_cons]; omega)⟩
    rw [wp_bind, wp_silent, wp_getInode]
    split_ifs with hgrow
    · rw [wp_bind, wp_silent, wp_setDin, wp_bind]
      apply wp_mono iupdate_log
      rintro _ u ⟨-, hu⟩
      rw [wp_pure]
      rw [FS.mapDin_same] at hu
      refine hcard ((hnotes.mono fun _ => Or.inl).trans (Notes.trans (t := ⟨_, t.record⟩) (Notes.of_eq rfl) ?_))
      exact hu.mono fun _ => Or.inr
    · exact hcard (hnotes.mono fun _ => Or.inl)

end Logged

end ProvenXv6.Fs
