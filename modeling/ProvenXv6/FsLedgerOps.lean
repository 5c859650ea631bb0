import ProvenXv6.FsLedger

namespace ProvenXv6.Fs
open SlotMap WeakestPre

variable {sb : Superblock} {dev : Devsw} {O : ℕ → Prop} {N : Table} {B L : List (Ip × ℕ)} {W : List Ip}
variable {s : FS} {F : Fault → Prop} {ip dp : Ip} {i d inum : ℕ} {nd : Node} {name : List Byte}

theorem Ledger.all_used (h : Ledger sb O N B L W s) (hall : ∀ e, (s.inode e).ref ≠ 0) (e : Ip) : e ∈ L.map Prod.fst := by
  by_contra hno
  apply hall e
  rw [h.refs, List.count_eq_zero_of_not_mem hno]
  rfl

theorem iget_room_ledger (hF : (∀ e, e ∈ L.map Prod.fst) → F cacheFull) (h : Ledger sb O N B L W s)
    (hi : 1 ≤ i ∧ i < sb.ninodes) : wp F (iget i) (fun ip t => Ledger sb O N B ((ip, i) :: L) W t) s :=
  wp_mono (iget_room (fun hall => hF (h.all_used hall)) h.sound hi) fun _ _ hg => h.got hg

theorem iget_ledger (hF : F cacheFull) (h : Ledger sb O N B L W s) (hi : 1 ≤ i ∧ i < sb.ninodes) :
    wp F (iget i) (fun ip t => Ledger sb O N B ((ip, i) :: L) W t) s :=
  iget_room_ledger (fun _ => hF) h hi

theorem idup_ledger (h : Ledger sb O N B L W s) (hip : (ip, i) ∈ L) :
    wp F (idup ip) (fun r t => r = ip ∧ Ledger sb O N B ((ip, i) :: L) W t) s := by
  apply wp_mono (idup_exact h.sound (h.ref_pos (mem_fst hip)))
  rintro r t ⟨hr, hg⟩
  rw [h.inum _ hip] at hg
  exact ⟨hr, h.got hg⟩

/-- `ilock` waits for itself if the caller has the lock, and panics on a free inode. -/
theorem ilock_ledger (h : Ledger sb O N B L W s) (hip : (ip, i) ∈ L) (hdead : ip ∈ W → F .deadlock)
    (htype : N i = none → F noType) : wp F (ilock sb ip) (fun _ t => Ledger sb O N B L (ip :: W) t) s := by
  apply wp_mono (ilock_exact h.sound (h.ref_pos (mem_fst hip)) (fun hl => hdead ((h.locked ip).mp hl)) ?_)
  · intro _ t hl
    exact h.lock (mem_fst hip) hl
  · rw [h.inum _ hip, h.nodes]
    exact htype

theorem iunlock_ledger (h : Ledger sb O N B L (ip :: W) s) :
    wp F (iunlock ip) (fun _ t => Ledger sb O N B L W t) s := by
  apply wp_mono (iunlock_exact (h.ref_pos_of_locked List.mem_cons_self) fun hl => ?_)
  · rintro _ t rfl
    exact h.unlock
  · rw [(h.locked ip).mpr List.mem_cons_self] at hl
    cases hl

theorem iput_exact_ledger (h : Ledger sb O N B ((ip, i) :: L) W s) (hW : ip ∉ W) :
    wp F (iput sb ip) (fun _ t => Dropped sb ip s t) s := by
  apply iput_exact h.sound (h.ref_pos (mem_fst List.mem_cons_self))
  intro hl
  exact absurd ((h.locked ip).mp hl) hW

theorem iput_temp (h : Ledger sb O N B ((ip, i) :: L) W s) (hsub : ∀ p ∈ B, p ∈ L) (hW : ip ∉ W) :
    wp F (iput sb ip) (fun _ t => ∃ N', Ledger sb O N' B L W t ∧ (N' = N ∨ O i ∧ Frees N L i N')) s :=
  wp_mono (iput_exact_ledger h hW) fun _ _ hd => h.drop_temp hd hsub

theorem iput_base (h : Ledger sb O N ((ip, i) :: L) ((ip, i) :: L) W s) (hW : ip ∉ W) :
    wp F (iput sb ip) (fun _ t => ∃ N', Ledger sb O N' L L W t ∧ (N' = N ∨ Frees N L i N')) s :=
  wp_mono (iput_exact_ledger h hW) fun _ _ hd => h.drop_base hd

theorem iunlockput_temp (h : Ledger sb O N B ((ip, i) :: L) (ip :: W) s) (hsub : ∀ p ∈ B, p ∈ L) :
    wp F (iunlockput sb ip) (fun _ t => ∃ N', Ledger sb O N' B L W t ∧ (N' = N ∨ O i ∧ Frees N L i N')) s := by
  unfold iunlockput
  rw [wp_bind]
  apply wp_mono (iunlock_ledger h)
  intro _ t ht
  exact iput_temp ht hsub (List.nodup_cons.mp h.nodup).1

theorem iunlockput_base (h : Ledger sb O N ((ip, i) :: L) ((ip, i) :: L) (ip :: W) s) :
    wp F (iunlockput sb ip) (fun _ t => ∃ N', Ledger sb O N' L L W t ∧ (N' = N ∨ Frees N L i N')) s := by
  unfold iunlockput
  rw [wp_bind]
  apply wp_mono (iunlock_ledger h)
  intro _ t ht
  exact iput_base ht (List.nodup_cons.mp h.nodup).1

theorem updateDin_ledger {f : Dinode → Dinode} {g : Node → Node} (h : Ledger sb O N B L W s)
    (hip : (ip, i) ∈ L) (hW : ip ∈ W) (hnd : N i = some nd)
    (hf : ∀ v, (f v).type = v.type ∧ (f v).size = v.size ∧ (f v).addrs = v.addrs)
    (hg : ∀ v c, (f v).node c = g (v.node c)) (hlink : (g nd).nlink = 0 → O i ∨ (ip, i) ∈ B) :
    wp F (iupdate sb ip) (fun _ t => Ledger sb O (Function.update N i (some (g nd))) B L W t) (s.mapDin ip f) := by
  have hv := (h.loaded ip hW).1
  have hself := h.node_self hip hv
  rw [hnd, Option.some.injEq] at hself
  apply wp_mono (updateDin_exact h.sound (h.ref_pos (mem_fst hip)) hv hf)
  intro _ t hst
  rw [h.inum _ hip, hg, ← hself] at hst
  exact h.stored hst hip hv hlink

namespace Ledger

theorem openDir (h : Ledger sb O N B L W s) (hdp : (dp, d) ∈ L) (hW : dp ∈ W) (hnd : N d = some nd)
    (hdir : nd.type = T_DIR) (hnames : NamesInodes sb nd.data) : OpenDir sb dp nd.data s := by
  have hv := (h.loaded dp hW).1
  have hself := h.node_self hdp hv
  rw [hnd, Option.some.injEq] at hself
  subst hself
  refine ⟨h.sound, h.ref_pos (mem_fst hdp), hv, hdir, ?_, hnames⟩
  rw [h.inum _ hdp]
  rfl

theorem din (h : Ledger sb O N B L W s) (hip : (ip, i) ∈ L) (hW : ip ∈ W) (hnd : N i = some nd) :
    (s.inode ip).din.type = nd.type ∧ (s.inode ip).din.nlink = nd.nlink := by
  have hself := h.node_self hip (h.loaded ip hW).1
  rw [hnd, Option.some.injEq] at hself
  rw [hself]
  exact ⟨rfl, rfl⟩

theorem node_of_locked (h : Ledger sb O N B L W s) (hip : (ip, i) ∈ L) (hW : ip ∈ W) : ∃ nd, N i = some nd :=
  ⟨_, h.node_self hip (h.loaded ip hW).1⟩

end Ledger

theorem dirlookup_first_ledger (hfull : (∀ e, e ∈ L.map Prod.fst) → F cacheFull)
    (hpart : ¬16 ∣ nd.data.length → lookup nd.data name = none → F (.panic "dirlookup read"))
    (h : Ledger sb O N B L W s) (hdp : (dp, d) ∈ L) (hW : dp ∈ W) (hnd : N d = some nd)
    (hdir : nd.type = T_DIR) (hnames : NamesInodes sb nd.data) :
    wp F (dirlookup sb dev dp name) (fun r t => match r with
      | none => t = s ∧ 16 ∣ nd.data.length ∧ lookup nd.data name = none ∧ ∀ i, some (cut name, i) ∉ slots nd.data
      | some (ip, off) => ∃ j i, off = 16*j ∧ (slots nd.data)[j]? = some (some (cut name, i)) ∧
        lookup nd.data name = some i ∧ Ledger sb O N B ((ip, i) :: L) W t) s := by
  apply wp_mono (dirlookup_first (fun hall => hfull (h.all_used hall)) hpart (h.openDir hdp hW hnd hdir hnames))
  rintro (_ | ⟨ip, off⟩) t hfound
  · obtain ⟨rfl, halign, hnone, hno⟩ := hfound
    refine ⟨rfl, halign, hnone, ?_⟩
    intro i hi
    obtain ⟨j, hj⟩ := List.mem_iff_getElem?.mp hi
    exact hno j i hj
  · obtain ⟨j, i, hoff, hslot, hfind, hg⟩ := hfound
    exact ⟨j, i, hoff, hslot, hfind, h.got hg⟩

theorem dirlookup_ledger (hfull : F cacheFull) (hpart : ¬16 ∣ nd.data.length → F (.panic "dirlookup read"))
    (h : Ledger sb O N B L W s) (hdp : (dp, d) ∈ L) (hW : dp ∈ W) (hnd : N d = some nd)
    (hdir : nd.type = T_DIR) (hnames : NamesInodes sb nd.data) :
    wp F (dirlookup sb dev dp name) (fun r t => match r with
      | none => t = s ∧ 16 ∣ nd.data.length ∧ ∀ i, some (cut name, i) ∉ slots nd.data
      | some (ip, off) => ∃ j i, off = 16*j ∧ (slots nd.data)[j]? = some (some (cut name, i)) ∧
        Ledger sb O N B ((ip, i) :: L) W t) s := by
  apply wp_mono (dirlookup_first_ledger (fun _ => hfull) (fun hnot _ => hpart hnot) h hdp hW hnd hdir hnames)
  rintro (_ | ⟨ip, off⟩) t hfound
  · exact ⟨hfound.1, hfound.2.1, hfound.2.2.2⟩
  · obtain ⟨j, i, hoff, hslot, -, ht⟩ := hfound
    exact ⟨j, i, hoff, hslot, ht⟩

def setSlot (N : Table) (d : ℕ) (nd : Node) (j : ℕ) (src : ℕ → Byte) : Table :=
  Function.update N d (some { nd with data := splice nd.data (16*j) 16 src })

/-- What `dirlink` does to the account. -/
def LinkedIn (sb : Superblock) (O : ℕ → Prop) (N : Table) (B L : List (Ip × ℕ)) (W : List Ip) (d : ℕ) (nd : Node)
    (name : List Byte) (inum : ℕ) (r : ℤ) (t : FS) : Prop :=
  (r = -1 ∧ (∃ i, some (cut name, i) ∈ slots nd.data ∧ ∀ e ∈ W, (e, i) ∉ L) ∧ Ledger sb O N B L W t) ∨
  (r = 0 ∧ (∀ i, some (cut name, i) ∉ slots nd.data) ∧ 16 ∣ nd.data.length ∧ ∃ j, 16*j ≤ nd.data.length ∧
    Vacant (slots nd.data) j ∧ Ledger sb O (setSlot N d nd j (direntBytes inum name)) B L W t)

theorem dirlink_ledger (hblocks : F outOfBlocks) (hfull : F cacheFull)
    (hpart : ¬16 ∣ nd.data.length → F (.panic "dirlookup read"))
    (hdead : ∀ e ∈ W, ∀ i, (e, i) ∈ L → some (cut name, i) ∈ slots nd.data → F .deadlock)
    (hbig : MAXFILE*BSIZE < nd.data.length+16 → F (.panic "dirlink"))
    (h : Ledger sb O N B L W s) (hdp : (dp, d) ∈ L) (hW : dp ∈ W) (hnd : N d = some nd)
    (hdir : nd.type = T_DIR) (hnames : NamesInodes sb nd.data) :
    wp F (dirlink sb dev dp name inum) (LinkedIn sb O N B L W d nd name inum) s := by
  have hv := (h.loaded dp hW).1
  have hself := h.node_self hdp hv
  rw [hnd, Option.some.injEq] at hself
  apply wp_mono (dirlink_exact hblocks hfull hpart ?_ hbig (h.openDir hdp hW hnd hdir hnames))
  · rintro r t (⟨hr, ⟨i, hmem, hfree⟩, hsame⟩ | ⟨hr, hno, halign, j, hj, hvac, hst⟩)
    · refine Or.inl ⟨hr, ⟨i, hmem, ?_⟩, h.same hsame⟩
      intro e he hL
      have hl := hfree e (h.ref_pos (mem_fst hL)) (h.inum _ hL)
      rw [(h.locked e).mpr he] at hl
      cases hl
    · refine Or.inr ⟨hr, hno, halign, j, hj, hvac, ?_⟩
      have hnode : (s.inode dp).din.node (splice nd.data (16*j) 16 (direntBytes inum name)) =
          { nd with data := splice nd.data (16*j) 16 (direntBytes inum name) } := by
        rw [hself]
        rfl
      rw [hnode] at hst
      exact h.stored hst hdp hv fun hlink => h.orphan_mem hdp hnd hlink
  · rintro ⟨e, i, hl, hinum, hmem⟩
    have he := (h.locked e).mp hl
    obtain ⟨k, hp⟩ := exists_mem_of_fst (h.loaded e he).2
    have hk : k = i := (h.inum _ hp).symm.trans (hinum (h.ref_pos_of_locked he))
    rw [hk] at hp
    exact hdead e he i hp hmem

/-- The inode is a directory with something in it besides its first two slots. -/
def Full (nd : Node) : Prop := nd.type = T_DIR ∧ ∃ j, 2 ≤ j ∧ ∃ p, (slots nd.data)[j]? = some (some p)

theorem isFullDir_ledger (hpart : nd.type = T_DIR → ¬16 ∣ nd.data.length → F (.panic "isdirempty: readi"))
    (h : Ledger sb O N B L W s) (hip : (ip, i) ∈ L) (hW : ip ∈ W) (hnd : N i = some nd)
    (hnames : nd.type = T_DIR → NamesInodes sb nd.data) :
    wp F (isFullDir sb dev ip) (fun r t => t = s ∧ (r = true ↔ Full nd)) s := by
  unfold isFullDir
  rw [wp_bind, wp_getInode, (h.din hip hW hnd).1]
  split_ifs with hdir
  · have ho := h.openDir hip hW hnd hdir (hnames hdir)
    rw [wp_bind]
    apply wp_mono (isdirempty_exact (k := 2) ho (hpart hdir) (by rw [ho.size]; omega))
    rintro r t ⟨rfl, hr⟩
    refine ⟨rfl, ?_⟩
    unfold Full
    cases r with
    | true =>
      refine iff_of_false (by simp) ?_
      rintro ⟨-, j, hj, p, hp⟩
      exact hr.mp rfl j hj p hp
    | false =>
      refine iff_of_true rfl ⟨hdir, ?_⟩
      by_contra hno
      push Not at hno
      exact absurd (hr.mpr hno) Bool.false_ne_true
  · exact ⟨rfl, iff_of_false Bool.false_ne_true fun hfull => hdir hfull.1⟩

end ProvenXv6.Fs
