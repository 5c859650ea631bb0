import ProvenXv6.FsLedgerOps

namespace ProvenXv6.Fs
open SlotMap WeakestPre

section
variable (sb : Superblock) (dev : Devsw)

/-- `sys_unlink` from the check of the name to `iupdate(dp)`: the inode whose entry was
removed, locked. Without a result nothing was removed. -/
def removeName (dp : Ip) (name : List Byte) : FsM (Option Ip) := do
  if namecmp name dot = 0 ∨ namecmp name dotdot = 0 then pure none
  else do
    match ← dirlookup sb dev dp name with
    | none => pure none
    | some (ip, off) => do
      ilock sb ip
      let e ← getInode ip
      if e.din.nlink.toInt < 1 then panic "unlink: nlink < 1"
      else do
        let full ← isFullDir sb dev ip
        if full then do
          iunlockput sb ip
          pure none
        else do
          removeDirent sb dev dp ip off
          pure (some ip)

/-- The end of `sys_unlink`, from `ip->nlink--` on. -/
def dropLink (ip : Ip) : FsM Unit := do
  setDin ip fun v => { v with nlink := v.nlink-1 }
  iupdate sb ip
  iunlockput sb ip

theorem unlink_eq (cwd : Ip) (path : List Byte) : unlink sb dev cwd path = (do
    match ← nameiparent sb dev cwd path with
    | none => pure (-1)
    | some (dp, name) => do
      ilock sb dp
      match ← removeName sb dev dp name with
      | none => do
        iunlockput sb dp
        pure (-1)
      | some ip => do
        iunlockput sb dp
        dropLink sb ip
        pure 0) := by
  unfold unlink
  congr 1
  funext r
  rcases r with _ | ⟨dp, name⟩
  · rfl
  dsimp only
  congr 1
  funext _
  unfold removeName
  split_ifs with hdots
  · rfl
  rw [bind_assoc]
  congr 1
  funext r
  rcases r with _ | ⟨ip, off⟩
  · rfl
  simp only [bind_assoc]
  congr 1
  funext _
  congr 1
  funext e
  split_ifs with hlink
  · rfl
  rw [bind_assoc]
  congr 1
  funext full
  split_ifs with hfull
  · rw [bind_assoc]
    rfl
  · rw [bind_assoc]
    unfold dropLink
    simp only [bind_assoc, pure_bind]

end

variable {sb : Superblock} {dev : Devsw} {O : ℕ → Prop} {N : Table} {B L : List (Ip × ℕ)} {W : List Ip}
variable {s : FS} {F : Fault → Prop} {ip dp : Ip} {i j d : ℕ} {nd child : Node} {name : List Byte}

/-- A directory without slot j, which was the entry of child. -/
def cleared (nd : Node) (j : ℕ) (child : Node) : Node :=
  { nd with
    data := splice nd.data (16*j) 16 fun _ => 0
    nlink := if child.type = T_DIR then nd.nlink-1 else nd.nlink }

theorem OpenDir.length_le {c : List Byte} (h : OpenDir sb dp c s) : c.length ≤ MAXFILE*BSIZE := by
  by_contra hlong
  have hfilled := h.sound.addr_ne_zero h.ref h.valid (p := MAXFILE*BSIZE) (by rw [h.size]; omega)
  rw [Nat.mul_div_cancel _ BSIZE_pos] at hfilled
  exact hfilled (if_neg (lt_irrefl _))

theorem removeDirent_ledger (hblocks : F outOfBlocks) (h : Ledger sb O N B L W s) (hdp : (dp, d) ∈ L) (hdW : dp ∈ W)
    (hip : (ip, i) ∈ L) (hW : ip ∈ W) (hne : i ≠ d) (hnd : N d = some nd) (hchild : N i = some child)
    (hdir : nd.type = T_DIR) (hnames : NamesInodes sb nd.data) (hj : 16*j+16 ≤ nd.data.length)
    (hlink : (cleared nd j child).nlink = 0 → O d ∨ (dp, d) ∈ B) :
    wp F (removeDirent sb dev dp ip (16*j))
      (fun _ t => Ledger sb O (Function.update N d (some (cleared nd j child))) B L W t) s := by
  have ho := h.openDir hdp hdW hnd hdir hnames
  have hv := (h.loaded dp hdW).1
  have hself := h.node_self hdp hv
  rw [hnd, Option.some.injEq] at hself
  have hsixteen : (16 : BitVec 32).toNat = 16 := rfl
  have hok : Writable s dp (16*j) 16 := by
    have hmax : MAXFILE*BSIZE = 71680 := rfl
    have := ho.length_le
    unfold Writable
    rw [ho.size]
    omega
  unfold removeDirent
  rw [wp_bind]
  apply wp_mono (writei_node hblocks ho.sound ho.ref ho.valid ho.not_device)
  intro r t hr
  rw [ho.toNat_ofNat (show 16*j ≤ nd.data.length by omega), ho.bytes, hsixteen, if_pos hok] at hr
  obtain ⟨hr, hst⟩ := hr
  rw [if_neg (by rw [hr]; decide)]
  have hnode : (s.inode dp).din.node (splice nd.data (16*j) 16 fun _ => 0) =
      { nd with data := splice nd.data (16*j) 16 fun _ => 0 } := by
    rw [hself]
    rfl
  rw [hnode] at hst
  have ht := h.stored hst hdp hv fun hl => h.orphan_mem hdp hnd hl
  have hchild' : Function.update N d (some { nd with data := splice nd.data (16*j) 16 fun _ => 0 }) i = some child := by
    rw [Function.update_of_ne hne, hchild]
  rw [wp_bind, wp_getInode, (ht.din hip hW hchild').1]
  unfold cleared at hlink ⊢
  split_ifs at hlink ⊢ with htype
  · rw [wp_bind, wp_setDin]
    apply wp_mono (updateDin_ledger (g := fun nd => { nd with nlink := nd.nlink-1 }) ht hdp hdW
      (Function.update_self ..) (by intro _; exact ⟨rfl, rfl, rfl⟩) (by intro _ _; rfl) hlink)
    intro _ u hu
    rwa [Function.update_idem] at hu
  · exact ht

/-- What `removeName` does to the account. -/
def RemovedIn (sb : Superblock) (O : ℕ → Prop) (N : Table) (B L : List (Ip × ℕ)) (W : List Ip) (d : ℕ) (nd : Node)
    (name : List Byte) (r : Option Ip) (t : FS) : Prop :=
  match r with
  | none => Ledger sb O N B L W t
  | some ip => ∃ i j child, (slots nd.data)[j]? = some (some (cut name, i)) ∧ i ≠ d ∧ N i = some child ∧
      1 ≤ child.nlink.toInt ∧ ¬Full child ∧
      Ledger sb O (Function.update N d (some (cleared nd j child))) B ((ip, i) :: L) (ip :: W) t

theorem removeName_ledger (hblocks : F outOfBlocks) (hfull : F cacheFull)
    (hpart : ∀ i nd, N i = some nd → nd.type = T_DIR → ¬16 ∣ nd.data.length →
      F (.panic "dirlookup read") ∧ F (.panic "isdirempty: readi"))
    (hdead : cut name ≠ dot → cut name ≠ dotdot → some (cut name, d) ∈ slots nd.data → F .deadlock)
    (htype : ∀ i, some (cut name, i) ∈ slots nd.data → N i = none → F noType)
    (hnlink : ∀ i child, some (cut name, i) ∈ slots nd.data → N i = some child → child.nlink.toInt < 1 →
      F (.panic "unlink: nlink < 1"))
    (h : Ledger sb O N B L [dp] s) (hdirs : DirsOk sb N) (hdp : (dp, d) ∈ L) (hnd : N d = some nd)
    (hdir : nd.type = T_DIR)
    (hlink : ∀ i j child, (slots nd.data)[j]? = some (some (cut name, i)) → N i = some child →
      1 ≤ child.nlink.toInt → (cleared nd j child).nlink = 0 → O d ∨ (dp, d) ∈ B) :
    wp F (removeName sb dev dp name)
      (fun r t => RemovedIn sb O N B L [dp] d nd name r t ∧
        (r.isSome → cut name ≠ dot ∧ cut name ≠ dotdot)) s := by
  have hdW : dp ∈ [dp] := List.mem_singleton_self dp
  have hdot : cut dot = dot := by decide
  have hdotdot : cut dotdot = dotdot := by decide
  unfold removeName
  split_ifs with hdots
  · exact ⟨h, nofun⟩
  rw [namecmp_eq_zero, namecmp_eq_zero, hdot, hdotdot, not_or] at hdots
  rw [wp_bind]
  apply wp_mono (dirlookup_ledger hfull (fun hp => (hpart d nd hnd hdir hp).1) h hdp hdW hnd hdir (hdirs d nd hnd hdir))
  rintro (_ | ⟨ip, off⟩) t hfound
  · obtain ⟨rfl, -⟩ := hfound
    exact ⟨h, nofun⟩
  obtain ⟨j, i, rfl, hslot, ht⟩ := hfound
  have hmem : some (cut name, i) ∈ slots nd.data := List.mem_iff_getElem?.mpr ⟨j, hslot⟩
  have hip : (ip, i) ∈ (ip, i) :: L := List.mem_cons_self
  have hW : ip ∈ [ip, dp] := List.mem_cons_self
  -- if the name is that of the directory itself, its lock is taken
  have hself : ip ∈ [dp] → F .deadlock := by
    intro hmem'
    obtain rfl := List.mem_singleton.mp hmem'
    have hd : i = d := (ht.inum _ hip).symm.trans (ht.inum _ (List.mem_cons_of_mem _ hdp))
    exact hdead hdots.1 hdots.2 (hd ▸ hmem)
  dsimp only
  rw [wp_bind]
  apply wp_mono (ilock_ledger ht hip hself (htype i hmem))
  intro _ u hu
  have hne : i ≠ d := by
    rintro rfl
    have heq := hu.entry_eq hip (List.mem_cons_of_mem _ hdp)
    exact (List.nodup_cons.mp hu.nodup).1 (List.mem_singleton.mpr heq.symm)
  obtain ⟨child, hchild⟩ := hu.node_of_locked hip hW
  have hdin := hu.din hip hW hchild
  rw [wp_bind, wp_getInode, hdin.2]
  split_ifs with hneg
  · exact hnlink i child hmem hchild hneg
  have hpos : 1 ≤ child.nlink.toInt := by omega
  rw [wp_bind]
  apply wp_mono (isFullDir_ledger (fun hcd hp => (hpart i child hchild hcd hp).2) hu hip hW hchild
    (hdirs i child hchild))
  rintro full v ⟨rfl, hfull'⟩
  split_ifs with hf
  · rw [wp_bind]
    apply wp_mono (iunlockput_temp hu h.sub)
    rintro _ w ⟨N', hw, rfl | ⟨-, hfree⟩⟩
    · exact ⟨hw, nofun⟩
    · -- the inode has a link, so it was not freed
      obtain ⟨nd', hnd', hzero⟩ := hfree.node
      rw [hchild, Option.some.injEq] at hnd'
      rw [hnd', hzero] at hpos
      exact absurd hpos (by decide)
  · rw [wp_bind]
    apply wp_mono (removeDirent_ledger hblocks hu (List.mem_cons_of_mem _ hdp) (List.mem_cons_of_mem _ hdW) hip hW hne hnd
      hchild hdir (hdirs d nd hnd hdir) (getElem?_slots_lt hslot) (hlink i j child hslot hchild hpos))
    intro _ w hw
    exact ⟨⟨i, j, child, hslot, hne, hchild, hpos, fun hF => hf (hfull'.mpr hF), hw⟩, fun _ => hdots⟩

theorem dropLink_ledger (h : Ledger sb O N L ((ip, i) :: L) (ip :: W) s) (hnd : N i = some nd) :
    wp F (dropLink sb ip) (fun _ t => ∃ N', Ledger sb O N' L L W t ∧
      (N' = Function.update N i (some { nd with nlink := nd.nlink-1 }) ∨
        Frees (Function.update N i (some { nd with nlink := nd.nlink-1 })) L i N')) s := by
  have h := h.promote ((ip, i) :: L) (fun p hp => List.mem_cons_of_mem _ hp) (fun p hp => hp)
  unfold dropLink
  rw [wp_bind, wp_setDin, wp_bind]
  apply wp_mono (updateDin_ledger (g := fun nd => { nd with nlink := nd.nlink-1 }) h List.mem_cons_self
    List.mem_cons_self hnd (by intro _; exact ⟨rfl, rfl, rfl⟩) (by intro _ _; rfl) fun _ => Or.inr List.mem_cons_self)
  intro _ t ht
  exact iunlockput_base ht

end ProvenXv6.Fs
