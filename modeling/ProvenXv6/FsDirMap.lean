import ProvenXv6.FsByteArray
import ProvenXv6.FsRemove

namespace ProvenXv6.Fs
open SlotMap StepSystem WeakestPre

/-- The caller holds the lock of the directory in entry dp, and no other inode is locked. -/
structure LockedDir (sb : Superblock) (dp : Ip) (s : FS) : Prop where
  inv : Inv sb s
  ref : 0 < (s.inode dp).ref
  valid : (s.inode dp).valid = true
  dir : (s.inode dp).din.type = T_DIR
  locked : ∀ e, (s.inode e).locked = true ↔ e ∈ [dp]

/-- What is done to a directory: `dirlink`, the removal of a name as `sys_unlink` does it,
and whatever the system does in between, with the state it leaves. -/
inductive DirOp
  | dirlink (name : List Byte) (inum : ℕ)
  | remove (name : List Byte)
  | meanwhile (t : FS)

section
variable (sb : Superblock) (dev : Devsw) (dp : Ip)

def DirOp.perform : DirOp → FsM ℤ
  | .dirlink name inum => Fs.dirlink sb dev dp name inum
  | .remove name => do
    match ← removeName sb dev dp name with
    | none => pure (-1)
    | some ip => do
      dropLink sb ip
      pure 0
  | .meanwhile t => do
    set t
    pure 0

def dirStep (s : FS) (e : DirOp × ℤ) : Option FS :=
  match e.1.perform sb dev dp s with
  | .ok (r, t) => if r = e.2 then some t else none
  | .error _ => none

/-- A number of an inode that fits in a directory entry. -/
def InodeNumber (inum : ℕ) : Prop := 1 ≤ inum ∧ inum < sb.ninodes ∧ inum < 65536

instance (inum : ℕ) : Decidable (InodeNumber sb inum) := inferInstanceAs (Decidable (_ ∧ _ ∧ _))

/-- The operations that are asked for: links to inodes while the directory is below its
maximal size, and in between nothing happens to the directory. -/
def Asked (s : FS) (e : DirOp × ℤ) (_ : FS) : Prop :=
  match e.1 with
  | .dirlink _ inum => InodeNumber sb inum ∧ (content sb s.disk (s.inode dp).inum).length < MAXFILE*BSIZE
  | .remove _ => True
  | .meanwhile t => LockedDir sb dp t ∧ (t.inode dp).inum = (s.inode dp).inum ∧
      content sb t.disk (t.inode dp).inum = content sb s.disk (s.inode dp).inum

end

/-- What an operation does to the map: a link adds a name, a removal takes one away,
and one that failed does nothing. -/
def DirOp.effect (m : List Byte → Option ℕ) (e : DirOp × ℤ) : List Byte → Option ℕ :=
  match e.1 with
  | .dirlink name inum => if e.2 = 0 then Function.update m (cut name) (some inum) else m
  | .remove name => if e.2 = 0 then Function.update m (cut name) none else m
  | .meanwhile _ => m

def dots (d parent : ℕ) : List Byte → Option ℕ :=
  Function.update (Function.update (fun _ => none) dot (some d)) dotdot (some parent)

variable {sb : Superblock} {dev : Devsw} {O : ℕ → Prop} {N : Table} {B L : List (Ip × ℕ)} {W : List Ip}
variable {s t : FS} {F : Fault → Prop} {ip dp : Ip} {i j d parent inum : ℕ} {nd : Node} {c name : List Byte}
variable {m : List Byte → Option ℕ}

theorem count_replicates {α : Type} [DecidableEq α] (n : α → ℕ) {l : List α} (hl : l.Nodup) (a : α) :
    (l.flatMap fun b => List.replicate (n b) b).count a = if a ∈ l then n a else 0 := by
  induction l with
  | nil => rfl
  | cons b l ih =>
    obtain ⟨hb, hl⟩ := List.nodup_cons.mp hl
    rw [List.flatMap_cons, List.count_append, ih hl, List.count_replicate]
    by_cases hab : a = b
    · subst hab
      simp [hb]
    · simp [hab, Ne.symm hab]

theorem Sound.ledger (h : Sound sb s) (hW : W.Nodup) (hlocked : ∀ e, (s.inode e).locked = true ↔ e ∈ W)
    (hloaded : ∀ e ∈ W, (s.inode e).valid = true ∧ 0 < (s.inode e).ref) :
    ∃ L, Ledger sb (fun _ => True) (node sb s.disk) L L W s ∧
      ∀ e, 0 < (s.inode e).ref → (e, (s.inode e).inum) ∈ L := by
  have hfst : ((List.finRange NINODE).flatMap fun e => List.replicate (s.inode e).ref.toNat
      (e, (s.inode e).inum)).map Prod.fst = (List.finRange NINODE).flatMap fun e =>
        List.replicate (s.inode e).ref.toNat e := by
    rw [List.map_flatMap]
    simp only [List.map_replicate]
  have hmem (e : Ip) (hr : 0 < (s.inode e).ref) : (e, (s.inode e).inum) ∈ (List.finRange NINODE).flatMap
      fun e => List.replicate (s.inode e).ref.toNat (e, (s.inode e).inum) :=
    List.mem_flatMap.mpr ⟨e, List.mem_finRange e, List.mem_replicate.mpr ⟨by omega, rfl⟩⟩
  refine ⟨_, ⟨h, rfl, ?_, ?_, fun _ hp => hp, hW, hlocked, ?_, fun _ _ _ _ => Or.inl trivial⟩, hmem⟩
  · intro e
    have := h.cached.nonneg e
    rw [hfst, count_replicates _ (List.nodup_finRange NINODE), if_pos (List.mem_finRange e)]
    omega
  · intro p hp
    obtain ⟨e, -, hrep⟩ := List.mem_flatMap.mp hp
    rw [(List.mem_replicate.mp hrep).2]
  · intro e he
    exact ⟨(hloaded e he).1, mem_fst (hmem e (hloaded e he).2)⟩

theorem LockedDir.ledger (h : LockedDir sb dp s) :
    ∃ L nd, Ledger sb (fun _ => True) (node sb s.disk) L L [dp] s ∧ (dp, (s.inode dp).inum) ∈ L ∧
      node sb s.disk (s.inode dp).inum = some nd ∧ nd.type = T_DIR ∧
      nd.data = content sb s.disk (s.inode dp).inum := by
  obtain ⟨L, hL, hmem⟩ := h.inv.sound.ledger (List.nodup_singleton dp) h.locked fun e he => by
    rw [List.mem_singleton.mp he]
    exact ⟨h.valid, h.ref⟩
  exact ⟨L, _, hL, hmem dp h.ref, h.inv.sound.node_self h.ref h.valid, h.dir, rfl⟩

theorem Ledger.lockedDir (h : Ledger sb O N B L [dp] s) (hdirs : DirsOk sb N) (hdp : (dp, d) ∈ L)
    (hnd : N d = some nd) (hdir : nd.type = T_DIR) :
    LockedDir sb dp s ∧ (s.inode dp).inum = d ∧ content sb s.disk d = nd.data := by
  have hW : dp ∈ [dp] := List.mem_singleton_self dp
  have hv := (h.loaded dp hW).1
  have hself := h.node_self hdp hv
  rw [hnd, Option.some.injEq] at hself
  refine ⟨⟨h.sound.inv (by rw [h.nodes]; exact hdirs), h.ref_pos_of_locked hW, hv, ?_, h.locked⟩, h.inum _ hdp, ?_⟩
  · rw [(h.din hdp hW hnd).1, hdir]
  · rw [hself]
    rfl

/-- The locked directory d represents the map m. -/
structure DirMap (sb : Superblock) (dp : Ip) (d : ℕ) (m : List Byte → Option ℕ) (s : FS) : Prop where
  dir : LockedDir sb dp s
  inum : (s.inode dp).inum = d
  align : 16 ∣ (content sb s.disk d).length
  map : Represents (slots (content sb s.disk d)) m

theorem DirMap.ledger (h : DirMap sb dp d m s) :
    ∃ N L nd, Ledger sb (fun _ => True) N L L [dp] s ∧ DirsOk sb N ∧ (dp, d) ∈ L ∧ N d = some nd ∧
      nd.type = T_DIR ∧ nd.data = content sb s.disk d := by
  obtain ⟨L, nd, hL, hmem, hnd, hdir, hdata⟩ := h.dir.ledger
  rw [h.inum] at hmem hnd hdata
  exact ⟨_, L, nd, hL, h.dir.inv.dirsOk, hmem, hnd, hdir, hdata⟩

theorem Ledger.dirMap (h : Ledger sb O N B L [dp] s) (hdirs : DirsOk sb N) (hdp : (dp, d) ∈ L) (hnd : N d = some nd)
    (hdir : nd.type = T_DIR) (halign : 16 ∣ nd.data.length) (hm : Represents (slots nd.data) m) :
    DirMap sb dp d m s := by
  obtain ⟨hlocked, hinum, hdata⟩ := h.lockedDir hdirs hdp hnd hdir
  exact ⟨hlocked, hinum, by rwa [hdata], by rwa [hdata]⟩

theorem DirsOk.splice {nd' : Node} (src : ℕ → Byte) (h : DirsOk sb N) (hnd : N d = some nd) (hdir : nd.type = T_DIR)
    (hj : 16*j ≤ nd.data.length) (hsrc : (dirent ((List.range 16).map src)).1 < sb.ninodes)
    (hdata : nd'.data = Fs.splice nd.data (16*j) 16 src) : DirsOk sb (Function.update N d (some nd')) := by
  apply h.update
  intro x hx _
  rw [← Option.some.inj hx, hdata]
  exact (h d nd hnd hdir).splice hj hsrc

theorem dirlink_dirMap (h : DirMap sb dp d m s) (hi : InodeNumber sb inum) :
    wp (fun _ => True) (dirlink sb dev dp name inum)
      (fun r t => DirMap sb dp d (DirOp.effect m (.dirlink name inum, r)) t) s := by
  obtain ⟨N, L, nd, hL, hdirs, hdp, hnd, hdir, hdata⟩ := h.ledger
  have hmap := h.map
  have halign := h.align
  rw [← hdata] at hmap halign
  apply wp_mono (dirlink_ledger trivial trivial (fun _ => trivial) (fun _ _ _ _ _ => trivial) (fun _ => trivial) hL hdp
    (List.mem_singleton_self dp) hnd hdir (hdirs d nd hnd hdir))
  rintro r t (⟨rfl, -, ht⟩ | ⟨rfl, hno, -, j, hj, hvac, ht⟩)
  · exact ht.dirMap hdirs hdp hnd hdir halign hmap
  · have habsent : m (cut name) = none := by
      rw [hmap.absent]
      intro hmem
      obtain ⟨⟨key, i⟩, hp, rfl⟩ := List.mem_map.mp hmem
      exact hno i (List.reduceOption_mem_iff.mp hp)
    have hslot := direntSlot_direntBytes hi.1 hi.2.2 name
    have hsrc : (dirent ((List.range 16).map (direntBytes inum name))).1 < sb.ninodes := by
      rw [dirent_direntBytes]
      exact (Nat.mod_le ..).trans_lt hi.2.1
    refine ht.dirMap (hdirs.splice _ hnd hdir hj hsrc rfl) hdp (Function.update_self ..) hdir ?_ ?_
    · rw [length_splice _ hj]
      omega
    · rw [slots_splice hj, hslot]
      exact hmap.insert habsent hvac inum

theorem remove_dirMap (h : DirMap sb dp d m s) :
    wp (fun _ => True) ((DirOp.remove name).perform sb dev dp)
      (fun r t => DirMap sb dp d (DirOp.effect m (.remove name, r)) t) s := by
  obtain ⟨N, L, nd, hL, hdirs, hdp, hnd, hdir, hdata⟩ := h.ledger
  have hmap := h.map
  have halign := h.align
  rw [← hdata] at hmap halign
  unfold DirOp.perform
  rw [wp_bind]
  apply wp_mono (removeName_ledger trivial trivial (fun _ _ _ _ _ => ⟨trivial, trivial⟩) (fun _ _ _ => trivial)
    (fun _ _ _ => trivial) (fun _ _ _ _ _ => trivial) hL hdirs hdp hnd hdir fun _ _ _ _ _ _ _ => Or.inl trivial)
  rintro (_ | ip) t ⟨hr, -⟩
  · have hr : Ledger sb (fun _ => True) N L L [dp] t := hr
    exact hr.dirMap hdirs hdp hnd hdir halign hmap
  · obtain ⟨i, j, child, hslot, hne, hchild, -, -, ht⟩ := hr
    have hj := getElem?_slots_lt hslot
    have hpos : 0 < sb.ninodes := by
      have := ht.range (List.mem_cons_of_mem _ hdp)
      omega
    -- what remains is to drop the link of an inode that is not the directory
    have hdirs' : DirsOk sb (Function.update N d (some (cleared nd j child))) :=
      hdirs.splice (fun _ => 0) hnd hdir (by omega) (show 0 < sb.ninodes from hpos) rfl
    have hfinish (N' : Table) (u : FS) (hu : Ledger sb (fun _ => True) N' L L [dp] u) (hdirs : DirsOk sb N')
        (hN : N' d = some (cleared nd j child)) : DirMap sb dp d (Function.update m (cut name) none) u := by
      refine hu.dirMap hdirs hdp hN hdir ?_ ?_
      · show 16 ∣ (splice nd.data (16*j) 16 fun _ => 0).length
        rw [length_splice _ (by omega)]
        omega
      · show Represents (slots (splice nd.data (16*j) 16 fun _ => 0)) _
        rw [slots_splice (by omega), direntSlot_zero]
        exact hmap.erase hslot
    have hchild' : Function.update N d (some (cleared nd j child)) i = some child := by
      rw [Function.update_of_ne hne, hchild]
    dsimp only
    rw [wp_bind]
    apply wp_mono (dropLink_ledger ht hchild')
    rintro _ u ⟨N', hu, hN⟩
    have hchildDirs : DirsOk sb (Function.update (Function.update N d (some (cleared nd j child))) i
        (some { child with nlink := child.nlink-1 })) := by
      apply hdirs'.update
      intro x hx hxdir
      rw [← Option.some.inj hx] at hxdir ⊢
      exact hdirs i child hchild hxdir
    rcases hN with rfl | hfree
    · apply hfinish _ _ hu hchildDirs
      rw [Function.update_of_ne hne.symm, Function.update_self]
    · have hN' := hfree.eq
      subst hN'
      apply hfinish _ _ hu
      · exact hchildDirs.update fun x hx => absurd hx nofun
      · rw [Function.update_of_ne hne.symm, Function.update_of_ne hne.symm, Function.update_self]

/-- Whatever is done, and however it ends, the directory represents what the
successful operations made of the map. -/
theorem DirMap.run {es : List (DirOp × ℤ)} (h : DirMap sb dp d m s)
    (hrun : Run (dirStep sb dev dp) (Asked sb dp) s es t) : DirMap sb dp d (es.foldl DirOp.effect m) t := by
  induction hrun generalizing m with
  | nil => exact h
  | @cons s s' t e es hs hq _ ih =>
    apply ih
    obtain ⟨op, r⟩ := e
    unfold dirStep at hs
    cases hop : op.perform sb dev dp s with
    | error _ => simp [hop] at hs
    | ok p =>
      obtain ⟨r', u⟩ := p
      simp only [hop] at hs
      split_ifs at hs with hr
      cases hs
      subst hr
      cases op with
      | dirlink name inum =>
        have hd := wp_ok (dirlink_dirMap h hq.1) hop
        exact hd
      | remove name =>
        have hd := wp_ok (remove_dirMap h) hop
        exact hd
      | meanwhile t =>
        cases hop
        obtain ⟨hdir, hinum, hbytes⟩ := hq
        rw [hinum, h.inum] at hbytes
        exact ⟨hdir, hinum.trans h.inum, by rw [hbytes]; exact h.align, by rw [hbytes]; exact h.map⟩

theorem DirMap.lookup (h : DirMap sb dp d m s) :
    wp (· = cacheFull) (dirlookup sb dev dp name)
      (fun r t => r.map (fun p => (t.inode p.1).inum) = m (cut name) ∧ t.disk = s.disk) s := by
  obtain ⟨N, L, nd, hL, hdirs, hdp, hnd, hdir, hdata⟩ := h.ledger
  have hmap := h.map
  have halign := h.align
  rw [← hdata] at hmap halign
  have hopen := hL.openDir hdp (List.mem_singleton_self dp) hnd hdir (hdirs d nd hnd hdir)
  apply wp_mono (dirlookup_exact (F := (· = cacheFull)) rfl (fun hp => absurd halign hp) hopen)
  rintro (_ | ⟨ip, off⟩) t hfound
  · obtain ⟨rfl, -, hno⟩ := hfound
    refine ⟨?_, rfl⟩
    symm
    rw [Option.map_none, hmap.absent]
    intro hmem
    obtain ⟨⟨key, i⟩, hp, rfl⟩ := List.mem_map.mp hmem
    obtain ⟨j, hj⟩ := List.mem_iff_getElem?.mp (List.reduceOption_mem_iff.mp hp)
    exact hno j (Nat.zero_le j) i hj
  · obtain ⟨j, i, -, hslot, hg⟩ := hfound
    refine ⟨?_, hg.disk⟩
    rw [hmap.of_getElem? hslot, Option.map_some, hg.inum]

/-- `dirlink` waits for its own lock when the name is that of the directory itself. -/
def linkStops (m : List Byte → Option ℕ) (d : ℕ) (name : List Byte) (e : Fault) : Prop :=
  e = outOfBlocks ∨ e = cacheFull ∨ e = .deadlock ∧ m (cut name) = some d

theorem DirMap.link (h : DirMap sb dp d m s) (hlen : (content sb s.disk d).length < MAXFILE*BSIZE) :
    wp (linkStops m d name) (dirlink sb dev dp name inum)
      (fun r t => m (cut name) ≠ some d ∧ (r = 0 ∨ r = -1) ∧ (r = -1 ↔ m (cut name) ≠ none) ∧
        (r = -1 → Same sb s t)) s := by
  obtain ⟨N, L, nd, hL, hdirs, hdp, hnd, hdir, hdata⟩ := h.ledger
  have hmap := h.map
  have halign := h.align
  rw [← hdata] at hmap halign hlen
  have hopen := hL.openDir hdp (List.mem_singleton_self dp) hnd hdir (hdirs d nd hnd hdir)
  have hmem (i : ℕ) : some (cut name, i) ∈ slots nd.data ↔ m (cut name) = some i := by
    rw [← hmap.mem, List.reduceOption_mem_iff]
  apply wp_mono (dirlink_exact (F := linkStops m d name) (Or.inl rfl) (Or.inr (Or.inl rfl))
    (fun hp => absurd halign hp) ?_ ?_ hopen)
  · rintro r t (⟨rfl, ⟨i, hi, hfree⟩, hsame⟩ | ⟨rfl, hno, -⟩)
    · rw [hmem] at hi
      refine ⟨?_, Or.inr rfl, iff_of_true rfl (by rw [hi]; exact nofun), fun _ => hsame⟩
      intro hself
      rw [hi, Option.some.injEq] at hself
      have hl := hfree dp h.dir.ref (h.inum.trans hself.symm)
      rw [(h.dir.locked dp).mpr (List.mem_singleton_self dp)] at hl
      cases hl
    · have hnone : m (cut name) = none := by
        cases hm : m (cut name) with
        | none => rfl
        | some i => exact absurd ((hmem i).mpr hm) (hno i)
      rw [hnone]
      exact ⟨nofun, Or.inl rfl, iff_of_false (by decide) (not_not.mpr rfl), fun hr => absurd hr (by decide)⟩
  · rintro ⟨e, i, hl, hi, hin⟩
    obtain rfl := List.mem_singleton.mp ((h.dir.locked e).mp hl)
    rw [hmem, ← hi h.dir.ref, h.inum] at hin
    exact Or.inr (Or.inr ⟨rfl, hin⟩)
  · intro hbig
    have hmax : MAXFILE*BSIZE = 71680 := rfl
    omega

/-- A directory that starts with "." and ".." is a finite map: no cut name is used
twice, `dirlookup` finds what the last operation on the name left there, and `dirlink`
returns -1, with nothing changed, for the names that are there. It does not return for
a name under which the directory itself is entered. -/
theorem directory_is_map {es : List (DirOp × ℤ)} (h : LockedDir sb dp s) (hd : (s.inode dp).inum = d)
    (halign : 16 ∣ (content sb s.disk d).length)
    (hstart : slots (content sb s.disk d) = [some (dot, d), some (dotdot, parent)])
    (hrun : Run (dirStep sb dev dp) (Asked sb dp) s es t) :
    let m := es.foldl DirOp.effect (dots d parent)
    ((slots (content sb t.disk d)).reduceOption.map Prod.fst).Nodup ∧
    (∀ name, wp (· = cacheFull) (dirlookup sb dev dp name)
      (fun r u => r.map (fun p => (u.inode p.1).inum) = m (cut name) ∧ u.disk = t.disk) t) ∧
    ∀ name inum, (content sb t.disk d).length < MAXFILE*BSIZE →
      wp (linkStops m d name) (dirlink sb dev dp name inum)
        (fun r u => m (cut name) ≠ some d ∧ (r = 0 ∨ r = -1) ∧ (r = -1 ↔ m (cut name) ≠ none) ∧
          (r = -1 → Same sb t u)) t := by
  have hmap : Represents (slots (content sb s.disk d)) (dots d parent) := by
    have hempty : Represents ([] : List (Option (List Byte × ℕ))) fun _ => none :=
      ⟨List.nodup_nil, fun _ _ => iff_of_false (List.not_mem_nil) nofun⟩
    rw [hstart]
    have hone := hempty.insert (k := dot) (i := 0) rfl (Or.inr rfl) d
    exact hone.insert (k := dotdot) (i := 1) rfl (Or.inr rfl) parent
  have hend := DirMap.run ⟨h, hd, halign, hmap⟩ hrun
  exact ⟨hend.map.nodup, fun name => hend.lookup, fun name inum hlen => hend.link hlen⟩

theorem boot_ledger {disk : Disk} (h : WellFormed sb disk) :
    Ledger sb (fun _ => True) (node sb disk) [] [] [] (boot disk) where
  sound := (inv_boot h).sound
  nodes := rfl
  refs _ := rfl
  inum _ hp := absurd hp List.not_mem_nil
  sub _ hp := hp
  nodup := List.nodup_nil
  locked _ := iff_of_false Bool.false_ne_true List.not_mem_nil
  loaded _ he := absurd he List.not_mem_nil
  orphans _ _ _ _ := Or.inl trivial

theorem loadRoot_ledger {disk : Disk} (h : WellFormed sb disk) (hroot : ROOTINO < sb.ninodes) :
    wp (fun _ => True) (loadRoot sb)
      (fun ip s => Ledger sb (fun _ => True) (node sb disk) [] [(ip, ROOTINO)] [ip] s) (boot disk) := by
  unfold loadRoot
  rw [wp_bind]
  apply wp_mono (iget_ledger trivial (boot_ledger h) ⟨le_rfl, hroot⟩)
  intro ip s hs
  rw [wp_bind]
  apply wp_mono (ilock_ledger hs List.mem_cons_self (fun _ => trivial) fun _ => trivial)
  intro _ t ht
  exact ht

/-- The root directory is locked and gets its first two entries. -/
def dottedRoot : FsM Ip := do
  let ip ← loadRoot tinySuperblock
  let _ ← dirlink tinySuperblock noDevices ip dot ROOTINO
  let _ ← dirlink tinySuperblock noDevices ip dotdot ROOTINO
  pure ip

theorem dottedRoot_spec : wp (fun _ => True) dottedRoot
    (fun ip s => ∃ m, DirMap tinySuperblock ip ROOTINO m s) (boot (rootImage 0)) := by
  have hroot : InodeNumber tinySuperblock ROOTINO := by decide
  have hlive := (rootImage_live 0 1).mpr rfl
  have hslots : slots (content tinySuperblock (rootImage 0) 1) = [none] := by decide +kernel
  have hlen : (content tinySuperblock (rootImage 0) 1).length = 16 := by
    rw [length_content, rootImage_dinode]
    rfl
  unfold dottedRoot
  rw [wp_bind]
  apply wp_mono (loadRoot_ledger rootImage_wellFormed hroot.2.1)
  intro ip s hs
  have hm : DirMap tinySuperblock ip ROOTINO (fun _ => none) s := by
    refine hs.dirMap (wellFormed_iff.mp rootImage_wellFormed).2 List.mem_cons_self (node_of_live hlive) ?_ ?_ ?_
    · exact congrArg Dinode.type (rootImage_dinode 0)
    · show 16 ∣ (content tinySuperblock (rootImage 0) 1).length
      rw [hlen]
    · show Represents (slots (content tinySuperblock (rootImage 0) 1)) _
      rw [hslots]
      exact ⟨List.nodup_nil, fun _ _ => iff_of_false List.not_mem_nil nofun⟩
  rw [wp_bind]
  apply wp_mono (dirlink_dirMap hm hroot)
  intro _ t ht
  rw [wp_bind]
  apply wp_mono (dirlink_dirMap ht hroot)
  intro _ u hu
  exact ⟨_, hu⟩

theorem dottedRoot_start {p : Ip × FS} (hp : p ∈ (dottedRoot (boot (rootImage 0))).toOption) :
    LockedDir tinySuperblock p.1 p.2 ∧ (p.2.inode p.1).inum = 1 := by
  obtain ⟨m, hm⟩ := wp_ok dottedRoot_spec (ok_of_mem_toOption hp)
  exact ⟨hm.dir, hm.inum⟩

def deadlocks {α : Type} : Except Fault α → Bool
  | .error .deadlock => true
  | _ => false

theorem eq_of_deadlocks {α : Type} {r : Except Fault α} (h : deadlocks r = true) : r = .error .deadlock := by
  unfold deadlocks at h
  split at h
  · rfl
  · cases h

/-- A link under the name "." does not return -1: `dirlink` finds the directory itself
and waits for the lock that its caller holds. -/
theorem dirlink_dot_deadlocks : ∃ ip s, LockedDir tinySuperblock ip s ∧ (s.inode ip).inum = 1 ∧
    slots (content tinySuperblock s.disk 1) = [some (dot, 1), some (dotdot, 1)] ∧
    dirlink tinySuperblock noDevices ip dot 2 s = .error .deadlock := by
  have htrace : ∃ p ∈ (dottedRoot (boot (rootImage 0))).toOption,
      slots (content tinySuperblock p.2.disk 1) = [some (dot, 1), some (dotdot, 1)] ∧
      deadlocks (dirlink tinySuperblock noDevices p.1 dot 2 p.2) = true := by
    decide +kernel
  obtain ⟨⟨ip, s⟩, hp, hslots, hdead⟩ := htrace
  obtain ⟨hlocked, hinum⟩ := dottedRoot_start hp
  exact ⟨ip, s, hlocked, hinum, hslots, eq_of_deadlocks hdead⟩

def nameX : List Byte := [120]

/-- A name is linked once, and a second link under it fails. -/
theorem directory_is_map_link_twice : ∃ ip s t,
    Run (dirStep tinySuperblock noDevices ip) (Asked tinySuperblock ip) s
      [(.dirlink nameX 2, 0), (.dirlink nameX 1, -1)] t ∧
    wp (· = cacheFull) (dirlookup tinySuperblock noDevices ip nameX)
      (fun r u => r.map (fun p => (u.inode p.1).inum) = some 2) t := by
  have htrace : ∃ p ∈ (dottedRoot (boot (rootImage 0))).toOption,
      slots (content tinySuperblock p.2.disk 1) = [some (dot, 1), some (dotdot, 1)] ∧
      (content tinySuperblock p.2.disk 1).length = 32 ∧
      ∃ t ∈ dirStep tinySuperblock noDevices p.1 p.2 (.dirlink nameX 2, 0),
        (content tinySuperblock t.disk (t.inode p.1).inum).length < MAXFILE*BSIZE ∧
        (dirStep tinySuperblock noDevices p.1 t (.dirlink nameX 1, -1)).isSome := by
    decide +kernel
  obtain ⟨⟨ip, s⟩, hp, hslots, hlen, t, ht, hlen', hu⟩ := htrace
  obtain ⟨u, hu⟩ := Option.isSome_iff_exists.mp hu
  obtain ⟨hlocked, hinum⟩ := dottedRoot_start hp
  dsimp only at hslots hlen hinum ht hu hlen'
  have hrun : Run (dirStep tinySuperblock noDevices ip) (Asked tinySuperblock ip) s
      [(.dirlink nameX 2, 0), (.dirlink nameX 1, -1)] u := by
    refine .cons ht ⟨by decide, ?_⟩ (.cons hu ⟨by decide, hlen'⟩ (.nil u))
    rw [hinum, hlen]
    decide
  refine ⟨ip, s, u, hrun, ?_⟩
  have hmap := (directory_is_map hlocked hinum (by rw [hlen]; decide) hslots hrun).2.1 nameX
  exact wp_mono hmap fun _ _ hr => hr.1

end ProvenXv6.Fs
