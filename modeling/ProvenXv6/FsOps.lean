import ProvenXv6.FsPaths

namespace ProvenXv6.Fs
open WeakestPre

/-- The operations. One on an inode takes the entry of an inode that the caller
holds a reference to; `create` and `iget` leave such a reference behind. -/
inductive Op
  | iget (inum : ℕ)
  | idup (ip : Ip)
  | namei (cwd : Ip) (path : List Byte)
  | ialloc (type : BitVec 16)
  | create (cwd : Ip) (path : List Byte) (type major minor : BitVec 16)
  | readi (ip : Ip) (off n : BitVec 32)
  | writei (ip : Ip) (src : ℕ → Byte) (off n : BitVec 32)
  | dirlink (dp : Ip) (name : List Byte) (ip : Ip)
  | unlink (cwd : Ip) (path : List Byte)
  | iput (ip : Ip)

section
variable (sb : Superblock) (dev : Devsw)

/-- The operation, between taking and giving back the lock that it needs. -/
def perform : Op → FsM Unit
  | .iget inum => do
    let _ ← iget inum
    pure ()
  | .idup ip => do
    let _ ← idup ip
    pure ()
  | .namei cwd path => do
    let _ ← namei sb dev cwd path
    pure ()
  | .ialloc type => do
    let _ ← ialloc sb type
    pure ()
  | .create cwd path type major minor => do
    match ← create sb dev cwd path type major minor with
    | none => pure ()
    | some ip => iunlock ip
  | .readi ip off n => do
    ilock sb ip
    let _ ← readi sb dev ip off n
    iunlock ip
  | .writei ip src off n => do
    ilock sb ip
    let _ ← writei sb dev ip src off n
    iunlock ip
  | .dirlink dp name ip => do
    let e ← getInode ip
    ilock sb dp
    let _ ← dirlink sb dev dp name e.inum
    iunlock dp
  | .unlink cwd path => do
    let _ ← unlink sb dev cwd path
    pure ()
  | .iput ip => iput sb ip

def step (s : FS) (op : Op) : Option FS :=
  match perform sb dev op s with
  | .ok (_, t) => some t
  | .error _ => none

/-- The entries an operation is given are in use, and the inode that is got by its
number is in the table. -/
def Given (s : FS) : Op → Prop
  | .iget inum => 1 ≤ inum ∧ inum < sb.ninodes
  | .idup ip => 0 < (s.inode ip).ref
  | .namei cwd _ => 0 < (s.inode cwd).ref
  | .ialloc _ => True
  | .create cwd _ _ _ _ => 0 < (s.inode cwd).ref
  | .readi ip _ _ => 0 < (s.inode ip).ref
  | .writei ip _ _ _ => 0 < (s.inode ip).ref
  | .dirlink dp _ ip => 0 < (s.inode dp).ref ∧ 0 < (s.inode ip).ref
  | .unlink cwd _ => 0 < (s.inode cwd).ref
  | .iput ip => 0 < (s.inode ip).ref

/-- A `writei` to a directory leaves entries that name inodes of the table. -/
def KeepsDirs (s : FS) : Op → Prop
  | .writei ip src off n => DirWriteOk sb s.disk (s.inode ip).inum src off.toNat n.toNat
  | _ => True

instance (s : FS) : (op : Op) → Decidable (Given sb s op)
  | .iget _ | .dirlink _ _ _ => inferInstanceAs (Decidable (_ ∧ _))
  | .ialloc _ => inferInstanceAs (Decidable True)
  | .idup _ | .namei _ _ | .create _ _ _ _ _ | .readi _ _ _ | .writei _ _ _ _ | .unlink _ _
  | .iput _ => inferInstanceAs (Decidable (_ < _))

instance (s : FS) : (op : Op) → Decidable (KeepsDirs sb s op)
  | .writei _ _ _ _ => inferInstanceAs (Decidable (DirWriteOk ..))
  | .iget _ | .idup _ | .namei _ _ | .ialloc _ | .create _ _ _ _ _ | .readi _ _ _ | .dirlink _ _ _
  | .unlink _ _ | .iput _ => inferInstanceAs (Decidable True)

end

def boot (d : Disk) : FS := ⟨d, fun _ => ⟨0, 0, false, false, .zero⟩⟩

section
variable {sb : Superblock} {dev : Devsw} {s t : FS} {ip : Ip} {d : Disk}

theorem Inv.holds (h : Inv sb s) (hip : 0 < (s.inode ip).ref) : Holds sb [ip] [] s where
  inv := h
  refs e := by
    by_cases he : e = ip
    · rw [he, List.count_singleton_self]
      exact hip
    · rw [List.count_singleton, if_neg (by simpa using Ne.symm he)]
      exact h.cached.nonneg e
  loaded _ he := absurd he List.not_mem_nil

theorem Inv.holds_nil (h : Inv sb s) : Holds sb [] [] s where
  inv := h
  refs := h.cached.nonneg
  loaded _ he := absurd he List.not_mem_nil

/-- Every operation keeps the invariant and never frees a free block. -/
theorem perform_spec (op : Op) (h : Inv sb s) (hgiven : Given sb s op) (hdirs : KeepsDirs sb s op) :
    wp NoDoubleFree (perform sb dev op) (fun _ t => Inv sb t) s := by
  cases op with
  | iget inum =>
    rw [perform, wp_bind]
    exact wp_mono (iget_spec h.holds_nil hgiven) fun _ _ ht => ht.inv
  | idup ip =>
    rw [perform, wp_bind]
    exact wp_mono (idup_spec (h.holds hgiven) List.mem_cons_self) fun _ _ ht => ht.inv
  | namei cwd path =>
    rw [perform, wp_bind, namei, wp_bind]
    apply wp_mono (namex_spec (h.holds hgiven) List.mem_cons_self)
    rintro (_ | ⟨ip, name⟩) t ht
    · exact Holds.inv ht
    · exact Holds.inv ht
  | ialloc type =>
    rw [perform, wp_bind]
    exact wp_mono (ialloc_spec h.holds_nil type) fun _ _ ht => ht.inv
  | create cwd path type major minor =>
    rw [perform, wp_bind]
    apply wp_mono (create_spec (h.holds hgiven) List.mem_cons_self)
    rintro (_ | ip) t ht
    · exact ht.inv
    · exact wp_mono (iunlock_spec ht) fun _ _ hu => hu.inv
  | readi ip off n =>
    rw [perform, wp_bind]
    apply wp_mono (ilock_spec (h.holds hgiven) List.mem_cons_self)
    rintro _ t ⟨ht, -, -⟩
    obtain ⟨hH, hv⟩ := ht.loaded ip List.mem_cons_self
    rw [wp_bind]
    apply wp_mono (readi_spec ht.inv.sound (ht.ref_pos hH) hv)
    rintro _ u rfl
    exact wp_mono (iunlock_spec ht) fun _ _ hu => hu.inv
  | writei ip src off n =>
    rw [perform, wp_bind]
    apply wp_mono (ilock_spec (h.holds hgiven) List.mem_cons_self)
    rintro _ t ⟨ht, hdisk, hinum⟩
    rw [wp_bind]
    apply wp_mono (writei_spec ht List.mem_cons_self (by rw [hdisk, hinum]; exact hdirs))
    intro _ u hu
    exact wp_mono (iunlock_spec hu) fun _ _ hv => hv.inv
  | dirlink dp name ip =>
    have hinum := (h.cached.range ip hgiven.2).2
    rw [perform, wp_bind, wp_getInode, wp_bind]
    apply wp_mono (ilock_spec (h.holds hgiven.1) List.mem_cons_self)
    rintro _ t ⟨ht, -, -⟩
    rw [wp_bind]
    apply wp_mono (dirlink_spec ht List.mem_cons_self hinum)
    intro _ u hu
    exact wp_mono (iunlock_spec hu) fun _ _ hv => hv.inv
  | unlink cwd path =>
    rw [perform, wp_bind]
    exact wp_mono (unlink_spec (h.holds hgiven) List.mem_cons_self) fun _ _ ht => ht.inv
  | iput ip =>
    exact wp_mono (iput_spec (h.holds hgiven) fun _ he => absurd he List.not_mem_nil)
      fun _ _ ht => ht.inv

theorem inv_step {op : Op} (h : Inv sb s) (hs : step sb dev s op = some t)
    (hop : Given sb s op ∧ KeepsDirs sb s op) : Inv sb t := by
  have hspec : wp NoDoubleFree (perform sb dev op) (fun _ t => Inv sb t) s :=
    perform_spec op h hop.1 hop.2
  unfold step at hs
  split at hs
  case h_1 _ u hm =>
    obtain rfl := Option.some.inj hs
    have hu := wp_ok hspec hm
    exact hu
  case h_2 => cases hs

theorem inv_boot (h : WellFormed sb d) : Inv sb (boot d) where
  cached := ⟨fun _ => le_rfl, fun _ hr => absurd hr (lt_irrefl 0), fun _ _ hr => absurd hr (lt_irrefl 0)⟩
  synced _ hr := absurd hr (lt_irrefl 0)
  disk := h

end

end ProvenXv6.Fs
