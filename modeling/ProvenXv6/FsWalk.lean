import ProvenXv6.FsComponents
import ProvenXv6.FsLedgerOps

namespace ProvenXv6.Fs
open SlotMap WeakestPre

/-- What stays true on the way while the references L are held: I of the table of inodes, and M of
the names that are left and the inode that is met. An inode may be freed on the way if O allows it.
`nameiparent` does not look the last name up. -/
structure Roams (sb : Superblock) (O : ℕ → Prop) (L : List (Ip × ℕ)) (I : Table → Prop)
    (M : List (List Byte) → ℕ → Prop) (parent : Bool) : Prop where
  dirs : ∀ N, I N → DirsOk sb N
  next : ∀ N nd name names d i, I N → M (name :: names) d → N d = some nd → nd.type = T_DIR →
    lookup nd.data name = some i → ¬(parent = true ∧ names = []) → M names i
  frees : ∀ N names i N', I N → M names i → O i → Frees N L i N' → I N'

/-- At most one entry of the cache is free. -/
def Crowded (L : List (Ip × ℕ)) : Prop := ∃ e₀, ∀ e, e ≠ e₀ → e ∈ L.map Prod.fst

structure Stops (L : List (Ip × ℕ)) (I : Table → Prop) (M : List (List Byte) → ℕ → Prop) (parent : Bool)
    (F : Fault → Prop) : Prop where
  full : Crowded L → F cacheFull
  type : ∀ N name names i, I N → M (name :: names) i → N i = none → F noType
  part : ∀ N nd name names i, I N → M (name :: names) i → N i = some nd → nd.type = T_DIR →
    lookup nd.data name = none → ¬(parent = true ∧ names = []) → ¬16 ∣ nd.data.length → F (.panic "dirlookup read")

/-- The walk ends without an inode: it meets an inode that is no directory, or a directory without
the next name, or there is no name for `nameiparent`. -/
def Missing (N : Table) (M : List (List Byte) → ℕ → Prop) (parent : Bool) : Prop :=
  (parent = true ∧ ∃ i, M [] i) ∨
  ∃ name names i nd, M (name :: names) i ∧ N i = some nd ∧ (nd.type ≠ T_DIR ∨
    nd.type = T_DIR ∧ lookup nd.data name = none ∧ 16 ∣ nd.data.length ∧ ¬(parent = true ∧ names = []))

/-- Where `namex` stops: nowhere, or at an inode with all names used up, and for `nameiparent` at
a directory with the last name left. -/
def Reaches (sb : Superblock) (O : ℕ → Prop) (L : List (Ip × ℕ)) (I : Table → Prop)
    (M : List (List Byte) → ℕ → Prop) (parent : Bool) (r : Option (Ip × List Byte)) (t : FS) : Prop :=
  ∃ N, I N ∧ match r with
    | none => (∃ N', I N' ∧ Missing N' M parent) ∧ Ledger sb O N L L [] t
    | some (ip, name) => ∃ i, Ledger sb O N L ((ip, i) :: L) [] t ∧
      if parent then M [name] i ∧ ∃ nd, N i = some nd ∧ nd.type = T_DIR else M [] i

variable {sb : Superblock} {dev : Devsw} {O : ℕ → Prop} {N : Table} {L T : List (Ip × ℕ)} {I : Table → Prop}
variable {M : List (List Byte) → ℕ → Prop} {W : List Ip} {s : FS} {F : Fault → Prop} {ip cwd : Ip} {i : ℕ}
variable {path before : List Byte} {names : List (List Byte)} {parent : Bool}

theorem Frees.mono {N' : Table} (h : Frees N (T ++ L) i N') : Frees N L i N' :=
  ⟨h.eq, h.node, fun e he => h.unused e (List.mem_append_right T he)⟩

section
variable (hI : Roams sb O L I M parent)
include hI

theorem iput_roams (h : Ledger sb O N L ((ip, i) :: (T ++ L)) W s) (hN : I N) (hM : M names i) (hW : ip ∉ W) :
    wp F (iput sb ip) (fun _ t => ∃ N', I N' ∧ Ledger sb O N' L (T ++ L) W t) s := by
  apply wp_mono (iput_temp h (fun p hp => List.mem_append_right T hp) hW)
  rintro _ t ⟨N', ht, rfl | ⟨hO, hfree⟩⟩
  · exact ⟨N', hN, ht⟩
  · exact ⟨N', hI.frees N names i N' hN hM hO hfree.mono, ht⟩

theorem iunlockput_roams (h : Ledger sb O N L ((ip, i) :: (T ++ L)) (ip :: W) s) (hN : I N) (hM : M names i) :
    wp F (iunlockput sb ip) (fun _ t => ∃ N', I N' ∧ Ledger sb O N' L (T ++ L) W t) s := by
  unfold iunlockput
  rw [wp_bind]
  apply wp_mono (iunlock_ledger h)
  intro _ t ht
  exact iput_roams hI ht hN hM (List.nodup_cons.mp h.nodup).1

theorem namexNames_roams (hF : Stops L I M parent F) (h : Ledger sb O N L ((ip, i) :: L) [] s) (hN : I N) (hM : M names i) :
    wp F (namexNames sb dev parent names ip before) (Reaches sb O L I M parent) s := by
  induction names generalizing ip i before s N with
  | nil =>
    unfold namexNames
    split_ifs with hparent
    · rw [wp_bind]
      apply wp_mono (iput_roams (T := []) hI h hN hM List.not_mem_nil)
      rintro _ t ⟨N', hN', ht⟩
      exact ⟨N', hN', ⟨N, hN, Or.inl ⟨hparent, i, hM⟩⟩, ht⟩
    · refine ⟨N, hN, i, h, ?_⟩
      rw [if_neg hparent]
      exact hM
  | cons name names ih =>
    unfold namexNames
    rw [wp_bind]
    apply wp_mono (ilock_ledger h List.mem_cons_self (fun hW => absurd hW List.not_mem_nil)
      (hF.type N name names i hN hM))
    intro _ t ht
    obtain ⟨nd, hnd⟩ := ht.node_of_locked List.mem_cons_self List.mem_cons_self
    -- nothing is found at this inode
    have hstop (hmiss : Missing N M parent) :
        wp F (iunlockput sb ip) (fun _ u => Reaches sb O L I M parent none u) t := by
      apply wp_mono (iunlockput_roams (T := []) hI ht hN hM)
      rintro _ u ⟨N', hN', hu⟩
      exact ⟨N', hN', ⟨N, hN, hmiss⟩, hu⟩
    rw [wp_bind, wp_getInode, (ht.din List.mem_cons_self List.mem_cons_self hnd).1]
    split_ifs with hdir hlast
    · rw [wp_bind]
      exact hstop (Or.inr ⟨name, names, i, nd, hM, hnd, Or.inl hdir⟩)
    · obtain ⟨hparent, rfl⟩ := hlast
      rw [wp_bind]
      apply wp_mono (iunlock_ledger ht)
      intro _ u hu
      refine ⟨N, hN, i, hu, ?_⟩
      rw [if_pos hparent]
      exact ⟨hM, nd, hnd, not_not.mp hdir⟩
    · rw [wp_bind]
      have hdir := not_not.mp hdir
      apply wp_mono (dirlookup_first_ledger ?_ ?_ ht List.mem_cons_self List.mem_cons_self hnd hdir
        (hI.dirs N hN i nd hnd hdir))
      · rintro (_ | ⟨next, off⟩) u hu
        · obtain ⟨rfl, halign, hnone, -⟩ := hu
          dsimp only
          rw [wp_bind]
          exact hstop (Or.inr ⟨name, names, i, nd, hM, hnd, Or.inr ⟨hdir, hnone, halign, hlast⟩⟩)
        · obtain ⟨j, i', -, -, hfind, hu⟩ := hu
          dsimp only
          rw [wp_bind]
          have hu := hu.perm (List.Perm.swap (ip, i) (next, i') L) (List.Perm.refl [ip])
          apply wp_mono (iunlockput_roams (T := [(next, i')]) hI hu hN hM)
          rintro _ v ⟨N', hN', hv⟩
          exact ih hv hN' (hI.next N nd name names i i' hN hM hnd hdir hfind hlast)
      · -- one entry is that of the directory
        intro hall
        refine hF.full ⟨ip, fun e he => ?_⟩
        exact (List.mem_cons.mp (hall e)).resolve_left he
      · exact fun hnot hnone => hF.part N nd name names i hN hM hnd hdir hnone hlast hnot

theorem namex_roams (hF : Stops L I M parent F) (h : Ledger sb O N L L [] s) (hN : I N) (hcwd : (cwd, i) ∈ L)
    (hM : M (components path) (if path.head? = some slash then ROOTINO else i)) :
    wp F (namex sb dev cwd path parent) (Reaches sb O L I M parent) s := by
  have hroot : 1 ≤ ROOTINO ∧ ROOTINO < sb.ninodes := by
    have := h.range hcwd
    unfold ROOTINO
    omega
  rw [namex_eq]
  dsimp only
  split_ifs at hM ⊢
  · rw [wp_bind]
    apply wp_mono (iget_room_ledger (fun hall => hF.full ⟨cwd, fun e _ => hall e⟩) h hroot)
    intro ip t ht
    exact namexNames_roams hI hF ht hN hM
  · rw [wp_bind]
    apply wp_mono (idup_ledger h hcwd)
    rintro _ t ⟨rfl, ht⟩
    exact namexNames_roams hI hF ht hN hM

end

end ProvenXv6.Fs
