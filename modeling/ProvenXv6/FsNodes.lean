import ProvenXv6.FsInvariant

namespace ProvenXv6.Fs
open LittleEndian WeakestPre

theorem BSIZE_pos : 0 < BSIZE := by decide

theorem div_mod_in_block {off j : ℕ} (h : off%BSIZE+j < BSIZE) :
    (off+j)/BSIZE = off/BSIZE ∧ (off+j)%BSIZE = off%BSIZE+j := by
  unfold BSIZE at *
  omega

theorem map_range_add {α : Type} (f : ℕ → α) (m n : ℕ) :
    (List.range (m+n)).map f = (List.range m).map f ++ (List.range n).map fun j => f (m+j) := by
  rw [List.range_add, List.map_append, List.map_map]
  rfl

/-- An allocated inode and the bytes of its file. -/
structure Node where
  type : BitVec 16
  major : BitVec 16
  minor : BitVec 16
  nlink : BitVec 16
  data : List Byte

def Dinode.node (v : Dinode) (data : List Byte) : Node := ⟨v.type, v.major, v.minor, v.nlink, data⟩

section
variable (sb : Superblock) (d : Disk) (i : ℕ)

def content : List Byte :=
  (List.range (sb.dinode d i).size.toNat).map (byteAt sb (sb.dinode d) d i)

def node : Option Node :=
  if Live sb (sb.dinode d) i then some ((sb.dinode d i).node (content sb d i)) else none

end

/-- From s to t the inode of entry ip becomes nd, and nothing else changes. -/
structure Stored (sb : Superblock) (ip : Ip) (nd : Node) (s t : FS) : Prop where
  sound : Sound sb t
  other : ∀ e, e ≠ ip → t.inode e = s.inode e
  self : t.inode ip = { s.inode ip with din := (t.inode ip).din }
  nodes : node sb t.disk = Function.update (node sb s.disk) (s.inode ip).inum (some nd)

section
variable {sb : Superblock} {ip : Ip} {s t : FS} {d : Disk} {i : ℕ}

theorem length_content : (content sb d i).length = (sb.dinode d i).size.toNat := by
  rw [content, List.length_map, List.length_range]

theorem node_of_live (hl : Live sb (sb.dinode d) i) :
    node sb d i = some ((sb.dinode d i).node (content sb d i)) := if_pos hl

theorem node_eq_none : node sb d i = none ↔ ¬Live sb (sb.dinode d) i := by
  unfold node
  split_ifs with hl <;> simp [hl]

theorem Sound.node_of_local (h : Sound sb s) (hloc : Local sb ip s t) (hi : i ≠ (s.inode ip).inum) :
    node sb t.disk i = node sb s.disk i := by
  by_cases hlt : i < sb.ninodes
  · have hsame := hloc.dinode i hi hlt
    have hlive : Live sb (sb.dinode t.disk) i ↔ Live sb (sb.dinode s.disk) i := by
      unfold Live
      rw [hsame]
    by_cases hl : Live sb (sb.dinode s.disk) i
    · have hbytes : content sb t.disk i = content sb s.disk i := by
        unfold content
        rw [hsame]
        apply List.map_congr_left
        intro p hp
        apply hloc.keeps.byteAt hi
        apply h.blocks.filled i trivial hl
        have := List.mem_range.mp hp
        have := Nat.div_mul_le_self p BSIZE
        omega
      rw [node_of_live hl, node_of_live (hlive.mpr hl), hbytes, hsame]
    · rw [node_eq_none.mpr hl, node_eq_none.mpr (mt hlive.mp hl)]
  · have hnot (d : Disk) : node sb d i = none := node_eq_none.mpr fun hl => hlt hl.2.1
    rw [hnot, hnot]

namespace Sound

theorem live (h : Sound sb s) (hr : 0 < (s.inode ip).ref) (hv : (s.inode ip).valid = true) :
    Live sb (sb.dinode s.disk) (s.inode ip).inum := by
  obtain ⟨hdin, htype⟩ := h.synced ip hr hv
  rw [← view_eq hdin]
  exact (h.opened hr hv).live htype

theorem node_self (h : Sound sb s) (hr : 0 < (s.inode ip).ref) (hv : (s.inode ip).valid = true) :
    node sb s.disk (s.inode ip).inum =
      some ((s.inode ip).din.node (content sb s.disk (s.inode ip).inum)) := by
  rw [node_of_live (h.live hr hv), (h.synced ip hr hv).1]

theorem addr_ne_zero (h : Sound sb s) (hr : 0 < (s.inode ip).ref) (hv : (s.inode ip).valid = true) {p : ℕ}
    (hp : p < (s.inode ip).din.size.toNat) :
    addr sb (view sb ip s) s.disk (s.inode ip).inum (p/BSIZE) ≠ 0 := by
  obtain ⟨hdin, -⟩ := h.synced ip hr hv
  have hl := h.live hr hv
  rw [view_eq hdin]
  rw [hdin] at hp
  apply h.blocks.filled _ trivial hl
  have := Nat.div_mul_le_self p BSIZE
  omega

end Sound

theorem Opened.sound (h : Opened sb ip t) (hsync : Synced sb t ip)
    (hfilled : ∀ p, p < (t.inode ip).din.size.toNat →
      addr sb (view sb ip t) t.disk (t.inode ip).inum (p/BSIZE) ≠ 0) : Sound sb t := by
  have hblocks := h.blocks
  rw [view_eq hsync.1] at hblocks hfilled
  refine ⟨h.cached, ?_, hblocks.metadata, hblocks.owned, ?_⟩
  · intro e hr hv
    by_cases he : e = ip
    · rw [he]
      exact hsync
    · exact h.synced e he hr hv
  · intro i _ hl
    by_cases hi : i = (t.inode ip).inum
    · intro bn hbn
      rw [hi] at hbn ⊢
      have ha := hfilled (bn*BSIZE) (by rw [hsync.1]; exact hbn)
      rwa [Nat.mul_div_cancel _ BSIZE_pos] at ha
    · exact hblocks.filled i hi hl

theorem Sound.stored (h : Sound sb s) (ht : Opened sb ip t) (hloc : Local sb ip s t) (hsync : Synced sb t ip)
    (hfilled : ∀ p, p < (t.inode ip).din.size.toNat →
      addr sb (view sb ip t) t.disk (t.inode ip).inum (p/BSIZE) ≠ 0) :
    Stored sb ip ((t.inode ip).din.node (content sb t.disk (t.inode ip).inum)) s t where
  sound := ht.sound hsync hfilled
  other := hloc.other
  self := hloc.self
  nodes := by
    funext i
    by_cases hi : i = (s.inode ip).inum
    · have hl := ht.live hsync.2
      rw [view_eq hsync.1] at hl
      rw [hi, Function.update_self, ← hloc.inum, node_of_live hl, hsync.1]
    · rw [Function.update_of_ne hi]
      exact h.node_of_local hloc hi

end

/-- c with the n bytes src at offset off, where it grows if it must. -/
def splice (c : List Byte) (off n : ℕ) (src : ℕ → Byte) : List Byte :=
  c.take off ++ ((List.range n).map src ++ c.drop (off+n))

theorem length_splice (c : List Byte) {off n : ℕ} (hoff : off ≤ c.length) (src : ℕ → Byte) :
    (splice c off n src).length = max c.length (off+n) := by
  rw [splice, List.length_append, List.length_append, List.length_take, List.length_map, List.length_range,
    List.length_drop]
  omega

theorem splice_zero (c : List Byte) (off : ℕ) (src : ℕ → Byte) : splice c off 0 src = c :=
  List.take_append_drop off c

theorem splice_splice {c : List Byte} {off : ℕ} (h : off ≤ c.length) (m n : ℕ) (src : ℕ → Byte) :
    splice (splice c off m src) (off+m) n (fun p => src (m+p)) = splice c off (m+n) src := by
  have hfront : (c.take off ++ (List.range m).map src).length = off+m := by
    rw [List.length_append, List.length_take, List.length_map, List.length_range]
    omega
  unfold splice
  rw [← List.append_assoc (c.take off), List.take_append_of_le_length (le_of_eq hfront.symm),
    List.take_of_length_le (le_of_eq hfront), List.drop_append, List.drop_of_length_le (by omega), hfront,
    List.nil_append, List.drop_drop, map_range_add, ← List.append_assoc, ← List.append_assoc, ← List.append_assoc]
  congr 2
  omega

theorem take_map_range {α : Type} (f : ℕ → α) (m n : ℕ) :
    ((List.range n).map f).take m = (List.range (min m n)).map f := by
  rw [← List.map_take, List.take_range]

theorem drop_map_range {α : Type} (f : ℕ → α) (m n : ℕ) :
    ((List.range n).map f).drop m = (List.range (n-m)).map fun j => f (m+j) := by
  by_cases h : m ≤ n
  · obtain ⟨k, rfl⟩ := Nat.exists_eq_add_of_le h
    have hlen : ((List.range m).map f).length = m := by rw [List.length_map, List.length_range]
    rw [map_range_add, List.drop_left' hlen, Nat.add_sub_cancel_left]
  · have hlen : ((List.range n).map f).length ≤ m := by
      rw [List.length_map, List.length_range]
      omega
    rw [List.drop_of_length_le hlen, Nat.sub_eq_zero_of_le (by omega)]
    rfl

theorem splice_map_range (f src : ℕ → Byte) {size off n : ℕ} (hoff : off ≤ size) :
    splice ((List.range size).map f) off n src = (List.range (max size (off+n))).map (copyIn f off n src) := by
  have hmax : max size (off+n) = off+(n+(size-(off+n))) := by omega
  rw [splice, take_map_range, drop_map_range, hmax, map_range_add, map_range_add, Nat.min_eq_left hoff]
  congr 1
  · apply List.map_congr_left
    intro j hj
    exact (copyIn_outside f src (Or.inl (List.mem_range.mp hj))).symm
  · congr 1
    · apply List.map_congr_left
      intro j hj
      have := List.mem_range.mp hj
      rw [copyIn_inside f src (by omega) (by omega), Nat.add_sub_cancel_left]
    · apply List.map_congr_left
      intro j _
      rw [← Nat.add_assoc, copyIn_outside f src (by omega)]

/-- The entries in the bytes c of a directory name inodes of the table. -/
def NamesInodes (sb : Superblock) (c : List Byte) : Prop :=
  ∀ k, 16*k+16 ≤ c.length → readLE (fun j => c.getD j 0) (16*k) 2 < sb.ninodes

def DirsOk (sb : Superblock) (N : ℕ → Option Node) : Prop :=
  ∀ i nd, N i = some nd → nd.type = T_DIR → NamesInodes sb nd.data

section
variable {sb : Superblock} {ip : Ip} {s t : FS} {d : Disk} {i : ℕ} {N : ℕ → Option Node}

theorem getD_map_range (f : ℕ → Byte) {n j : ℕ} (h : j < n) : ((List.range n).map f).getD j 0 = f j := by
  rw [List.getD_eq_getElem?_getD, List.getElem?_map, List.getElem?_range h]
  rfl

theorem namesInodes_map_range {f : ℕ → Byte} {n : ℕ} :
    NamesInodes sb ((List.range n).map f) ↔ ∀ k, 16*k+16 ≤ n → readLE f (16*k) 2 < sb.ninodes := by
  unfold NamesInodes
  rw [List.length_map, List.length_range]
  refine forall_congr' fun k => imp_congr_right fun hk => ?_
  have heq : readLE (fun j => ((List.range n).map f).getD j 0) (16*k) 2 = readLE f (16*k) 2 :=
    readLE_congr fun j hj => getD_map_range f (by omega)
  rw [heq]

theorem namesInodes_nil : NamesInodes sb [] := fun k hk => absurd hk (by simp)

theorem wellFormed_iff : WellFormed sb d ↔
    Consistent sb (sb.dinode d) d (fun _ => True) ∧ DirsOk sb (node sb d) := by
  constructor
  · intro h
    refine ⟨h.blocks, ?_⟩
    intro i nd hnd hdir
    by_cases hl : Live sb (sb.dinode d) i
    · rw [node_of_live hl] at hnd
      cases hnd
      exact namesInodes_map_range.mpr (h.dirs i hl hdir)
    · rw [node_eq_none.mpr hl] at hnd
      cases hnd
  · rintro ⟨hb, hd⟩
    refine ⟨hb, ?_⟩
    intro i hl hdir
    exact namesInodes_map_range.mp (hd i _ (node_of_live hl) hdir)

theorem Inv.dirsOk (h : Inv sb s) : DirsOk sb (node sb s.disk) := (wellFormed_iff.mp h.disk).2

theorem Sound.inv (h : Sound sb s) (hd : DirsOk sb (node sb s.disk)) : Inv sb s :=
  ⟨h.cached, h.synced, wellFormed_iff.mpr ⟨h.blocks, hd⟩⟩

theorem DirsOk.update {x : Option Node} (h : DirsOk sb N)
    (hx : ∀ nd, x = some nd → nd.type = T_DIR → NamesInodes sb nd.data) :
    DirsOk sb (Function.update N i x) := by
  intro j nd hnd hdir
  by_cases hj : j = i
  · rw [hj, Function.update_self] at hnd
    exact hx nd hnd hdir
  · rw [Function.update_of_ne hj] at hnd
    exact h j nd hnd hdir

end

end ProvenXv6.Fs
