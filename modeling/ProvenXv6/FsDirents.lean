import Mathlib.Data.List.TakeWhile
import ProvenXv6.FsDirModel
import ProvenXv6.FsNodes
import ProvenXv6.SlotMap

namespace ProvenXv6.Fs
open LittleEndian SlotMap

def cut (name : List Byte) : List Byte := (name.takeWhile (· ≠ 0)).take DIRSIZ

theorem take_takeWhile_succ (n : ℕ) (p : List Byte) :
    (p.takeWhile (· ≠ 0)).take (n+1) =
      if p.headD 0 = 0 then [] else p.headD 0 :: (p.tail.takeWhile (· ≠ 0)).take n := by
  cases p with
  | nil => rfl
  | cons a p =>
    rw [List.headD_cons, List.tail_cons]
    split_ifs with ha
    · rw [List.takeWhile_cons_of_neg (by simp [ha]), List.take_nil]
    · rw [List.takeWhile_cons_of_pos (by exact decide_eq_true ha), List.take_succ_cons]

theorem strncmp_eq_zero (n : ℕ) (p q : List Byte) :
    strncmp n p q = 0 ↔ (p.takeWhile (· ≠ 0)).take n = (q.takeWhile (· ≠ 0)).take n := by
  induction n generalizing p q with
  | zero => exact iff_of_true rfl rfl
  | succ n ih =>
    rw [strncmp, take_takeWhile_succ, take_takeWhile_succ]
    generalize p.headD 0 = a
    generalize q.headD 0 = b
    have hdiff : ((a.toNat : ℤ)-b.toNat = 0) ↔ a = b := by
      rw [← BitVec.toNat_inj]
      omega
    by_cases ha : a = 0
    · rw [if_neg (fun h => h.1 ha), hdiff, if_pos ha, ha]
      by_cases hb : b = 0
      · rw [if_pos hb, hb]
        exact iff_of_true rfl rfl
      · rw [if_neg hb]
        exact iff_of_false (Ne.symm hb) (List.cons_ne_nil _ _).symm
    · rw [if_neg ha]
      by_cases hab : a = b
      · rw [if_pos ⟨ha, hab⟩, if_neg (hab ▸ ha), ih, hab, List.cons_inj_right]
      · rw [if_neg (fun h => hab h.2), hdiff]
        refine iff_of_false hab ?_
        by_cases hb : b = 0
        · rw [if_pos hb]
          exact List.cons_ne_nil _ _
        · rw [if_neg hb]
          exact fun h => hab (List.cons.inj h).1

theorem namecmp_eq_zero {p q : List Byte} : namecmp p q = 0 ↔ cut p = cut q := strncmp_eq_zero DIRSIZ p q

/-- The inode number and the name in the 16 bytes of an entry. -/
def dirent (b : List Byte) : ℕ × List Byte := ((b.getD 0 0).toNat+256*(b.getD 1 0).toNat, b.drop 2)

/-- An entry with inode number 0 is free. -/
def direntSlot (e : ℕ × List Byte) : Option (List Byte × ℕ) := if e.1 = 0 then none else some (cut e.2, e.1)

def slots (c : List Byte) : List (Option (List Byte × ℕ)) :=
  (List.range (c.length/16)).map fun k => direntSlot (dirent ((c.drop (16*k)).take 16))

theorem length_slots (c : List Byte) : (slots c).length = c.length/16 := by
  rw [slots, List.length_map, List.length_range]

theorem slots_append {a : List Byte} (ha : 16 ∣ a.length) (b : List Byte) :
    slots (a ++ b) = slots a ++ slots b := by
  obtain ⟨n, hn⟩ := ha
  have hlen : (a ++ b).length/16 = n+b.length/16 := by
    rw [List.length_append]
    omega
  have hlen' : a.length/16 = n := by omega
  rw [slots, hlen, map_range_add, slots, slots, hlen']
  congr 1
  · apply List.map_congr_left
    intro k hk
    have := List.mem_range.mp hk
    rw [List.drop_append_of_le_length (by omega),
      List.take_append_of_le_length (by rw [List.length_drop]; omega)]
  · apply List.map_congr_left
    intro k _
    have hdrop : (a ++ b).drop (16*(n+k)) = b.drop (16*k) := by
      rw [show 16*(n+k) = a.length+16*k by omega, ← List.drop_drop, List.drop_left]
    rw [hdrop]

theorem slots_single {b : List Byte} (hb : b.length = 16) : slots b = [direntSlot (dirent b)] := by
  have hone : List.range (16/16) = [0] := rfl
  rw [slots, hb, hone, List.map_singleton, Nat.mul_zero, List.drop_zero, List.take_of_length_le hb.le]

theorem slots_splice {c : List Byte} {k : ℕ} (hk : 16*k ≤ c.length) (src : ℕ → Byte) :
    slots (splice c (16*k) 16 src) = put (slots c) k (direntSlot (dirent ((List.range 16).map src))) := by
  have htake : (c.take (16*k)).length = 16*k := by
    rw [List.length_take]
    omega
  have hsplit : slots c = slots (c.take (16*k)) ++ slots (c.drop (16*k)) := by
    rw [← slots_append (by omega), List.take_append_drop]
  have hlen : (slots (c.take (16*k))).length = k := by
    rw [length_slots, htake]
    omega
  have hdrop : (slots c).drop (k+1) = slots (c.drop (16*k+16)) := by
    by_cases hend : 16*k+16 ≤ c.length
    · have htake' : (c.take (16*k+16)).length = 16*k+16 := by
        rw [List.length_take]
        omega
      have hsplit' : slots c = slots (c.take (16*k+16)) ++ slots (c.drop (16*k+16)) := by
        rw [← slots_append (by omega), List.take_append_drop]
      rw [hsplit']
      exact List.drop_left' (by rw [length_slots, htake']; omega)
    · rw [List.drop_of_length_le (by rw [length_slots]; omega), List.drop_of_length_le (by omega)]
      rfl
  have hfirst : (slots c).take k = slots (c.take (16*k)) := by
    rw [hsplit]
    exact List.take_left' hlen
  have hbytes : ((List.range 16).map src).length = 16 := by rw [List.length_map, List.length_range]
  rw [splice, slots_append (by omega), slots_append (by omega), slots_single hbytes, put, hfirst, hdrop]
  rfl

theorem takeWhile_padded {w : List Byte} (hw : ∀ b ∈ w, b ≠ 0) (n : ℕ) :
    ((List.range n).map fun j => w.getD j 0).takeWhile (· ≠ 0) = w.take n := by
  induction n generalizing w with
  | zero => rfl
  | succ n ih =>
    rw [List.range_succ_eq_map, List.map_cons, List.map_map]
    cases w with
    | nil => rfl
    | cons a w =>
      have ha : a ≠ 0 := hw a List.mem_cons_self
      rw [List.getD_cons_zero, List.takeWhile_cons_of_pos (by exact decide_eq_true ha), List.take_succ_cons,
        ← ih fun b hb => hw b (List.mem_cons_of_mem _ hb)]
      rfl

theorem cut_direntBytes (inum : ℕ) (name : List Byte) :
    cut (((List.range 16).map (direntBytes inum name)).drop 2) = cut name := by
  have hbytes : ((List.range 16).map (direntBytes inum name)).drop 2 =
      (List.range DIRSIZ).map fun j => (name.takeWhile (· ≠ 0)).getD j 0 := by
    rw [drop_map_range]
    apply List.map_congr_left
    intro j _
    rw [direntBytes, if_neg (by omega), Nat.add_sub_cancel_left]
  have hw (b : Byte) (hb : b ∈ name.takeWhile (· ≠ 0)) : b ≠ 0 := by
    simpa using List.mem_takeWhile_imp hb
  rw [hbytes, cut, takeWhile_padded hw, List.take_take, Nat.min_self, cut]

theorem dirent_direntBytes (inum : ℕ) (name : List Byte) :
    (dirent ((List.range 16).map (direntBytes inum name))).1 = inum%65536 := by
  have hread : readLE (direntBytes inum name) 0 2 = inum%256^2 := by
    apply readLE_of_bytes
    intro j hj
    rw [direntBytes, if_pos (by omega), Nat.zero_add]
  rw [readLE_two] at hread
  exact hread

theorem direntSlot_direntBytes {inum : ℕ} (h : 1 ≤ inum) (h' : inum < 65536) (name : List Byte) :
    direntSlot (dirent ((List.range 16).map (direntBytes inum name))) = some (cut name, inum) := by
  have hnum := dirent_direntBytes inum name
  rw [Nat.mod_eq_of_lt h'] at hnum
  unfold direntSlot
  rw [if_neg (by omega), hnum]
  exact congrArg (fun n => some (n, inum)) (cut_direntBytes inum name)

theorem getElem?_slots {c : List Byte} {k : ℕ} (hk : 16*k+16 ≤ c.length) :
    (slots c)[k]? = some (direntSlot (dirent ((c.drop (16*k)).take 16))) := by
  rw [slots, List.getElem?_map, List.getElem?_range (by omega)]
  rfl

theorem getElem?_slots_lt {c : List Byte} {k : ℕ} {x : Option (List Byte × ℕ)} (h : (slots c)[k]? = some x) :
    16*k+16 ≤ c.length := by
  obtain ⟨hk, -⟩ := List.getElem?_eq_some_iff.mp h
  rw [length_slots] at hk
  omega

theorem dirent_fst {c : List Byte} {k : ℕ} :
    (dirent ((c.drop (16*k)).take 16)).1 = readLE (fun j => c.getD j 0) (16*k) 2 := by
  have hget (j : ℕ) (hj : j < 16) : ((c.drop (16*k)).take 16).getD j 0 = c.getD (16*k+j) 0 := by
    rw [List.getD_eq_getElem?_getD, List.getElem?_take, if_pos hj, List.getElem?_drop,
      List.getD_eq_getElem?_getD]
  rw [readLE_two, dirent, hget 0 (by omega), hget 1 (by omega)]
  rfl

theorem namesInodes_iff {sb : Superblock} {c : List Byte} (hpos : 0 < sb.ninodes) :
    NamesInodes sb c ↔ ∀ p ∈ (slots c).reduceOption, p.2 < sb.ninodes := by
  constructor
  · intro h p hp
    obtain ⟨k, hk⟩ := List.mem_iff_getElem?.mp (List.reduceOption_mem_iff.mp hp)
    have hlen := getElem?_slots_lt hk
    rw [getElem?_slots hlen, Option.some.injEq, direntSlot] at hk
    split_ifs at hk
    cases hk
    show (dirent _).1 < _
    rw [dirent_fst]
    exact h k hlen
  · intro h k hk
    rw [← dirent_fst]
    by_cases hzero : (dirent ((c.drop (16*k)).take 16)).1 = 0
    · rw [hzero]
      exact hpos
    · have hslot := getElem?_slots hk
      rw [direntSlot, if_neg hzero] at hslot
      exact h _ (mem_reduceOption_of_getElem? hslot)

theorem NamesInodes.splice {sb : Superblock} {c : List Byte} {k : ℕ} {src : ℕ → Byte} (h : NamesInodes sb c)
    (hk : 16*k ≤ c.length) (hsrc : (dirent ((List.range 16).map src)).1 < sb.ninodes) :
    NamesInodes sb (Fs.splice c (16*k) 16 src) := by
  have hpos : 0 < sb.ninodes := by omega
  rw [namesInodes_iff hpos] at h ⊢
  intro p hp
  rw [slots_splice hk] at hp
  rcases mem_put hp with hx | hmem
  · unfold direntSlot at hx
    split_ifs at hx
    cases hx
    exact hsrc
  · exact h p hmem

theorem direntSlot_zero : direntSlot (dirent ((List.range 16).map fun _ => 0)) = none := rfl

end ProvenXv6.Fs
