import ProvenXv6.LittleEndian
import ProvenXv6.PagingModel

/-! Reading the reference string from a user file, as `get_data_entry` of main.c
does: one `struct psr` after the other until `feof`, into an array of `MAX`. -/
namespace ProvenXv6.Paging
open LittleEndian

def MAX : ℕ := 10000

def readInt (file : List (BitVec 8)) (off : ℕ) : ℤ :=
  (BitVec.ofNat 32 (readLE (fun j => file.getD j 0) off 4)).toInt

/-- `fread` of one `struct psr`; none at the end of the file, also after a part of one. -/
def fread (file : List (BitVec 8)) : Option (Psr × List (BitVec 8)) :=
  if 8 ≤ file.length then some (⟨readInt file 0, readInt file 4⟩, file.drop 8) else none

/-- The loop, by the cells of `references` that are left. The pass that meets the
end of the file stores once more, in a cell behind the string. -/
def readEntries : ℕ → List (BitVec 8) → Option (List Psr)
  | 0, _ => none
  | free+1, file =>
    match fread file with
    | some (p, rest) => (readEntries free rest).map (p :: ·)
    | none => some []

/-- The string that a run on the file simulates. -/
def getDataEntry (file : List (BitVec 8)) : Option (List Psr) :=
  (readEntries MAX file).filter fun refs => 500 ≤ refs.length+1

def IsInt (x : ℤ) : Prop := -2^31 ≤ x ∧ x < 2^31

theorem isInt_toInt (x : BitVec 32) : IsInt x.toInt :=
  ⟨by have := x.le_toInt; simpa using this, by have := x.toInt_lt; simpa using this⟩

def writeInt (x : ℤ) : List (BitVec 8) :=
  (List.range 4).map (byteLE (BitVec.ofInt 32 x).toNat)

/-- What `fwrite` appends for one `struct psr`. -/
def fwrite (r : Psr) : List (BitVec 8) := writeInt r.data ++ writeInt r.rw

theorem readInt_writeInt {x : ℤ} (hx : IsInt x) (pre rest : List (BitVec 8)) :
    readInt (pre ++ (writeInt x ++ rest)) pre.length = x := by
  have hbytes : ∀ j, j < 4 → (pre ++ (writeInt x ++ rest)).getD (pre.length+j) 0 =
      byteLE (BitVec.ofInt 32 x).toNat j := by
    intro j hj
    have hlen : j < (writeInt x).length := by simpa [writeInt] using hj
    rw [List.getD_eq_getElem?_getD, List.getElem?_append_right (by omega), Nat.add_sub_cancel_left,
      List.getElem?_append_left hlen]
    simp [writeInt, hj]
  rw [readInt, ofNat_readLE (BitVec.ofInt 32 x) (by decide) hbytes, BitVec.toInt_ofInt]
  exact Int.bmod_eq_of_le (by have := hx.1; omega) (by have := hx.2; omega)

theorem fread_fwrite {r : Psr} (hr : IsInt r.data ∧ IsInt r.rw) (rest : List (BitVec 8)) :
    fread (fwrite r ++ rest) = some (r, rest) := by
  have hdata : readInt (fwrite r ++ rest) 0 = r.data := by
    simpa [fwrite] using readInt_writeInt hr.1 [] (writeInt r.rw ++ rest)
  have hrw : readInt (fwrite r ++ rest) 4 = r.rw := by
    simpa [fwrite, writeInt] using readInt_writeInt hr.2 (writeInt r.data) rest
  have hlen : (fwrite r).length = 8 := by simp [fwrite, writeInt]
  rw [fread, if_pos (by simp [hlen]), hdata, hrw, List.drop_left' hlen]

/-- A file written record by record is read back as the same records, whatever less than a record
comes behind them. -/
theorem readEntries_fwrite (refs : List Psr) (hrefs : ∀ r ∈ refs, IsInt r.data ∧ IsInt r.rw)
    {tail : List (BitVec 8)} (htail : tail.length < 8) {n : ℕ} (hn : refs.length < n) :
    readEntries n (refs.flatMap fwrite ++ tail) = some refs := by
  induction refs generalizing n with
  | nil =>
    obtain ⟨n, rfl⟩ := Nat.exists_eq_add_of_lt hn
    rw [List.flatMap_nil, List.nil_append, readEntries, fread, if_neg (by omega)]
  | cons r refs ih =>
    obtain ⟨n, rfl⟩ : ∃ m, n = m+1 := ⟨n-1, by omega⟩
    obtain ⟨hr, hrefs⟩ := List.forall_mem_cons.mp hrefs
    rw [List.flatMap_cons, List.append_assoc, readEntries, fread_fwrite hr]
    exact Option.map_eq_some_iff.mpr ⟨refs, ih hrefs (by simpa using hn), rfl⟩

theorem readEntries_spec {free : ℕ} {file : List (BitVec 8)} {refs : List Psr}
    (h : readEntries free file = some refs) :
    refs.length < free ∧ ∀ r ∈ refs, IsInt r.data ∧ IsInt r.rw := by
  induction free generalizing file refs with
  | zero => cases h
  | succ free ih =>
    rw [readEntries] at h
    split at h
    · rename_i p rest hread
      obtain ⟨refs, hrest, rfl⟩ := Option.map_eq_some_iff.mp h
      obtain ⟨hlen, hints⟩ := ih hrest
      refine ⟨by simpa using hlen, List.forall_mem_cons.mpr ⟨?_, hints⟩⟩
      unfold fread at hread
      split_ifs at hread
      obtain ⟨rfl, -⟩ := Prod.mk.inj (Option.some.inj hread)
      exact ⟨isInt_toInt _, isInt_toInt _⟩
    · obtain rfl := Option.some.inj h
      simp

theorem exists_getDataEntry_iff (refs : List Psr) :
    (∃ file, getDataEntry file = some refs) ↔
      499 ≤ refs.length ∧ refs.length < MAX ∧ ∀ r ∈ refs, IsInt r.data ∧ IsInt r.rw := by
  constructor
  · rintro ⟨file, h⟩
    obtain ⟨hread, hlen⟩ := Option.filter_eq_some_iff.mp h
    obtain ⟨hmax, hints⟩ := readEntries_spec hread
    simp only [decide_eq_true_eq] at hlen
    exact ⟨by omega, hmax, hints⟩
  · rintro ⟨hlen, hmax, hints⟩
    refine ⟨refs.flatMap fwrite ++ [], Option.filter_eq_some_iff.mpr
      ⟨readEntries_fwrite refs hints (by decide) hmax, ?_⟩⟩
    simpa using hlen

end ProvenXv6.Paging
