import Mathlib.Data.List.Range
import ProvenXv6.PagingInput

namespace ProvenXv6.Paging
open Stdio

theorem readEntries_mono {n m : ℕ} {file : List Byte} {l : List Psr} (h : readEntries n file = some l)
    (hm : l.length < m) : readEntries m file = some l := by
  induction n generalizing m file l with
  | zero => cases h
  | succ n ih =>
    obtain ⟨m, rfl⟩ : ∃ k, m = k+1 := ⟨m-1, by omega⟩
    rw [readEntries] at h ⊢
    cases hread : fread file with
    | none =>
      rw [hread] at h
      exact h
    | some r =>
      rw [hread] at h
      obtain ⟨l, hl, rfl⟩ := Option.map_eq_some_iff.mp h
      exact Option.map_eq_some_iff.mpr ⟨l, ih hl (by simpa using hm), rfl⟩

theorem exists_readEntries {n : ℕ} {file : List Byte} (hn : file.length < n) :
    ∃ l, readEntries n file = some l ∧ l.length = file.length/8 := by
  induction n generalizing file with
  | zero => omega
  | succ n ih =>
    rw [readEntries, fread]
    by_cases h8 : 8 ≤ file.length
    · obtain ⟨l, hl, hlen⟩ := ih (show (file.drop 8).length < n by rw [List.length_drop]; omega)
      rw [if_pos h8]
      refine ⟨_, Option.map_eq_some_iff.mpr ⟨l, hl, rfl⟩, ?_⟩
      rw [List.length_cons, hlen, List.length_drop]
      omega
    · rw [if_neg h8]
      exact ⟨[], rfl, by rw [List.length_nil]; omega⟩

/-- The cells and the stores after the file loop. -/
structure Filled (i : ℕ) (l : List Psr) (refs refs' : Refs) : Prop where
  stores : refs'.stores = (List.range' i (l.length+1)).reverse ++ refs.stores
  cell : ∀ j (hj : j < l.length), refs'.cell (i+j) = l[j]
  before : ∀ j < i, refs'.cell j = refs.cell j

theorem fillFile_readEntries (torn : List Byte → Psr → Psr) {n : ℕ} {file : List Byte} {l : List Psr}
    (h : readEntries n file = some l) (i : ℕ) (p : Psr) (refs : Refs) :
    ∃ refs', fillFile torn n file i p refs = some (i+l.length+1, refs') ∧ Filled i l refs refs' := by
  induction n generalizing file l i p refs with
  | zero => cases h
  | succ n ih =>
    rw [readEntries] at h
    rw [fillFile]
    cases hread : fread file with
    | none =>
      -- the round that meets the end of the file
      rw [hread] at h
      obtain rfl := Option.some.inj h
      refine ⟨_, rfl, rfl, fun j hj => absurd hj (Nat.not_lt_zero j), fun j hj => ?_⟩
      exact Function.update_of_ne (Nat.ne_of_lt hj) _ _
    | some r =>
      obtain ⟨q, rest⟩ := r
      rw [hread] at h
      obtain ⟨l, hl, rfl⟩ := Option.map_eq_some_iff.mp h
      obtain ⟨refs', hfill, hf⟩ := ih hl (i+1) q (refs.store i q)
      refine ⟨refs', ?_, ?_, fun j hj => ?_, fun j hj => ?_⟩
      · refine hfill.trans ?_
        rw [List.length_cons]
        congr 2
        omega
      · rw [hf.stores, List.length_cons, List.range'_succ (s := i), List.reverse_cons, List.append_assoc]
        rfl
      · cases j with
        | zero => exact (hf.before i (Nat.lt_succ_self i)).trans (Function.update_self ..)
        | succ j =>
          have hj' : j < l.length := by simpa using hj
          rw [List.getElem_cons_succ, ← hf.cell j hj']
          congr 1
          omega
      · exact (hf.before j (Nat.lt_succ_of_lt hj)).trans (Function.update_of_ne (Nat.ne_of_lt hj) _ _)

theorem fileEntry_readEntries (torn : List Byte → Psr → Psr) (p : Psr) (cell : ℕ → Psr) {file : List Byte}
    {l : List Psr} (h : readEntries (file.length+1) file = some l) :
    ∃ e, fileEntry torn p ⟨cell, []⟩ file = some e ∧
      e.refNum = (if l.length+1 < 500 then none else some (l.length : ℤ)) ∧ Filled 0 l ⟨cell, []⟩ e.refs := by
  obtain ⟨refs', hfill, hf⟩ := fillFile_readEntries torn h 0 p ⟨cell, []⟩
  refine ⟨_, Option.map_eq_some_iff.mpr ⟨_, hfill, rfl⟩, ?_, hf⟩
  dsimp only
  rw [Nat.zero_add]
  congr 2
  push_cast
  omega

theorem getDataEntry_eq_some_iff (torn : List Byte → Psr → Psr) (p : Psr) (cell : ℕ → Psr) (file : List Byte)
    (l : List Psr) : getDataEntry file = some l ↔
      ∃ e, fileEntry torn p ⟨cell, []⟩ file = some e ∧ e.refNum = some (l.length : ℤ) ∧
        (∀ i ∈ e.refs.stores, i < MAX) ∧ ∀ j (hj : j < l.length), e.refs.cell j = l[j] := by
  obtain ⟨l', hl', -⟩ := exists_readEntries (Nat.lt_succ_self file.length)
  obtain ⟨e, he, hnum, hf⟩ := fileEntry_readEntries torn p cell hl'
  have hstores : (∀ i ∈ e.refs.stores, i < MAX) ↔ l'.length < MAX := by
    simp only [hf.stores, List.append_nil, List.mem_reverse, List.mem_range'_1]
    exact ⟨fun h => h l'.length (by omega), fun h i hi => by omega⟩
  constructor
  · intro h
    obtain ⟨hread, hlen⟩ := Option.filter_eq_some_iff.mp h
    have hlt := (readEntries_spec hread).1
    have hmax : readEntries (max MAX (file.length+1)) file = some l := readEntries_mono hread (by omega)
    obtain rfl : l = l' := by
      have := (readEntries_mono hl' (m := max MAX (file.length+1)) (by have := (readEntries_spec hl').1; omega))
      exact Option.some.inj (hmax.symm.trans this)
    refine ⟨e, he, ?_, hstores.mpr hlt, fun j hj => ?_⟩
    · rw [hnum, if_neg]
      simpa using hlen
    · exact (congrArg e.refs.cell (Nat.zero_add j).symm).trans (hf.cell j hj)
  · rintro ⟨e', he', hnum', hst, hcell⟩
    obtain rfl := Option.some.inj (he.symm.trans he')
    have hlt := hstores.mp hst
    split_ifs at hnum with h500
    · rw [hnum] at hnum'
      cases hnum'
    · have hlen : l'.length = l.length := by
        have := Option.some.inj (hnum.symm.trans hnum')
        exact_mod_cast this
      have heq : l' = l := by
        apply List.ext_getElem hlen
        intro j hj hj'
        rw [← hcell j hj', ← hf.cell j hj, Nat.zero_add]
      rw [← heq]
      exact Option.filter_eq_some_iff.mpr ⟨readEntries_mono hl' hlt, by simpa using h500⟩

theorem length_flatMap_fwrite (refs : List Psr) : (refs.flatMap fwrite).length = 8*refs.length := by
  induction refs with
  | nil => rfl
  | cons r refs ih =>
    rw [List.flatMap_cons, List.length_append, ih, List.length_cons]
    simp [fwrite, writeInt]
    omega

/-- Loading a file of 500 to 9999 records, as `fwrite` writes them one after the other, gives the
records back, whatever less than a record comes behind them. -/
theorem load_inverts_write (refs : List Psr) (hints : ∀ r ∈ refs, IsInt r.data ∧ IsInt r.rw)
    (hmin : 500 ≤ refs.length) (hmax : refs.length < MAX) (tail : List Byte) (htail : tail.length < 8)
    (torn : List Byte → Psr → Psr) (p : Psr) (cell : ℕ → Psr) :
    ∃ e, fileEntry torn p ⟨cell, []⟩ (refs.flatMap fwrite ++ tail) = some e ∧ e.refNum = some (refs.length : ℤ) ∧
      (∀ j (hj : j < refs.length), e.refs.cell j = refs[j]) ∧ ∀ i ∈ e.refs.stores, i < MAX := by
  have hlen : refs.length < (refs.flatMap fwrite ++ tail).length+1 := by
    rw [List.length_append, length_flatMap_fwrite]
    omega
  obtain ⟨e, he, hnum, hf⟩ := fileEntry_readEntries torn p cell (readEntries_fwrite refs hints htail hlen)
  refine ⟨e, he, hnum.trans (if_neg (by omega)), fun j hj => ?_, fun i hi => ?_⟩
  · rw [← hf.cell j hj, Nat.zero_add]
  · rw [hf.stores, List.append_nil, List.mem_reverse, List.mem_range'_1] at hi
    omega

theorem load_inverts_write_ragged : ∃ e,
    fileEntry (fun _ p => p) ⟨0, 0⟩ ⟨fun _ => ⟨0, 0⟩, []⟩ ((List.replicate 500 ⟨7, 1⟩).flatMap fwrite ++ [0]) =
      some e ∧ e.refNum = some 500 ∧ e.refs.cell 499 = ⟨7, 1⟩ := by
  have hlen : (List.replicate 500 (⟨7, 1⟩ : Psr)).length = 500 := List.length_replicate
  obtain ⟨e, he, hnum, hcell, -⟩ := load_inverts_write (List.replicate 500 ⟨7, 1⟩)
    (fun r hr => List.eq_of_mem_replicate hr ▸ ⟨⟨by decide, by decide⟩, by decide, by decide⟩) (by rw [hlen])
    (by rw [hlen]; decide) [0] (by decide)
    (fun _ p => p) ⟨0, 0⟩ (fun _ => ⟨0, 0⟩)
  refine ⟨e, he, by rw [hnum, hlen]; rfl, ?_⟩
  rw [hcell 499 (by rw [hlen]; decide), List.getElem_replicate]

theorem fillRandom_stores (rand : ℕ → ℤ × ℤ) (n : ℕ) (cell : ℕ → Psr) :
    (fillRandom rand n ⟨cell, []⟩).stores = (List.range n).reverse := by
  induction n with
  | zero => rfl
  | succ n ih => rw [fillRandom, Refs.store, ih, List.range_succ, List.reverse_append, List.reverse_singleton,
      List.singleton_append]

/-- If main goes on to `simulate`, ref_num is from 500 to MAX, and no store is outside references. -/
def Bounded (e : Entry) : Prop :=
  (∀ n, e.refNum = some n → 500 ≤ n ∧ n ≤ MAX) ∧ ∀ i ∈ e.refs.stores, i < MAX

/-- Random mode is bounded exactly for the numbers up to MAX; file mode exactly for the files that
do not have 499 whole records and have less than MAX. -/
theorem input_bounded_iff (cell : ℕ → Psr) :
    (∀ rand n, Bounded (randomEntry rand ⟨cell, []⟩ n) ↔ n ≤ MAX) ∧
    ∀ torn p file, ∃ e, fileEntry torn p ⟨cell, []⟩ file = some e ∧
      (Bounded e ↔ file.length/8 ≠ 499 ∧ file.length/8 < MAX) := by
  constructor
  · intro rand n
    unfold randomEntry
    split_ifs with h500
    · refine ⟨fun _ => ?_, fun _ => ⟨fun _ h => (Option.some_ne_none _ h.symm).elim, fun _ h => ?_⟩⟩
      · have : (500 : ℤ) ≤ MAX := by decide
        omega
      · exact absurd h List.not_mem_nil
    · rw [Bounded, fillRandom_stores]
      simp only [Option.some.injEq, forall_eq', List.mem_reverse, List.mem_range]
      constructor
      · exact fun h => h.1.2
      · exact fun h => ⟨⟨by omega, h⟩, fun i hi => by omega⟩
  · intro torn p file
    obtain ⟨l, hl, hlen⟩ := exists_readEntries (Nat.lt_succ_self file.length)
    obtain ⟨e, he, hnum, hf⟩ := fileEntry_readEntries torn p cell hl
    refine ⟨e, he, ?_⟩
    rw [Bounded, hnum, hf.stores, ← hlen]
    simp only [List.append_nil, List.mem_reverse, List.mem_range'_1]
    constructor
    · rintro ⟨hgo, hst⟩
      refine ⟨fun h499 => ?_, hst l.length (by omega)⟩
      have := (hgo 499 (by rw [h499]; rfl)).1
      omega
    · rintro ⟨h499, hmax⟩
      refine ⟨fun n hn => ?_, fun i hi => by omega⟩
      split_ifs at hn with h500
      obtain rfl := Option.some.inj hn
      omega

/-- A file of 499 records is accepted, and the typed number 10001 makes random mode store behind
the array. -/
theorem short_file_accepted : (∃ e, fileEntry (fun _ p => p) ⟨0, 0⟩ ⟨fun _ => ⟨0, 0⟩, []⟩
      (List.replicate 3992 0) = some e ∧ e.refNum = some 499) ∧
    10000 ∈ (randomEntry (fun _ => (0, 0)) ⟨fun _ => ⟨0, 0⟩, []⟩ 10001).refs.stores := by
  constructor
  · have haccept (file : List Byte) (hfile : file.length/8 = 499) : ∃ e,
        fileEntry (fun _ p => p) ⟨0, 0⟩ ⟨fun _ => ⟨0, 0⟩, []⟩ file = some e ∧ e.refNum = some 499 := by
      obtain ⟨l, hl, hlen⟩ := exists_readEntries (Nat.lt_succ_self file.length)
      obtain ⟨e, he, hnum, -⟩ := fileEntry_readEntries (fun _ p => p) ⟨0, 0⟩ (fun _ => ⟨0, 0⟩) hl
      refine ⟨e, he, ?_⟩
      rw [hnum, hlen, hfile]
      rfl
    exact haccept _ (by rw [List.length_replicate])
  · have hmem (m n : ℕ) (h : m < n) : m ∈ (fillRandom (fun _ => (0, 0)) n ⟨fun _ => ⟨0, 0⟩, []⟩).stores := by
      rw [fillRandom_stores, List.mem_reverse, List.mem_range]
      exact h
    rw [randomEntry, if_neg (by decide)]
    exact hmem 10000 (Int.toNat 10001) (by omega)

end ProvenXv6.Paging
