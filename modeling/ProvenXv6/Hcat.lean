import Mathlib.Data.List.Infix
import ProvenXv6.Stdio

/-! hcat.c: `cat` copies the first lines of a file byte by byte and `main` does so for each file
it is given; with `atoi` of ulib.c. A run is the list of what its system calls did. -/
namespace ProvenXv6.Hcat
open Stdio

def newline : Byte := 10

def ascii (text : String) : List Byte := text.toList.map fun c => BitVec.ofNat 8 c.toNat

inductive Event
  /-- a byte written by `cat` -/
  | copied (c : Byte)
  /-- a text written by `printf` -/
  | printed (text : List Byte)
  /-- a `read` that returned -1 -/
  | readFailed
  deriving DecidableEq, Repr

/-- The bytes of a file, and whether the `read` behind the last one fails. -/
structure File where
  content : List Byte
  fails : Bool
  deriving DecidableEq, Repr

/-- The result of the `read` behind the last byte. -/
def File.last (f : File) : ℤ := if f.fails then -1 else 0

def wrap (x : ℤ) : ℤ := Int.bmod x 0x100000000

def atoi (s : List Byte) : ℤ :=
  (s.takeWhile isdigit).foldl (fun n c => wrap (n*10+(c.toNat-48))) 0

section
variable (writes : List Event → Bool) (line : ℤ)

/-- The loop of `cat` over the bytes that are left: the value of n behind it, or none after
`exit`. Whether a `write` succeeds may depend on what has happened. -/
def catLoop (last : ℤ) : List Byte → ℤ → List Event → Option ℤ × List Event
  | [], _, run =>
    -- n = read(fd, buf, 1) > 0 stores the result of the comparison
    (some (if last > 0 then 1 else 0), if last < 0 then run ++ [.readFailed] else run)
  | c :: rest, cnt, run =>
    if writes run then
      let run := run ++ [.copied c]
      let cnt := if c = newline then wrap (cnt+1) else cnt
      if cnt > line then (some 1, run) else catLoop last rest cnt run
    else (none, run ++ [.printed (ascii "cat: write error\n")])

/-- Whether `cat` returns, and the run up to then. -/
def cat (f : File) (run : List Event) : Bool × List Event :=
  match catLoop writes line f.last f.content 1 run with
  | (none, run) => (false, run)
  | (some n, run) =>
    if n < 0 then (false, run ++ [.printed (ascii "hcat: read error\n")]) else (true, run)

end

/-- The loop of `main` over the names from argv[2] on. -/
def mainLoop (writes : List Event → Bool) (openFile : List Byte → Option File)
    (number : List Byte) : List (List Byte) → List Event → List Event
  | [], run => run
  | name :: names, run =>
    match openFile name with
    | none => run ++ [.printed (ascii "hcat: cannot open " ++ name ++ ascii "\n")]
    | some f =>
      match cat writes (atoi number) f run with
      | (false, run) => run
      | (true, run) => mainLoop writes openFile number names run

def main (writes : List Event → Bool) (openFile : List Byte → Option File) :
    List (List Byte) → List Event
  | _ :: number :: name :: names => mainLoop writes openFile number (name :: names) []
  | _ => [.printed (ascii "use: hcat line_number file_name\n")]

/-- The first n lines: up to the newline that ends the last of them. -/
def firstLines : ℕ → List Byte → List Byte
  | 0, _ => []
  | _+1, [] => []
  | n+1, c :: s => c :: firstLines (if c = newline then n else n+1) s

def copies (run : List Event) : List Byte :=
  run.filterMap fun e => match e with
    | .copied c => some c
    | .printed _ => none
    | .readFailed => none

def lines (s : List Byte) : ℕ := s.count newline

theorem lines_cons (c : Byte) (s : List Byte) :
    lines (c :: s) = lines s+(if c = newline then 1 else 0) := by
  rw [lines, List.count_cons]
  simp only [beq_iff_eq, lines]

theorem firstLines_zero (s : List Byte) : firstLines 0 s = [] := by
  cases s <;> rfl

/-- `firstLines` is the shortest prefix with that many newlines, or everything. -/
theorem firstLines_prefix (n : ℕ) (s : List Byte) : firstLines n s <+: s ∧
    (lines s < n → firstLines n s = s) ∧
    (n ≤ lines s → lines (firstLines n s) = n ∧ ∀ p, p <+: s → n ≤ lines p → firstLines n s <+: p) := by
  induction s generalizing n with
  | nil =>
    cases n with
    | zero => exact ⟨List.nil_prefix, fun _ => rfl, fun _ => ⟨rfl, fun p _ _ => List.nil_prefix⟩⟩
    | succ n => exact ⟨List.nil_prefix, fun _ => rfl, fun h => absurd h (Nat.not_succ_le_zero n)⟩
  | cons c s ih =>
    cases n with
    | zero =>
      rw [firstLines_zero]
      exact ⟨List.nil_prefix, fun h => absurd h (Nat.not_lt_zero _), fun _ => ⟨rfl, fun p _ _ => List.nil_prefix⟩⟩
    | succ n =>
      obtain ⟨hpre, hall, hshort⟩ := ih (if c = newline then n else n+1)
      rw [firstLines]
      refine ⟨(List.prefix_cons_inj c).mpr hpre, fun h => ?_, fun h => ⟨?_, ?_⟩⟩
      · rw [lines_cons] at h
        rw [hall (by split_ifs at h ⊢ <;> omega)]
      · rw [lines_cons] at h ⊢
        rw [(hshort (by split_ifs at h ⊢ <;> omega)).1]
        split_ifs <;> rfl
      · intro p hp hn
        cases p with
        | nil => exact absurd hn (Nat.not_succ_le_zero n)
        | cons d p =>
          obtain ⟨rfl, hps⟩ := List.cons_prefix_cons.mp hp
          rw [lines_cons] at h hn
          refine (List.prefix_cons_inj d).mpr ((hshort ?_).2 p hps ?_)
          · split_ifs at h ⊢ <;> omega
          · split_ifs at hn ⊢ <;> omega

theorem wrap_eq {x : ℤ} (h0 : -0x80000000 ≤ x) (h1 : x < 0x80000000) : wrap x = x :=
  Int.bmod_eq_of_le (by omega) (by omega)

theorem wrap_lt (x : ℤ) : wrap x < 0x80000000 := by
  have h : Int.bmod x 0x100000000 < (0x100000000+1)/2 := Int.bmod_lt (by decide)
  exact h

theorem decimal_concat (digits : List Byte) (c : Byte) :
    decimal (digits ++ [c]) = 10*decimal digits+(c.toNat-48) := by
  rw [decimal, List.foldl_append]
  rfl

theorem isdigit_value {c : Byte} (h : isdigit c) : (0:ℤ) ≤ c.toNat-48 := by
  have hc : 48 ≤ c.toNat ∧ c.toNat ≤ 57 := by simpa only [isdigit, decide_eq_true_eq] using h
  omega

theorem decimal_nonneg {digits : List Byte} (hd : ∀ c ∈ digits, isdigit c) : 0 ≤ decimal digits := by
  induction digits using List.reverseRecOn with
  | nil => exact le_rfl
  | append_singleton digits c ih =>
    have hc := isdigit_value (hd c (List.mem_append_right _ (List.mem_singleton_self c)))
    have hds := ih fun d h => hd d (List.mem_append_left _ h)
    rw [decimal_concat]
    omega

/-- The digits of a number that an `int` can hold are read as that number: no value on the
way to it is larger. -/
theorem atoi_eq {digits : List Byte} (hd : ∀ c ∈ digits, isdigit c)
    (hlt : decimal digits < 0x80000000) : atoi digits = decimal digits := by
  rw [atoi, List.takeWhile_eq_self_iff.mpr hd]
  induction digits using List.reverseRecOn with
  | nil => rfl
  | append_singleton digits c ih =>
    have hc := isdigit_value (hd c (List.mem_append_right _ (List.mem_singleton_self c)))
    have hds : ∀ d ∈ digits, isdigit d := fun d h => hd d (List.mem_append_left _ h)
    have hnn := decimal_nonneg hds
    rw [decimal_concat] at hlt ⊢
    rw [List.foldl_append, List.foldl_cons, List.foldl_nil, ih hds (by omega),
      wrap_eq (by omega) (by omega), Int.mul_comm]

/-- Every `write` writes its byte. -/
def success : List Event → Bool := fun _ => true

/-- What the run has behind the last byte of a file. -/
def File.ending (f : File) : List Event := if f.fails then [.readFailed] else []

section
variable {line : ℤ} {f : File}

theorem catLoop_nil (cnt : ℤ) (run : List Event) :
    catLoop success line f.last [] cnt run = (some 0, run ++ f.ending) := by
  rw [catLoop, File.last, File.ending]
  split_ifs
  all_goals simp_all

theorem catLoop_cons (last : ℤ) (c : Byte) (s : List Byte) (cnt : ℤ) (run : List Event) :
    catLoop success line last (c :: s) cnt run =
      if (if c = newline then wrap (cnt+1) else cnt) > line then (some 1, run ++ [.copied c])
      else catLoop success line last s (if c = newline then wrap (cnt+1) else cnt) (run ++ [.copied c]) := by
  rw [catLoop, success, if_pos rfl]

theorem append_copied_cons (run : List Event) (c : Byte) (s : List Byte) :
    run ++ (c :: s).map Event.copied = run ++ [.copied c] ++ s.map Event.copied := by
  rw [List.map_cons, List.append_assoc, List.singleton_append]

theorem catLoop_lines (s : List Byte) {cnt : ℤ} {m : ℕ} (run : List Event) (h0 : 0 < cnt)
    (h1 : cnt+m < 0x7fffffff) :
    catLoop success (cnt+m) f.last s cnt run = (some (if lines s < m+1 then 0 else 1),
      run ++ (firstLines (m+1) s).map Event.copied ++ if lines s < m+1 then f.ending else []) := by
  induction s generalizing cnt m run with
  | nil =>
    have hlt : lines [] < m+1 := Nat.succ_pos m
    rw [catLoop_nil, if_pos hlt, if_pos hlt, firstLines, List.map_nil, List.append_nil]
  | cons c s ih =>
    rw [catLoop_cons, firstLines, append_copied_cons, lines_cons]
    by_cases hc : c = newline
    · rw [if_pos hc, if_pos hc, if_pos hc, wrap_eq (by omega) (by omega)]
      cases m with
      | zero =>
        -- this newline ends the last line
        have hge : ¬lines s+1 < 0+1 := by omega
        rw [if_pos (by omega), if_neg hge, if_neg hge, firstLines_zero, List.map_nil,
          List.append_nil, List.append_nil]
      | succ m =>
        have hline : cnt+((m+1 : ℕ):ℤ) = cnt+1+m := by omega
        rw [if_neg (by omega), hline, ih _ (by omega) (by omega)]
        simp only [Nat.succ_lt_succ_iff]
    · rw [if_neg hc, if_neg hc, if_neg hc, if_neg (by omega), ih _ h0 h1]
      rfl

/-- The counter cannot exceed the largest `int`. -/
theorem catLoop_max (s : List Byte) {cnt : ℤ} (run : List Event) (h : cnt < 0x80000000) :
    catLoop success 0x7fffffff f.last s cnt run = (some 0, run ++ s.map Event.copied ++ f.ending) := by
  induction s generalizing cnt run with
  | nil => rw [catLoop_nil, List.map_nil, List.append_nil]
  | cons c s ih =>
    have hnext : (if c = newline then wrap (cnt+1) else cnt) < 0x80000000 := by
      split_ifs
      · exact wrap_lt _
      · exact h
    rw [catLoop_cons, if_neg (by omega), ih _ hnext, append_copied_cons]

theorem cat_of_loop {n : ℤ} {run run' : List Event}
    (h : catLoop success line f.last f.content 1 run = (some n, run')) (hn : 0 ≤ n) :
    cat success line f run = (true, run') := by
  rw [cat, h]
  exact if_neg (Int.not_lt.mpr hn)

theorem cat_lines {n : ℕ} (h0 : 0 < n) (h1 : n < 0x7fffffff) (run : List Event) :
    cat success n f run = (true, run ++ (firstLines n f.content).map Event.copied ++
      if lines f.content < n then f.ending else []) := by
  obtain ⟨m, rfl⟩ := Nat.exists_eq_add_of_lt h0
  rw [Nat.zero_add] at h1 ⊢
  have hline : ((m+1 : ℕ):ℤ) = 1+m := by omega
  rw [hline]
  apply cat_of_loop (catLoop_lines f.content run Int.one_pos (by omega))
  split_ifs
  · exact le_rfl
  · exact Int.zero_le_ofNat 1

theorem cat_zero (run : List Event) :
    cat success 0 f run = (true, run ++ match f.content with
      | [] => f.ending
      | c :: _ => [.copied c]) := by
  cases hs : f.content with
  | nil =>
    apply cat_of_loop (n := 0) _ le_rfl
    rw [hs, catLoop_nil]
  | cons c s =>
    -- the count starts above zero, but is first looked at behind the first byte
    apply cat_of_loop (n := 1) _ (Int.zero_le_ofNat 1)
    rw [hs, catLoop_cons, if_pos]
    split_ifs
    · decide
    · decide

theorem cat_max (run : List Event) :
    cat success 0x7fffffff f run = (true, run ++ f.content.map Event.copied ++ f.ending) :=
  cat_of_loop (catLoop_max f.content run (by decide)) le_rfl

end

theorem copies_append (run run' : List Event) : copies (run ++ run') = copies run ++ copies run' :=
  List.filterMap_append

theorem copies_copied (s : List Byte) : copies (s.map Event.copied) = s := by
  rw [copies, List.filterMap_map]
  exact List.filterMap_some

theorem copies_ending (f : File) : copies f.ending = [] := by
  rw [File.ending]
  split_ifs <;> rfl

/-- The run has the first n lines of the file, and a message if a `read` failed. -/
def Prints (n : ℕ) (f : File) (run : List Event) : Prop :=
  copies run = firstLines n f.content ∧
    (.readFailed ∈ run → .printed (ascii "hcat: read error\n") ∈ run)

theorem prints_copied {n : ℕ} {f : File} {s : List Byte} {e : List Event} (he : e = f.ending ∨ e = []) :
    Prints n f (s.map Event.copied ++ e) ↔ s = firstLines n f.content ∧ .readFailed ∉ e := by
  have hcopies : copies (s.map Event.copied ++ e) = s := by
    rw [copies_append, copies_copied]
    rcases he with rfl | rfl
    · rw [copies_ending, List.append_nil]
    · exact List.append_nil s
  have hfailed : .readFailed ∈ s.map Event.copied ++ e ↔ .readFailed ∈ e := by
    simp only [List.mem_append, List.mem_map, reduceCtorEq, and_false, exists_false, false_or]
  -- `cat` itself prints nothing in such a run
  have hsilent : ∀ text, .printed text ∉ s.map Event.copied ++ e := by
    intro text hmem
    have hend : .printed text ∈ e := by
      simpa only [List.mem_append, List.mem_map, reduceCtorEq, and_false, exists_false, false_or] using hmem
    rcases he with rfl | rfl
    · rw [File.ending] at hend
      split_ifs at hend
      · exact absurd (List.mem_singleton.mp hend) (by simp only [reduceCtorEq, not_false_eq_true])
      · exact absurd hend List.not_mem_nil
    · exact absurd hend List.not_mem_nil
  rw [Prints, hcopies, hfailed]
  exact and_congr_right fun _ => ⟨fun h hr => hsilent _ (h hr), fun h hr => absurd hr h⟩

theorem readFailed_ending (f : File) : .readFailed ∉ f.ending ↔ f.fails = false := by
  rw [File.ending]
  cases f.fails
  · exact iff_of_true List.not_mem_nil rfl
  · exact iff_of_false (fun h => h (List.mem_singleton_self _)) (by decide)

/-- Where the program does what it should: nothing is wanted of an empty file only; the count
does not run past the largest `int` before the end of the file; and no `read` fails, since
enough lines come first. -/
def Copes (n : ℕ) (f : File) : Prop :=
  (n = 0 → f.content = []) ∧ (n = 0x7fffffff → f.content = firstLines n f.content) ∧
    (f.fails → 0 < n ∧ n < 0x7fffffff ∧ n ≤ lines f.content)

theorem prints_cat_zero (f : File) : Prints 0 f (cat success 0 f []).2 ↔ Copes 0 f := by
  rw [cat_zero, List.nil_append]
  cases hs : f.content with
  | nil =>
    have hiff := prints_copied (n := 0) (s := []) (Or.inl (Eq.refl f.ending))
    rw [List.map_nil, List.nil_append, firstLines_zero, readFailed_ending] at hiff
    rw [hiff, Copes, hs]
    simp
  | cons c s =>
    -- no line is wanted and the first byte is copied all the same
    have hiff := prints_copied (n := 0) (f := f) (s := [c]) (Or.inr rfl)
    rw [firstLines_zero, List.append_nil] at hiff
    refine iff_of_false (fun h => List.cons_ne_nil c [] (hiff.mp h).1) (fun h => ?_)
    exact List.cons_ne_nil c s (hs.symm.trans (h.1 rfl))

theorem prints_cat_lines {n : ℕ} (h0 : 0 < n) (h1 : n < 0x7fffffff) (f : File) :
    Prints n f (cat success n f []).2 ↔ Copes n f := by
  have hend : (if lines f.content < n then f.ending else []) = f.ending ∨
      (if lines f.content < n then f.ending else []) = [] := by
    split_ifs
    · exact Or.inl rfl
    · exact Or.inr rfl
  rw [cat_lines h0 h1, List.nil_append, prints_copied hend, Copes]
  split_ifs with hfew
  · rw [readFailed_ending]
    constructor
    · rintro ⟨-, hf⟩
      exact ⟨by omega, by omega, fun h => absurd (hf.symm.trans h) (by decide)⟩
    · rintro ⟨-, -, hf⟩
      refine ⟨rfl, Bool.eq_false_iff.mpr fun h => ?_⟩
      have := (hf h).2.2
      omega
  · refine iff_of_true ⟨rfl, List.not_mem_nil⟩ ⟨by omega, by omega, fun _ => ⟨h0, h1, by omega⟩⟩

theorem prints_cat_max (f : File) : Prints 0x7fffffff f (cat success 0x7fffffff f []).2 ↔
    Copes 0x7fffffff f := by
  rw [cat_max, List.nil_append, prints_copied (Or.inl rfl), readFailed_ending, Copes]
  constructor
  · rintro ⟨hall, hf⟩
    exact ⟨by omega, fun _ => hall, fun h => absurd (hf.symm.trans h) (by decide)⟩
  · rintro ⟨-, hall, hf⟩
    exact ⟨hall rfl, Bool.eq_false_iff.mpr fun h => absurd (hf h).2.1 (lt_irrefl _)⟩

/-- For every number that an `int` can hold and every file: `cat` prints the first lines, and the
message if a `read` fails, in the cases of `Copes` only. -/
theorem hcat_prints_iff {digits : List Byte} {n : ℕ} (hd : ∀ c ∈ digits, isdigit c)
    (hn : decimal digits = n) (hlt : n < 0x80000000) (f : File) :
    Prints n f (cat success (atoi digits) f []).2 ↔ Copes n f := by
  rw [atoi_eq hd (by omega), hn]
  rcases Nat.eq_zero_or_pos n with rfl | h0
  · exact prints_cat_zero f
  · rcases Nat.lt_or_eq_of_le (Nat.le_of_lt_succ hlt) with h1 | rfl
    · exact prints_cat_lines h0 h1 f
    · exact prints_cat_max f

/-- hcat 2 on a file of three lines. -/
theorem hcat_prints_two :
    decimal [50] = 2 ∧ Prints 2 ⟨[97, 10, 98, 10, 99, 10], true⟩
      (cat success (atoi [50]) ⟨[97, 10, 98, 10, 99, 10], true⟩ []).2 :=
  ⟨by decide, (hcat_prints_iff (by decide) (by decide) (by decide) _).mpr
    ⟨by decide, by decide, by decide⟩⟩

/-- hcat 0 copies a byte, and a `read` that fails goes unnoticed. -/
theorem hcat_zero_lines :
    copies (cat success (atoi [48]) ⟨[97], false⟩ []).2 = [97] ∧ firstLines 0 [97] = [] ∧
      cat success (atoi [49]) ⟨[], true⟩ [] = (true, [.readFailed]) := by
  decide

/-- The names before the first one that cannot be opened. -/
def opened (openFile : List Byte → Option File) (names : List (List Byte)) : List (List Byte) :=
  names.takeWhile fun name => (openFile name).isSome

def contents (openFile : List Byte → Option File) (name : List Byte) : List Byte :=
  ((openFile name).map File.content).getD []

/-- What the loop of `main` copies: a `read` that fails ends its file and goes unnoticed, an
`open` that fails ends the loop. -/
theorem copies_mainLoop {openFile : List Byte → Option File} {number : List Byte} {n : ℕ}
    (hd : ∀ c ∈ number, isdigit c) (hn : decimal number = n) (h0 : 0 < n) (h1 : n < 0x7fffffff)
    (names : List (List Byte)) (run : List Event) :
    copies (mainLoop success openFile number names run) = copies run ++
      (opened openFile names).flatMap fun name => firstLines n (contents openFile name) := by
  induction names generalizing run with
  | nil => exact (List.append_nil _).symm
  | cons name names ih =>
    cases hf : openFile name with
    | none =>
      rw [mainLoop, hf, opened, List.takeWhile_cons_of_neg (by simp [hf])]
      exact copies_append run _
    | some f =>
      have hend : copies (if lines f.content < n then f.ending else []) = [] := by
        split_ifs
        · exact copies_ending f
        · rfl
      have hcat : cat success (atoi number) f run = (true, run ++
          (firstLines n f.content).map Event.copied ++ if lines f.content < n then f.ending else []) := by
        rw [atoi_eq hd (by omega), hn, cat_lines h0 h1]
      rw [mainLoop, hf]
      dsimp only
      rw [hcat, opened, List.takeWhile_cons_of_pos (by simp [hf]), List.flatMap_cons]
      dsimp only
      rw [ih, copies_append, copies_append, copies_copied, hend, List.append_nil, contents, hf,
        List.append_assoc]
      rfl

/-- `main` copies the first lines of each of its files, one file after another, up to the first
one that cannot be opened. -/
theorem main_copies {openFile : List Byte → Option File} {number : List Byte} {n : ℕ}
    (hd : ∀ c ∈ number, isdigit c) (hn : decimal number = n) (h0 : 0 < n) (h1 : n < 0x7fffffff)
    (program name : List Byte) (names : List (List Byte)) :
    copies (main success openFile (program :: number :: name :: names)) =
      (opened openFile (name :: names)).flatMap fun m => firstLines n (contents openFile m) :=
  copies_mainLoop hd hn h0 h1 (name :: names) []

/-- hcat 1 on a file of two lines, one whose `read` fails and one that is missing. -/
theorem main_copies_three :
    copies (main success (fun m => if m = [97] then some ⟨[98, 10, 99, 10], false⟩
      else if m = [100] then some ⟨[101], true⟩ else none) [[], [49], [97], [100], [102], [97]]) =
      [98, 10, 101] := by
  rw [main_copies (n := 1) (by decide) (by decide) (by decide) (by decide)]
  decide

end ProvenXv6.Hcat
