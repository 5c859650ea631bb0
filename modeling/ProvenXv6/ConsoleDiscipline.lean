import ProvenXv6.ConsoleModel

namespace ProvenXv6.Console
open RingBuffer StepSystem

theorem INPUT_BUF_dvd : INPUT_BUF ∣ 0x100000000 := by decide

/-- The ring holds the unread characters and the line. -/
structure Holds (i : Input) (d : Disc) : Prop where
  order : behind i.r i.w ≤ behind i.r i.e
  room : behind i.r i.e ≤ INPUT_BUF
  unread : window INPUT_BUF i.buf i.r (behind i.r i.w) = d.unread
  line : window INPUT_BUF i.buf i.w (behind i.w i.e) = d.line
  noNewline : newline ∉ d.line
  taken : d.consumed ≤ d.committed.length

variable {i : Input} {d : Disc}

theorem Holds.length_unread (h : Holds i d) : d.unread.length = behind i.r i.w := by
  rw [← h.unread, length_window]

theorem Holds.length_line (h : Holds i d) : d.line.length = behind i.w i.e := by
  rw [← h.line, length_window]

theorem Holds.length (h : Holds i d) : d.unread.length+d.line.length = behind i.r i.e := by
  rw [h.length_unread, h.length_line, behind_add h.order]

theorem Holds.back (h : Holds i d) (hne : i.e ≠ i.w) :
    Holds { i with e := i.e-1 } { d with line := d.line.dropLast } := by
  have hpos : 0 < behind i.w i.e := Nat.pos_of_ne_zero fun he => hne (behind_eq_zero.mp he).symm
  have hadd := behind_add h.order
  have hback : behind i.r (i.e-1) = behind i.r i.e-1 := behind_pred (by omega)
  refine ⟨?_, ?_, h.unread, ?_, ?_, h.taken⟩
  · show behind i.r i.w ≤ behind i.r (i.e-1)
    omega
  · show behind i.r (i.e-1) ≤ INPUT_BUF
    have := h.room
    omega
  · show window INPUT_BUF i.buf i.w (behind i.w (i.e-1)) = d.line.dropLast
    rw [window_dropLast _ hpos, h.line]
  · exact fun hm => h.noNewline ((List.dropLast_sublist _).subset hm)

/-- Kill line drops the whole line: there is no newline in it. -/
theorem Holds.killLine {n : ℕ} (h : Holds i d) (hn : behind i.w i.e = n) :
    Holds (killLine n i) { d with line := [] } := by
  induction n generalizing i d with
  | zero =>
    have hline : d.line = [] := List.length_eq_zero_iff.mp (h.length_line.trans hn)
    rw [← hline]
    exact h
  | succ n ih =>
    have hpos : 0 < behind i.w i.e := by omega
    have hne : i.e ≠ i.w := by
      intro he
      rw [he, behind_self] at hpos
      omega
    have hlast : i.buf ((i.e-1).toNat%INPUT_BUF) ≠ newline := by
      have hl := window_last i.buf INPUT_BUF_dvd hpos
      rw [h.line] at hl
      intro he
      exact h.noNewline (he ▸ List.mem_of_getLast? hl)
    rw [Console.killLine, if_pos ⟨hne, hlast⟩]
    have hrest : behind i.w (i.e-1) = n := by
      rw [behind_pred hpos]
      omega
    have hkilled := ih (h.back hne) hrest
    exact hkilled

theorem Holds.push (h : Holds i d) (hroom : behind i.r i.e < INPUT_BUF) (c : Byte) :
    behind i.r (i.e+1) = behind i.r i.e+1 ∧ behind i.w (i.e+1) = behind i.w i.e+1 ∧
      window INPUT_BUF (Function.update i.buf (i.e.toNat%INPUT_BUF) c) i.r (behind i.r i.w) = d.unread ∧
      window INPUT_BUF (Function.update i.buf (i.e.toNat%INPUT_BUF) c) i.w (behind i.w (i.e+1)) = d.line ++ [c] := by
  have hadd := behind_add h.order
  have hsmall : INPUT_BUF < 0xffffffff := by decide
  have hw : behind i.w (i.e+1) = behind i.w i.e+1 := behind_succ (by omega)
  refine ⟨behind_succ (by omega), hw, ?_, ?_⟩
  · rw [← add_behind_mod INPUT_BUF_dvd i.r i.e, window_update _ _ h.order hroom, h.unread]
  · rw [hw, window_push _ INPUT_BUF_dvd (by omega), h.line]

theorem Holds.type (h : Holds i d) (hroom : behind i.r i.e < INPUT_BUF) {c : Byte} (hc : c ≠ newline) :
    Holds { i with buf := Function.update i.buf (i.e.toNat%INPUT_BUF) c, e := i.e+1 }
      { d with line := d.line ++ [c] } := by
  obtain ⟨hr, hw, hunread, hline⟩ := h.push hroom c
  refine ⟨?_, ?_, hunread, hline, ?_, h.taken⟩
  · show behind i.r i.w ≤ behind i.r (i.e+1)
    rw [hr]
    exact h.order.trans (Nat.le_succ _)
  · show behind i.r (i.e+1) ≤ INPUT_BUF
    rw [hr]
    exact hroom
  · intro hm
    rcases List.mem_append.mp hm with hm | hm
    · exact h.noNewline hm
    · exact hc (List.mem_singleton.mp hm).symm

theorem Holds.commit (h : Holds i d) (hroom : behind i.r i.e < INPUT_BUF) (c : Byte) :
    Holds { i with buf := Function.update i.buf (i.e.toNat%INPUT_BUF) c, w := i.e+1, e := i.e+1 }
      { d with committed := d.committed ++ (d.line ++ [c]), line := [] } := by
  obtain ⟨hr, hw, hunread, hline⟩ := h.push hroom c
  have hadd : behind i.r (i.e+1) = behind i.r i.w+behind i.w (i.e+1) := by
    have := behind_add h.order
    omega
  refine ⟨le_rfl, ?_, ?_, ?_, List.not_mem_nil, ?_⟩
  · show behind i.r (i.e+1) ≤ INPUT_BUF
    rw [hr]
    exact hroom
  · show window INPUT_BUF (Function.update i.buf (i.e.toNat%INPUT_BUF) c) i.r (behind i.r (i.e+1)) =
      (d.committed ++ (d.line ++ [c])).drop d.consumed
    rw [hadd, window_append _ INPUT_BUF_dvd, hunread, hline, List.drop_append_of_le_length h.taken]
    rfl
  · show window INPUT_BUF (Function.update i.buf (i.e.toNat%INPUT_BUF) c) (i.e+1) (behind (i.e+1) (i.e+1)) = []
    rw [behind_self, window_zero]
  · show d.consumed ≤ (d.committed ++ (d.line ++ [c])).length
    rw [List.length_append]
    exact h.taken.trans (Nat.le_add_right _ _)

theorem Holds.key (h : Holds i d) (c : Byte) : Holds (intrChar i c) (d.key c) := by
  unfold intrChar Disc.key
  by_cases hp : c = ctrlP
  · rw [if_pos hp, if_pos hp]
    exact h
  rw [if_neg hp, if_neg hp]
  by_cases hu : c = ctrlU
  · rw [if_pos hu, if_pos hu]
    exact h.killLine rfl
  rw [if_neg hu, if_neg hu]
  by_cases hb : c = ctrlH ∨ c = delete
  · rw [if_pos hb, if_pos hb]
    split_ifs with hne
    · exact h.back hne
    · -- there is nothing to erase
      have hline : d.line = [] := by
        apply List.length_eq_zero_iff.mp
        rw [h.length_line, not_not.mp hne, behind_self]
      rcases d with ⟨committed, consumed, line⟩
      obtain rfl : line = [] := hline
      exact h
  have hbehind : (i.e-i.r).toNat = behind i.r i.e := rfl
  rw [if_neg hb, if_neg hb, h.length, ← Nat.add_assoc, h.length, hbehind]
  by_cases hacc : c ≠ 0 ∧ behind i.r i.e < INPUT_BUF
  · rw [if_pos hacc, if_pos hacc]
    have hfull : i.e+1 = i.r+BitVec.ofNat 32 INPUT_BUF ↔ behind i.r i.e+1 = INPUT_BUF := by
      rw [← (h.push hacc.2 c).1]
      exact (behind_eq_iff (by decide)).symm
    generalize (if c = carriageReturn then newline else c) = c'
    simp only [hfull]
    split_ifs with hcommit
    · exact h.commit hacc.2 c'
    · exact h.type hacc.2 fun he => hcommit (Or.inl he)
  · rw [if_neg hacc, if_neg hacc]
    exact h

theorem Holds.intr (h : Holds i d) (cs : List Byte) : Holds (consoleintr i cs) (cs.foldl Disc.key d) := by
  induction cs generalizing i d with
  | nil => exact h
  | cons c cs ih => exact ih (h.key c)

theorem Holds.pop (h : Holds i d) (hne : i.r ≠ i.w) :
    ∃ rest, d.unread = i.buf (i.r.toNat%INPUT_BUF) :: rest ∧
      Holds { i with r := i.r+1 } { d with consumed := d.consumed+1 } := by
  have hpos : 0 < behind i.r i.w := Nat.pos_of_ne_zero fun he => hne (behind_eq_zero.mp he)
  have hpop := window_pop INPUT_BUF_dvd i.buf hpos
  rw [h.unread] at hpop
  have horder := h.order
  have hw : behind (i.r+1) i.w = behind i.r i.w-1 := behind_advance hpos
  have he : behind (i.r+1) i.e = behind i.r i.e-1 := behind_advance (by omega)
  refine ⟨_, hpop, ?_, ?_, ?_, h.line, h.noNewline, ?_⟩
  · show behind (i.r+1) i.w ≤ behind (i.r+1) i.e
    omega
  · show behind (i.r+1) i.e ≤ INPUT_BUF
    have := h.room
    omega
  · show window INPUT_BUF i.buf (i.r+1) (behind (i.r+1) i.w) = d.committed.drop (d.consumed+1)
    rw [← List.drop_drop, ← Disc.unread, hpop]
    rfl
  · show d.consumed+1 ≤ d.committed.length
    have hlen := h.length_unread
    rw [Disc.unread, List.length_drop] at hlen
    omega

/-- How the segment ends, when n characters were asked for and m were copied. -/
def Ending.outcome (killed : Bool) (target left : ℕ) : Ending → Outcome
  | .empty => if killed then .fail else .sleep left
  | _ => .ret (target-left)

theorem Holds.read (h : Holds i d) (killed started : Bool) {target n : ℕ} (hn : n ≤ target)
    (hstarted : started = true ↔ n < target) :
    Holds (readLoop killed target n i).1 (d.read started n) ∧
      (readLoop killed target n i).2.1 = (take started n d.unread).1 ∧
      (readLoop killed target n i).2.2 =
        (take started n d.unread).2.2.outcome killed target (n-(take started n d.unread).1.length) := by
  induction n generalizing i d started with
  | zero =>
    exact ⟨h, rfl, rfl⟩
  | succ n ih =>
    rw [readLoop]
    by_cases hempty : i.r = i.w
    · have hunread : d.unread = [] := by
        apply List.length_eq_zero_iff.mp
        rw [h.length_unread, hempty, behind_self]
      rw [if_pos hempty, Disc.read, hunread, take]
      exact ⟨h, rfl, rfl⟩
    · obtain ⟨rest, hunread, hpop⟩ := h.pop hempty
      rw [if_neg hempty, Disc.read, hunread]
      dsimp only
      generalize i.buf (i.r.toNat%INPUT_BUF) = c at hunread hpop
      by_cases hd : c = ctrlD
      · rw [if_pos hd, take, if_pos hd]
        by_cases hlt : n+1 < target
        · -- the ^D is left for the next read
          rw [if_pos hlt, hstarted.mpr hlt, BitVec.add_sub_cancel]
          exact ⟨h, rfl, rfl⟩
        · have hfirst : started = false := Bool.eq_false_iff.mpr fun hs => hlt (hstarted.mp hs)
          rw [if_neg hlt, hfirst]
          exact ⟨hpop, rfl, rfl⟩
      · rw [if_neg hd, take, if_neg hd]
        by_cases hnl : c = newline
        · rw [if_pos hnl, if_pos hnl]
          exact ⟨hpop, rfl, rfl⟩
        · rw [if_neg hnl, if_neg hnl]
          have hrest : ({ d with consumed := d.consumed+1 } : Disc).unread = rest := by
            rw [Disc.unread, ← List.drop_drop, ← Disc.unread, hunread]
            rfl
          obtain ⟨hholds, hbytes, hout⟩ := ih hpop true (by omega) (iff_of_true rfl (by omega))
          rw [hrest] at hbytes hout
          rw [Disc.read, hrest] at hholds
          dsimp only at hholds ⊢
          refine ⟨?_, by rw [hbytes], ?_⟩
          · rw [Nat.add_assoc, Nat.add_comm 1] at hholds
            exact hholds
          · rw [hout, List.length_cons, Nat.add_sub_add_right]

theorem take_filter (started : Bool) (n : ℕ) (cs : List Byte) :
    (take started n cs).1 = (cs.take (take started n cs).2.1).filter (· ≠ ctrlD) := by
  induction n generalizing started cs with
  | zero => rfl
  | succ n ih =>
    cases cs with
    | nil => rfl
    | cons c cs =>
      rw [take]
      split_ifs with hd hs hnl
      · rfl
      · rw [List.take_succ_cons, List.filter_cons_of_neg (by simpa using hd)]
        rfl
      · rw [List.take_succ_cons, List.filter_cons_of_pos (by simpa using hd)]
        rfl
      · dsimp only
        rw [List.take_succ_cons, List.filter_cons_of_pos (by simpa using hd), ← ih true cs]

theorem take_length_le (started : Bool) (n : ℕ) (cs : List Byte) : (take started n cs).1.length ≤ n := by
  induction n generalizing started cs with
  | zero => exact le_rfl
  | succ n ih =>
    cases cs with
    | nil => exact Nat.zero_le _
    | cons c cs =>
      rw [take]
      split_ifs
      · exact Nat.zero_le _
      · exact Nat.zero_le _
      · exact Nat.le_add_left 1 n
      · exact Nat.succ_le_succ (ih true cs)

theorem take_eof {started : Bool} {n taken : ℕ} {cs bytes : List Byte} (h : take started n cs = (bytes, taken, .eof)) :
    taken = bytes.length+if started = false ∧ bytes = [] then 1 else 0 := by
  induction n generalizing started cs bytes taken with
  | zero => cases h
  | succ n ih =>
    cases cs with
    | nil => cases h
    | cons c cs =>
      rw [take] at h
      split_ifs at h with hd hs
      · cases h
        simp [hs]
      · cases h
        simp [hs]
      · cases h
      · rcases htake : take true n cs with ⟨bytes', taken', ending⟩
        rw [htake] at h
        cases h
        have hrest := ih htake
        simp only [Bool.true_eq_false, false_and, if_false, Nat.add_zero] at hrest
        simp [hrest]

variable {ι : Type} [DecidableEq ι] {s t : Sys ι}

structure Inv (s : Sys ι) : Prop where
  holds : Holds s.input s.disc
  copied : s.copied = (s.disc.committed.take s.disc.consumed).filter (· ≠ ctrlD)
  reader : ∀ p rd, s.reader p = some rd → rd.target = rd.n+rd.dst.length

section Finish
variable (s : Sys ι) (p : ι) (rd : Reader) (bytes : List Byte) (out : Outcome)

theorem finish_input : (s.finish p rd bytes out).input = s.input := by cases out <;> rfl

theorem finish_disc : (s.finish p rd bytes out).disc = s.disc := by cases out <;> rfl

theorem finish_copied : (s.finish p rd bytes out).copied = s.copied := by cases out <;> rfl

theorem finish_reader_of_ne {q : ι} (hq : q ≠ p) : (s.finish p rd bytes out).reader q = s.reader q := by
  cases out <;> exact Function.update_of_ne hq ..

theorem finish_reader_self : (s.finish p rd bytes out).reader p = match out with
    | .sleep n => some { rd with n := n, dst := rd.dst ++ bytes }
    | _ => none := by
  cases out <;> exact Function.update_self ..

end Finish

theorem Inv.segment_spec (h : Inv s) {p : ι} {rd : Reader} (hrd : s.reader p = some rd)
    {bytes : List Byte} {taken : ℕ} {ending : Ending}
    (htake : take (decide (rd.dst ≠ [])) rd.n s.disc.unread = (bytes, taken, ending)) :
    Holds (s.segment p rd).input (s.segment p rd).disc ∧
      (s.segment p rd).disc = { s.disc with consumed := s.disc.consumed+taken } ∧
      (s.segment p rd).copied = s.copied ++ bytes ∧
      (∀ q, q ≠ p → (s.segment p rd).reader q = s.reader q) ∧
      (∀ rd', (s.segment p rd).reader p = some rd' →
        rd' = { rd with n := rd.n-bytes.length, dst := rd.dst ++ bytes }) ∧
      (ending ≠ .empty → (s.segment p rd).returned p = some (some (rd.dst.length+bytes.length))) := by
  have htarget := h.reader p rd hrd
  have hstarted : decide (rd.dst ≠ []) = true ↔ rd.n < rd.target := by
    rw [decide_eq_true_iff, htarget, ← List.length_pos_iff]
    omega
  have hle : bytes.length ≤ rd.n := by
    have hle := take_length_le (decide (rd.dst ≠ [])) rd.n s.disc.unread
    rwa [htake] at hle
  obtain ⟨hholds, hbytes, hout⟩ := h.holds.read (s.killed p) _ (show rd.n ≤ rd.target by omega) hstarted
  have hdisc : s.disc.read (decide (rd.dst ≠ [])) rd.n = { s.disc with consumed := s.disc.consumed+taken } := by
    rw [Disc.read, htake]
  rw [htake] at hbytes hout
  unfold Sys.segment
  dsimp only at hbytes hout ⊢
  rw [finish_input, finish_disc, finish_copied, finish_reader_self, hbytes, hout, hdisc]
  refine ⟨hdisc ▸ hholds, rfl, rfl, fun q hq => finish_reader_of_ne _ p rd bytes _ hq, ?_, ?_⟩
  · intro rd' hrd'
    cases ending with
    | empty =>
      unfold Ending.outcome at hrd'
      cases hk : s.killed p with
      | true => simp [hk] at hrd'
      | false => simpa [hk] using hrd'.symm
    | full => cases hrd'
    | newline => cases hrd'
    | eof => cases hrd'
  · intro hne
    have hvalue : rd.target-(rd.n-bytes.length) = rd.dst.length+bytes.length := by omega
    have hret : ending.outcome (s.killed p) rd.target (rd.n-bytes.length) = .ret (rd.dst.length+bytes.length) := by
      rw [← hvalue]
      cases ending with
      | empty => exact absurd rfl hne
      | full => rfl
      | newline => rfl
      | eof => rfl
    rw [hret]
    exact Function.update_self ..

theorem Inv.segment (h : Inv s) {p : ι} {rd : Reader} (hrd : s.reader p = some rd) : Inv (s.segment p rd) := by
  have htarget := h.reader p rd hrd
  rcases htake : take (decide (rd.dst ≠ [])) rd.n s.disc.unread with ⟨bytes, taken, ending⟩
  obtain ⟨hholds, hdisc, hcopied, hother, hself, -⟩ := h.segment_spec hrd htake
  have hle := take_length_le (decide (rd.dst ≠ [])) rd.n s.disc.unread
  have hfilter := take_filter (decide (rd.dst ≠ [])) rd.n s.disc.unread
  rw [htake] at hle hfilter
  refine ⟨hholds, ?_, ?_⟩
  · rw [hcopied, hdisc, h.copied, List.take_add, List.filter_append, ← Disc.unread, ← hfilter]
  · intro q rd' hq
    by_cases hqp : q = p
    · rw [hself rd' (hqp ▸ hq)]
      show rd.target = rd.n-bytes.length+(rd.dst ++ bytes).length
      have hle : bytes.length ≤ rd.n := hle
      rw [List.length_append]
      omega
    · exact h.reader q rd' (hother q hqp ▸ hq)

theorem committed_key (d : Disc) (c : Byte) : d.committed <+: (d.key c).committed ∧ (d.key c).consumed = d.consumed := by
  unfold Disc.key
  generalize (if c = carriageReturn then newline else c) = c'
  split_ifs with _ _ _ hacc
  · exact ⟨List.prefix_rfl, rfl⟩
  · exact ⟨List.prefix_rfl, rfl⟩
  · exact ⟨List.prefix_rfl, rfl⟩
  · dsimp only
    split_ifs
    · exact ⟨List.prefix_append _ _, rfl⟩
    · exact ⟨List.prefix_rfl, rfl⟩
  · exact ⟨List.prefix_rfl, rfl⟩

theorem committed_keys (cs : List Byte) (d : Disc) :
    d.committed <+: (cs.foldl Disc.key d).committed ∧ (cs.foldl Disc.key d).consumed = d.consumed := by
  induction cs generalizing d with
  | nil => exact ⟨List.prefix_rfl, rfl⟩
  | cons c cs ih =>
    obtain ⟨hc, hn⟩ := committed_key d c
    obtain ⟨hcs, hns⟩ := ih (d.key c)
    exact ⟨hc.trans hcs, hns.trans hn⟩

theorem Inv.step (h : Inv s) {e : Event ι} (hs : step s e = some t) :
    Inv t ∧ s.disc.committed <+: t.disc.committed := by
  cases e with
  | intr cs =>
    obtain rfl := Option.some.inj hs
    obtain ⟨hgrow, hsame⟩ := committed_keys cs s.disc
    refine ⟨⟨h.holds.intr cs, ?_, h.reader⟩, hgrow⟩
    obtain ⟨new, hnew⟩ := hgrow
    show s.copied = _
    rw [h.copied, hsame, ← hnew, List.take_append_of_le_length h.holds.taken]
  | read p n =>
    rw [Console.step] at hs
    split at hs
    · cases hs
    · obtain rfl := Option.some.inj hs
      refine ⟨⟨h.holds, h.copied, ?_⟩, List.prefix_rfl⟩
      intro q rd hq
      by_cases hqp : q = p
      · simp only [hqp, Function.update_self, Option.some.injEq] at hq
        rw [← hq]
        rfl
      · simp only [Function.update_of_ne hqp] at hq
        exact h.reader q rd hq
  | run p =>
    obtain ⟨rd, hrd, rfl⟩ := Option.map_eq_some_iff.mp hs
    refine ⟨h.segment hrd, ?_⟩
    rcases htake : take (decide (rd.dst ≠ [])) rd.n s.disc.unread with ⟨bytes, taken, ending⟩
    have hsame : (s.segment p rd).disc.committed = s.disc.committed := by
      rw [(h.segment_spec hrd htake).2.1]
    exact hsame ▸ List.prefix_rfl
  | kill p =>
    obtain rfl := Option.some.inj hs
    exact ⟨⟨h.holds, h.copied, h.reader⟩, List.prefix_rfl⟩

omit [DecidableEq ι] in
theorem inv_start (buf : ℕ → Byte) : Inv (start ι buf) where
  holds := by
    refine ⟨le_rfl, ?_, ?_, ?_, List.not_mem_nil, le_rfl⟩
    · show behind 0 0 ≤ INPUT_BUF
      rw [behind_self]
      exact Nat.zero_le _
    · show window INPUT_BUF buf 0 (behind 0 0) = []
      rw [behind_self, window_zero]
    · show window INPUT_BUF buf 0 (behind 0 0) = []
      rw [behind_self, window_zero]
  copied := rfl
  reader := fun p rd hrd => by cases hrd

/-- Whatever is typed and read, r, w and e stay in order and at most INPUT_BUF apart, the
committed characters stay as they are and those not read yet are between r and w, the bytes
copied are the first of the committed characters without ^D, and a read that meets ^D
returns what it has copied and takes the ^D only if that is nothing. -/
theorem console_line_discipline {ι : Type} [DecidableEq ι] (buf : ℕ → Byte) (s : Sys ι)
    (h : Reachable step (start ι buf) s) :
    (s.input.w-s.input.r).toNat ≤ (s.input.e-s.input.r).toNat ∧
      (s.input.e-s.input.r).toNat ≤ INPUT_BUF ∧
      window INPUT_BUF s.input.buf s.input.r (s.input.w-s.input.r).toNat = s.disc.unread ∧
      window INPUT_BUF s.input.buf s.input.w (s.input.e-s.input.w).toNat = s.disc.line ∧
      s.copied <+: s.disc.committed.filter (· ≠ ctrlD) ∧
      (∀ e t, step s e = some t → s.disc.committed <+: t.disc.committed) ∧
      ∀ p rd bytes taken, s.reader p = some rd →
        take (decide (rd.dst ≠ [])) rd.n s.disc.unread = (bytes, taken, .eof) →
        ∃ t, step s (.run p) = some t ∧ t.returned p = some (some (rd.dst.length+bytes.length)) ∧
          t.copied = s.copied ++ bytes ∧
          t.disc.consumed = s.disc.consumed+bytes.length+if rd.dst.length+bytes.length = 0 then 1 else 0 := by
  have hinv : Inv s := h.invariant (inv_start buf) fun _ _ _ hi hs => (hi.step hs).1
  refine ⟨hinv.holds.order, hinv.holds.room, hinv.holds.unread, hinv.holds.line, ?_, ?_, ?_⟩
  · rw [hinv.copied]
    exact (List.take_prefix _ _).filter _
  · exact fun e t hs => (hinv.step hs).2
  · intro p rd bytes taken hrd htake
    obtain ⟨-, hdisc, hcopied, -, -, hret⟩ := hinv.segment_spec hrd htake
    refine ⟨s.segment p rd, by rw [step, hrd, Option.map_some], hret (by decide), hcopied, ?_⟩
    have htaken := take_eof htake
    simp only [decide_eq_false_iff_not, not_not, ← List.length_eq_zero_iff] at htaken
    rw [hdisc, htaken, Nat.add_assoc]
    simp only [Nat.add_eq_zero_iff]

theorem console_line_discipline_first_eof : ∃ s t : Sys (Fin 1),
    Reachable step (start (Fin 1) fun _ => 0) s ∧ s.disc.unread = [ctrlD] ∧
      step s (.run 0) = some t ∧ t.returned 0 = some (some 0) ∧ t.disc.consumed = s.disc.consumed+1 := by
  have htrace : ∃ s ∈ StepSystem.exec step (start (Fin 1) fun _ => 0) [.intr [ctrlD], .read 0 5],
      s.disc.unread = [ctrlD] ∧ (s.reader 0).map Reader.dst = some [] ∧ (s.reader 0).map Reader.n = some 5 := by
    decide
  obtain ⟨s, hreach, hunread, hdst, hn⟩ := reachable_of_exec htrace
  obtain ⟨rd, hrd, hdst⟩ := Option.map_eq_some_iff.mp hdst
  have hn : rd.n = 5 := by
    rw [hrd] at hn
    exact Option.some.inj hn
  have hdisc := (console_line_discipline (fun _ => 0) s hreach).2.2.2.2.2.2 0 rd [] 1 hrd (by
    rw [hdst, hn, hunread]
    rfl)
  obtain ⟨t, ht, hret, -, hconsumed⟩ := hdisc
  rw [hdst] at hret hconsumed
  exact ⟨s, t, hreach, hunread, ht, hret, hconsumed⟩

end ProvenXv6.Console
