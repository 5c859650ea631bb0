import Mathlib.Data.List.GetD
import Mathlib.Tactic.Common
import ProvenXv6.LoginModel

namespace ProvenXv6.Login

abbrev Pair := List Byte × List Byte

def Field (w : List Byte) : Prop :=
  1 ≤ w.length ∧ w.length ≤ 31 ∧ space ∉ w ∧ newline ∉ w

def line (p : Pair) : List Byte := p.1 ++ space :: (p.2 ++ [newline])

def listing (ps : List Pair) : List Byte := (ps.map line).flatten

/-- The file has the lines ps; the newline after the last one may be missing. -/
def Lists (file : List Byte) (ps : List Pair) : Prop :=
  file = listing ps ∨ file ++ [newline] = listing ps

/-- A line as the console delivers it, without its newline. -/
def Typed (w : List Byte) : Prop :=
  w.length ≤ 30 ∧ newline ∉ w ∧ carriageReturn ∉ w ∧ 0 ∉ w

instance (w : List Byte) : Decidable (Field w) := inferInstanceAs (Decidable (_ ∧ _))
instance (w : List Byte) : Decidable (Typed w) := inferInstanceAs (Decidable (_ ∧ _))

/-- After every read the byte behind the bytes read is in buf and is NUL. -/
def Terminated : List Byte → List (List Byte) → Prop
  | _, [] => True
  | buf, c :: cs => (overwrite buf c)[c.length]? = some 0 ∧ Terminated (overwrite buf c) cs

/-- What the loop over the reads sees: after each of them the bytes of buf up to its first NUL. -/
def seen : List Byte → List (List Byte) → Option (List Byte)
  | _, [] => some []
  | buf, c :: cs =>
    if 0 ∈ overwrite buf c then
      ((overwrite buf c).takeWhile (· ≠ 0) ++ ·) <$> seen (overwrite buf c) cs
    else none

/-- A line: the first word is the id; the others go to the start of the password, each over what
is there. -/
def entry (l : List Byte) : Pair :=
  (((l.splitOn space).headD []), (l.splitOn space).tail.foldl overwrite [])

def users (text : List Byte) : List Pair :=
  ((text.splitOn newline).map entry).takeWhile (fun p => p.1 ≠ [])

/-- The words of line k lie inside the tables. -/
def LineFits (k : ℕ) (l : List Byte) : Prop :=
  ∀ w ∈ l.splitOn space, w = [] ∨ k < 16 ∧ w.length ≤ 32

instance (k : ℕ) (l : List Byte) : Decidable (LineFits k l) :=
  inferInstanceAs (Decidable (∀ w ∈ _, _))

/-- The same for every line of a text that starts with line k. -/
def Storable (k : ℕ) (text : List Byte) : Prop :=
  ∀ l ∈ (text.splitOn newline).zipIdx k, LineFits l.2 l.1

instance (k : ℕ) (text : List Byte) : Decidable (Storable k text) :=
  inferInstanceAs (Decidable (∀ l ∈ _, _))

/-- What the parser sees fits into the tables, has the pair x if the lines ps have it, and leaves
a row without an id if they do not. -/
def Faithful (buf : List Byte) (chunks : List (List Byte)) (ps : List Pair) (x : Pair) : Prop :=
  ∃ text ∈ seen buf (chunks.take 30), Storable 0 text ∧ (x ∈ users text ↔ x ∈ ps) ∧
    (x ∈ ps ∨ (users text).length < 16)

/-- A table whose rows are l, filled up with zeros. -/
def cell (l : List (List Byte)) (i j : ℕ) : Byte := (l.getD i []).getD j 0

theorem cell_of_getElem? {l : List (List Byte)} {i : ℕ} {w : List Byte} (h : l[i]? = some w)
    (j : ℕ) : cell l i j = w.getD j 0 := by
  rw [cell, List.getD_eq_getElem?_getD (l := l), h, Option.getD_some]

theorem cell_of_length_le {l : List (List Byte)} {i : ℕ} (h : l.length ≤ i) (j : ℕ) :
    cell l i j = 0 := by
  rw [cell, List.getD_eq_default l [] h, List.getD_nil]

theorem cell_append_of_lt (l : List (List Byte)) (w : List Byte) {i : ℕ} (hi : i < l.length)
    (j : ℕ) : cell (l ++ [w]) i j = cell l i j := by
  rw [cell, List.getD_append _ _ _ _ hi, cell]

theorem cell_append_self (l : List (List Byte)) (w : List Byte) (j : ℕ) :
    cell (l ++ [w]) l.length j = w.getD j 0 :=
  cell_of_getElem? List.getElem?_concat_length j

theorem cell_append_ne (l : List (List Byte)) (w : List Byte) {i : ℕ} (hi : i ≠ l.length)
    (j : ℕ) : cell (l ++ [w]) i j = cell l i j := by
  rcases Nat.lt_or_gt_of_ne hi with h | h
  · exact cell_append_of_lt l w h j
  · rw [cell_of_length_le (by simp; omega), cell_of_length_le (Nat.le_of_lt h)]

theorem cell_append_nil (l : List (List Byte)) : cell (l ++ [[]]) = cell l := by
  funext i j
  rcases eq_or_ne i l.length with rfl | hi
  · rw [cell_append_self, cell_of_length_le (Nat.le_refl _), List.getD_nil]
  · exact cell_append_ne l [] hi j

theorem getD_overwrite (p v : List Byte) (j : ℕ) :
    (overwrite p v).getD j 0 = if j < v.length then v.getD j 0 else p.getD j 0 := by
  rw [overwrite]
  split_ifs with h
  · exact List.getD_append _ _ _ _ h
  · rw [List.getD_append_right _ _ _ _ (Nat.le_of_not_lt h), List.getD_eq_getElem?_getD,
      List.getElem?_drop, Nat.add_sub_cancel' (Nat.le_of_not_lt h), List.getD_eq_getElem?_getD]

theorem store_cell (l : List (List Byte)) (p v : List Byte) (c : Byte) :
    store (cell (l ++ [overwrite p v])) l.length v.length c = cell (l ++ [overwrite p (v ++ [c])]) := by
  funext i j
  unfold store
  rcases eq_or_ne i l.length with rfl | hi
  · rw [Function.update_self, cell_append_self, getD_overwrite, List.length_append, List.length_singleton]
    rcases Nat.lt_trichotomy j v.length with h | rfl | h
    · rw [Function.update_of_ne (Nat.ne_of_lt h), cell_append_self, getD_overwrite, if_pos h,
        if_pos (Nat.lt_succ_of_lt h), List.getD_append _ _ _ _ h]
    · rw [Function.update_self, if_pos (Nat.lt_succ_self _)]
      simp
    · rw [Function.update_of_ne (Nat.ne_of_gt h), cell_append_self, getD_overwrite,
        if_neg (Nat.not_lt_of_gt h), if_neg (by omega)]
  · rw [Function.update_of_ne hi, cell_append_ne l _ hi, cell_append_ne l _ hi]

theorem row_cell {l : List (List Byte)} {i : ℕ} {w : List Byte} (h : l[i]? = some w)
    (hw : w.length ≤ 32) : row (cell l) i = w ++ List.replicate (32-w.length) 0 := by
  apply List.ext_getElem
  · simp [row]
    omega
  intro j h1 h2
  simp only [row, List.getElem_map, List.getElem_range, cell_of_getElem? h,
    List.getD_eq_getElem?_getD, List.getElem_append, List.getElem_replicate]
  split_ifs with hj
  · rw [List.getElem?_eq_getElem hj, Option.getD_some]
  · rw [List.getElem?_eq_none (by omega), Option.getD_none]

theorem mem_overwrite {p w : List Byte} {c : Byte} (h : c ∈ overwrite p w) : c ∈ p ∨ c ∈ w := by
  rcases List.mem_append.mp h with h | h
  · exact Or.inr h
  · exact Or.inl (List.mem_of_mem_drop h)

theorem split_induction (sep : Byte) {P : List Byte → Prop} (whole : ∀ w, sep ∉ w → P w)
    (cut : ∀ w rest, sep ∉ w → P rest → P (w ++ sep :: rest)) (text : List Byte) : P text := by
  induction hn : text.length using Nat.strongRecOn generalizing text with
  | ind n ih =>
    by_cases h : sep ∈ text
    · obtain ⟨w, rest, rfl, hw⟩ := List.eq_append_cons_of_mem h
      refine cut w rest hw (ih rest.length ?_ rest rfl)
      simp only [← hn, List.length_append, List.length_cons]
      omega
    · exact whole text h

theorem mem_of_mem_splitOn {sep c : Byte} {text w : List Byte} (hw : w ∈ text.splitOn sep)
    (hc : c ∈ w) : c ∈ text := by
  induction text using split_induction sep with
  | whole v hv =>
    rw [List.splitOn_eq_singleton hv, List.mem_singleton] at hw
    exact hw ▸ hc
  | cut v rest hv ih =>
    rw [List.splitOn_append_cons_self_of_not_mem hv] at hw
    rcases List.mem_cons.mp hw with rfl | hw
    · exact List.mem_append_left _ hc
    · exact List.mem_append_right _ (List.mem_cons_of_mem _ (ih hw))

/-- The inner loop on bytes that all count. -/
def feed (cs : List Byte) (u : Users) : Except Stop Users := cs.foldlM Users.take u

theorem feed_append (cs ds : List Byte) (u : Users) : feed (cs ++ ds) u = feed cs u >>= feed ds :=
  List.foldlM_append

theorem feed_cons (c : Byte) (cs : List Byte) (u : Users) :
    feed (c :: cs) u = u.take c >>= feed cs := rfl

theorem feed_error {cs : List Byte} {u : Users} {e : Stop} (h : feed cs u = .error e) :
    e = .outOfBounds := by
  induction cs generalizing u with
  | nil => cases h
  | cons c cs ih =>
    rw [feed_cons] at h
    cases hu : u.take c with
    | error e' =>
      rw [hu] at h
      cases h
      unfold Users.take at hu
      split_ifs at hu
      cases hu
      rfl
    | ok v =>
      rw [hu] at h
      exact ih h

/-- The walk along a buffer stops at the first NUL, or runs off the buffer. -/
theorem walk_eq_feed (buf : List Byte) (u : Users) : walk buf u =
    if 0 ∈ buf then feed (buf.takeWhile (· ≠ 0)) u else .error .outOfBounds := by
  induction buf generalizing u with
  | nil => rfl
  | cons c buf ih =>
    rw [walk]
    by_cases hc : c = 0
    · simp [hc, feed]
      rfl
    · rw [if_neg hc, List.takeWhile_cons_of_pos (by simpa using hc), feed_cons]
      simp only [List.mem_cons, Ne.symm hc, false_or]
      cases hu : u.take c with
      | error e =>
        have he : feed [c] u = .error e := by rw [feed_cons, hu]; rfl
        rw [feed_error he]
        split_ifs <;> rfl
      | ok v => exact ih v

/-- However the file is split, the reads feed what is seen of them to the parser. -/
theorem readAll_eq_feed (chunks : List (List Byte)) (n : ℕ) (hne : [] ∉ chunks) (buf : List Byte)
    (u : Users) : readAll n (chunks.map some) buf u =
      (seen buf (chunks.take n)).elim (.error .outOfBounds) fun text => feed text u := by
  induction chunks generalizing n buf u with
  | nil => cases n <;> rfl
  | cons c cs ih =>
    cases n with
    | zero => rfl
    | succ n =>
      rw [List.mem_cons, not_or] at hne
      obtain ⟨b, bs, rfl⟩ := List.exists_cons_of_ne_nil (Ne.symm hne.1)
      rw [List.map_cons, readAll, walk_eq_feed, List.take_succ_cons, seen]
      split_ifs with hz
      · cases hu : feed ((overwrite buf (b :: bs)).takeWhile (· ≠ 0)) u with
        | error e =>
          rw [feed_error hu]
          cases seen (overwrite buf (b :: bs)) (cs.take n) with
          | none => rfl
          | some text =>
            show _ = feed (_ ++ text) u
            rw [feed_append, hu, feed_error hu]
            rfl
        | ok v =>
          show readAll n (cs.map some) (overwrite buf (b :: bs)) v = _
          rw [ih n hne.2]
          cases seen (overwrite buf (b :: bs)) (cs.take n) with
          | none => rfl
          | some text =>
            show _ = feed (_ ++ text) u
            rw [feed_append, hu]
            rfl
      · rfl

/-- The state inside a word: v of it is in the row behind the rows l, over what p left there. -/
def inWord (flag : Bool) (other : ℕ → ℕ → Byte) (l : List (List Byte)) (p v : List Byte) : Users :=
  if flag then ⟨cell (l ++ [overwrite p v]), other, true, l.length, v.length⟩
  else ⟨other, cell (l ++ [overwrite p v]), false, l.length, v.length⟩

theorem take_inWord (flag : Bool) (other : ℕ → ℕ → Byte) (l : List (List Byte)) (p v : List Byte)
    (c : Byte) (hs : c ≠ space) (hn : c ≠ newline) :
    (inWord flag other l p v).take c =
      if l.length < 16 ∧ v.length < 32 then .ok (inWord flag other l p (v ++ [c]))
      else .error .outOfBounds := by
  cases flag <;> by_cases h : l.length < 16 ∧ v.length < 32 <;>
    simp [inWord, Users.take, hs, hn, h, store_cell]

/-- The characters of a word go to the row of the line, as long as there is room. -/
theorem feed_word (flag : Bool) (other : ℕ → ℕ → Byte) (l : List (List Byte)) (p w v : List Byte)
    (hs : space ∉ w) (hn : newline ∉ w) :
    feed w (inWord flag other l p v) =
      if w = [] ∨ l.length < 16 ∧ v.length+w.length ≤ 32 then .ok (inWord flag other l p (v ++ w))
      else .error .outOfBounds := by
  induction w generalizing v with
  | nil =>
    rw [if_pos (Or.inl rfl), List.append_nil]
    rfl
  | cons c w ih =>
    simp only [List.mem_cons, not_or] at hs hn
    rw [feed_cons, take_inWord flag other l p v c (Ne.symm hs.1) (Ne.symm hn.1)]
    by_cases hroom : l.length < 16 ∧ v.length < 32
    · rw [if_pos hroom]
      show feed w (inWord flag other l p (v ++ [c])) = _
      rw [ih (v ++ [c]) hs.2 hn.2, List.append_assoc, List.singleton_append]
      refine if_congr ?_ rfl rfl
      simp only [List.length_append, List.length_cons, List.length_nil, ← List.length_eq_zero_iff]
      omega
    · rw [if_neg hroom, if_neg]
      · rfl
      · simp only [List.length_cons, reduceCtorEq, false_or]
        omega

theorem take_space (u : Users) : u.take space = .ok { u with flag := false, b := 0 } := rfl

theorem take_newline (u : Users) : u.take newline = .ok { u with flag := true, a := u.a+1, b := 0 } := rfl

theorem feed_words (other : ℕ → ℕ → Byte) (l : List (List Byte)) (text : List Byte)
    (hn : newline ∉ text) (p : List Byte) :
    LineFits l.length text ∧ (∃ q v, feed text (inWord false other l p []) = .ok (inWord false other l q v) ∧
        overwrite q v = (text.splitOn space).foldl overwrite p) ∨
      ¬LineFits l.length text ∧ feed text (inWord false other l p []) = .error .outOfBounds := by
  induction text using split_induction space generalizing p with
  | whole w hw =>
    rw [feed_word false other l p w [] hw hn, LineFits, List.splitOn_eq_singleton hw]
    simp only [List.forall_mem_singleton, List.foldl_cons, List.foldl_nil, List.length_nil, Nat.zero_add,
      List.nil_append]
    split_ifs with h
    · exact Or.inl ⟨h, p, w, rfl, rfl⟩
    · exact Or.inr ⟨h, rfl⟩
  | cut w rest hw ih =>
    rw [List.mem_append, List.mem_cons, not_or, not_or] at hn
    rw [feed_append, feed_word false other l p w [] hw hn.1, LineFits,
      List.splitOn_append_cons_self_of_not_mem hw]
    simp only [List.forall_mem_cons, List.foldl_cons, List.length_nil, Nat.zero_add, List.nil_append]
    split_ifs with h
    · have hi := ih hn.2.2 (overwrite p w)
      rcases hi with ⟨hfit, hrest⟩ | ⟨hfit, hrest⟩
      · exact Or.inl ⟨⟨h, hfit⟩, hrest⟩
      · exact Or.inr ⟨fun hall => hfit hall.2, hrest⟩
    · exact Or.inr ⟨fun hall => h hall.1, rfl⟩

/-- The tables have the rows es, the last of them for the line that is being read. -/
structure Reads (u : Users) (es : List Pair) : Prop where
  id : u.userID = cell (es.map Prod.fst)
  pwd : u.pwdID = cell (es.map Prod.snd)
  row : u.a+1 = es.length

/-- The state between two lines. -/
def Users.after (es : List Pair) : Users :=
  ⟨cell (es.map Prod.fst), cell (es.map Prod.snd), true, es.length, 0⟩

theorem feed_line (es : List Pair) (l : List Byte) (hn : newline ∉ l) :
    LineFits es.length l ∧ (∃ u, feed l (Users.after es) = .ok u ∧ Reads u (es ++ [entry l])) ∨
      ¬LineFits es.length l ∧ feed l (Users.after es) = .error .outOfBounds := by
  have hstart : Users.after es = inWord true (cell (es.map Prod.snd)) (es.map Prod.fst) [] [] := by
    simp [inWord, Users.after, overwrite, cell_append_nil]
  have hid (w : List Byte) (hs : space ∉ w) (hw : newline ∉ w) :=
    feed_word true (cell (es.map Prod.snd)) (es.map Prod.fst) [] w [] hs hw
  simp only [List.length_nil, Nat.zero_add, List.nil_append, List.length_map] at hid
  rw [hstart]
  by_cases hs : space ∈ l
  · obtain ⟨w, rest, rfl, hw⟩ := List.eq_append_cons_of_mem hs
    rw [List.mem_append, List.mem_cons, not_or, not_or] at hn
    rw [feed_append, hid w hw hn.1, LineFits, entry, List.splitOn_append_cons_self_of_not_mem hw]
    simp only [List.forall_mem_cons]
    split_ifs with h
    · -- a space: the password starts, in a row without one
      have hnext : feed (space :: rest) (inWord true (cell (es.map Prod.snd)) (es.map Prod.fst) [] w) =
          feed rest (inWord false (cell (es.map Prod.fst ++ [w])) (es.map Prod.snd) [] []) := by
        rw [feed_cons, take_space]
        simp [inWord, overwrite, cell_append_nil, bind, Except.bind]
      have hwords := feed_words (cell (es.map Prod.fst ++ [w])) (es.map Prod.snd) rest hn.2.2 []
      rw [List.length_map] at hwords
      rcases hwords with ⟨hfit, q, v, hrest, hq⟩ | ⟨hfit, hrest⟩
      · refine Or.inl ⟨⟨h, hfit⟩, _, hnext.trans hrest, ?_⟩
        constructor
        · simp [inWord]
        · simp [inWord, hq]
        · simp [inWord]
      · exact Or.inr ⟨fun hall => hfit hall.2, hnext.trans hrest⟩
    · exact Or.inr ⟨fun hall => h hall.1, rfl⟩
  · rw [hid l hs hn, LineFits, entry, List.splitOn_eq_singleton hs]
    simp only [List.forall_mem_singleton]
    split_ifs with h
    · refine Or.inl ⟨h, _, rfl, ?_⟩
      constructor
      · simp [inWord, overwrite]
      · simp [inWord, cell_append_nil]
      · simp [inWord]
    · exact Or.inr ⟨h, rfl⟩

theorem Reads.newline {u : Users} {es : List Pair} (h : Reads u es) : u.take newline = .ok (Users.after es) := by
  rw [take_newline, h.id, h.pwd, h.row]
  rfl

theorem feed_text (text : List Byte) (es : List Pair) :
    Storable es.length text ∧ (∃ u, feed text (Users.after es) = .ok u ∧
        Reads u (es ++ (text.splitOn newline).map entry)) ∨
      ¬Storable es.length text ∧ feed text (Users.after es) = .error .outOfBounds := by
  induction text using split_induction newline generalizing es with
  | whole l hl =>
    rw [Storable, List.splitOn_eq_singleton hl]
    simpa using feed_line es l hl
  | cut l rest hl ih =>
    rw [Storable, List.splitOn_append_cons_self_of_not_mem hl, List.zipIdx_cons, List.forall_mem_cons,
      feed_append, List.map_cons]
    rcases feed_line es l hl with ⟨hfit, u, hu, hreads⟩ | ⟨hfit, hu⟩
    · rw [hu]
      have hnext : feed (newline :: rest) u = feed rest (Users.after (es ++ [entry l])) := by
        rw [feed_cons, hreads.newline]
        rfl
      have hi := ih (es ++ [entry l])
      rw [List.length_append, List.length_singleton, List.append_assoc, List.singleton_append] at hi
      rcases hi with ⟨hrest, v, hv, hrows⟩ | ⟨hrest, herr⟩
      · exact Or.inl ⟨⟨hfit, hrest⟩, v, hnext.trans hv, hrows⟩
      · exact Or.inr ⟨fun hall => hrest hall.2, hnext.trans herr⟩
    · rw [hu]
      exact Or.inr ⟨fun hall => hfit hall.1, rfl⟩

end ProvenXv6.Login
