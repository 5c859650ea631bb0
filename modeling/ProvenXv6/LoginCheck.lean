import Mathlib.Data.List.TakeWhile
import ProvenXv6.LoginParse

namespace ProvenXv6.Login

theorem getLine_line (w rest : List Byte) (n : ℕ) (hn : w.length < n) (h1 : newline ∉ w)
    (h2 : carriageReturn ∉ w) : getLine n (w ++ newline :: rest) = (w ++ [newline], rest) := by
  induction w generalizing n with
  | nil =>
    obtain ⟨n, rfl⟩ : ∃ m, n = m+1 := ⟨n-1, by simp at hn; omega⟩
    rfl
  | cons c w ih =>
    obtain ⟨n, rfl⟩ : ∃ m, n = m+1 := ⟨n-1, by simp at hn; omega⟩
    simp only [List.mem_cons, not_or] at h1 h2
    have hc : ¬(c = newline ∨ c = carriageReturn) :=
      not_or.mpr ⟨Ne.symm h1.1, Ne.symm h2.1⟩
    rw [List.cons_append, getLine, if_neg hc, ih n (by simpa using hn) h1.2 h2.2]
    rfl

theorem stripped_line (w rest : List Byte) (h1 : newline ∉ w) (h2 : 0 ∉ w) :
    stripped (w ++ newline :: rest) = .ok w := by
  induction w with
  | nil => rfl
  | cons c w ih =>
    simp only [List.mem_cons, not_or] at h1 h2
    rw [List.cons_append, stripped, if_pos ⟨Ne.symm h1.1, Ne.symm h2.1⟩, ih h1.2 h2.2]
    rfl

theorem func_gets {w : List Byte} (hw : Typed w) (buf dst rest : List Byte)
    (hd : dst.length = 32) : (gets buf 32 (w ++ newline :: rest)).2 = rest ∧
      ∃ r, func (gets buf 32 (w ++ newline :: rest)).1 dst = .ok (w ++ 0 :: r) := by
  have hg := getLine_line w rest 31 (by have := hw.1; omega) hw.2.1 hw.2.2.1
  have hs : stripped (gets buf 32 (w ++ newline :: rest)).1 = .ok w := by
    rw [gets, show 32-1 = 31 from rfl, hg, putString, overwrite]
    simp only [List.append_assoc, List.singleton_append]
    exact stripped_line w _ hw.2.1 hw.2.2.2
  refine ⟨by rw [gets, show 32-1 = 31 from rfl, hg], (dst.drop (w.length+1)), ?_⟩
  have hl : w.length < dst.length := by have := hw.1; omega
  rw [func, hs]
  change (if w.length < dst.length then _ else _) = _
  rw [if_pos hl, putString, overwrite]
  simp

theorem strcmp_row (p q r : List Byte) (n : ℕ) (hp : 0 ∉ p) (hq : 0 ∉ q) (hn : q.length < p.length+n) :
    ∃ z, strcmp (p ++ List.replicate n 0) (q ++ 0 :: r) = .ok z ∧ (z = 0 ↔ p = q) := by
  induction p generalizing q with
  | nil =>
    obtain ⟨n, rfl⟩ : ∃ m, n = m+1 := ⟨n-1, by simp at hn; omega⟩
    rw [List.replicate_succ]
    cases q with
    | nil => exact ⟨0, rfl, by simp⟩
    | cons d q =>
      rw [List.mem_cons, not_or] at hq
      refine ⟨_, by rw [List.nil_append, List.cons_append, strcmp, if_neg (by simp)], ?_⟩
      have hd : d.toNat ≠ 0 := fun h => hq.1 (BitVec.eq_of_toNat_eq (by simpa using h.symm))
      simp [hd]
  | cons c p ih =>
    rw [List.mem_cons, not_or] at hp
    cases q with
    | nil =>
      have hc : c.toNat ≠ 0 := fun h => hp.1 (BitVec.eq_of_toNat_eq (by simpa using h.symm))
      refine ⟨_, by rw [List.nil_append, List.cons_append, strcmp,
        if_neg (fun h => hp.1 h.2.symm)], ?_⟩
      simp [hc]
    | cons d q =>
      rw [List.mem_cons, not_or] at hq
      rw [List.cons_append, List.cons_append, strcmp]
      rcases eq_or_ne c d with rfl | hcd
      · rw [if_pos ⟨Ne.symm hp.1, rfl⟩]
        obtain ⟨z, hz, hiff⟩ := ih q hp.2 hq.2 (by simp at hn; omega)
        exact ⟨z, hz, by rw [hiff]; simp⟩
      · rw [if_neg (fun h => hcd h.2)]
        refine ⟨_, rfl, ?_⟩
        have hne : c.toNat ≠ d.toNat := fun h => hcd (BitVec.eq_of_toNat_eq h)
        constructor
        · omega
        · intro h
          exact absurd (List.cons.inj h).1 hcd

/-- A row of the tables: no NUL inside, at most 32 bytes. -/
def Stored (w : List Byte) : Prop := 0 ∉ w ∧ w.length ≤ 32

theorem stored_foldl {ws : List (List Byte)} {p : List Byte} (hp : Stored p) (hws : ∀ w ∈ ws, Stored w) :
    Stored (ws.foldl overwrite p) := by
  induction ws generalizing p with
  | nil => exact hp
  | cons w ws ih =>
    rw [List.forall_mem_cons] at hws
    refine ih ⟨fun h => (mem_overwrite h).elim hp.1 hws.1.1, ?_⟩ hws.2
    have h1 := hp.2
    have h2 := hws.1.2
    simp only [overwrite, List.length_append, List.length_drop]
    omega

theorem LineFits.stored_words {k : ℕ} {l : List Byte} (h : LineFits k l) (hz : 0 ∉ l) :
    ∀ w ∈ l.splitOn space, Stored w := by
  intro w hw
  refine ⟨fun h0 => hz (mem_of_mem_splitOn hw h0), ?_⟩
  rcases h w hw with rfl | ⟨-, hlen⟩
  · exact Nat.zero_le _
  · exact hlen

theorem LineFits.stored {k : ℕ} {l : List Byte} (h : LineFits k l) (hz : 0 ∉ l) :
    Stored (entry l).1 ∧ Stored (entry l).2 := by
  have hall := h.stored_words hz
  have hnil : Stored [] := ⟨List.not_mem_nil, Nat.zero_le _⟩
  rw [entry]
  cases hs : l.splitOn space with
  | nil => exact ⟨hnil, hnil⟩
  | cons w ws =>
    rw [hs, List.forall_mem_cons] at hall
    exact ⟨hall.1, stored_foldl hnil hall.2⟩

theorem LineFits.lt_of_id {k : ℕ} {l : List Byte} (h : LineFits k l) (hid : (entry l).1 ≠ []) : k < 16 := by
  rw [entry] at hid
  cases hs : l.splitOn space with
  | nil => simp [hs] at hid
  | cons w ws =>
    rw [LineFits, hs] at h
    rw [hs] at hid
    exact ((h w List.mem_cons_self).resolve_left hid).1

/-- The pairs up to one without an id. -/
def named (ps : List Pair) : List Pair := ps.takeWhile (fun p => p.1 ≠ [])

/-- What the search answers for the pairs from its row on. -/
def verdict (ps : List Pair) (n : ℕ) (x : Pair) : Except Stop ℕ :=
  if x ∈ ps then .ok 1 else if ps.length < n then .ok 0 else .error .outOfBounds

theorem search_cell {u : Users} {all : List Pair} (hu : u.userID = cell (all.map Prod.fst))
    (hpw : u.pwdID = cell (all.map Prod.snd)) (hall : ∀ p ∈ all, Stored p.1 ∧ Stored p.2)
    (x : Pair) (hx : 0 ∉ x.1 ∧ 0 ∉ x.2) (hlen : x.1.length ≤ 30 ∧ x.2.length ≤ 30) (r r' : List Byte)
    (n : ℕ) (done ps : List Pair) (h : all = done ++ ps) (hn : (named ps).length ≤ n) :
    search u (x.1 ++ 0 :: r) (x.2 ++ 0 :: r') n done.length = verdict (named ps) n x := by
  -- along the rows; an empty id ends the search in front of row 16, or else row 16 is read
  induction n generalizing done ps with
  | zero =>
    rw [List.length_eq_zero_iff.mp (Nat.le_zero.mp hn)]
    rfl
  | succ n ih =>
    rw [search]
    cases ps with
    | nil =>
      rw [List.append_nil] at h
      subst h
      rw [if_pos (by simp [hu, cell])]
      rfl
    | cons p ps =>
      have hf := hall p (by simp [h])
      have hid : (all.map Prod.fst)[done.length]? = some p.1 := by simp [h]
      have hpd : (all.map Prod.snd)[done.length]? = some p.2 := by simp [h]
      by_cases hp : p.1 = []
      · rw [if_pos (by rw [hu, cell_of_getElem? hid, hp]; rfl), named, List.takeWhile_cons_of_neg (by simpa)]
        rfl
      have hnamed : named (p :: ps) = p :: named ps := List.takeWhile_cons_of_pos (by simpa)
      rw [hnamed] at hn ⊢
      have hnz : u.userID done.length 0 ≠ 0 := by
        obtain ⟨c, w, hc⟩ := List.exists_cons_of_ne_nil hp
        have hcz := hf.1.1
        rw [hc, List.mem_cons, not_or] at hcz
        rw [hu, cell_of_getElem? hid, hc]
        exact Ne.symm hcz.1
      obtain ⟨y, hy, hyiff⟩ := strcmp_row p.1 x.1 r (32-p.1.length) hf.1.1 hx.1
        (by have := hf.1.2; omega)
      obtain ⟨y', hy', hyiff'⟩ := strcmp_row p.2 x.2 r' (32-p.2.length) hf.2.1 hx.2
        (by have := hf.2.2; omega)
      have hnext := ih (done ++ [p]) ps (by simp [h]) (by simpa using hn)
      rw [List.length_append, List.length_singleton] at hnext
      rw [if_neg hnz, hu, hpw, row_cell hid hf.1.2, row_cell hpd hf.2.2, hy, hy']
      have hmiss (hp : p ≠ x) : verdict (named ps) n x = verdict (p :: named ps) (n+1) x := by
        simp [verdict, Ne.symm hp]
      simp only [bind, Except.bind, hnext, ne_eq, hyiff, hyiff', ite_not]
      split_ifs with h1 h2
      · rw [verdict, if_pos (by rw [Prod.ext h1 h2]; exact List.mem_cons_self)]
      · exact hmiss (fun hp => h2 (by rw [hp]))
      · exact hmiss (fun hp => h1 (by rw [hp]))

theorem mem_of_seen {buf text : List Byte} {chunks : List (List Byte)} (h : text ∈ seen buf chunks) :
    0 ∉ text := by
  induction chunks generalizing buf text with
  | nil =>
    obtain rfl := Option.some.inj h
    exact List.not_mem_nil
  | cons c cs ih =>
    rw [seen] at h
    split_ifs at h
    · obtain ⟨rest, hrest, rfl⟩ := Option.map_eq_some_iff.mp h
      rw [List.mem_append, not_or]
      refine ⟨fun h0 => ?_, ih hrest⟩
      have := List.mem_takeWhile_imp h0
      simp at this
    · cases h

theorem Storable.users_length {text : List Byte} (h : Storable 0 text) : (users text).length ≤ 16 := by
  by_contra hlong
  have h16 : 16 < (users text).length := by omega
  have hpre : users text <+: (text.splitOn newline).map entry := List.takeWhile_prefix _
  have hline : 16 < (text.splitOn newline).length := by
    have := hpre.length_le
    rw [List.length_map] at this
    omega
  have hid : ((users text)[16]).1 ≠ [] := by
    have hall := List.mem_takeWhile_imp (List.getElem_mem h16)
    simpa using hall
  rw [hpre.getElem h16, List.getElem_map] at hid
  have hmem : ((text.splitOn newline)[16], 16) ∈ (text.splitOn newline).zipIdx := by
    rw [List.mk_mem_zipIdx_iff_getElem?]
    exact List.getElem?_eq_getElem hline
  exact absurd ((h _ hmem).lt_of_id hid) (Nat.lt_irrefl 16)

theorem Storable.stored {text : List Byte} (h : Storable 0 text) (hz : 0 ∉ text) :
    ∀ p ∈ (text.splitOn newline).map entry, Stored p.1 ∧ Stored p.2 := by
  intro p hp
  obtain ⟨l, hl, rfl⟩ := List.mem_map.mp hp
  obtain ⟨i, hi⟩ := List.getElem?_of_mem hl
  exact (h (l, i) (List.mk_mem_zipIdx_iff_getElem?.mpr hi)).stored fun h0 => hz (mem_of_mem_splitOn hl h0)

theorem login_seen (chunks : List (List Byte)) (hne : [] ∉ chunks) (buf : List Byte) (l : Locals)
    (hID : l.ID.length = 32) (hpwd : l.pwd.length = 32) (name pwd rest : List Byte)
    (hname : Typed name) (hword : Typed pwd) :
    Checked.value <$> login (some (chunks.map some)) buf l (name ++ newline :: (pwd ++ newline :: rest)) =
      (seen buf (chunks.take 30)).elim (.error .outOfBounds) fun text =>
        if Storable 0 text then verdict (users text) 16 (name, pwd) else .error .outOfBounds := by
  rw [login, get_user_list, readAll_eq_feed chunks 30 hne]
  cases hseen : seen buf (chunks.take 30) with
  | none => rfl
  | some text =>
    show Checked.value <$> (feed text Users.start >>= fun u => check_idpw u l _) =
      if Storable 0 text then verdict (users text) 16 (name, pwd) else .error .outOfBounds
    have htext := feed_text text []
    rw [List.length_nil, List.nil_append] at htext
    rcases htext with ⟨hfit, u, hu, hreads⟩ | ⟨hfit, hu⟩
    · obtain ⟨hrest, r, hID⟩ := func_gets hname l.buf l.ID (pwd ++ newline :: rest) hID
      obtain ⟨-, r', hpwd⟩ := func_gets hword (gets l.buf 32
        (name ++ newline :: (pwd ++ newline :: rest))).1 l.pwd rest hpwd
      have hs := search_cell hreads.id hreads.pwd (hfit.stored (mem_of_seen hseen)) (name, pwd)
        ⟨hname.2.2.2, hword.2.2.2⟩ ⟨hname.1, hword.1⟩ r r' 16 [] _ rfl hfit.users_length
      rw [List.length_nil] at hs
      rw [show Users.start = Users.after [] from rfl, hu, if_pos hfit]
      show Checked.value <$> check_idpw u l _ = verdict (named _) 16 (name, pwd)
      rw [check_idpw]
      simp only [hID, hrest, hpwd, bind, Except.bind, hs, verdict]
      split_ifs <;> rfl
    · rw [show Users.start = Users.after [] from rfl, hu, if_neg hfit]
      rfl

theorem seen_terminated {buf : List Byte} {chunks : List (List Byte)} (hz : 0 ∉ chunks.flatten)
    (ht : Terminated buf chunks) : seen buf chunks = some chunks.flatten := by
  induction chunks generalizing buf with
  | nil => rfl
  | cons c cs ih =>
    rw [List.flatten_cons, List.mem_append, not_or] at hz
    have hmem : 0 ∈ overwrite buf c := List.mem_of_getElem? ht.1
    have hstop : (overwrite buf c).takeWhile (· ≠ 0) = c := by
      have hd : (buf.drop c.length)[0]? = some 0 := by
        have h := ht.1
        rw [overwrite, List.getElem?_append_right (Nat.le_refl _), Nat.sub_self] at h
        exact h
      cases hb : buf.drop c.length with
      | nil => simp [hb] at hd
      | cons b rest =>
        rw [hb, List.getElem?_cons_zero, Option.some.injEq] at hd
        rw [overwrite, hb, hd, List.takeWhile_append_of_pos, List.takeWhile_cons_of_neg (by simp), List.append_nil]
        intro x hx
        have hne : x ≠ 0 := fun h0 => hz.1 (h0 ▸ hx)
        simpa using hne
    rw [seen, if_pos hmem, ih hz.2 ht.2, hstop]
    rfl

def body (p : Pair) : List Byte := p.1 ++ space :: p.2

theorem newline_not_mem_body {p : Pair} (h : Field p.1 ∧ Field p.2) : newline ∉ body p := by
  simp only [body, List.mem_append, List.mem_cons, not_or]
  exact ⟨h.1.2.2.2, by decide, h.2.2.2.2⟩

theorem splitOn_body {p : Pair} (h : Field p.1 ∧ Field p.2) : (body p).splitOn space = [p.1, p.2] := by
  rw [body, List.splitOn_append_cons_self_of_not_mem h.1.2.2.1, List.splitOn_eq_singleton h.2.2.2.1]

theorem entry_body {p : Pair} (h : Field p.1 ∧ Field p.2) : entry (body p) = p := by
  simp [entry, splitOn_body h, overwrite]

theorem splitOn_listing {ps : List Pair} (h : ∀ p ∈ ps, Field p.1 ∧ Field p.2) :
    (listing ps).splitOn newline = ps.map body ++ [[]] := by
  induction ps with
  | nil => rfl
  | cons p ps ih =>
    rw [List.forall_mem_cons] at h
    have hl : listing (p :: ps) = body p ++ newline :: listing ps := by simp [listing, line, body]
    rw [hl, List.splitOn_append_cons_self_of_not_mem (newline_not_mem_body h.1), ih h.2]
    rfl

theorem splitOn_file {file : List Byte} {ps : List Pair} (hf : Lists file ps)
    (h : ∀ p ∈ ps, Field p.1 ∧ Field p.2) :
    file.splitOn newline = ps.map body ++ [[]] ∨ file.splitOn newline = ps.map body := by
  have hall := splitOn_listing h
  rcases hf with rfl | hf
  · exact Or.inl hall
  · rw [← hf, List.splitOn_append_cons_self, List.splitOn_nil] at hall
    exact Or.inr (List.append_cancel_right hall)

theorem users_file {file : List Byte} {ps : List Pair} (hf : Lists file ps)
    (h : ∀ p ∈ ps, Field p.1 ∧ Field p.2) : users file = ps := by
  have hmap : (ps.map body).map entry = ps := by
    rw [List.map_map]
    exact (List.map_congr_left fun p hp => entry_body (h p hp)).trans (List.map_id ps)
  have hid : ∀ p ∈ ps, decide (p.1 ≠ []) = true := by
    intro p hp
    have := (h p hp).1.1
    exact decide_eq_true (List.ne_nil_of_length_pos this)
  unfold users
  rcases splitOn_file hf h with hs | hs
  · rw [hs, List.map_append, hmap, List.takeWhile_append_of_pos hid]
    simp [entry]
  · rw [hs, hmap, List.takeWhile_eq_self_iff.mpr hid]

theorem storable_file {file : List Byte} {ps : List Pair} (hf : Lists file ps)
    (h : ∀ p ∈ ps, Field p.1 ∧ Field p.2) (hps : ps.length ≤ 16) : Storable 0 file := by
  rintro ⟨l, k⟩ hl
  rw [List.mk_mem_zipIdx_iff_getElem?] at hl
  have hcase : l = [] ∨ (ps.map body)[k]? = some l := by
    rcases splitOn_file hf h with hs | hs
    · rw [hs, List.getElem?_append] at hl
      split_ifs at hl with hk
      · exact Or.inr hl
      · exact Or.inl (List.mem_singleton.mp (List.mem_of_getElem? hl))
    · exact Or.inr (hs ▸ hl)
  rcases hcase with rfl | hb
  · intro w hw
    exact Or.inl (by simpa using hw)
  · obtain ⟨p, hp, rfl⟩ := (List.getElem?_map ..).symm.trans hb |> Option.map_eq_some_iff.mp
    have hfield := h p (List.mem_of_getElem? hp)
    have hk := (List.getElem?_eq_some_iff.mp hp).1
    intro w hw
    rw [splitOn_body hfield] at hw
    have h1 := hfield.1.2.1
    have h2 := hfield.2.2.1
    simp only [List.mem_cons, List.not_mem_nil, or_false] at hw
    rcases hw with rfl | rfl
    · exact Or.inr ⟨by show k < 16; omega, by omega⟩
    · exact Or.inr ⟨by show k < 16; omega, by omega⟩

/-- A login is right about the pair if and only if what the parser sees is faithful to the file.
It is when each read leaves a NUL behind the bytes it read, 30 reads are enough, and the search does not
run off the tables. -/
theorem login_iff_listed (ps : List Pair) (hps : ps.length ≤ 16)
    (hf : ∀ p ∈ ps, Field p.1 ∧ Field p.2) (file : List Byte) (hfile : Lists file ps)
    (chunks : List (List Byte)) (hchunks : chunks.flatten = file) (hne : [] ∉ chunks)
    (buf : List Byte) (l : Locals) (hID : l.ID.length = 32) (hpwd : l.pwd.length = 32)
    (name pwd rest : List Byte) (hname : Typed name) (hword : Typed pwd) :
    (Checked.value <$> login (some (chunks.map some)) buf l (name ++ newline :: (pwd ++ newline :: rest)) =
        .ok (if (name, pwd) ∈ ps then 1 else 0) ↔ Faithful buf chunks ps (name, pwd)) ∧
    (0 ∉ file → Terminated buf chunks → chunks.length ≤ 30 → (name, pwd) ∈ ps ∨ ps.length < 16 →
      Faithful buf chunks ps (name, pwd)) := by
  constructor
  · rw [login_seen chunks hne buf l hID hpwd name pwd rest hname hword, Faithful]
    cases seen buf (chunks.take 30) with
    | none => simp
    | some text =>
      simp only [Option.elim_some, Option.mem_def, Option.some.injEq, exists_eq_left']
      by_cases hfit : Storable 0 text
      · rw [if_pos hfit, verdict]
        split_ifs with h1 h2 h3 h4 <;> simp [*]
      · simp [hfit]
  · intro hz ht hreads hroom
    subst hchunks
    rw [Faithful, List.take_of_length_le hreads, seen_terminated hz ht]
    refine ⟨_, rfl, storable_file hfile hf hps, ?_⟩
    rw [users_file hfile hf]
    exact ⟨Iff.rfl, hroom⟩

/-- The file has the user a with password b, and buf a newline behind the bytes read. The user is
let in, and x with the same password is not. -/
theorem login_iff_listed_newline :
    Checked.value <$> login (some [some [97, 32, 98]]) ([0, 0, 0, 10] ++ List.replicate 1020 0)
        ⟨[], List.replicate 32 7, List.replicate 32 7⟩ [97, 10, 98, 10] = .ok 1 ∧
    Checked.value <$> login (some [some [97, 32, 98]]) ([0, 0, 0, 10] ++ List.replicate 1020 0)
        ⟨[], List.replicate 32 7, List.replicate 32 7⟩ [120, 10, 98, 10] = .ok 0 := by
  have hlogin (x : Byte) (hx : Typed [x]) := (login_iff_listed [([97], [98])] (by decide) (by decide)
    [97, 32, 98] (Or.inr rfl) [[97, 32, 98]] rfl (by decide) ([0, 0, 0, 10] ++ List.replicate 1020 0)
    ⟨[], List.replicate 32 7, List.replicate 32 7⟩ rfl rfl [x] [98] [] hx (by decide)).1.mpr
  exact ⟨hlogin 97 (by decide) ⟨[97, 32, 98, 10], rfl, by decide, by decide, by decide⟩,
    hlogin 120 (by decide) ⟨[97, 32, 98, 10], rfl, by decide, by decide, by decide⟩⟩

/-- Bytes left in buf behind the file are a line of their own: the file has only the user a with
password b, but x with password y is let in. -/
theorem login_accepts_stale_line :
    Lists [97, 32, 98, 10] [([97], [98])] ∧ (([120], [121]) : Pair) ∉ [(([97], [98]) : Pair)] ∧
    Checked.value <$> login (some [some [97, 32, 98, 10]])
        ([0, 0, 0, 0, 120, 32, 121, 10] ++ List.replicate 1016 0)
        ⟨[], List.replicate 32 0, List.replicate 32 0⟩ [120, 10, 121, 10] = .ok 1 := by
  refine ⟨Or.inl rfl, by decide, ?_⟩
  rfl

end ProvenXv6.Login
