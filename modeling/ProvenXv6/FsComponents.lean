import ProvenXv6.FsDirents
import ProvenXv6.FsWrite
import ProvenXv6.Runs

namespace ProvenXv6.Fs
open Runs Relation WeakestPre

/-- The names of a path: the runs of bytes other than '/', cut to DIRSIZ. -/
def components (path : List Byte) : List (List Byte) := (runs slash path).map (List.take DIRSIZ)

/-- The string that the bytes start with. -/
def str (bytes : List Byte) : List Byte := bytes.takeWhile (· ≠ 0)

/-- `skipelem` on the bytes at path, which a NUL ends, and those of the buffer name:
the new contents of the buffer and the bytes that the result points to. -/
def skipelemBytes (path name : List Byte) : Option (List Byte × List Byte) :=
  let path := path.dropWhile (· = slash)
  if path.headD 0 = 0 then none
  else
    let s := path.takeWhile fun c => c ≠ slash ∧ c ≠ 0
    let len := s.length
    let name := if len ≥ DIRSIZ then s.take DIRSIZ ++ name.drop DIRSIZ
      else s ++ 0 :: name.drop (len+1)
    some (name, (path.drop len).dropWhile (· = slash))

/-- The names that the buffer holds one after another while `skipelem` is iterated, if it
ends within fuel calls. -/
def elements : ℕ → List Byte → List Byte → Option (List (List Byte))
  | 0, _, _ => none
  | fuel+1, path, name =>
    match skipelemBytes path name with
    | none => some []
    | some (name, path) => (elements fuel path name).map (cut name :: ·)

variable {sb : Superblock} {dev : Devsw} {path name name' rest bytes buf s : List Byte}

theorem slash_ne_zero : slash ≠ 0 := by decide

theorem str_cons_of_ne {c : Byte} (hc : c ≠ 0) (p : List Byte) : str (c :: p) = c :: str p :=
  List.takeWhile_cons_of_pos (by simpa using hc)

theorem str_dropWhile (p : List Byte) : str (p.dropWhile (· = slash)) = (str p).dropWhile (· = slash) := by
  induction p with
  | nil => rfl
  | cons c p ih =>
    by_cases hc : c = slash
    · subst hc
      rw [str_cons_of_ne slash_ne_zero, List.dropWhile_cons_of_pos (by simp),
        List.dropWhile_cons_of_pos (by simp), ih]
    · rw [List.dropWhile_cons_of_neg (by simpa using hc)]
      by_cases hzero : c = 0
      · subst hzero
        rfl
      · rw [str_cons_of_ne hzero, List.dropWhile_cons_of_neg (by simpa using hc)]

theorem str_eq_nil : str bytes = [] ↔ bytes.headD 0 = 0 := by
  cases bytes with
  | nil => exact iff_of_true rfl rfl
  | cons c p =>
    by_cases hc : c = 0
    · subst hc
      exact iff_of_true rfl rfl
    · rw [str_cons_of_ne hc]
      exact iff_of_false (List.cons_ne_nil _ _) hc

theorem str_element (p : List Byte) : (str p).takeWhile (· ≠ slash) = p.takeWhile (fun c => c ≠ slash ∧ c ≠ 0) ∧
    (str p).dropWhile (· ≠ slash) = str (p.drop (p.takeWhile fun c => c ≠ slash ∧ c ≠ 0).length) := by
  induction p with
  | nil => exact ⟨rfl, rfl⟩
  | cons c p ih =>
    by_cases hzero : c = 0
    · subst hzero
      exact ⟨rfl, rfl⟩
    · rw [str_cons_of_ne hzero]
      by_cases hc : c = slash
      · subst hc
        rw [List.takeWhile_cons_of_neg (by simp), List.takeWhile_cons_of_neg (by simp),
          List.dropWhile_cons_of_neg (by simp)]
        exact ⟨rfl, (str_cons_of_ne hzero p).symm⟩
      · have hboth : decide (c ≠ slash ∧ c ≠ 0) = true := decide_eq_true ⟨hc, hzero⟩
        rw [List.takeWhile_cons_of_pos (by simpa using hc), List.takeWhile_cons_of_pos (by exact hboth),
          List.dropWhile_cons_of_pos (by simpa using hc), ih.1, ih.2]
        exact ⟨rfl, rfl⟩

theorem cut_buffer (hs : 0 ∉ s) (buf : List Byte) : cut (if s.length ≥ DIRSIZ then s.take DIRSIZ ++ buf.drop DIRSIZ
    else s ++ 0 :: buf.drop (s.length+1)) = s.take DIRSIZ := by
  have hall (l : List Byte) (hl : ∀ a ∈ l, a ∈ s) (m : List Byte) :
      (l ++ m).takeWhile (· ≠ 0) = l ++ m.takeWhile (· ≠ 0) := by
    apply List.takeWhile_append_of_pos
    intro a ha
    rw [decide_eq_true_eq]
    rintro rfl
    exact hs (hl 0 ha)
  unfold cut
  split_ifs with hlen
  · rw [hall _ fun a => List.mem_of_mem_take]
    exact List.take_left' (List.length_take_of_le hlen)
  · rw [hall _ fun a ha => ha, List.takeWhile_cons_of_neg (by simp), List.append_nil]

theorem skipelemBytes_none (h : skipelemBytes bytes buf = none) : skipelem (str bytes) = none := by
  unfold skipelemBytes at h
  dsimp only at h
  by_cases hend : (bytes.dropWhile fun x => decide (x = slash)).headD 0 = 0
  · unfold skipelem
    rw [← str_dropWhile, str_eq_nil.mpr hend]
  · rw [if_neg hend] at h
    cases h

theorem skipelemBytes_some (h : skipelemBytes bytes buf = some (name, rest)) :
    skipelem (str bytes) = some (cut name, str rest) := by
  unfold skipelemBytes at h
  dsimp only at h
  unfold skipelem
  rw [← str_dropWhile]
  generalize (bytes.dropWhile fun x => decide (x = slash)) = p at h
  by_cases hend : p.headD 0 = 0
  · rw [if_pos hend] at h
    cases h
  rw [if_neg hend, Option.some.injEq, Prod.mk.injEq] at h
  obtain ⟨rfl, rfl⟩ := h
  have hzero : 0 ∉ p.takeWhile fun c => decide (c ≠ slash ∧ c ≠ 0) := by
    intro hmem
    have := List.mem_takeWhile_imp hmem
    simp at this
  rw [cut_buffer hzero, str_dropWhile, ← (str_element p).2, ← (str_element p).1]
  cases hp : str p with
  | nil => exact absurd (str_eq_nil.mp hp) hend
  | cons c q => rfl

theorem components_of_none (h : skipelem path = none) : components path = [] := by
  have hpath : path.dropWhile (fun x => decide (x = slash)) = [] := by
    unfold skipelem at h
    split at h
    · assumption
    · cases h
  rw [components, ← runs_dropWhile, hpath, runs_nil, List.map_nil]

theorem components_of_some (h : skipelem path = some (name, rest)) :
    components path = name :: components rest ∧ rest.length < path.length ∧ (rest = [] ↔ components rest = []) := by
  have hle := (List.dropWhile_sublist (fun x : Byte => decide (x = slash)) (l := path)).length_le
  unfold skipelem at h
  cases hpath : path.dropWhile (fun x => decide (x = slash)) with
  | nil =>
    rw [hpath] at h
    cases h
  | cons c p =>
    rw [hpath] at h hle
    simp only [Option.some.injEq, Prod.mk.injEq] at h
    obtain ⟨rfl, rfl⟩ := h
    have hc : c ≠ slash := by
      have hc := List.head?_dropWhile_not (fun x : Byte => decide (x = slash)) path
      rw [hpath] at hc
      exact of_decide_eq_false hc
    refine ⟨?_, ?_, ?_⟩
    · rw [components, ← runs_dropWhile path, hpath, runs_takeWhile hc, components, runs_dropWhile, List.map_cons]
    · rw [List.dropWhile_cons_of_pos (by simpa using hc)]
      have h1 := (List.dropWhile_sublist (fun x : Byte => decide (x = slash))
        (l := p.dropWhile fun x => decide (x ≠ slash))).length_le
      have h2 := (List.dropWhile_sublist (fun x : Byte => decide (x ≠ slash)) (l := p)).length_le
      rw [List.length_cons] at hle
      omega
    · generalize (c :: p).dropWhile (fun x => decide (x ≠ slash)) = q
      cases hq : q.dropWhile (fun x => decide (x = slash)) with
      | nil => exact iff_of_true rfl rfl
      | cons b l =>
        have hb : b ≠ slash := by
          have hb := List.head?_dropWhile_not (fun x : Byte => decide (x = slash)) q
          rw [hq] at hb
          exact of_decide_eq_false hb
        refine iff_of_false (List.cons_ne_nil _ _) ?_
        rw [components, runs_takeWhile hb]
        exact List.cons_ne_nil _ _

theorem elements_eq {fuel : ℕ} (hfuel : (str bytes).length < fuel) :
    elements fuel bytes buf = some (components (str bytes)) := by
  induction fuel generalizing bytes buf with
  | zero => omega
  | succ fuel ih =>
    unfold elements
    cases hskip : skipelemBytes bytes buf with
    | none =>
      dsimp only
      rw [components_of_none (skipelemBytes_none hskip)]
    | some e =>
      obtain ⟨name, rest⟩ := e
      obtain ⟨hcomp, hlen, -⟩ := components_of_some (skipelemBytes_some hskip)
      dsimp only
      rw [ih (by omega), hcomp]
      rfl

/-- Two paths that differ in one '/': one that is repeated, or one at the end. -/
inductive ExtraSlash : List Byte → List Byte → Prop
  | repeated (p q : List Byte) : ExtraSlash (p ++ slash :: slash :: q) (p ++ slash :: q)
  | trailing (p : List Byte) (hp : p ≠ []) : ExtraSlash (p ++ [slash]) p

theorem ExtraSlash.components {p q : List Byte} (h : ExtraSlash p q) :
    components p = components q ∧ p.head? = q.head? := by
  cases h with
  | repeated p q =>
    refine ⟨?_, ?_⟩
    · rw [Fs.components, Fs.components, runs_append, runs_append, runs_cons_self]
    · cases p <;> rfl
  | trailing p hp =>
    refine ⟨?_, ?_⟩
    · rw [Fs.components, Fs.components, runs_snoc_self]
    · cases q with
      | nil => exact absurd rfl hp
      | cons c q => rfl

section
variable (sb : Superblock) (dev : Devsw)

/-- The loop of `namex` with names left. -/
def namexNames (parent : Bool) : List (List Byte) → Ip → List Byte → FsM (Option (Ip × List Byte))
  | [], ip, name =>
    if parent then do
      iput sb ip
      pure none
    else pure (some (ip, name))
  | name :: names, ip, _ => do
    ilock sb ip
    let e ← getInode ip
    if e.din.type ≠ T_DIR then do
      iunlockput sb ip
      pure none
    else if parent ∧ names = [] then do
      iunlock ip
      pure (some (ip, name))
    else do
      match ← dirlookup sb dev ip name with
      | none => do
        iunlockput sb ip
        pure none
      | some (next, _) => do
        iunlockput sb ip
        namexNames parent names next name

end

theorem namexLoop_eq {parent : Bool} {fuel : ℕ} {ip : Ip} (hfuel : path.length < fuel) :
    namexLoop sb dev parent fuel ip path name = namexNames sb dev parent (components path) ip name := by
  induction fuel generalizing ip path name with
  | zero => omega
  | succ fuel ih =>
    unfold namexLoop
    cases hskip : skipelem path with
    | none =>
      rw [components_of_none hskip]
      rfl
    | some e =>
      obtain ⟨name, rest⟩ := e
      obtain ⟨hcomp, hlen, hend⟩ := components_of_some hskip
      dsimp only
      rw [hcomp, namexNames]
      refine bind_congr fun _ => bind_congr fun e => ?_
      simp only [hend]
      refine if_congr Iff.rfl rfl (if_congr Iff.rfl rfl (bind_congr fun r => ?_))
      cases r with
      | none => rfl
      | some next => exact bind_congr fun _ => ih (by omega)

theorem namex_eq {parent : Bool} {cwd : Ip} : namex sb dev cwd path parent = (do
    let ip ← if path.head? = some slash then iget ROOTINO else idup cwd
    namexNames sb dev parent (components path) ip []) := by
  unfold namex
  simp only [namexLoop_eq (Nat.lt_succ_self path.length)]

end ProvenXv6.Fs
