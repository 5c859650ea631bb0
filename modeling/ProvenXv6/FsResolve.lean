import Mathlib.Logic.Relation
import ProvenXv6.FsDirMap
import ProvenXv6.FsWalk

namespace ProvenXv6.Fs
open SlotMap WeakestPre

/-- The inode that is named in d, none if d is no directory or has no such name, or the
panic of `ilock` or `dirlookup`. -/
def resolveName (N : Table) (d : ℕ) (name : List Byte) : Except Fault (Option ℕ) :=
  match N d with
  | none => .error noType
  | some nd =>
    if nd.type ≠ T_DIR then .ok none
    else match lookup nd.data name with
      | some i => .ok (some i)
      | none => if 16 ∣ nd.data.length then .ok none else .error (.panic "dirlookup read")

/-- The inode that the names lead to from inode i. -/
def resolve (N : Table) (i : ℕ) : List (List Byte) → Except Fault (Option ℕ)
  | [] => .ok (some i)
  | name :: names =>
    match resolveName N i name with
    | .error e => .error e
    | .ok none => .ok none
    | .ok (some i) => resolve N i names

/-- The directory that all names but the last lead to, and the last name. -/
def resolveParent (N : Table) (i : ℕ) (names : List (List Byte)) : Except Fault (Option (ℕ × List Byte)) :=
  match names.getLast?, resolve N i names.dropLast with
  | none, _ => .ok none
  | some _, .error e => .error e
  | some _, .ok none => .ok none
  | some name, .ok (some d) =>
    match N d with
    | none => .error noType
    | some nd => if nd.type ≠ T_DIR then .ok none else .ok (some (d, name))

/-- `resolve`, or `resolveParent` if parent is set, with the names taken as `namex` takes them. -/
def resolveAs (parent : Bool) (N : Table) (i : ℕ) : List (List Byte) → Except Fault (Option (ℕ × List Byte))
  | [] => .ok (if parent then none else some (i, []))
  | name :: names =>
    if parent = true ∧ names = [] then
      match N i with
      | none => .error noType
      | some nd => if nd.type ≠ T_DIR then .ok none else .ok (some (i, name))
    else
      match resolveName N i name with
      | .error e => .error e
      | .ok none => .ok none
      | .ok (some i) => resolveAs parent N i names

/-- An allocated inode without links that nothing refers to. -/
def Orphan (sb : Superblock) (s : FS) (i : ℕ) : Prop :=
  (∃ nd, node sb s.disk i = some nd ∧ nd.nlink = 0) ∧ ∀ e, 0 < (s.inode e).ref → (s.inode e).inum ≠ i

/-- The names lead by inode i. -/
def Passes (N : Table) (start : ℕ) (all : List (List Byte)) (i : ℕ) : Prop :=
  ∃ names, names <+: all ∧ resolve N start names = .ok (some i)

/-- The walk from start meets an inode that is freed when its reference is given back. -/
def MeetsOrphan (sb : Superblock) (s : FS) (start : ℕ) (all : List (List Byte)) (i : ℕ) : Prop :=
  Orphan sb s i ∧ Passes (node sb s.disk) start all i

/-- The faults of a walk whose result is r: those of r, a cache without two free entries, and an
inode that is met again after it was freed. -/
def WalkFaults {α : Type} (sb : Superblock) (s : FS) (start : ℕ) (all : List (List Byte)) (r : Except Fault α)
    (e : Fault) : Prop :=
  r = .error e ∨ (e = cacheFull ∧ ∃ e₀, ∀ e, e ≠ e₀ → (s.inode e).ref ≠ 0) ∨
    e = noType ∧ ∃ i, MeetsOrphan sb s start all i

/-- From s to t a walk took one reference if it returned an entry, and changed nothing but
inodes without links and references. -/
structure Walked (sb : Superblock) (s : FS) (start : ℕ) (all : List (List Byte)) (r : Option Ip) (t : FS) : Prop where
  inv : Inv sb t
  refs : ∀ e, (t.inode e).ref = (s.inode e).ref+if r = some e then 1 else 0
  unlocked : ∀ e, (t.inode e).locked = false
  nodes : ∀ i, node sb t.disk i = node sb s.disk i ∨ MeetsOrphan sb s start all i ∧ node sb t.disk i = none

variable {sb : Superblock} {dev : Devsw} {N N₀ : Table} {L : List (Ip × ℕ)} {s t : FS} {cwd ip : Ip} {start d i : ℕ}
variable {all pre names : List (List Byte)} {name path : List Byte} {parent : Bool} {nd : Node}

theorem resolve_append (h : resolve N start pre = .ok (some i)) :
    resolve N start (pre ++ names) = resolve N i names := by
  induction pre generalizing start with
  | nil =>
    obtain rfl : start = i := by
      simpa [resolve] using h
    rfl
  | cons name pre ih =>
    rw [List.cons_append, resolve]
    rw [resolve] at h
    split at h
    · cases h
    · cases h
    · exact ih h

theorem resolve_eq : resolveAs false N i names = (resolve N i names).map (Option.map (·, [])) := by
  induction names generalizing i with
  | nil => rfl
  | cons name names ih =>
    rw [resolveAs, if_neg (by simp), resolve]
    cases resolveName N i name with
    | error e => rfl
    | ok r =>
      cases r with
      | none => rfl
      | some j => exact ih

theorem resolve_error_of_eq {e : Fault} (h : resolveAs false N i names = .error e) : resolve N i names = .error e := by
  rw [resolve_eq] at h
  cases hr : resolve N i names with
  | error e' =>
    rw [hr] at h
    cases h
    rfl
  | ok r =>
    rw [hr] at h
    cases h

theorem resolve_ok_of_eq {α : Type} {f : α → ℕ} {r : Option α}
    (h : resolveAs false N i names = .ok (r.map fun p => (f p, []))) : resolve N i names = .ok (r.map f) := by
  rw [resolve_eq] at h
  cases hr : resolve N i names with
  | error e =>
    rw [hr] at h
    cases h
  | ok r' =>
    rw [hr] at h
    cases r with
    | none =>
      cases r' with
      | none => rfl
      | some j => cases h
    | some p =>
      cases r' with
      | none => cases h
      | some j =>
        cases h
        rfl

theorem resolveParent_eq : resolveAs true N i names = resolveParent N i names := by
  induction names generalizing i with
  | nil => rfl
  | cons name names ih =>
    rw [resolveAs]
    cases names with
    | nil => rfl
    | cons next names =>
      rw [if_neg (by simp), resolveParent, List.dropLast_cons_cons, List.getLast?_cons_cons, resolve]
      cases hname : resolveName N i name with
      | error e =>
        rw [List.getLast?_eq_some_getLast (List.cons_ne_nil next names)]
      | ok r =>
        cases r with
        | none => rw [List.getLast?_eq_some_getLast (List.cons_ne_nil next names)]
        | some j =>
          dsimp only
          rw [ih]
          rfl

/-- The walk has got to inode i with names left. -/
def Along (parent : Bool) (N : Table) (start : ℕ) (all names : List (List Byte)) (i : ℕ) : Prop :=
  (∃ pre, all = pre ++ names ∧ resolve N start pre = .ok (some i)) ∧ (parent = true → names = [] → all = [])

theorem Along.resolveAs (h : Along parent N start all names i) : resolveAs parent N start all = resolveAs parent N i names := by
  obtain ⟨⟨pre, rfl, hpre⟩, hend⟩ := h
  induction pre generalizing start with
  | nil =>
    obtain rfl : start = i := by
      simpa [resolve] using hpre
    rfl
  | cons name pre ih =>
    have hne : ¬(parent = true ∧ pre ++ names = []) := by
      rintro ⟨hparent, hnil⟩
      exact absurd (hend hparent (List.append_eq_nil_iff.mp hnil).2) (List.cons_ne_nil _ _)
    rw [List.cons_append, Fs.resolveAs, if_neg hne]
    rw [resolve] at hpre
    split at hpre
    · cases hpre
    · cases hpre
    · exact ih hpre fun hparent hnames => absurd (hend hparent hnames) (List.cons_ne_nil _ _)

theorem Along.next (h : Along parent N start all (name :: names) d) (hname : resolveName N d name = .ok (some i))
    (hlast : ¬(parent = true ∧ names = [])) : Along parent N start all names i := by
  obtain ⟨⟨pre, rfl, hpre⟩, -⟩ := h
  refine ⟨⟨pre ++ [name], (List.append_cons ..), ?_⟩, fun hparent hnames => absurd ⟨hparent, hnames⟩ hlast⟩
  rw [resolve_append hpre, resolve, hname]
  rfl

theorem resolveName_found (hnd : N d = some nd) (hdir : nd.type = T_DIR) (hfind : lookup nd.data name = some i) :
    resolveName N d name = .ok (some i) := by
  rw [resolveName, hnd]
  dsimp only
  rw [if_neg (not_not.mpr hdir), hfind]

theorem resolveAs_unallocated (hnd : N i = none) : resolveAs parent N i (name :: names) = .error noType := by
  rw [resolveAs, resolveName, hnd]
  exact ite_self _

theorem resolveAs_file (hnd : N i = some nd) (hdir : nd.type ≠ T_DIR) :
    resolveAs parent N i (name :: names) = .ok none := by
  rw [resolveAs, resolveName, hnd]
  dsimp only
  rw [if_pos hdir, if_pos hdir]
  exact ite_self _

theorem resolveAs_absent (hnd : N i = some nd) (hdir : nd.type = T_DIR) (hnone : lookup nd.data name = none)
    (hlast : ¬(parent = true ∧ names = [])) : resolveAs parent N i (name :: names) =
      if 16 ∣ nd.data.length then .ok none else .error (.panic "dirlookup read") := by
  rw [resolveAs, if_neg hlast, resolveName, hnd]
  dsimp only
  rw [if_neg (not_not.mpr hdir), hnone]
  split_ifs <;> rfl

/-- While the references L are held a walk frees inodes without links that are not among them. -/
def FreedOf (N₀ : Table) (L : List (Ip × ℕ)) (start : ℕ) (all : List (List Byte)) (N : Table) : Prop :=
  ∀ i, N i = N₀ i ∨ (((∃ nd, N₀ i = some nd ∧ nd.nlink = 0) ∧ ∀ e, (e, i) ∉ L) ∧ Passes N₀ start all i) ∧ N i = none

theorem FreedOf.of_some (h : FreedOf N₀ L start all N) (hnd : N i = some nd) : N₀ i = some nd := by
  rcases h i with heq | ⟨-, hnone⟩
  · rw [← heq, hnd]
  · rw [hnone] at hnd
    cases hnd

theorem roams_along {O : ℕ → Prop} (hdirs : DirsOk sb N₀) :
    Roams sb O L (FreedOf N₀ L start all) (Along parent N₀ start all) parent where
  dirs N hN i nd hnd := hdirs i nd (hN.of_some hnd)
  next N nd name names d i hN hM hnd hdir hfind hlast := hM.next (resolveName_found (hN.of_some hnd) hdir hfind) hlast
  frees N names i N' hN hM _ hfree := by
    obtain ⟨nd, hnd, hlink⟩ := hfree.node
    obtain ⟨⟨pre, hall, hpre⟩, -⟩ := hM
    intro j
    rw [hfree.eq]
    by_cases hj : j = i
    · subst hj
      rw [Function.update_self]
      exact Or.inr ⟨⟨⟨⟨nd, hN.of_some hnd, hlink⟩, hfree.unused⟩, pre, ⟨names, hall.symm⟩, hpre⟩, rfl⟩
    · rw [Function.update_of_ne hj]
      exact hN j

theorem resolveAs_of_reaches {O : ℕ → Prop} {r : Option (Ip × List Byte)}
    (h : Reaches sb O L (FreedOf N₀ L start all) (Along parent N₀ start all) parent r t) :
    resolveAs parent N₀ start all = .ok (r.map fun p => ((t.inode p.1).inum, if parent then p.2 else [])) := by
  obtain ⟨N, hN, hr⟩ := h
  cases r with
  | none =>
    obtain ⟨⟨N', hN', hmiss⟩, -⟩ := hr
    rcases hmiss with ⟨hparent, i, hnil⟩ | ⟨name, names, i, nd, hat, hnd, hend⟩
    · rw [hnil.2 hparent rfl, resolveAs, if_pos hparent]
      rfl
    · rw [hat.resolveAs]
      rcases hend with hfile | ⟨hdir, hnone, halign, hlast⟩
      · exact resolveAs_file (hN'.of_some hnd) hfile
      · rw [resolveAs_absent (hN'.of_some hnd) hdir hnone hlast, if_pos halign]
        rfl
  | some p =>
    obtain ⟨ip, name⟩ := p
    obtain ⟨i, ht, hat⟩ := hr
    have hinum : (t.inode ip).inum = i := ht.inum _ List.mem_cons_self
    simp only [Option.map_some, hinum]
    split_ifs at hat ⊢ with hparent
    · obtain ⟨hat, nd, hnd, hdir⟩ := hat
      rw [hat.resolveAs, resolveAs, if_pos ⟨hparent, rfl⟩, hN.of_some hnd]
      dsimp only
      rw [if_neg (not_not.mpr hdir)]
    · rw [hat.resolveAs, resolveAs, if_neg hparent]

section
variable {O : ℕ → Prop} (hL : Ledger sb O (node sb s.disk) L L [] s)
variable (hmem : ∀ e, 0 < (s.inode e).ref → (e, (s.inode e).inum) ∈ L)
include hL hmem

theorem stops_along : Stops L (FreedOf (node sb s.disk) L start all) (Along parent (node sb s.disk) start all) parent
    (WalkFaults sb s start all (resolveAs parent (node sb s.disk) start all)) where
  full := by
    rintro ⟨e₀, hused⟩
    refine Or.inr (Or.inl ⟨rfl, e₀, fun e he hzero => ?_⟩)
    have := hL.ref_pos (hused e he)
    omega
  type N name names i hN hM hnone := by
    rcases hN i with heq | ⟨⟨⟨hnode, hunused⟩, hmet⟩, -⟩
    · rw [heq] at hnone
      exact Or.inl (by rw [hM.resolveAs, resolveAs_unallocated hnone])
    · exact Or.inr (Or.inr ⟨rfl, i, ⟨hnode, fun e hr heq => hunused e (heq ▸ hmem e hr)⟩, hmet⟩)
  part N nd name names i hN hM hnd hdir hnone hlast hpart :=
    Or.inl (by rw [hM.resolveAs, resolveAs_absent (hN.of_some hnd) hdir hnone hlast, if_neg hpart])

theorem walked_of_reaches {r : Option (Ip × List Byte)} (hdirs : DirsOk sb (node sb s.disk))
    (h : Reaches sb O L (FreedOf (node sb s.disk) L start all) (Along parent (node sb s.disk) start all) parent r t) :
    Walked sb s start all (r.map Prod.fst) t := by
  obtain ⟨N, hN, hr⟩ := h
  obtain ⟨L', ht, hL'⟩ : ∃ L', Ledger sb O N L L' [] t ∧ ∀ e, (L'.map Prod.fst).count e =
      (L.map Prod.fst).count e+if r.map Prod.fst = some e then 1 else 0 := by
    cases r with
    | none => exact ⟨L, hr.2, fun _ => rfl⟩
    | some p =>
      obtain ⟨i, ht, -⟩ := hr
      refine ⟨_, ht, fun e => ?_⟩
      rw [List.map_cons, List.count_cons]
      simp
  refine ⟨ht.sound.inv ?_, ?_, ?_, ?_⟩
  · rw [ht.nodes]
    exact fun i nd hnd => hdirs i nd (hN.of_some hnd)
  · intro e
    rw [ht.refs, hL.refs, hL' e]
    split_ifs <;> rfl
  · intro e
    exact Bool.eq_false_iff.mpr fun hl => absurd ((ht.locked e).mp hl) List.not_mem_nil
  · intro i
    rw [ht.nodes]
    refine (hN i).imp_right ?_
    rintro ⟨⟨⟨hnode, hunused⟩, hmet⟩, hnone⟩
    exact ⟨⟨⟨hnode, fun e hr heq => hunused e (heq ▸ hmem e hr)⟩, hmet⟩, hnone⟩

end

def walkStart (s : FS) (cwd : Ip) (path : List Byte) : ℕ :=
  if path.head? = some slash then ROOTINO else (s.inode cwd).inum

theorem namex_resolves (dev : Devsw) (path : List Byte) (parent : Bool) (h : Inv sb s)
    (hfree : ∀ e, (s.inode e).locked = false) (hcwd : 0 < (s.inode cwd).ref) :
    wp (WalkFaults sb s (walkStart s cwd path) (components path)
        (resolveAs parent (node sb s.disk) (walkStart s cwd path) (components path)))
      (namex sb dev cwd path parent)
      (fun r t => resolveAs parent (node sb s.disk) (walkStart s cwd path) (components path) =
          .ok (r.map fun p => ((t.inode p.1).inum, if parent then p.2 else [])) ∧
        Walked sb s (walkStart s cwd path) (components path) (r.map Prod.fst) t) s := by
  obtain ⟨L, hL, hmem⟩ := h.sound.ledger List.nodup_nil
    (fun e => iff_of_false (by rw [hfree e]; exact Bool.false_ne_true) List.not_mem_nil)
    (fun e he => absurd he List.not_mem_nil)
  have hM : Along parent (node sb s.disk) (walkStart s cwd path) (components path) (components path)
      (if path.head? = some slash then ROOTINO else (s.inode cwd).inum) :=
    ⟨⟨[], rfl, rfl⟩, fun _ hnil => hnil⟩
  apply wp_mono (namex_roams (roams_along h.dirsOk) (stops_along hL hmem) hL (fun i => Or.inl rfl) (hmem cwd hcwd) hM)
  intro r t hr
  exact ⟨resolveAs_of_reaches hr, walked_of_reaches hL hmem h.dirsOk hr⟩

theorem namex_congr {other : List Byte} (h : Relation.EqvGen ExtraSlash path other) :
    components other = components path ∧ other.head? = path.head? := by
  induction h with
  | rel p q h => exact ⟨h.components.1.symm, h.components.2.symm⟩
  | refl p => exact ⟨rfl, rfl⟩
  | symm p q _ ih => exact ⟨ih.1.symm, ih.2.symm⟩
  | trans p q r _ _ ih ih' => exact ⟨ih'.1.trans ih.1, ih'.2.trans ih.2⟩

/-- Path names depend on their components only. `skipelem` gives the runs of bytes between
the slashes, cut to DIRSIZ, and then ends. `namei` returns the inode that these names lead to
from the root or the current directory, and 0 when a name is missing or looked up in an inode
that is no directory. `nameiparent` returns the directory before the last name, and that name.
Repeated slashes and slashes at the end make no difference. -/
theorem path_resolution (h : Inv sb s) (hfree : ∀ e, (s.inode e).locked = false) (hcwd : 0 < (s.inode cwd).ref)
    (path : List Byte) :
    let N := node sb s.disk
    let start := walkStart s cwd path
    let names := components path
    (∀ bytes buf fuel, str bytes = path → path.length < fuel → elements fuel bytes buf = some names) ∧
    wp (WalkFaults sb s start names (resolve N start names)) (namei sb dev cwd path)
      (fun r t => resolve N start names = .ok (r.map fun ip => (t.inode ip).inum) ∧
        Walked sb s start names r t) s ∧
    wp (WalkFaults sb s start names (resolveParent N start names)) (nameiparent sb dev cwd path)
      (fun r t => resolveParent N start names = .ok (r.map fun p => ((t.inode p.1).inum, p.2)) ∧
        Walked sb s start names (r.map Prod.fst) t) s ∧
    ∀ other, Relation.EqvGen ExtraSlash path other → components other = names ∧
      namei sb dev cwd other = namei sb dev cwd path ∧
      nameiparent sb dev cwd other = nameiparent sb dev cwd path := by
  intro N start names
  refine ⟨?_, ?_, ?_, ?_⟩
  · rintro bytes buf fuel rfl hfuel
    exact elements_eq hfuel
  · have hwalk := namex_resolves dev path false h hfree hcwd
    unfold namei
    rw [wp_bind]
    apply wp_mono (wp_weaken hwalk fun e he => he.imp_left resolve_error_of_eq)
    rintro r t ⟨hr, ht⟩
    refine ⟨?_, ht⟩
    rw [Option.map_map]
    exact resolve_ok_of_eq (f := fun p : Ip × List Byte => (t.inode p.1).inum) hr
  · have hwalk := namex_resolves dev path true h hfree hcwd
    rw [resolveParent_eq] at hwalk
    exact hwalk
  · intro other hother
    obtain ⟨hcomp, hhead⟩ := namex_congr hother
    have hsame (parent : Bool) : namex sb dev cwd other parent = namex sb dev cwd path parent := by
      rw [namex_eq, namex_eq, hcomp, hhead]
    refine ⟨hcomp, ?_, hsame true⟩
    unfold namei
    rw [hsame]

/-- The root directory gets its first two entries, and is unlocked again. -/
def idleRoot : FsM Ip := do
  let ip ← dottedRoot
  iunlock ip
  pure ip

theorem idleRoot_spec : wp (fun _ => True) idleRoot (fun ip s => Inv tinySuperblock s ∧
    (∀ e, (s.inode e).locked = false) ∧ 0 < (s.inode ip).ref) (boot (rootImage 0)) := by
  unfold idleRoot
  rw [wp_bind]
  apply wp_mono dottedRoot_spec
  rintro ip s ⟨m, hm⟩
  obtain ⟨N, L, nd, hL, hdirs, hdp, -⟩ := hm.ledger
  rw [wp_bind]
  apply wp_mono (iunlock_ledger hL)
  intro _ t ht
  refine ⟨ht.sound.inv (by rw [ht.nodes]; exact hdirs), fun e => ?_, ht.ref_pos (mem_fst hdp)⟩
  exact Bool.eq_false_iff.mpr fun hl => absurd ((ht.locked e).mp hl) List.not_mem_nil

def dotsPath : List Byte := [47, 46, 46, 47, 47, 46, 47]

/-- In the root directory "/..//./" is the root directory. -/
theorem path_resolution_dots : ∃ ip s r t, components dotsPath = [dotdot, dot] ∧
    idleRoot (boot (rootImage 0)) = .ok (ip, s) ∧ namei tinySuperblock noDevices ip dotsPath s = .ok (r, t) ∧
    r.map (fun ip => (t.inode ip).inum) = some 1 := by
  have htrace : ∃ p ∈ (idleRoot (boot (rootImage 0))).toOption,
      (resolve (node tinySuperblock p.2.disk) (walkStart p.2 p.1 dotsPath) (components dotsPath)).toOption =
        some (some 1) ∧ (namei tinySuperblock noDevices p.1 dotsPath p.2).toOption.isSome := by
    decide +kernel
  obtain ⟨⟨ip, s⟩, hp, hres, hsome⟩ := htrace
  obtain ⟨⟨r, t⟩, hq⟩ := Option.isSome_iff_exists.mp hsome
  have hrun := ok_of_mem_toOption hp
  have hnamei := ok_of_mem_toOption hq
  obtain ⟨hinv, hfree, href⟩ := wp_ok idleRoot_spec hrun
  obtain ⟨hr, -⟩ := wp_ok (path_resolution hinv hfree href dotsPath).2.1 hnamei
  dsimp only at hres
  rw [hr] at hres
  exact ⟨ip, s, r, t, by decide, hrun, hnamei, Option.some.inj hres⟩

end ProvenXv6.Fs
