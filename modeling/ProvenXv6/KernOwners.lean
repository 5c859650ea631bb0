import Mathlib.Algebra.Order.BigOperators.Group.Finset
import ProvenXv6.KernStray

namespace ProvenXv6.Kern
open RefCount WeakestPre StepSystem
open Fs (Byte Block FS FsM Fault Ip Superblock Devsw tinySuperblock noDevices getWord)
open Vm (Mem VmM BootImage Balanced KERNBASE PGSIZE UPAGES NPDENTRIES NPTENTRIES entry target table held heldBy userPte
  smallImage)
open Ptable (NPROC Slot ProcState)

variable {img : BootImage} {B : List ℕ} {k k' : Kernel} {p : Slot} {x : ℕ}

/-- How an address space may hold a page. -/
inductive Part
  | directory
  | table (i : ℕ)
  | user (v : ℕ)

def Part.holds (m : ℕ → Block) (d x : ℕ) : Part → Prop
  | .directory => d = x
  | .table i => i < NPDENTRIES ∧ Vm.table m d i = some x
  | .user v => v < UPAGES ∧ target (entry m d v) = some x

theorem exists_part {m : ℕ → Block} {d : ℕ} (h : 0 < held m d x) : ∃ o : Part, o.holds m d x := by
  unfold held at h
  by_cases hd : x = d
  · exact ⟨.directory, hd.symm⟩
  · rw [if_neg hd] at h
    by_cases ht : 0 < refs (Vm.tables m d) x
    · obtain ⟨i, hi⟩ := refs_pos.mp ht
      exact ⟨.table i, i.isLt, hi⟩
    · obtain ⟨v, hv⟩ := refs_pos.mp (show 0 < refs (Vm.user m d) x by omega)
      exact ⟨.user v, v.isLt, hv⟩

theorem Part.held_pos {m : ℕ → Block} {d : ℕ} {o : Part} (h : o.holds m d x) : 0 < held m d x := by
  unfold held
  cases o with
  | directory => rw [if_pos h.symm]; omega
  | table i =>
    have : 0 < refs (Vm.tables m d) x := refs_pos_of (i := ⟨i, h.1⟩) h.2
    omega
  | user v =>
    have : 0 < refs (Vm.user m d) x := refs_pos_of (i := ⟨v, h.1⟩) h.2
    omega

theorem Part.unique {m : ℕ → Block} {d : ℕ} {o o' : Part} (hle : held m d x ≤ 1) (h : o.holds m d x)
    (h' : o'.holds m d x) : o = o' := by
  have hdir (hd : d = x) : (if x = d then 1 else 0) = 1 := if_pos hd.symm
  have htab {i : ℕ} (hi : i < NPDENTRIES ∧ Vm.table m d i = some x) : 0 < refs (Vm.tables m d) x :=
    refs_pos_of (i := ⟨i, hi.1⟩) hi.2
  have huser {v : ℕ} (hv : v < UPAGES ∧ target (entry m d v) = some x) : 0 < refs (Vm.user m d) x :=
    refs_pos_of (i := ⟨v, hv.1⟩) hv.2
  unfold held at hle
  cases o with
  | directory =>
    have := hdir h
    cases o' with
    | directory => rfl
    | table i => have := htab h'; omega
    | user v => have := huser h'; omega
  | table i =>
    have := htab h
    cases o' with
    | directory => have := hdir h'; omega
    | table j =>
      have hij := slot_unique (f := Vm.tables m d) (x := x) (by omega) (i := ⟨i, h.1⟩) (j := ⟨j, h'.1⟩) h.2 h'.2
      rw [Fin.mk.injEq] at hij
      rw [hij]
    | user v => have := huser h'; omega
  | user v =>
    have := huser h
    cases o' with
    | directory => have := hdir h'; omega
    | table i => have := htab h'; omega
    | user w =>
      have hvw := slot_unique (f := Vm.user m d) (x := x) (by omega) (i := ⟨v, h.1⟩) (j := ⟨w, h'.1⟩) h.2 h'.2
      rw [Fin.mk.injEq] at hvw
      rw [hvw]

/-- The owners a page may have: a place on the free list, the kernel stack or the
address space of a process, a pipe, a use since the boot. -/
inductive Owner
  | free (i : ℕ)
  | stack (p : Slot)
  | space (p : Slot) (o : Part)
  | pipe
  | boot (i : ℕ)

def Owns (B : List ℕ) (k : Kernel) (x : ℕ) : Owner → Prop
  | .free i => k.mem.free[i]? = some x
  | .stack p => (k.proc p).state ≠ .unused ∧ (k.proc p).kstack = x
  | .space p o => (k.proc p).state ≠ .unused ∧ o.holds k.mem.page (k.proc p).pgdir x
  | .pipe => k.pipe x ≠ none
  | .boot i => B[i]? = some x

def stackOf (k : Kernel) (p : Slot) : Option ℕ := (k.proc p).space.map Space.kstack

theorem stackOf_eq : stackOf k p = some x ↔ (k.proc p).state ≠ .unused ∧ (k.proc p).kstack = x := by
  unfold stackOf Proc.space
  split_ifs with h <;> simp [h]

theorem count_stacks (k : Kernel) (x : ℕ) : ((spaces k).map Space.kstack).count x = refs (stackOf k) x := by
  have hstack : (fun p => (k.proc p).space.map Space.kstack) = stackOf k := rfl
  rw [← refs_eq_count_finRange, spaces, List.map_filterMap, hstack]

/-- How often the address space of p holds x. -/
def heldOf (k : Kernel) (x : ℕ) (p : Slot) : ℕ :=
  if (k.proc p).state = .unused then 0 else held k.mem.page (k.proc p).pgdir x

theorem sum_filterMap {α β : Type} (f : α → Option β) (g : β → ℕ) (l : List α) :
    ((l.filterMap f).map g).sum = (l.map fun a => (f a).elim 0 g).sum := by
  induction l with
  | nil => rfl
  | cons a l ih =>
    rw [List.filterMap_cons, List.map_cons, List.sum_cons, ← ih]
    cases f a with
    | none => exact (Nat.zero_add _).symm
    | some b => rfl

theorem sum_finRange {n : ℕ} (f : Fin n → ℕ) : ((List.finRange n).map f).sum = ∑ i, f i :=
  (Fin.sum_univ_def f).symm

theorem heldBy_spaces (k : Kernel) (x : ℕ) :
    heldBy k.mem.page ((spaces k).map Space.pgdir) x = ∑ p, heldOf k x p := by
  have hone : (fun p => (k.proc p).space.elim 0 ((fun d => held k.mem.page d x) ∘ Space.pgdir)) = heldOf k x := by
    funext p
    unfold Proc.space heldOf
    split_ifs
    · rw [Option.elim_none]
    · rw [Option.elim_some, Function.comp_apply]
  rw [heldBy, List.map_map, spaces, sum_filterMap, hone, sum_finRange]

theorem index_unique {l : List ℕ} {i j : ℕ} (hle : l.count x ≤ 1) (hi : l[i]? = some x)
    (hj : l[j]? = some x) : i = j := by
  induction l generalizing i j with
  | nil => simp at hi
  | cons a l ih =>
    have hmem {n : ℕ} (hn : l[n]? = some x) : 0 < l.count x :=
      List.count_pos_iff.mpr (List.mem_of_getElem? hn)
    rw [List.count_cons] at hle
    cases i with
    | zero =>
      cases j with
      | zero => rfl
      | succ j =>
        rw [List.getElem?_cons_zero, Option.some.injEq] at hi
        rw [List.getElem?_cons_succ] at hj
        have := hmem hj
        rw [if_pos (by simp [hi])] at hle
        omega
    | succ i =>
      rw [List.getElem?_cons_succ] at hi
      have hpos := hmem hi
      cases j with
      | zero =>
        rw [List.getElem?_cons_zero, Option.some.injEq] at hj
        rw [if_pos (by simp [hj])] at hle
        omega
      | succ j =>
        rw [List.getElem?_cons_succ] at hj
        rw [ih (by omega) hi hj]

/-- What each kind of owner adds to the count of x. -/
def weight (B P : List ℕ) (k : Kernel) (x : ℕ) : Owner → ℕ
  | .free _ => k.mem.free.count x
  | .stack _ => refs (stackOf k) x
  | .space _ _ => ∑ p, heldOf k x p
  | .pipe => P.count x
  | .boot _ => B.count x

theorem heldOf_le_sum (k : Kernel) (x : ℕ) (p : Slot) : heldOf k x p ≤ ∑ q, heldOf k x q :=
  Finset.single_le_sum (fun _ _ => Nat.zero_le _) (Finset.mem_univ p)

theorem heldOf_used (h : (k.proc p).state ≠ .unused) : heldOf k x p = held k.mem.page (k.proc p).pgdir x :=
  if_neg h

theorem heldOf_add_le {q : Slot} (hpq : p ≠ q) : heldOf k x p+heldOf k x q ≤ ∑ r, heldOf k x r := by
  rw [← Finset.sum_pair hpq]
  exact Finset.sum_le_sum_of_subset (Finset.subset_univ _)

section Unique
variable {P : List ℕ} (hP : ∀ q, q ∈ P ↔ k.pipe q ≠ none)

include hP in
theorem Owns.weight_pos {o : Owner} (h : Owns B k x o) : 0 < weight B P k x o := by
  cases o with
  | free i => exact List.count_pos_iff.mpr (List.mem_of_getElem? h)
  | stack p => exact refs_pos_of (stackOf_eq.mpr h)
  | space p o =>
    have h1 := Part.held_pos h.2
    have h2 := heldOf_le_sum k x p
    rw [heldOf_used h.1] at h2
    exact h1.trans_le h2
  | pipe => exact List.count_pos_iff.mpr ((hP x).mpr h)
  | boot i => exact List.count_pos_iff.mpr (List.mem_of_getElem? h)

include hP in
theorem owner_unique (hone : k.mem.free.count x+∑ p, heldOf k x p+refs (stackOf k) x+B.count x+P.count x = 1) :
    ∃! o, Owns B k x o := by
  refine existsUnique_of_exists_of_unique ?_ ?_
  · by_cases hfree : 0 < k.mem.free.count x
    · obtain ⟨i, hi⟩ := List.mem_iff_getElem?.mp (List.count_pos_iff.mp hfree)
      exact ⟨.free i, hi⟩
    by_cases hspace : 0 < ∑ p, heldOf k x p
    · obtain ⟨p, -, hp⟩ := Finset.exists_ne_zero_of_sum_ne_zero hspace.ne'
      unfold heldOf at hp
      split_ifs at hp with hused
      · exact absurd rfl hp
      · obtain ⟨o, ho⟩ := exists_part (Nat.pos_of_ne_zero hp)
        exact ⟨.space p o, hused, ho⟩
    by_cases hstack : 0 < refs (stackOf k) x
    · obtain ⟨p, hp⟩ := refs_pos.mp hstack
      exact ⟨.stack p, stackOf_eq.mp hp⟩
    by_cases hboot : 0 < B.count x
    · obtain ⟨i, hi⟩ := List.mem_iff_getElem?.mp (List.count_pos_iff.mp hboot)
      exact ⟨.boot i, hi⟩
    · exact ⟨.pipe, (hP x).mp (List.count_pos_iff.mp (by omega))⟩
  · intro o o' ho ho'
    have h1 := ho.weight_pos hP
    have h2 := ho'.weight_pos hP
    -- owners of different kinds would count twice
    cases o <;> cases o' <;> simp only [weight] at h1 h2 <;> try omega
    case free.free i j => rw [index_unique (by omega) ho ho']
    case stack.stack p q =>
      rw [slot_unique (f := stackOf k) (x := x) (by omega) (stackOf_eq.mpr ho) (stackOf_eq.mpr ho')]
    case space.space p o q o' =>
      have hp := Part.held_pos ho.2
      have hq := Part.held_pos ho'.2
      have hpq : p = q := by
        by_contra hne
        have := heldOf_add_le (k := k) (x := x) hne
        rw [heldOf_used ho.1, heldOf_used ho'.1] at this
        omega
      subst hpq
      have hle := heldOf_le_sum k x p
      rw [heldOf_used ho.1] at hle
      rw [Part.unique (by omega) ho.2 ho'.2]
    case pipe.pipe => rfl
    case boot.boot i j => rw [index_unique (by omega) ho ho']

end Unique

theorem Inv.owner_unique (h : Inv img B k) (hx : img.Managed x) : ∃! o, Owns B k x o := by
  obtain ⟨P, hnodup, hP, hb⟩ := h.mid.pages
  have hcount := hb.count x
  rw [if_pos hx, heldBy_spaces, List.count_append, List.count_append, count_stacks] at hcount
  exact Kern.owner_unique hP (by omega)

/-- In every run in which exec gets short arguments only, every page that the
allocator manages has exactly one owner. -/
theorem page_owner_unique {sb : Superblock} {dev : Devsw} {k₀ : Kernel} {es : List (Slot × Call)}
    (hboot : Booted sb dev img B k₀) (hrun : Run (step sb dev img) (fun _ e _ => e.2.short) k₀ es k)
    (hx : img.Managed x) : ∃! o, Owns B k x o := by
  have hinv : Inv img B k := hrun.invariant hboot.inv fun _ _ _ hi hs hshort => step_inv sb dev hi hs hshort
  exact hinv.owner_unique hx

def growth : ℕ := 0x2003000

/-- The process asks for memory. -/
theorem page_owner_unique_sbrk : ∃ k₀ p k, Booted tinySuperblock noDevices smallImage [] k₀ ∧
    Run (step tinySuperblock noDevices smallImage) (fun _ e _ => e.2.short) k₀ [(p, .sbrk growth)] k ∧
      smallImage.Managed 0x7070 ∧ ∃! o, Owns [] k 0x7070 o := by
  obtain ⟨k₀, p, k, tab, q, cwd, hboot, hs, -⟩ := boot_and_grow (m := growth) (by decide) (by decide) (by decide)
  have hrun : Run (step tinySuperblock noDevices smallImage) (fun _ e _ => e.2.short) k₀ [(p, .sbrk growth)] k :=
    .cons hs trivial (.nil _)
  exact ⟨k₀, p, k, hboot, hrun, by decide, page_owner_unique hboot hrun (by decide)⟩

/-- The argument: 7 in every byte, which makes page table entries for page 0x7070. -/
@[irreducible] def longArg : List Byte := List.replicate 0x2002FFF 7

theorem longArg_length : longArg.length = 0x2002FFF := by
  unfold longArg
  exact List.length_replicate

theorem longArg_getD {j : ℕ} (hj : j < PGSIZE) : (longArg ++ [0]).getD j 0 = 7 := by
  have hlt : j < longArg.length := by
    rw [longArg_length]
    simp only [PGSIZE] at hj
    omega
  rw [List.getD_eq_getElem?_getD, List.getElem?_append_left hlt, longArg, List.getElem?_replicate]
  rw [longArg_length] at hlt
  rw [if_pos hlt, Option.getD_some]

theorem getWord_sevens {b : Block} (h : ∀ j < PGSIZE, b j = 7) {v : ℕ} (hv : v < NPTENTRIES) :
    getWord b v = 0x07070707 := by
  have hread : LittleEndian.readLE b (4*v) 4 = LittleEndian.readLE (fun _ => 7) 0 4 := by
    apply LittleEndian.readLE_congr
    intro j hj
    apply h
    simp only [NPTENTRIES, PGSIZE] at hv ⊢
    omega
  rw [getWord, hread]
  decide

/-- The process asks for memory, puts an entry for its page table at address 0 and
calls exec with the long argument: exec fails, and page 0x7070 is in its page table
twice. -/
theorem exec_overwrites_page_table :
    ∃ k₀ es k x, Booted tinySuperblock noDevices smallImage [] k₀ ∧
      Run (step tinySuperblock noDevices smallImage) Free k₀ es k ∧ smallImage.Managed x ∧ ¬∃! o, Owns [] k x o := by
  obtain ⟨k₀, p, k₁, tab, q, cwd, hboot, hs₁, h₁, hcwd, hread⟩ := boot_and_grow (m := growth) (by decide) (by decide) (by decide)
  have hrun := storeWord_run (Q := Free) (userPte tab) (fun _ _ _ _ => trivial)
    fun _ _ _ hj => h₁.step_store tinySuperblock noDevices hj
  have h₂ := h₁.onPage (Fs.setWord (k₁.mem.page q) 0 (userPte tab))
  have hword : getWord ((k₁.onPage q (Fs.setWord (k₁.mem.page q) 0 (userPte tab))).mem.page q) 0 = userPte tab := by
    rw [Kernel.onPage, Mem.put_same, Fs.getWord_setWord, if_pos rfl]
  have hlong : LongArg 0 longArg := ⟨by decide, by decide, by rw [longArg_length]⟩
  obtain ⟨k₃, hs₃, hproc, hdir, htab, -⟩ := step_of_wp tinySuperblock noDevices (.exec programPath [longArg]) h₂.state
    (wp_discard (sys_exec_null hlong h₂ (by decide) (by decide) hcwd hword hread))
  have htable : table k₃.mem.page (k₃.proc p).pgdir 0 = some tab := by
    rw [hproc, table, hdir]
    exact h₂.table
  have hsevens : ∀ j < PGSIZE, k₃.mem.page tab j = 7 := by
    intro j hj
    rw [htab, Fs.copyIn, if_pos ⟨Nat.zero_le _, by omega⟩]
    exact longArg_getD hj
  have howns (v : ℕ) (hv : v < NPTENTRIES) : Owns [] k₃ 0x7070 (.space p (.user v)) := by
    have h0 : v/NPTENTRIES = 0 := Nat.div_eq_of_lt hv
    refine ⟨by rw [hproc, h₂.state]; decide, hv.trans (by decide), ?_⟩
    rw [Vm.entry_of_table (h0.symm ▸ htable), Nat.mod_eq_of_lt hv, getWord_sevens hsevens hv]
    decide
  refine ⟨k₀, _, k₃, 0x7070, hboot, (Run.cons hs₁ trivial hrun).append (.cons hs₃ trivial (.nil _)), by decide, ?_⟩
  rintro ⟨o, -, hunique⟩
  have h01 := (hunique _ (howns 0 (by decide))).trans (hunique _ (howns 1 (by decide))).symm
  rw [Owner.space.injEq] at h01
  cases h01.2

end ProvenXv6.Kern
