import ProvenXv6.KernCalls
import ProvenXv6.VmGrow

namespace ProvenXv6.Kern
open RefCount WeakestPre
open Fs (FS FsM Fault Ip Superblock Devsw)
open Vm (Mem VmM BootImage Balanced KERNBASE)
open Ptable (NPROC Slot ProcState)

/-- How a call may end without returning. -/
def Allowed : Stop → Prop
  | .fs _ => True
  | .mem e => e ≠ .fuel
  | .panic msg => msg ≠ "filedup" ∧ msg ≠ "fileclose"
  | .dangling => False
  | .sleep => True

theorem allowed_trap : Allowed (.panic "trap") := ⟨by decide, by decide⟩

/-- The pages of a process, with the size of its memory. -/
structure Space where
  pgdir : ℕ
  kstack : ℕ
  sz : ℕ
  deriving DecidableEq

def Proc.space (e : Proc) : Option Space :=
  if e.state = .unused then none else some ⟨e.pgdir, e.kstack, e.sz⟩

theorem Proc.space_used {e : Proc} (h : e.state ≠ .unused) : e.space = some ⟨e.pgdir, e.kstack, e.sz⟩ :=
  if_neg h

theorem Proc.space_unused {e : Proc} (h : e.state = .unused) : e.space = none := if_pos h

def spaces (k : Kernel) : List Space := (List.finRange NPROC).filterMap fun q => (k.proc q).space

variable {img : BootImage} {B D L : List ℕ} {R : List Space} {k k' : Kernel} {f : FilePtr} {p q : Slot} {x : Space}

theorem mem_spaces (h : (k.proc p).space = some x) : x ∈ spaces k :=
  List.mem_filterMap.mpr ⟨p, List.mem_finRange p, h⟩

theorem spaces_update {e : Proc} (h : k'.proc = Function.update k.proc p e) :
    ((k.proc p).space.toList ++ spaces k').Perm (e.space.toList ++ spaces k) := by
  have hcomp : (fun q => (k'.proc q).space) = Function.update (fun q => (k.proc q).space) p e.space := by
    rw [h]
    exact Function.comp_update Proc.space k.proc p e
  unfold spaces
  rw [hcomp]
  exact filterMap_update_perm (fun q => (k.proc q).space) p e.space

theorem spaces_split (h : (k.proc p).space = some x) : ∃ R, (spaces k).Perm (x :: R) ∧
    ∀ k' e, k'.proc = Function.update k.proc p e → (spaces k').Perm (e.space.toList ++ R) := by
  refine ⟨(spaces k).erase x, List.perm_cons_erase (mem_spaces h), ?_⟩
  intro k' e he
  have hupdate := spaces_update he
  rw [h] at hupdate
  have hsplit := (List.perm_cons_erase (mem_spaces h)).append_left e.space.toList
  exact ((hupdate.trans hsplit).trans List.perm_middle).cons_inv

/-- The kernel between two calls. The pages B are in use since the boot. -/
structure Inv (img : BootImage) (B : List ℕ) (k : Kernel) : Prop where
  mid : Mid img (slots k) [] ((spaces k).map Space.pgdir) ((spaces k).map Space.kstack ++ B) k
  closed : ∀ q, (k.proc q).state ≠ .runnable → ∀ fd, (k.proc q).ofile fd = none
  size : ∀ x ∈ spaces k, x.sz < KERNBASE

theorem Inv.of_perm (hR : (spaces k).Perm R)
    (hmid : Mid img (slots k) [] (R.map Space.pgdir) (R.map Space.kstack ++ B) k)
    (hclosed : ∀ q, (k.proc q).state ≠ .runnable → ∀ fd, (k.proc q).ofile fd = none)
    (hsize : ∀ x ∈ R, x.sz < KERNBASE) : Inv img B k where
  mid := hmid.perm (hR.map _).symm ((hR.map _).symm.append_right B)
  closed := hclosed
  size x hx := hsize x (hR.mem_iff.mp hx)

theorem Inv.mid_of_perm (h : Inv img B k) (hR : (spaces k).Perm R) :
    Mid img (slots k) [] (R.map Space.pgdir) (R.map Space.kstack ++ B) k :=
  h.mid.perm (hR.map _) ((hR.map _).append_right B)

theorem Inv.same (h : Inv img B k)
    (hmid : Mid img (slots k') [] ((spaces k).map Space.pgdir) ((spaces k).map Space.kstack ++ B) k')
    (hspace : ∀ q, (k'.proc q).space = (k.proc q).space)
    (hclosed : ∀ q, (k'.proc q).state ≠ .runnable → ∀ fd, (k'.proc q).ofile fd = none) : Inv img B k' := by
  have hspaces : spaces k' = spaces k := by
    unfold spaces
    simp only [hspace]
  apply Inv.of_perm (List.Perm.of_eq hspaces) hmid hclosed h.size

theorem Inv.keep {e : Proc} (h : Inv img B k) (hproc : k'.proc = Function.update k.proc p e)
    (hmid : Mid img (slots k') [] ((spaces k).map Space.pgdir) ((spaces k).map Space.kstack ++ B) k')
    (hspace : e.space = (k.proc p).space) (hclosed : e.state ≠ .runnable → ∀ fd, e.ofile fd = none) :
    Inv img B k' := by
  apply h.same hmid
  · intro q
    rw [hproc]
    by_cases hq : q = p
    · subst hq
      rw [Function.update_self, hspace]
    · rw [Function.update_of_ne hq]
  · intro q
    rw [hproc]
    by_cases hq : q = p
    · subst hq
      rw [Function.update_self]
      exact hclosed
    · rw [Function.update_of_ne hq]
      exact h.closed q

theorem Inv.fileCall (h : Inv img B k) (hp : (k.proc p).state = .runnable)
    (hcall : FileCall img p ((spaces k).map Space.pgdir) ((spaces k).map Space.kstack ++ B) k k') :
    Inv img B k' := by
  obtain ⟨hmid, o, c, hproc⟩ := hcall
  exact h.keep hproc hmid rfl fun hne => absurd hp hne

theorem Inv.change {e : Proc} (h : Inv img B k) (hR : (spaces k').Perm (e.space.toList ++ R))
    (hproc : k'.proc = Function.update k.proc p e)
    (hmid : Mid img (slots k') [] ((e.space.toList ++ R).map Space.pgdir)
      ((e.space.toList ++ R).map Space.kstack ++ B) k')
    (hrest : ∀ x ∈ R, x ∈ spaces k) (hsize : ∀ x, e.space = some x → x.sz < KERNBASE)
    (hclosed : e.state ≠ .runnable → ∀ fd, e.ofile fd = none) : Inv img B k' := by
  apply Inv.of_perm hR hmid
  · intro q
    rw [hproc]
    by_cases hq : q = p
    · subst hq
      rw [Function.update_self]
      exact hclosed
    · rw [Function.update_of_ne hq]
      exact h.closed q
  · intro x hx
    rcases List.mem_append.mp hx with hx | hx
    · exact hsize x (Option.mem_toList.mp hx)
    · exact h.size x (hrest x hx)

theorem slots_congr (h : ∀ q, (k'.proc q).ofile = (k.proc q).ofile) : slots k' = slots k := by
  funext i
  unfold slots
  rw [h]

theorem slots_update {e : Proc} (h : k'.proc = Function.update k.proc p e)
    (he : e.ofile = (k.proc p).ofile) : slots k' = slots k := by
  apply slots_congr
  intro q
  rw [h]
  by_cases hq : q = p
  · subst hq
    rw [Function.update_self, he]
  · rw [Function.update_of_ne hq]

/-- The entry that `allocproc` took is given back. -/
theorem Inv.giveBack {np : Slot} {pid : ℕ} (h : Inv img B k) (hunused : (k.proc np).state = .unused)
    (hproc : k'.proc = Function.update k.proc np { k.proc np with state := .unused, pid := pid, kstack := 0 })
    (hmid : Mid img (slots k) [] ((spaces k).map Space.pgdir) ((spaces k).map Space.kstack ++ B) k') :
    Inv img B k' := by
  refine h.keep hproc ?_ ?_ fun _ => h.closed np (by rw [hunused]; decide)
  · rw [slots_update hproc rfl]
    exact hmid
  · rw [Proc.space_unused rfl, Proc.space_unused hunused]

/-- The entry becomes a process with its space. -/
theorem Inv.add {np : Slot} {e : Proc} {x : Space} (h : Inv img B k) (hunused : (k.proc np).state = .unused)
    (hproc : k'.proc = Function.update k.proc np e) (hstate : e.state = .runnable) (hspace : e.space = some x)
    (hsize : x.sz < KERNBASE) (hmid : Mid img (slots k') [] (x.pgdir :: (spaces k).map Space.pgdir)
      (x.kstack :: ((spaces k).map Space.kstack ++ B)) k') : Inv img B k' := by
  have hspaces := spaces_update hproc
  rw [Proc.space_unused hunused] at hspaces
  refine h.change hspaces hproc ?_ (fun _ hx => hx) ?_ fun hne => absurd hstate hne
  · rw [hspace]
    exact hmid
  · intro y hy
    rw [hspace] at hy
    cases hy
    exact hsize

theorem growproc_balanced {F : Fault → Prop} {s : Mem} {d sz : ℕ} {n : ℤ} (hF : F (.panic "remap"))
    (hsz : sz < KERNBASE) (h : Balanced img (d :: D) L s) :
    wp F (Vm.growproc img d sz n) (fun r t => Balanced img (d :: D) L t ∧ r.2 < KERNBASE) s := by
  unfold Vm.growproc
  generalize (((sz : ℤ)+n)%0x100000000).toNat = newsz
  dsimp only
  split_ifs with hpos hneg
  · rw [wp_bind]
    by_cases hk : newsz ≥ KERNBASE
    · rw [Vm.allocuvm, if_pos hk]
      exact ⟨h, hsz⟩
    · by_cases hlt : newsz < sz
      · rw [Vm.allocuvm, if_neg hk, if_pos hlt, wp_pure]
        split_ifs <;> exact ⟨h, hsz⟩
      · apply wp_mono (Vm.allocuvm_spec (by omega) (by omega) h fun _ _ _ => Or.inr hF)
        rintro r t ⟨hb, ⟨rfl, -⟩ | ⟨rfl, -⟩⟩
        · split_ifs
          · exact ⟨hb, hsz⟩
          · exact ⟨hb, by dsimp only; omega⟩
        · exact ⟨hb, hsz⟩
  · rw [wp_bind]
    apply wp_mono (Vm.deallocuvm_spec _ hsz.le h)
    rintro r t ⟨rfl, hb, -⟩
    split_ifs
    · exact ⟨hb, hsz⟩
    · exact ⟨hb, (min_le_left _ _).trans_lt hsz⟩
  · exact ⟨h, hsz⟩

section Calls
variable (sb : Superblock) (dev : Devsw) (h : Inv img B k) (hp : (k.proc p).state = .runnable)

include hp in
theorem space_runnable : (k.proc p).space = some ⟨(k.proc p).pgdir, (k.proc p).kstack, (k.proc p).sz⟩ :=
  Proc.space_used (by rw [hp]; decide)

include h hp in
theorem sys_sbrk_spec {n : ℤ} : wp Allowed (sys_sbrk img p n) (fun _ => Inv img B) k := by
  have hspace := space_runnable hp
  obtain ⟨R, hR, hnew⟩ := spaces_split hspace
  unfold sys_sbrk
  rw [wp_bind, wp_getProc, wp_bind]
  apply (h.mid_of_perm hR).onMem (fun _ => (k.proc p).pgdir :: R.map Space.pgdir)
    (fun _ => (k.proc p).kstack :: R.map Space.kstack ++ B) (fun r _ => r.2 < KERNBASE)
  · intro P hb
    exact growproc_balanced (by simp [Allowed]) (h.size _ (mem_spaces hspace)) hb
  · rintro ⟨r, sz⟩ t hmid hsz
    dsimp only
    rw [wp_bind, wp_setProc]
    have hstate : (({ k with mem := t }.mapProc p fun e => { e with sz := sz }).proc p).state = .runnable := by
      rw [Kernel.mapProc_same]
      exact hp
    have hinv : Inv img B ({ k with mem := t }.mapProc p fun e => { e with sz := sz }) := by
      refine h.change (e := { k.proc p with sz := sz }) (hnew _ _ rfl) rfl ?_
        (fun x hx => hR.mem_iff.mpr (List.mem_cons_of_mem _ hx)) ?_ fun hne => absurd hp hne
      · rw [slots_update (k := k) (p := p) (e := { k.proc p with sz := sz }) rfl rfl,
          Proc.space_used (by rw [hp]; decide)]
        exact hmid.congr rfl rfl rfl
      · intro x hx
        rw [Proc.space_used (by rw [hp]; decide)] at hx
        cases hx
        exact hsz
    split_ifs <;> exact hinv

include h hp in
theorem Inv.put_user {v x : ℕ} (hv : v < Vm.UPAGES)
    (hx : Vm.target (Vm.entry k.mem.page (k.proc p).pgdir v) = some x) (b : Fs.Block) :
    Inv img B { k with mem := k.mem.put x b } := by
  obtain ⟨R, hR, -⟩ := spaces_split (space_runnable hp)
  obtain ⟨P, hnodup, hP, hb⟩ := (h.mid_of_perm hR).pages
  have hmid : Mid img (slots k) [] ((_ :: R).map Space.pgdir) ((_ :: R).map Space.kstack ++ B)
      { k with mem := k.mem.put x b } := ⟨h.mid.files.congr rfl rfl, P, hnodup, hP, (hb.put_user hv hx b).1⟩
  exact h.same ((hmid.perm (hR.map Space.pgdir).symm ((hR.map Space.kstack).symm.append_right B)).congr rfl rfl rfl)
    (fun _ => rfl) h.closed

include h hp in
theorem userStore_spec {va : ℕ} {b : Fs.Byte} : wp Allowed (userStore p va b) (fun _ => Inv img B) k := by
  unfold userStore
  rw [wp_bind, wp_getProc]
  split_ifs with hva
  · trivial
  · have hv : va/Vm.PGSIZE < Vm.UPAGES := by
      simp only [Vm.UPAGES, KERNBASE, Vm.PGSIZE] at hva ⊢
      omega
    rw [wp_bind, wp_onMem, Vm.walkpgdir_false]
    have hPDX : Vm.PDX va = va/Vm.PGSIZE/Vm.NPTENTRIES := by
      rw [Vm.PDX, Nat.div_div_eq_div_mul]
      rfl
    cases htab : Vm.table k.mem.page (k.proc p).pgdir (Vm.PDX va) with
    | none => trivial
    | some tab =>
      dsimp only
      rw [wp_bind, wp_onMem, Vm.wp_getPte]
      dsimp only
      split_ifs with hpte
      · trivial
      · have hentry : Vm.entry k.mem.page (k.proc p).pgdir (va/Vm.PGSIZE) =
            Fs.getWord (k.mem.page tab) (Vm.PTX va) := Vm.entry_of_table (hPDX ▸ htab)
        rw [wp_bind, wp_get, wp_onMem, Vm.wp_setPage]
        apply h.put_user hp hv
        rw [hentry]
        exact Vm.target_of_present (not_or.mp hpte).1

include h in
theorem allocproc_spec {F : Stop → Prop} : wp F allocproc (fun r k' => match r with
    | none => Inv img B k'
    | some np => (k.proc np).state = .unused ∧ k'.mem.page = k.mem.page ∧ ∃ pid st,
        k'.proc = Function.update k.proc np { k.proc np with state := .embryo, pid := pid, kstack := st } ∧
        Mid img (slots k) [] ((spaces k).map Space.pgdir) (st :: ((spaces k).map Space.kstack ++ B)) k') k := by
  unfold allocproc
  rw [wp_bind, wp_get]
  split
  next => exact h
  next np hnp =>
    have hunused : (k.proc np).state = .unused := by simpa using List.find?_some hnp
    simp only [wp_bind, wp_setProc, wp_modify]
    have hmid : Mid img (slots k) [] ((spaces k).map Space.pgdir) ((spaces k).map Space.kstack ++ B)
        { k.mapProc np fun e => { e with state := .embryo, pid := k.nextpid } with nextpid := k.nextpid+1 } :=
      h.mid.congr rfl rfl rfl
    apply hmid.kalloc
    · intro t hmid'
      dsimp only
      rw [wp_bind, wp_setProc]
      refine h.giveBack hunused (?_ : _ = Function.update k.proc np
        { k.proc np with state := .unused, pid := k.nextpid, kstack := 0 }) (hmid'.congr rfl rfl rfl)
      simp [Kernel.mapProc]
    · intro q t hpage hmid'
      dsimp only
      rw [wp_bind, wp_setProc]
      refine ⟨hunused, hpage, k.nextpid, q, ?_, hmid'.congr rfl rfl rfl⟩
      simp [Kernel.mapProc]

theorem dupFiles_spec {F : Stop → Prop} {np : Slot} (hne : p ≠ np) (hmid : Mid img (slots k) [] D L k)
    (hnone : ∀ fd, (k.proc np).ofile fd = none) :
    wp F (dupFiles p np) (fun _ k' => Mid img (slots k') [] D L k' ∧
      k'.proc = Function.update k.proc np { k.proc np with ofile := (k.proc p).ofile }) k := by
  have hloop := wp_forM (F := F) (fun (l : List Fd) k' => l.Nodup ∧ Mid img (slots k') [] D L k' ∧
    ∃ o, k'.proc = Function.update k.proc np { k.proc np with ofile := o } ∧
      ∀ fd, o fd = if fd ∈ l then none else (k.proc p).ofile fd) (f := dupFile p np)
  refine wp_mono (hloop ?_ (List.finRange NOFILE) k ⟨List.nodup_finRange _, hmid, (k.proc np).ofile,
    (Function.update_eq_self _ _).symm, ?_⟩) ?_
  · rintro fd l k₁ ⟨hnodup, hmid₁, o, hproc, hrest⟩
    obtain ⟨hfd, hnodup⟩ := List.nodup_cons.mp hnodup
    have hp₁ : k₁.proc p = k.proc p := by rw [hproc, Function.update_of_ne hne]
    unfold dupFile
    rw [wp_bind, wp_getProc, hp₁]
    split
    next hclosed =>
      refine ⟨hnodup, hmid₁, o, hproc, fun fd' => ?_⟩
      rw [hrest fd']
      by_cases heq : fd' = fd
      · rw [heq, if_pos List.mem_cons_self, if_neg hfd, hclosed]
      · simp only [List.mem_cons, heq, false_or]
    next f hf =>
      have hpos : 0 < (k₁.file f).ref := by
        have := refs_pos_of (f := slots k₁) (i := (p, fd)) (by rw [slots, hp₁]; exact hf)
        rw [hmid₁.files.ref f]
        omega
      have hfree : slots k₁ (np, fd) = none := by
        rw [slots, hproc, Function.update_self]
        exact (hrest fd).trans (if_pos List.mem_cons_self)
      rw [wp_bind]
      apply wp_mono (filedup_spec hmid₁ hpos)
      rintro _ k₂ ⟨hproc₂, hmid₂⟩
      rw [wp_setFd]
      have hslots : slots k₂ = slots k₁ := by
        unfold slots
        rw [hproc₂]
      refine ⟨hnodup, ?_, Function.update o fd (some f), ?_, fun fd' => ?_⟩
      · rw [slots_withFd, hslots]
        exact (hmid₂.withFiles (hmid₂.files.give hfree) rfl rfl).congr rfl rfl rfl
      · rw [Kernel.mapProc, hproc₂, hproc, Function.update_self, Function.update_idem]
        rfl
      · by_cases heq : fd' = fd
        · rw [heq, Function.update_self, if_neg hfd, hf]
        · rw [Function.update_of_ne heq, hrest fd']
          simp only [List.mem_cons, heq, false_or]
  · exact fun fd => (hnone fd).trans (if_pos (List.mem_finRange fd)).symm
  · rintro _ k' ⟨-, hmid', o, hproc, hall⟩
    have ho : o = (k.proc p).ofile := funext fun fd => (hall fd).trans (if_neg List.not_mem_nil)
    exact ⟨hmid', ho ▸ hproc⟩

include h hp in
theorem fork_spec {F : Stop → Prop} (htrap : F (.panic "trap") ∨ (k.proc p).cwd ≠ none)
    (hsrc : Vm.Source (fun e => F (.mem e)) k.mem (k.proc p).pgdir (k.proc p).sz) :
    wp F (fork img p) (fun r k' => Inv img B k' ∧ (0 ≤ r → ∃ np e, (k.proc np).state = .unused ∧
      e.ofile = (k.proc p).ofile ∧ k'.proc = Function.update k.proc np e)) k := by
  unfold fork
  rw [wp_bind]
  apply wp_mono (allocproc_spec h)
  rintro (_ | np) k₁ hk₁
  · exact ⟨hk₁, fun hr => absurd hr (by decide)⟩
  · obtain ⟨hunused, hpage, pid, st, hproc₁, hmid₁⟩ := hk₁
    have hne : p ≠ np := by
      rintro rfl
      rw [hp] at hunused
      exact absurd hunused (by decide)
    have hp₁ : k₁.proc p = k.proc p := by rw [hproc₁, Function.update_of_ne hne]
    have hspace := mem_spaces (space_runnable hp)
    have hnone : ∀ fd, (k.proc np).ofile fd = none := h.closed np (by rw [hunused]; decide)
    dsimp only
    rw [wp_bind, wp_getProc, hp₁, wp_bind]
    apply hmid₁.onMem (fun r => r.toList ++ (spaces k).map Space.pgdir)
      (fun _ => st :: ((spaces k).map Space.kstack ++ B))
      (fun _ _ => True)
    · intro P hb
      apply wp_mono (Vm.copyuvm_spec (h.size _ hspace).le (List.mem_map_of_mem hspace) hb
        fun u hu => by rw [hpage]; exact hsrc u hu)
      rintro (_ | d) t ⟨-, hr⟩
      · exact ⟨hr, trivial⟩
      · exact ⟨hr.1, trivial⟩
    · rintro (_ | d) t hmid₂ -
      · -- no memory for the address space: the stack goes back
        dsimp only
        have hst : ({ k₁ with mem := t }.proc np).kstack = st := by
          change (k₁.proc np).kstack = st
          rw [hproc₁, Function.update_self]
        rw [wp_bind, wp_getProc, wp_bind, hst]
        apply hmid₂.kfree
        intro t' hmid₃
        rw [wp_bind, wp_setProc]
        have hproc₃ : ({ k₁ with mem := t' }.mapProc np fun c => { c with kstack := 0, state := .unused }).proc =
            Function.update k.proc np { k.proc np with state := .unused, pid := pid, kstack := 0 } := by
          rw [Kernel.mapProc, hproc₁, Function.update_self, Function.update_idem]
        exact ⟨h.giveBack hunused hproc₃ (hmid₃.congr rfl rfl rfl), fun hr => absurd hr (by decide)⟩
      · dsimp only
        rw [wp_bind, wp_setProc, wp_bind]
        have hproc₃ : ({ k₁ with mem := t }.mapProc np fun c =>
              { c with pgdir := d, sz := (k.proc p).sz, parent := some p }).proc =
            Function.update k.proc np { k.proc np with
              state := .embryo, pid := pid, kstack := st, pgdir := d, sz := (k.proc p).sz, parent := some p } := by
          rw [Kernel.mapProc, hproc₁, Function.update_self, Function.update_idem]
        have hmid₃ : Mid img (slots ({ k₁ with mem := t }.mapProc np fun c =>
              { c with pgdir := d, sz := (k.proc p).sz, parent := some p })) []
            (d :: (spaces k).map Space.pgdir) (st :: ((spaces k).map Space.kstack ++ B))
            ({ k₁ with mem := t }.mapProc np fun c =>
              { c with pgdir := d, sz := (k.proc p).sz, parent := some p }) := by
          rw [slots_update hproc₃ rfl]
          exact hmid₂.congr rfl rfl rfl
        apply wp_mono (dupFiles_spec hne hmid₃ (by rw [hproc₃, Function.update_self]; exact hnone))
        rintro _ k₄ ⟨hmid₄, hproc₄⟩
        rw [hproc₃, Function.update_self, Function.update_idem, Function.update_of_ne hne] at hproc₄
        rw [wp_bind, getCwd, wp_bind, wp_getProc, show k₄.proc p = k.proc p by rw [hproc₄, Function.update_of_ne hne]]
        cases hcwd : (k.proc p).cwd with
        | none => exact htrap.resolve_right (not_not.mpr hcwd)
        | some cwd =>
          dsimp only
          rw [wp_pure, wp_bind]
          apply wp_idup
          intro fs
          simp only [wp_bind, wp_setProc, wp_getProc, wp_pure]
          obtain ⟨child, hchild⟩ : ∃ child : Proc, child = { k.proc np with
              state := .runnable, pid := pid, kstack := st, pgdir := d, sz := (k.proc p).sz, parent := some p
              ofile := (k.proc p).ofile, cwd := some cwd } := ⟨_, rfl⟩
          have hproc₅ : (({ k₄ with fs := fs }.mapProc np fun c => { c with cwd := some cwd }).mapProc np
              fun c => { c with state := .runnable }).proc = Function.update k.proc np child := by
            simp only [hchild, Kernel.mapProc, hproc₄, Function.update_self, Function.update_idem]
          have hslots₅ : slots (({ k₄ with fs := fs }.mapProc np fun c => { c with cwd := some cwd }).mapProc np
              fun c => { c with state := .runnable }) = slots k₄ := by
            apply slots_update (p := np) (e := child)
            · rw [hproc₅, hproc₄, Function.update_idem]
            · rw [hproc₄, Function.update_self, hchild]
          have hsize : (k.proc p).sz < KERNBASE := h.size _ hspace
          refine ⟨h.add hunused hproc₅ (by rw [hchild]) (x := ⟨d, st, (k.proc p).sz⟩) (by rw [hchild]; rfl)
            hsize ?_, fun _ => ⟨np, child, hunused, by rw [hchild], hproc₅⟩⟩
          rw [hslots₅]
          exact hmid₄.congr rfl rfl rfl

theorem closeFiles_spec (hmid : Mid img (slots k) [] D L k) :
    wp Allowed (closeFiles sb img p) (fun _ k' => Mid img (slots k') [] D L k' ∧
      ∃ o, k'.proc = Function.update k.proc p { k.proc p with ofile := o } ∧ ∀ fd, o fd = none) k := by
  have hloop := wp_forM (F := Allowed) (fun (l : List Fd) k' => Mid img (slots k') [] D L k' ∧
    ∃ o, k'.proc = Function.update k.proc p { k.proc p with ofile := o } ∧ ∀ fd, fd ∉ l → o fd = none)
    (f := closeFile sb img p)
  refine wp_mono (hloop ?_ (List.finRange NOFILE) k ⟨hmid, (k.proc p).ofile,
    (Function.update_eq_self _ _).symm, fun fd hfd => absurd (List.mem_finRange fd) hfd⟩) ?_
  · rintro fd l k₁ ⟨hmid₁, o, hproc, hrest⟩
    have hofile : (k₁.proc p).ofile = o := by rw [hproc, Function.update_self]
    unfold closeFile
    rw [wp_bind, wp_getProc]
    split
    next hnone =>
      refine ⟨hmid₁, o, hproc, ?_⟩
      intro fd' hfd'
      by_cases heq : fd' = fd
      · rw [heq, ← hofile, hnone]
      · exact hrest fd' (by simp [heq, hfd'])
    next f hf =>
      have htake := hmid₁.withFiles (hmid₁.files.take (i := (p, fd)) hf) rfl rfl
      rw [wp_bind]
      apply wp_mono (fileclose_spec sb (fun _ => trivial) htake)
      rintro _ k₂ ⟨hproc₂, hmid₂⟩
      have hslots : slots k₂ = slots k₁ := by
        unfold slots
        rw [hproc₂]
      rw [wp_setFd]
      refine ⟨?_, Function.update o fd none, ?_, ?_⟩
      · rw [slots_withFd, hslots]
        exact hmid₂.congr rfl rfl rfl
      · rw [Kernel.mapProc, hproc₂, hproc, Function.update_self, Function.update_idem]
        rfl
      · intro fd' hfd'
        by_cases heq : fd' = fd
        · rw [heq, Function.update_self]
        · rw [Function.update_of_ne heq]
          exact hrest fd' (by simp [heq, hfd'])
  · rintro _ k' ⟨hmid', o, hproc, hnone⟩
    exact ⟨hmid', o, hproc, fun fd => hnone fd List.not_mem_nil⟩

/-- Apart from the parents, nothing changes. -/
def SameButParents (k k' : Kernel) : Prop :=
  ∀ q, ∃ parent, k'.proc q = { k.proc q with parent := parent }

theorem abandon_spec {F : Stop → Prop} : wp F (abandon p) (fun _ k' => k'.file = k.file ∧ k'.pipe = k.pipe ∧
    k'.mem = k.mem ∧ SameButParents k k') k := by
  unfold abandon
  rw [wp_bind, wp_get]
  have hloop := wp_forM (F := F) (fun (_ : List Slot) k' => k'.file = k.file ∧ k'.pipe = k.pipe ∧
    k'.mem = k.mem ∧ SameButParents k k')
    (f := fun q => setProc q fun e => if e.parent = some p then { e with parent := some k.initproc } else e)
  refine hloop ?_ (List.finRange NPROC) k ⟨rfl, rfl, rfl, fun q => ⟨(k.proc q).parent, rfl⟩⟩
  rintro q l k₁ ⟨hfile, hpipe, hmem, hsame⟩
  rw [wp_setProc]
  refine ⟨hfile, hpipe, hmem, ?_⟩
  intro r
  obtain ⟨parent, hr⟩ := hsame r
  by_cases hq : r = q
  · subst hq
    rw [Kernel.mapProc_same, hr]
    split_ifs
    · exact ⟨_, rfl⟩
    · exact ⟨_, rfl⟩
  · rw [Kernel.mapProc_of_ne _ hq]
    exact ⟨parent, hr⟩

include h hp in
theorem exit_spec : wp Allowed (exit sb img p) (fun _ => Inv img B) k := by
  unfold exit
  rw [wp_bind, wp_get]
  split_ifs
  · exact ⟨by decide, by decide⟩
  · rw [wp_bind]
    apply wp_mono (closeFiles_spec sb h.mid)
    rintro _ k₁ ⟨hmid₁, o, hproc₁, hnone⟩
    rw [wp_bind, wp_begin_op, wp_bind]
    apply wp_getCwd allowed_trap
    intro cwd _
    rw [wp_bind]
    apply wp_anyFs fun _ => trivial
    intro _ fs
    rw [wp_bind, wp_end_op, wp_bind, wp_setProc, wp_bind]
    apply wp_mono abandon_spec
    rintro _ k₃ ⟨hfile, hpipe, hmem, hsame⟩
    rw [wp_setProc]
    have hproc₂ : (({ k₁.txn .begin_op with fs := fs }.txn .end_op).mapProc p fun e => { e with cwd := none }).proc =
        Function.update k.proc p { k.proc p with ofile := o, cwd := none } := by
      change Function.update k₁.proc p { k₁.proc p with cwd := none } = _
      rw [hproc₁, Function.update_self, Function.update_idem]
    have hslots : slots (k₃.mapProc p fun e => { e with state := .zombie }) = slots k₁ := by
      apply slots_congr
      intro q
      obtain ⟨parent, hq⟩ := hsame q
      rw [hproc₂] at hq
      rw [hproc₁]
      by_cases hqp : q = p
      · subst hqp
        rw [Kernel.mapProc_same, hq, Function.update_self, Function.update_self]
      · rw [Kernel.mapProc_of_ne _ hqp, hq, Function.update_of_ne hqp, Function.update_of_ne hqp]
    apply h.same
    · rw [hslots]
      exact hmid₁.congr hfile hpipe hmem
    · intro q
      obtain ⟨parent, hq⟩ := hsame q
      rw [hproc₂] at hq
      by_cases hqp : q = p
      · subst hqp
        rw [Kernel.mapProc_same, hq, Function.update_self, space_runnable hp]
        rfl
      · rw [Kernel.mapProc_of_ne _ hqp, hq, Function.update_of_ne hqp]
        rfl
    · intro q
      obtain ⟨parent, hq⟩ := hsame q
      rw [hproc₂] at hq
      by_cases hqp : q = p
      · subst hqp
        rw [Kernel.mapProc_same, hq, Function.update_self]
        exact fun _ => hnone
      · rw [Kernel.mapProc_of_ne _ hqp, hq, Function.update_of_ne hqp]
        exact h.closed q

include h in
theorem wait_spec : wp Allowed (wait img p) (fun _ => Inv img B) k := by
  unfold wait
  rw [wp_bind, wp_get]
  split
  next q hq =>
    have hzombie : (k.proc q).state = .zombie := by
      have := List.find?_some hq
      simp only [Bool.decide_and, Bool.and_eq_true, decide_eq_true_eq] at this
      exact this.2
    obtain ⟨R, hR, hnew⟩ := spaces_split (Proc.space_used (e := k.proc q) (by rw [hzombie]; decide))
    have hmid := h.mid_of_perm hR
    rw [wp_bind, wp_getProc, wp_bind]
    apply hmid.kfree
    intro t hmid₁
    rw [wp_bind, wp_setProc, wp_bind]
    have hmid₂ : Mid img (slots k) [] ((k.proc q).pgdir :: R.map Space.pgdir) (R.map Space.kstack ++ B)
        ({ k with mem := t }.mapProc q fun e => { e with kstack := 0 }) := hmid₁.congr rfl rfl rfl
    apply hmid₂.onMem (fun _ => R.map Space.pgdir) (fun _ => R.map Space.kstack ++ B)
      (fun _ _ => True)
    · intro P hb
      apply wp_mono (Vm.freevm_spec hb)
      rintro _ t' ⟨hb', -⟩
      exact ⟨hb', trivial⟩
    · rintro _ t' hmid₃ -
      rw [wp_bind, wp_setProc]
      obtain ⟨e, he⟩ : ∃ e : Proc, e = { k.proc q with
          kstack := 0, pid := 0, parent := none, killed := false, state := .unused } := ⟨_, rfl⟩
      have hspace : e.space = none := by rw [he]; rfl
      have hproc : ({ { k with mem := t }.mapProc q fun e => { e with kstack := 0 } with mem := t' }.mapProc q
          fun e => { e with pid := 0, parent := none, killed := false, state := .unused }).proc =
          Function.update k.proc q e := by
        simp only [he, Kernel.mapProc, Function.update_self, Function.update_idem]
      have hslots := slots_update hproc (by rw [he])
      refine h.change (R := R) (hnew _ _ hproc) hproc ?_
        (fun x hx => hR.mem_iff.mpr (List.mem_cons_of_mem _ hx)) ?_ ?_
      · rw [hslots, hspace]
        exact hmid₃.congr rfl rfl rfl
      · intro x hx
        rw [hspace] at hx
        cases hx
      · rw [he]
        exact fun _ => h.closed q (by rw [hzombie]; decide)
  next =>
    split_ifs
    · exact h
    · trivial

end Calls

end ProvenXv6.Kern
