import Mathlib.Data.Fintype.Prod
import ProvenXv6.KernSteps

namespace ProvenXv6.Kern
open RefCount WeakestPre StepSystem
open Fs (Ip Superblock Devsw tinySuperblock noDevices)
open Vm (Mem BootImage PGSIZE KERNBASE NPDENTRIES entry target pages smallImage)
open Ptable (NPROC Slot ProcState)

variable {img : BootImage} {B : List ℕ} {k k' : Kernel} {p : Slot}

def Call.noExec : Call → Prop
  | .exec _ _ => False
  | _ => True

theorem Call.noExec.short {call : Call} (h : call.noExec) : call.short := by
  cases call <;> trivial

/-- What the file table and the pipes promise between two calls. -/
structure FilesExact (k : Kernel) : Prop where
  ref : ∀ f, (k.file f).ref = (Finset.univ.filter fun i : Slot × Fd => (k.proc i.1).ofile i.2 = some f).card
  unused : ∀ f, (k.file f).ref = 0 → ∀ p fd, (k.proc p).ofile fd ≠ some f
  ends : ∀ q e, k.pipe q = some e → ∀ w, e.isOpen w = true ↔ ∃ f, 0 < (k.file f).ref ∧ IsEnd k q w f
  live : ∀ q w f, 0 < (k.file f).ref → IsEnd k q w f → k.pipe q ≠ none
  allocated : ∀ q e, k.pipe q = some e → q ∉ k.mem.free ∧ ∃ w, e.isOpen w = true

theorem Inv.filesExact (h : Inv img B k) : FilesExact k := by
  have href (f : FilePtr) : (k.file f).ref = (refs (slots k) f : ℕ) := by
    rw [h.mid.files.ref f, List.count_nil, Nat.add_zero]
  have hnone {f : FilePtr} (hf : (k.file f).ref = 0) (p : Slot) (fd : Fd) : (k.proc p).ofile fd ≠ some f := by
    have hzero : refs (slots k) f = 0 := by
      rw [href f] at hf
      omega
    exact refs_eq_zero.mp hzero (p, fd)
  have hpos {f : FilePtr} (hf : (k.file f).type = .FD_PIPE) : 0 < (k.file f).ref := by
    by_contra hle
    have hzero : (k.file f).ref = 0 := by
      have := href f
      omega
    rw [h.mid.files.idle f hzero] at hf
    cases hf
  refine ⟨href, fun f => hnone, ?_, ?_, ?_⟩
  · intro q e he w
    constructor
    · intro hopen
      obtain ⟨f, hf⟩ := h.mid.files.ends q w e he hopen
      exact ⟨f, hpos hf.1, hf⟩
    · rintro ⟨f, -, hf⟩
      obtain ⟨e', he', hopen⟩ := h.mid.files.live q w f hf
      rw [he] at he'
      cases he'
      exact hopen
  · intro q w f _ hf
    obtain ⟨e, he, -⟩ := h.mid.files.live q w f hf
    rw [he]
    exact Option.some_ne_none e
  · intro q e he
    refine ⟨?_, h.mid.files.used q e he⟩
    intro hfree
    obtain ⟨P, -, hP, hb⟩ := h.mid.pages
    have h1 := hb.le_one q
    have h2 := List.count_pos_iff.mpr hfree
    have h3 := List.count_pos_iff.mpr ((hP q).mpr (by rw [he]; exact Option.some_ne_none e))
    rw [List.count_append] at h1
    omega

/-- Along every run of the calls on files and processes the reference counts are
exact, and no call ends in the panics of `filedup` and `fileclose` or with a pipe
that has been freed. -/
theorem ftable_refs_exact {sb : Superblock} {dev : Devsw} {k₀ : Kernel} {es : List (Slot × Call)}
    (hboot : Booted sb dev img B k₀) (hrun : Run (step sb dev img) (fun _ e _ => e.2.noExec) k₀ es k) :
    FilesExact k ∧ ∀ p call e, (k.proc p).state = .runnable → call.noExec →
      perform sb dev img p call k = .error e →
        e ≠ .panic "filedup" ∧ e ≠ .panic "fileclose" ∧ e ≠ .dangling := by
  have hinv : Inv img B k :=
    hrun.invariant hboot.inv fun _ _ _ hi hs hcall => step_inv sb dev hi hs hcall.short
  refine ⟨hinv.filesExact, ?_⟩
  intro p call e hp hcall herr
  have hallowed := wp_error (perform_spec sb dev hinv hp hcall.short) herr
  refine ⟨?_, ?_, ?_⟩
  · rintro rfl
    exact hallowed.1 rfl
  · rintro rfl
    exact hallowed.2 rfl
  · rintro rfl
    exact hallowed

def fds (l : List FilePtr) (fd : Fd) : Option FilePtr := l[fd.val]?

section Fds
variable {l : List FilePtr} {f : FilePtr} {n : ℕ}

theorem update_fds (hl : l.length < NOFILE) : Function.update (fds l) ⟨l.length, hl⟩ (some f) = fds (l ++ [f]) := by
  funext fd
  unfold fds
  by_cases hfd : fd = ⟨l.length, hl⟩
  · rw [hfd, Function.update_self, List.getElem?_concat_length]
  · rw [Function.update_of_ne hfd]
    by_cases hlt : fd.val < l.length
    · rw [List.getElem?_append_left hlt]
    · have hne : fd.val ≠ l.length := fun he => hfd (Fin.ext he)
      rw [List.getElem?_eq_none (by omega), List.getElem?_eq_none (by rw [List.length_append, List.length_singleton]; omega)]

theorem clear_fds (hl : l.length < NOFILE) : Function.update (fds (l ++ [f])) ⟨l.length, hl⟩ none = fds l := by
  rw [← update_fds hl, Function.update_idem]
  exact Function.update_eq_self_iff.mpr (List.getElem?_eq_none (le_refl l.length)).symm

theorem fdalloc_fds {F : Stop → Prop} {Q : Option Fd → Kernel → Prop} (ho : (k.proc p).ofile = fds l)
    (hl : l.length < NOFILE)
    (hQ : Q (some ⟨l.length, hl⟩) (k.mapProc p fun e => { e with ofile := fds (l ++ [f]) })) :
    wp F (fdalloc p f) Q k := by
  have hfind : (List.finRange NOFILE).find? (fun fd => (k.proc p).ofile fd = none) = some ⟨l.length, hl⟩ := by
    rw [ho, List.find?_eq_some_iff_getElem]
    refine ⟨?_, l.length, by rw [List.length_finRange]; exact hl, by simp, fun j hj => ?_⟩
    · simp [fds]
    · simp [fds, hj]
  unfold fdalloc
  rw [wp_bind, wp_getProc, hfind]
  dsimp only
  rw [wp_bind, wp_setFd, wp_pure]
  have hsame : k.mapProc p (Proc.withFd ⟨l.length, hl⟩ (some f)) =
      k.mapProc p fun e => { e with ofile := fds (l ++ [f]) } := by
    unfold Kernel.mapProc Proc.withFd
    rw [ho, update_fds hl]
  rw [hsame]
  exact hQ

theorem argfd_fds {F : Stop → Prop} {Q : Option (Fd × FilePtr) → Kernel → Prop} (ho : (k.proc p).ofile = fds l)
    (hn : n < NOFILE) (hf : l[n]? = some f) (hQ : Q (some (⟨n, hn⟩, f)) k) : wp F (argfd p n) Q k := by
  unfold argfd
  rw [wp_bind, wp_getProc, dif_pos ⟨Int.natCast_nonneg n, by exact_mod_cast hn⟩, wp_pure, ho]
  simp only [Int.toNat_natCast, fds, hf, Option.map_some]
  exact hQ

end Fds

/-- The process p alone, with the open files l and n free pages. -/
structure Single (l : List FilePtr) (n : ℕ) (p : Slot) (k : Kernel) : Prop where
  inv : Inv smallImage [] k
  state : (k.proc p).state = .runnable
  others : ∀ q, q ≠ p → (k.proc q).state = .unused
  ofile : (k.proc p).ofile = fds l
  cwd : (k.proc p).cwd ≠ none
  size : (k.proc p).sz = PGSIZE
  page : target (entry k.mem.page (k.proc p).pgdir 0) ≠ none
  deny : k.mem.deny = []
  room : n ≤ k.mem.free.length

/-- A call of p that leaves it with the open files l and n free pages. -/
structure Opens (l : List FilePtr) (n : ℕ) (p : Slot) (k k' : Kernel) : Prop where
  proc : k'.proc = Function.update k.proc p { k.proc p with ofile := fds l }
  page : k'.mem.page = k.mem.page
  deny : k'.mem.deny = []
  room : n ≤ k'.mem.free.length

section Single
variable {l l' : List FilePtr} {m n : ℕ} {f : FilePtr}

theorem Single.opens (h : Single l m p k) (hinv : Inv smallImage [] k') (h' : Opens l' n p k k') :
    Single l' n p k' := by
  have hp : k'.proc p = { k.proc p with ofile := fds l' } := by rw [h'.proc, Function.update_self]
  refine ⟨hinv, ?_, fun q hq => ?_, ?_, ?_, ?_, ?_, h'.deny, h'.room⟩
  · rw [hp]
    exact h.state
  · rw [h'.proc, Function.update_of_ne hq]
    exact h.others q hq
  · rw [hp]
  · rw [hp]
    exact h.cwd
  · rw [hp]
    exact h.size
  · rw [hp, h'.page]
    exact h.page

theorem Single.closed (h : Single l n p k) {q : Slot} (hq : q ≠ p) (fd : Fd) : (k.proc q).ofile fd = none :=
  h.inv.closed q (by rw [h.others q hq]; decide) fd

theorem Single.ref_pos (h : Single l n p k) (hm : m < NOFILE) (hf : l[m]? = some f) : 0 < (k.file f).ref := by
  have hslot : slots k (p, ⟨m, hm⟩) = some f := (congrFun h.ofile _).trans hf
  have := refs_pos_of hslot
  rw [h.inv.mid.files.ref f]
  omega

theorem filealloc_takes {F : Stop → Prop} (hf : (k.file f).ref = 0) : wp F filealloc (fun r k' => ∃ g, r = some g ∧
    (k.file g).ref = 0 ∧ k' = k.mapFile g fun e => { e with ref := 1 }) k := by
  unfold filealloc
  rw [wp_bind, wp_get]
  split
  next hnone =>
    have := List.find?_eq_none.mp hnone f (List.mem_finRange f)
    simp [hf] at this
  next g hg =>
    rw [wp_bind, wp_setFile, wp_pure]
    exact ⟨g, rfl, by simpa using List.find?_some hg, rfl⟩

theorem pipealloc_takes {q : ℕ} {rest : List ℕ} (hzero : ∀ f, (k.file f).ref = 0) (hdeny : k.mem.deny = [])
    (hfree : k.mem.free = q :: rest) : wp (fun _ => False) (pipealloc tinySuperblock img) (fun r k' => ∃ f g,
      r = some (f, g) ∧ f ≠ g ∧ k'.proc = k.proc ∧ k'.mem = { k.mem with free := rest, deny := [] }) k := by
  unfold pipealloc
  rw [wp_bind]
  apply wp_mono (filealloc_takes (hzero ⟨0, by decide⟩))
  rintro _ _ ⟨f, rfl, -, rfl⟩
  obtain ⟨f', hf'⟩ : ∃ f' : FilePtr, f' ≠ f := by
    by_cases hf : f = ⟨0, by decide⟩
    · exact ⟨⟨1, by decide⟩, by rw [hf]; decide⟩
    · exact ⟨_, Ne.symm hf⟩
  dsimp only
  rw [wp_bind]
  apply wp_mono (filealloc_takes (f := f') (by rw [Kernel.mapFile_of_ne _ hf']; exact hzero f'))
  rintro _ _ ⟨g, rfl, hg, rfl⟩
  have hne : f ≠ g := by
    rintro rfl
    rw [Kernel.mapFile_same] at hg
    exact absurd hg one_ne_zero
  dsimp only
  rw [wp_bind, wp_onMem, wp, Kernel.mapFile, Kernel.mapFile, Vm.kalloc_some hdeny hfree]
  exact ⟨f, g, rfl, hne, rfl, rfl⟩

theorem pipe_single (h : Single [] (n+1) p k) : wp (fun _ => False) (sys_pipe tinySuperblock smallImage p)
    (fun _ k' => ∃ f g, f ≠ g ∧ Opens [f, g] n p k k') k := by
  have hzero (f : FilePtr) : (k.file f).ref = 0 := by
    rw [h.inv.mid.files.ref f, List.count_nil, Nat.add_zero, refs_eq_zero.mpr]
    · rfl
    · rintro ⟨q, fd⟩ hslot
      by_cases hq : q = p
      · rw [slots, hq, h.ofile] at hslot
        cases hslot
      · rw [slots, h.closed hq] at hslot
        cases hslot
  have hroom := h.room
  cases hfree : k.mem.free with
  | nil =>
    rw [hfree, List.length_nil] at hroom
    omega
  | cons q rest =>
    unfold sys_pipe
    rw [wp_bind]
    apply wp_mono (pipealloc_takes hzero h.deny hfree)
    rintro _ k₁ ⟨f, g, rfl, hne, hproc, hmem⟩
    dsimp only
    rw [wp_bind]
    apply fdalloc_fds (l := []) (by rw [hproc]; exact h.ofile) (by decide)
    dsimp only
    rw [wp_bind]
    apply fdalloc_fds (l := [f]) (by rw [Kernel.mapProc_same]; rfl) (Nat.lt_of_succ_lt_succ (by decide : 2 < NOFILE+1))
    refine ⟨f, g, hne, ?_, (congrArg Mem.page hmem :), (congrArg Mem.deny hmem :), ?_⟩
    · simp only [Kernel.mapProc, hproc, Function.update_self, Function.update_idem]
      rfl
    · rw [hfree, List.length_cons] at hroom
      have hlen : k₁.mem.free.length = rest.length := by rw [hmem]
      change n ≤ k₁.mem.free.length
      omega

theorem dup_single (h : Single l n p k) (hm : m < NOFILE) (hf : l[m]? = some f) (hl : l.length < NOFILE) :
    wp (fun _ => False) (sys_dup p m) (fun _ => Opens (l ++ [f]) n p k) k := by
  unfold sys_dup
  rw [wp_bind]
  apply argfd_fds h.ofile hm hf
  dsimp only
  rw [wp_bind]
  apply fdalloc_fds h.ofile hl
  have hpos := h.ref_pos hm hf
  dsimp only
  unfold filedup
  rw [wp_bind, wp_bind, wp_getFile, if_neg (by change ¬(k.file f).ref < 1; omega), wp_setFile]
  exact ⟨rfl, rfl, h.deny, h.room⟩

theorem wp_any {α : Type} {m : KernM α} {Q : α → Kernel → Prop} (hQ : ∀ a k', Q a k') :
    wp (fun _ => True) m Q k := by
  unfold wp
  split
  · exact hQ _ _
  · trivial

theorem fork_takes (h : Single l n p k) (hn : NPDENTRIES+3 ≤ n) :
    wp (fun _ => True) (fork smallImage p) (fun r _ => 0 ≤ r) k := by
  have hroom := h.room
  obtain ⟨P, -, -, hb⟩ := h.inv.mid.pages
  have hnodup := balanced_nodup hb
  have hsmall := balanced_small hb
  cases hfree : k.mem.free with
  | nil =>
    rw [hfree, List.length_nil] at hroom
    omega
  | cons st free =>
    rw [hfree] at hnodup hsmall hroom
    obtain ⟨q, hq⟩ : ∃ q : Slot, q ≠ p := by
      by_cases hp : p = ⟨0, nproc_pos⟩
      · exact ⟨⟨1, by decide⟩, by rw [hp]; decide⟩
      · exact ⟨_, Ne.symm hp⟩
    unfold fork
    rw [wp_bind]
    refine wp_mono (wp_and (allocproc_spec (F := fun _ => True) h.inv)
      (allocproc_takes (F := fun _ => True) (h.others q hq) h.deny hfree) fun _ _ he => he) ?_
    rintro (_ | np) k₁ ⟨hk₁, hsome, -, hmem⟩
    · exact absurd rfl hsome
    · obtain ⟨hunused, -, pid, st', hproc, -⟩ := hk₁
      have hne : p ≠ np := by
        rintro rfl
        rw [h.state] at hunused
        exact absurd hunused (by decide)
      dsimp only
      rw [wp_bind, wp_getProc, hproc, Function.update_of_ne hne, h.size, wp_bind, wp_onMem, hmem]
      have hone : pages PGSIZE = 1 := by decide
      apply wp_mono (Vm.copyuvm_spare smallImage.toImage (fun _ => trivial) (by decide) rfl
        (List.nodup_cons.mp hnodup).2 (fun x hx => hsmall x (List.mem_cons_of_mem _ hx)) ?_)
      · rintro (_ | d) t hd
        · exact absurd rfl hd
        · simp only [wp_bind, wp_setProc, wp_getProc, wp_pure]
          refine wp_any fun _ k₂ => wp_any fun cwd k₃ => wp_any fun cwd' k₄ => ?_
          exact Int.natCast_nonneg _
      · rw [List.length_cons] at hroom
        change pages PGSIZE+NPDENTRIES+1 ≤ free.length
        omega

theorem fork_single (h : Single l n p k) (hn : NPDENTRIES+3 ≤ n) :
    wp (fun _ => False) (fork smallImage p) (fun _ k' => ∃ c e, c ≠ p ∧ e.ofile = fds l ∧
      k'.proc = Function.update k.proc c e) k := by
  have hsrc : Vm.Source (fun _ => False) k.mem (k.proc p).pgdir (k.proc p).sz := by
    intro u hu
    rw [h.size] at hu
    have hu0 : u = 0 := Nat.lt_one_iff.mp hu
    rw [hu0]
    exact Or.inl h.page
  refine wp_mono (wp_and (fork_spec (F := fun _ => False) h.inv h.state (Or.inr h.cwd) hsrc) (fork_takes h hn)
    fun _ he _ => he) ?_
  rintro r k' ⟨⟨-, hchild⟩, hr⟩
  obtain ⟨c, e, hunused, he, hproc⟩ := hchild hr
  refine ⟨c, e, ?_, he.trans h.ofile, hproc⟩
  rintro rfl
  rw [h.state] at hunused
  exact absurd hunused (by decide)

theorem close_shared {img : Vm.Image} (ho : (k.proc p).ofile = fds (l ++ [f])) (hl : l.length < NOFILE)
    (href : 1 < (k.file f).ref) :
    wp (fun _ => False) (sys_close tinySuperblock img p l.length) (fun _ k' =>
      k'.proc = Function.update k.proc p { k.proc p with ofile := fds l }) k := by
  unfold sys_close
  rw [wp_bind]
  apply argfd_fds ho hl List.getElem?_concat_length
  dsimp only
  rw [wp_bind, wp_setFd, wp_bind]
  unfold fileclose
  rw [wp_bind, wp_getFile]
  change wp _ (if (k.file f).ref < 1 then _ else if (k.file f).ref-1 > 0 then _ else _) _ _
  rw [if_neg (by omega), if_pos (by omega), wp_setFile, wp_pure]
  change Function.update k.proc p (Proc.withFd _ none (k.proc p)) = _
  rw [Proc.withFd, ho, clear_fds hl]

end Single

theorem Fresh.single {n : ℕ} {cwd : Ip} (h : Fresh smallImage [] n p k) (hcwd : (k.proc p).cwd = some cwd) :
    Single [] n p k := by
  obtain ⟨q, hq, hcode⟩ := h.code
  refine ⟨h.inv, h.state, h.others, funext h.closed, ?_, h.size, ?_, h.spare.deny, (Nat.le_add_right n _).trans h.spare.room⟩
  · rw [hcwd]
    exact Option.some_ne_none cwd
  · rw [hcode, Vm.target_userPte hq]
    exact Option.some_ne_none q

theorem one_lt_ref {f : FilePtr} {i j : Fd} (h : Inv img B k) (hij : i ≠ j) (hi : (k.proc p).ofile i = some f)
    (hj : (k.proc p).ofile j = some f) : 1 < (k.file f).ref := by
  have hcard : 1 < (Finset.univ.filter fun x : Slot × Fd => (k.proc x.1).ofile x.2 = some f).card :=
    Finset.one_lt_card.mpr ⟨(p, i), by simp [hi], (p, j), by simp [hj], by simp [hij]⟩
  rw [h.filesExact.ref f]
  exact_mod_cast hcard

theorem run_pipe_dup_fork_close : ∃ k₀ p c f g k, Booted tinySuperblock noDevices smallImage [] k₀ ∧
    Run (step tinySuperblock noDevices smallImage) (fun _ e _ => e.2.noExec) k₀
      [(p, .pipe), (p, .dup 0), (p, .fork), (p, .close 2)] k ∧ c ≠ p ∧ f ≠ g ∧
    (k.proc p).ofile = fds [f, g] ∧ (k.proc c).ofile = fds [f, g, f] ∧
    ∀ r, r ≠ p → r ≠ c → ∀ fd, (k.proc r).ofile fd = none := by
  obtain ⟨k₀, p, tab, cwd, hboot, hfresh, -, -, hcwd, -⟩ := boot_fresh
  have h₀ : Single [] (2001+1) p k₀ := (hfresh.mono (by decide)).single hcwd
  obtain ⟨k₁, hs₁, f, g, hfg, ho₁⟩ := step_of_wp tinySuperblock noDevices .pipe h₀.state (wp_discard (pipe_single h₀))
  have h₁ := h₀.opens (step_inv _ _ h₀.inv hs₁ trivial) ho₁
  obtain ⟨k₂, hs₂, ho₂⟩ := step_of_wp tinySuperblock noDevices (.dup 0) h₁.state
    (wp_discard (dup_single (m := 0) h₁ (by decide) rfl (show 2 < NOFILE by decide)))
  have h₂ : Single [f, g, f] 2001 p k₂ := h₁.opens (step_inv _ _ h₁.inv hs₂ trivial) ho₂
  obtain ⟨k₃, hs₃, c, e, hc, he, hproc₃⟩ := step_of_wp tinySuperblock noDevices .fork h₂.state
    (wp_discard (fork_single h₂ (by decide)))
  have hp₃ : k₃.proc p = k₂.proc p := by rw [hproc₃, Function.update_of_ne hc.symm]
  -- the end that was duplicated stays open
  have hshared : 1 < (k₃.file f).ref := by
    apply one_lt_ref (p := p) (i := ⟨0, by decide⟩) (j := ⟨2, by decide⟩) (step_inv _ _ h₂.inv hs₃ trivial) (by decide)
    · rw [hp₃, h₂.ofile]
      rfl
    · rw [hp₃, h₂.ofile]
      rfl
  obtain ⟨k, hs₄, hproc⟩ := step_of_wp tinySuperblock noDevices (.close 2) (by rw [hp₃]; exact h₂.state)
    (wp_discard (close_shared (l := [f, g]) (by rw [hp₃]; exact h₂.ofile) (show 2 < NOFILE by decide) hshared))
  refine ⟨k₀, p, c, f, g, k, hboot,
    .cons hs₁ trivial (.cons hs₂ trivial (.cons hs₃ trivial (.cons hs₄ trivial (.nil _)))), hc, hfg, ?_, ?_, ?_⟩
  · rw [hproc, Function.update_self]
  · rw [hproc, Function.update_of_ne hc, hproc₃, Function.update_self, he]
  · intro r hr hrc fd
    rw [hproc, Function.update_of_ne hr, hproc₃, Function.update_of_ne hrc]
    exact h₂.closed hr fd

theorem ftable_refs_exact_pipe : ∃ k₀ p c f g k, Booted tinySuperblock noDevices smallImage [] k₀ ∧
    Run (step tinySuperblock noDevices smallImage) (fun _ e _ => e.2.noExec) k₀
      [(p, .pipe), (p, .dup 0), (p, .fork), (p, .close 2)] k ∧ c ≠ p ∧ f ≠ g ∧
    (k.proc p).ofile = fds [f, g] ∧ (k.proc c).ofile = fds [f, g, f] ∧
    FilesExact k ∧ (k.file f).ref = 3 ∧ (k.file g).ref = 2 := by
  obtain ⟨k₀, p, c, f, g, k, hboot, hrun, hc, hfg, hp, hchild, hothers⟩ := run_pipe_dup_fork_close
  have hexact := (ftable_refs_exact hboot hrun).1
  have hholds (x : FilePtr) (r : Slot) (fd : Fd) : (k.proc r).ofile fd = some x ↔
      r = p ∧ fds [f, g] fd = some x ∨ r = c ∧ fds [f, g, f] fd = some x := by
    by_cases hr : r = p
    · rw [hr, hp]
      simp [hc.symm]
    · by_cases hrc : r = c
      · rw [hrc, hchild]
        simp [hc]
      · simp [hothers r hr hrc, hr, hrc]
  have hf : (Finset.univ.filter fun i : Slot × Fd => (k.proc i.1).ofile i.2 = some f) =
      {(p, ⟨0, by decide⟩), (c, ⟨0, by decide⟩), (c, ⟨2, by decide⟩)} := by
    ext ⟨r, _ | _ | _ | i, hi⟩ <;> simp [hholds, fds, hfg.symm]
  have hg : (Finset.univ.filter fun i : Slot × Fd => (k.proc i.1).ofile i.2 = some g) =
      {(p, ⟨1, by decide⟩), (c, ⟨1, by decide⟩)} := by
    ext ⟨r, _ | _ | _ | i, hi⟩ <;> simp [hholds, fds, hfg]
  refine ⟨k₀, p, c, f, g, k, hboot, hrun, hc, hfg, hp, hchild, hexact, ?_, ?_⟩
  · rw [hexact.ref f, hf]
    simp [hc.symm]
  · rw [hexact.ref g, hg]
    simp [hc.symm]

end ProvenXv6.Kern
