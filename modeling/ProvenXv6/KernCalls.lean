import ProvenXv6.KernFiles

namespace ProvenXv6.Kern
open RefCount WeakestPre
open Fs (FS FsM Fault Ip Superblock Devsw)
open Vm (Mem VmM BootImage Balanced)
open Ptable (NPROC Slot ProcState)

/-- The kernel inside a call: the files, and the pages, with the directories D and
the loose pages L beside the pages of the pipes. -/
structure Mid (img : BootImage) (S : Slot × Fd → Option FilePtr) (X : List FilePtr) (D L : List ℕ)
    (k : Kernel) : Prop where
  files : Files S X k
  pages : ∃ P : List ℕ, P.Nodup ∧ (∀ q, q ∈ P ↔ k.pipe q ≠ none) ∧ Balanced img D (L ++ P) k.mem

variable {img : BootImage} {S : Slot × Fd → Option FilePtr} {X : List FilePtr} {D L : List ℕ}
  {k k' : Kernel} {f g : FilePtr} {p : Slot} {F : Stop → Prop} {α : Type}

namespace Mid

theorem congr (h : Mid img S X D L k) (hfile : k'.file = k.file) (hpipe : k'.pipe = k.pipe)
    (hmem : k'.mem = k.mem) : Mid img S X D L k' where
  files := h.files.congr hfile hpipe
  pages := by
    rw [hpipe, hmem]
    exact h.pages

theorem withFiles {S' : Slot × Fd → Option FilePtr} {X' : List FilePtr} (h : Mid img S X D L k)
    (hfiles : Files S' X' k') (hpipe : k'.pipe = k.pipe) (hmem : k'.mem = k.mem) :
    Mid img S' X' D L k' where
  files := hfiles
  pages := by
    rw [hpipe, hmem]
    exact h.pages

theorem perm {D' L' : List ℕ} (h : Mid img S X D L k) (hD : D.Perm D') (hL : L.Perm L') :
    Mid img S X D' L' k where
  files := h.files
  pages := by
    obtain ⟨P, hnodup, hmem, hb⟩ := h.pages
    exact ⟨P, hnodup, hmem, hb.perm hD (hL.append_right P)⟩

theorem swap {f₀ f₁ : FilePtr} (h : Mid img S (f₁ :: f₀ :: X) D L k) :
    Mid img S (f₀ :: f₁ :: X) D L k :=
  h.withFiles (h.files.perm (List.Perm.swap _ _ _)) rfl rfl

theorem onMem {m : VmM α} {Q : α → Kernel → Prop} (h : Mid img S X D L k) (D' L' : α → List ℕ)
    (R : α → Mem → Prop) (hm : ∀ P, Balanced img D (L ++ P) k.mem → wp (fun e => F (.mem e)) m
      (fun a t => Balanced img (D' a) (L' a ++ P) t ∧ R a t) k.mem)
    (hQ : ∀ a t, Mid img S X (D' a) (L' a) { k with mem := t } → R a t → Q a { k with mem := t }) :
    wp F (Kern.onMem m) Q k := by
  obtain ⟨P, hnodup, hmem, hb⟩ := h.pages
  rw [wp_onMem]
  apply wp_mono (hm P hb)
  rintro a t ⟨hb', hR⟩
  exact hQ a t ⟨h.files.congr rfl rfl, P, hnodup, hmem, hb'⟩ hR

theorem not_pipe {q : ℕ} (h : Mid img S X D (q :: L) k) : k.pipe q = none := by
  obtain ⟨P, hnodup, hmem, hb⟩ := h.pages
  by_contra hne
  have h1 := hb.le_one q
  have h2 := List.count_pos_iff.mpr ((hmem q).mpr hne)
  rw [List.cons_append, List.count_cons_self, List.count_append] at h1
  omega

theorem kalloc {Q : Option ℕ → Kernel → Prop} (h : Mid img S X D L k)
    (hnone : ∀ t, Mid img S X D L { k with mem := t } → Q none { k with mem := t })
    (hsome : ∀ q t, t.page = k.mem.page → Mid img S X D (q :: L) { k with mem := t } →
      Q (some q) { k with mem := t }) : wp F (Kern.onMem Vm.kalloc) Q k := by
  apply h.onMem (fun _ => D) (fun r => r.toList ++ L) (fun _ t => t.page = k.mem.page)
  · intro P hb
    apply wp_mono (Vm.kalloc_spec hb)
    rintro (_ | q) t ⟨hpage, hb'⟩
    · exact ⟨hb', hpage⟩
    · exact ⟨hb', hpage⟩
  · rintro (_ | q) t h' hpage
    · exact hnone t h'
    · exact hsome q t hpage h'

theorem kfree {q : ℕ} {Q : Unit → Kernel → Prop} (h : Mid img S X D (q :: L) k)
    (hQ : ∀ t, Mid img S X D L { k with mem := t } → Q () { k with mem := t }) :
    wp F (Kern.onMem (Vm.kfree img q)) Q k := by
  apply h.onMem (fun _ => D) (fun _ => L) (fun _ _ => True)
  · intro P hb
    apply wp_mono (Vm.kfree_spec hb)
    rintro _ t ⟨hb', -⟩
    exact ⟨hb', trivial⟩
  · rintro _ t h' -
    exact hQ t h'

theorem putPipe {q : ℕ} {e : Pipe} {k' : Kernel} (h : Mid img S X D (q :: L) k)
    (hfiles : Files S X k') (hpipe : k'.pipe = Function.update k.pipe q (some e)) (hmem : k'.mem = k.mem) :
    Mid img S X D L k' where
  files := hfiles
  pages := by
    have hq := h.not_pipe
    obtain ⟨P, hnodup, hP, hb⟩ := h.pages
    refine ⟨q :: P, List.nodup_cons.mpr ⟨fun hin => (hP q).mp hin hq, hnodup⟩, ?_, ?_⟩
    · intro r
      rw [hpipe, List.mem_cons, hP r]
      by_cases hr : r = q
      · subst hr
        simp
      · rw [Function.update_of_ne hr]
        simp [hr]
    · rw [hmem]
      exact hb.perm (List.Perm.refl _) List.perm_middle.symm

theorem dropPipe {S' : Slot × Fd → Option FilePtr} {X' : List FilePtr} {q : ℕ}
    (h : Mid img S X D L k) (hq : k.pipe q ≠ none) (hfiles : Files S' X' k')
    (hpipe : k'.pipe = Function.update k.pipe q none) (hmem : k'.mem = k.mem) :
    Mid img S' X' D (q :: L) k' where
  files := hfiles
  pages := by
    obtain ⟨P, hnodup, hP, hb⟩ := h.pages
    have hin := (hP q).mpr hq
    refine ⟨P.erase q, hnodup.erase q, ?_, ?_⟩
    · intro r
      rw [hpipe, hnodup.mem_erase_iff, hP r]
      by_cases hr : r = q
      · subst hr
        simp
      · rw [Function.update_of_ne hr]
        simp [hr]
    · rw [hmem]
      apply hb.perm (List.Perm.refl _)
      exact ((List.perm_cons_erase hin).append_left L).trans List.perm_middle

end Mid

section Files
variable (h : Mid img S X D L k)

include h in
theorem filealloc_spec : wp F filealloc (fun r k' => k'.proc = k.proc ∧ match r with
    | none => Mid img S X D L k'
    | some f => Mid img S (f :: X) D L k' ∧ (k.file f).type = .FD_NONE ∧ f ∉ X ∧
        ∀ g, (k'.file g).type = (k.file g).type) k := by
  unfold filealloc
  rw [wp_bind, wp_get]
  split
  next => exact ⟨rfl, h⟩
  next f hf =>
    have hzero : (k.file f).ref = 0 := by simpa using List.find?_some hf
    have hcount := h.files.ref f
    rw [wp_bind, wp_setFile]
    refine ⟨rfl, ?_, h.files.idle f hzero, ?_, ?_⟩
    · refine h.withFiles (h.files.count (r := fun _ => 1) ?_ ?_ ?_) rfl rfl
      · rw [List.count_cons_self]
        omega
      · exact fun g hg => List.count_cons_of_ne (Ne.symm hg)
      · exact fun h1 => absurd h1 (by decide)
    · rw [← List.count_eq_zero]
      omega
    · intro g
      by_cases hg : g = f
      · subst hg
        rw [Kernel.mapFile_same]
      · rw [Kernel.mapFile_of_ne _ hg]

include h in
theorem filedup_spec (hf : 0 < (k.file f).ref) :
    wp F (filedup f) (fun _ k' => k'.proc = k.proc ∧ Mid img S (f :: X) D L k') k := by
  unfold filedup
  rw [wp_bind, wp_getFile, if_neg (by omega), wp_setFile]
  refine ⟨rfl, h.withFiles (h.files.count ?_ ?_ ?_) rfl rfl⟩
  · rw [List.count_cons_self, h.files.ref f]
    omega
  · exact fun g hg => List.count_cons_of_ne (Ne.symm hg)
  · omega

end Files

section Close
variable (sb : Superblock) (hfs : ∀ e, F (.fs e))

theorem wp_pipeclose {q : ℕ} {w : Bool} {e : Pipe} {Q : Unit → Kernel → Prop} (he : k.pipe q = some e)
    (hlast : e.rest w = none → wp F (onMem (Vm.kfree img q)) Q (k.putPipe q none))
    (hmore : ∀ e', e.rest w = some e' → Q () (k.putPipe q (some e'))) : wp F (pipeclose img q w) Q k := by
  unfold pipeclose
  rw [wp_bind, wp_get, he]
  change wp F (if (e.close w).readopen = false ∧ (e.close w).writeopen = false then _ else _) Q k
  unfold Pipe.rest at hlast hmore
  by_cases hc : (e.close w).readopen = false ∧ (e.close w).writeopen = false
  · rw [if_pos hc] at hlast ⊢
    rw [wp_bind, wp_modify]
    exact hlast rfl
  · rw [if_neg hc] at hmore ⊢
    rw [wp_modify]
    exact hmore _ rfl

include hfs in
theorem fileclose_spec (h : Mid img S (f :: X) D L k) :
    wp F (fileclose sb img f) (fun _ k' => k'.proc = k.proc ∧ Mid img S X D L k') k := by
  have hpos := h.files.ref_pos
  have href := h.files.ref f
  rw [List.count_cons_self] at href
  unfold fileclose
  rw [wp_bind, wp_getFile, if_neg (by omega)]
  split_ifs with hmore
  · rw [wp_setFile]
    refine ⟨rfl, h.withFiles (h.files.count ?_ ?_ ?_) rfl rfl⟩
    · omega
    · exact fun g hg => (List.count_cons_of_ne (Ne.symm hg)).symm
    · omega
  · have hlast : (k.file f).ref = 1 := by omega
    rw [wp_bind, wp_setFile]
    unfold closeLast
    split
    next htype =>
      have hend : IsEnd k (k.file f).pipe (k.file f).writable f := ⟨htype, rfl, rfl⟩
      obtain ⟨e, he, hopen⟩ := h.files.live _ _ _ hend
      have hclosed := h.files.closeEnd hlast hend he
      apply wp_pipeclose (k := k.mapFile f File.cleared) he
      · intro hrest
        rw [hrest] at hclosed
        have hmid : Mid img S X D ((k.file f).pipe :: L)
            ((k.mapFile f File.cleared).putPipe (k.file f).pipe none) :=
          h.dropPipe (by rw [he]; exact Option.some_ne_none e) hclosed rfl rfl
        exact hmid.kfree fun t hmid' => ⟨rfl, hmid'⟩
      · intro e' hrest
        rw [hrest] at hclosed
        obtain ⟨P, hnodup, hP, hb⟩ := h.pages
        refine ⟨rfl, hclosed, P, hnodup, ?_, hb⟩
        intro r
        rw [hP r]
        by_cases hr : r = (k.file f).pipe
        · subst hr
          rw [Kernel.putPipe_same, he]
          simp
        · rw [Kernel.putPipe_of_ne _ hr]
          rfl
    next htype =>
      have hdrop := h.withFiles (h.files.drop hlast (by rw [htype]; decide)) rfl rfl
      rw [wp_bind, wp_begin_op, wp_bind]
      apply wp_anyFs hfs
      intro _ fs
      exact ⟨rfl, hdrop.congr rfl rfl rfl⟩
    next htype =>
      exact ⟨rfl, h.withFiles (h.files.drop hlast (by rw [htype]; decide)) rfl rfl⟩

include hfs in
theorem pipealloc_spec (h : Mid img S X D L k) :
    wp F (pipealloc sb img) (fun r k' => k'.proc = k.proc ∧ match r with
      | none => Mid img S X D L k'
      | some (f₀, f₁) => Mid img S (f₀ :: f₁ :: X) D L k') k := by
  unfold pipealloc
  rw [wp_bind]
  apply wp_mono (filealloc_spec h)
  rintro (_ | f₀) k₁ ⟨hproc₁, h₁⟩
  · exact ⟨hproc₁, h₁⟩
  · obtain ⟨h₁, hnone₀, -, htype₁⟩ := h₁
    dsimp only
    rw [wp_bind]
    apply wp_mono (filealloc_spec h₁)
    rintro (_ | f₁) k₂ ⟨hproc₂, h₂⟩
    · dsimp only at h₂ ⊢
      rw [wp_bind]
      apply wp_mono (fileclose_spec sb hfs h₂)
      rintro _ k₃ ⟨hproc₃, h₃⟩
      exact ⟨by rw [hproc₃, hproc₂, hproc₁], h₃⟩
    · obtain ⟨h₂, hnone₁, hnew, htype₂⟩ := h₂
      have hne : f₀ ≠ f₁ := fun he => hnew (by rw [he]; exact List.mem_cons_self)
      dsimp only
      rw [wp_bind]
      apply h₂.kalloc
      · intro t h₃
        rw [wp_bind]
        apply wp_mono (fileclose_spec sb hfs h₃.swap)
        rintro _ k₄ ⟨hproc₄, h₄⟩
        rw [wp_bind]
        apply wp_mono (fileclose_spec sb hfs h₄)
        rintro _ k₅ ⟨hproc₅, h₅⟩
        exact ⟨by rw [hproc₅, hproc₄, ← hproc₁, ← hproc₂], h₅⟩
      · intro q t _ h₃
        have hpos₁ := h₃.files.ref_pos
        have hpos₀ := h₃.swap.files.ref_pos
        have hfree₀ : (k₂.file f₀).type = .FD_NONE := by rw [htype₂, htype₁, hnone₀]
        have hfree₁ : (k₂.file f₁).type = .FD_NONE := by rw [htype₂, hnone₁]
        have hopen := h₃.swap.files.openPipe h₃.not_pipe hne (by rw [hfree₀]; decide)
          (by rw [hfree₁]; decide) hpos₀.ne' hpos₁.ne'
        simp only [wp_bind, wp_modify, wp_setFile]
        exact ⟨hproc₂.trans hproc₁, h₃.swap.putPipe hopen rfl rfl⟩

end Close

theorem slots_withFd (k : Kernel) (p : Slot) (fd : Fd) (v : Option FilePtr) :
    slots (k.mapProc p (Proc.withFd fd v)) = Function.update (slots k) (p, fd) v := by
  funext ⟨q, fd'⟩
  unfold slots
  by_cases hq : q = p
  · subst hq
    rw [Kernel.mapProc_same]
    by_cases hfd : fd' = fd
    · subst hfd
      rw [Function.update_self]
      exact Function.update_self ..
    · rw [Function.update_of_ne (by simp [hfd])]
      exact Function.update_of_ne hfd ..
  · rw [Kernel.mapProc_of_ne _ hq, Function.update_of_ne (by simp [hq])]

/-- At most the descriptors and the current directory of p change among the processes. -/
def OnlyFiles (p : Slot) (k k' : Kernel) : Prop :=
  ∃ o c, k'.proc = Function.update k.proc p { k.proc p with ofile := o, cwd := c }

theorem OnlyFiles.of_eq (h : k'.proc = k.proc) : OnlyFiles p k k' :=
  ⟨(k.proc p).ofile, (k.proc p).cwd, by rw [h, Function.update_eq_self]⟩

theorem OnlyFiles.trans {k'' : Kernel} (h : OnlyFiles p k k') (h' : OnlyFiles p k' k'') :
    OnlyFiles p k k'' := by
  obtain ⟨o, c, h⟩ := h
  obtain ⟨o', c', h'⟩ := h'
  exact ⟨o', c', by rw [h', h, Function.update_self, Function.update_idem]⟩

theorem OnlyFiles.withFd (k : Kernel) (p : Slot) (fd : Fd) (v : Option FilePtr) :
    OnlyFiles p k (k.mapProc p (Proc.withFd fd v)) := ⟨_, (k.proc p).cwd, rfl⟩

theorem wp_fdalloc {Q : Option Fd → Kernel → Prop} (hnone : Q none k)
    (hsome : ∀ fd, slots k (p, fd) = none → Q (some fd) (k.mapProc p (Proc.withFd fd (some f)))) :
    wp F (fdalloc p f) Q k := by
  unfold fdalloc
  rw [wp_bind, wp_getProc]
  split
  next => exact hnone
  next fd hfd =>
    have hfree : (k.proc p).ofile fd = none := by simpa using List.find?_some hfd
    rw [wp_bind, wp_setFd]
    exact hsome fd hfree

theorem wp_argfd {fd : ℤ} {Q : Option (Fd × FilePtr) → Kernel → Prop} (hnone : Q none k)
    (hsome : ∀ fd f, slots k (p, fd) = some f → Q (some (fd, f)) k) : wp F (argfd p fd) Q k := by
  unfold argfd
  rw [wp_bind, wp_getProc]
  split_ifs with hfd
  · cases hslot : (k.proc p).ofile ⟨fd.toNat, by omega⟩ with
    | none =>
      rw [wp_pure, hslot]
      exact hnone
    | some f =>
      rw [wp_pure, hslot]
      exact hsome _ f hslot
  · exact hnone

theorem Mid.fdalloc {Q : Option Fd → Kernel → Prop} (h : Mid img (slots k) (f :: X) D L k)
    (hnone : Q none k)
    (hsome : ∀ fd k', Mid img (slots k') X D L k' → k' = k.mapProc p (Proc.withFd fd (some f)) →
      Q (some fd) k') : wp F (Kern.fdalloc p f) Q k := by
  apply wp_fdalloc hnone
  intro fd hfree
  apply hsome fd _ _ rfl
  rw [slots_withFd]
  exact (h.withFiles (h.files.give hfree) rfl rfl).congr rfl rfl rfl

theorem Mid.clearFd {fd : Fd} (h : Mid img (slots k) X D L k) (hf : slots k (p, fd) = some f) :
    Mid img (slots (k.mapProc p (Proc.withFd fd none))) (f :: X) D L
      (k.mapProc p (Proc.withFd fd none)) := by
  rw [slots_withFd]
  exact (h.withFiles (h.files.take hf) rfl rfl).congr rfl rfl rfl

/-- What a call of p on its descriptors may do. -/
def FileCall (img : BootImage) (p : Slot) (D L : List ℕ) (k k' : Kernel) : Prop :=
  Mid img (slots k') [] D L k' ∧ OnlyFiles p k k'

section Calls
variable (sb : Superblock) (dev : Devsw) (hfs : ∀ e, F (.fs e)) (htrap : F (.panic "trap"))

theorem sys_dup_spec {fd : ℤ} (h : Mid img (slots k) [] D L k) :
    wp F (sys_dup p fd) (fun _ => FileCall img p D L k) k := by
  have hsame : FileCall img p D L k k := ⟨h, .of_eq rfl⟩
  unfold sys_dup
  rw [wp_bind]
  apply wp_argfd hsame
  intro fd f hf
  dsimp only
  rw [wp_bind]
  apply wp_fdalloc hsame
  intro fd' hfree
  have hpos : 0 < (k.file f).ref := by
    have := refs_pos_of hf
    rw [h.files.ref f]
    omega
  have h' : Mid img (slots k) [] D L (k.mapProc p (Proc.withFd fd' (some f))) := h.congr rfl rfl rfl
  dsimp only
  rw [wp_bind]
  apply wp_mono (filedup_spec h' hpos)
  rintro _ k' ⟨hproc, hk'⟩
  have hslots : slots k' = Function.update (slots k) (p, fd') (some f) := by
    rw [← slots_withFd]
    unfold slots
    rw [hproc]
  refine ⟨?_, (OnlyFiles.withFd k p fd' (some f)).trans (.of_eq hproc)⟩
  rw [hslots]
  exact hk'.withFiles (hk'.files.give hfree) rfl rfl

include hfs in
theorem fileclose_slots (h : Mid img (slots k) (f :: X) D L k) :
    wp F (fileclose sb img f) (fun _ k' => k'.proc = k.proc ∧ Mid img (slots k') X D L k') k := by
  apply wp_mono (fileclose_spec sb hfs h)
  rintro _ k' ⟨hproc, h'⟩
  refine ⟨hproc, ?_⟩
  rwa [show slots k' = slots k by unfold slots; rw [hproc]]

include hfs in
theorem sys_close_spec {fd : ℤ} (h : Mid img (slots k) [] D L k) :
    wp F (sys_close sb img p fd) (fun _ => FileCall img p D L k) k := by
  unfold sys_close
  rw [wp_bind]
  apply wp_argfd ⟨h, .of_eq rfl⟩
  intro fd f hf
  dsimp only
  rw [wp_bind, wp_setFd, wp_bind]
  apply wp_mono (fileclose_slots sb hfs (h.clearFd hf))
  rintro _ k' ⟨hproc, h'⟩
  exact ⟨h', (OnlyFiles.withFd k p fd none).trans (.of_eq hproc)⟩

include hfs in
theorem sys_pipe_spec (h : Mid img (slots k) [] D L k) :
    wp F (sys_pipe sb img p) (fun _ => FileCall img p D L k) k := by
  have hslots {k' : Kernel} (hproc : k'.proc = k.proc) : slots k' = slots k := by
    unfold slots
    rw [hproc]
  -- both files are closed again
  have hclose {k' : Kernel} {rf wf : FilePtr} (h' : Mid img (slots k') [rf, wf] D L k')
      (hproc : OnlyFiles p k k') : wp F (do
        fileclose sb img rf
        fileclose sb img wf
        pure (none : Option (Fd × Fd))) (fun _ => FileCall img p D L k) k' := by
    rw [wp_bind]
    apply wp_mono (fileclose_slots sb hfs h')
    rintro _ k₁ ⟨hproc₁, h₁⟩
    rw [wp_bind]
    apply wp_mono (fileclose_slots sb hfs h₁)
    rintro _ k₂ ⟨hproc₂, h₂⟩
    exact ⟨h₂, (hproc.trans (.of_eq hproc₁)).trans (.of_eq hproc₂)⟩
  unfold sys_pipe
  rw [wp_bind]
  apply wp_mono (pipealloc_spec sb hfs h)
  rintro (_ | ⟨rf, wf⟩) k₁ ⟨hproc, h₁⟩
  · dsimp only at h₁ ⊢
    rw [← hslots hproc] at h₁
    exact ⟨h₁, .of_eq hproc⟩
  · dsimp only at h₁ ⊢
    rw [← hslots hproc] at h₁
    rw [wp_bind]
    apply h₁.fdalloc
    · exact hclose h₁ (.of_eq hproc)
    · rintro fd₀ _ h₂ rfl
      have hproc₂ := (OnlyFiles.of_eq hproc).trans (OnlyFiles.withFd k₁ p fd₀ (some rf))
      dsimp only
      rw [wp_bind]
      apply h₂.fdalloc
      · dsimp only
        rw [wp_bind, wp_setFd]
        apply hclose
        · exact h₂.clearFd (by rw [slots_withFd, Function.update_self])
        · exact hproc₂.trans (OnlyFiles.withFd _ p fd₀ none)
      · rintro fd₁ _ h₃ rfl
        exact ⟨h₃, hproc₂.trans (OnlyFiles.withFd _ p fd₁ (some wf))⟩

/-- The contents that `sys_open` gives to a file. -/
def File.withInode (ip : Ip) (omode : BitVec 32) (e : File) : File :=
  { e with
    type := .FD_INODE, ip := ip, off := 0
    readable := decide (omode &&& O_WRONLY = 0)
    writable := decide (omode &&& O_WRONLY ≠ 0 ∨ omode &&& O_RDWR ≠ 0) }

include hfs in
theorem openFile_spec (h : Mid img (slots k) [] D L k) :
    wp F (openFile sb img p) (fun r k' => FileCall img p D L k k' ∧ ∀ f fd, r = some (f, fd) →
      (k'.file f).ref ≠ 0 ∧ (k'.file f).type = .FD_NONE) k := by
  unfold openFile
  rw [wp_bind]
  apply wp_mono (filealloc_spec h)
  rintro (_ | f) k₁ ⟨hproc, h₁⟩
  · dsimp only at h₁ ⊢
    rw [show slots k = slots k₁ by unfold slots; rw [hproc]] at h₁
    exact ⟨⟨h₁, .of_eq hproc⟩, by simp⟩
  · obtain ⟨h₁, hnone, -, htype⟩ := h₁
    rw [show slots k = slots k₁ by unfold slots; rw [hproc]] at h₁
    have hpos := h₁.files.ref_pos
    dsimp only
    rw [wp_bind]
    apply h₁.fdalloc
    · dsimp only
      rw [wp_bind]
      apply wp_mono (fileclose_slots sb hfs h₁)
      rintro _ k₂ ⟨hproc₂, h₂⟩
      exact ⟨⟨h₂, .of_eq (hproc₂.trans hproc)⟩, by simp⟩
    · rintro fd _ h₂ rfl
      refine ⟨⟨h₂, (OnlyFiles.of_eq hproc).trans (OnlyFiles.withFd _ p fd (some f))⟩, ?_⟩
      rintro _ _ ⟨⟩
      exact ⟨hpos.ne', (htype f).trans hnone⟩

include hfs htrap in
theorem sys_open_spec {path : List Fs.Byte} {omode : BitVec 32} (h : Mid img (slots k) [] D L k) :
    wp F (sys_open sb dev img p path omode) (fun _ => FileCall img p D L k) k := by
  unfold sys_open
  rw [wp_bind, wp_begin_op, wp_bind]
  apply wp_getCwd htrap
  intro cwd _
  rw [wp_bind]
  apply wp_anyFs hfs
  rintro (_ | ip) fs
  · exact ⟨h.congr rfl rfl rfl, .of_eq rfl⟩
  · have h₁ : Mid img (slots k) [] D L { k.txn .begin_op with fs := fs } := h.congr rfl rfl rfl
    dsimp only
    rw [wp_bind]
    apply wp_mono (openFile_spec sb hfs h₁)
    rintro (_ | ⟨f, fd⟩) k₂ ⟨⟨h₂, hproc₂⟩, hnew⟩
    · dsimp only
      rw [wp_bind]
      apply wp_anyFs hfs
      intro _ fs'
      exact ⟨h₂.congr rfl rfl rfl, hproc₂⟩
    · obtain ⟨hpos, hnone⟩ := hnew f fd rfl
      dsimp only
      rw [wp_bind]
      apply wp_anyFs hfs
      intro _ fs'
      rw [wp_bind, wp_end_op, wp_bind, wp_setFile]
      have hfill : Files (slots k₂) [] (k₂.mapFile f (File.withInode ip omode)) :=
        h₂.files.fill hpos (by rw [hnone]; decide) ⟨rfl, fun he => FdType.noConfusion he⟩
      exact ⟨h₂.withFiles (hfill.congr rfl rfl) rfl rfl, hproc₂⟩

include hfs htrap in
theorem fsCall_spec {m : Ip → FsM α} (h : Mid img (slots k) [] D L k) :
    wp F (do
      begin_op
      let cwd ← getCwd p
      let r ← onFs (m cwd)
      end_op
      pure r) (fun _ => FileCall img p D L k) k := by
  rw [wp_bind, wp_begin_op, wp_bind]
  apply wp_getCwd htrap
  intro cwd _
  rw [wp_bind]
  apply wp_anyFs hfs
  intro _ fs
  exact ⟨h.congr rfl rfl rfl, .of_eq rfl⟩

include hfs htrap in
theorem sys_chdir_spec {path : List Fs.Byte} (h : Mid img (slots k) [] D L k) :
    wp F (sys_chdir sb dev p path) (fun _ => FileCall img p D L k) k := by
  unfold sys_chdir
  rw [wp_bind, wp_begin_op, wp_bind]
  apply wp_getCwd htrap
  intro cwd _
  rw [wp_bind]
  apply wp_anyFs hfs
  rintro (_ | ip) fs
  · exact ⟨h.congr rfl rfl rfl, .of_eq rfl⟩
  · dsimp only
    rw [wp_bind, wp_end_op, wp_bind, wp_setProc]
    have hslots : slots (({ k.txn .begin_op with fs := fs }.txn .end_op).mapProc p
        fun e => { e with cwd := some ip }) = slots k := by
      funext ⟨q, fd⟩
      unfold slots
      by_cases hq : q = p
      · subst hq
        rw [Kernel.mapProc_same]
        rfl
      · rw [Kernel.mapProc_of_ne _ hq]
        rfl
    refine ⟨?_, ⟨(k.proc p).ofile, some ip, rfl⟩⟩
    rw [hslots]
    exact h.congr rfl rfl rfl

end Calls

end ProvenXv6.Kern
