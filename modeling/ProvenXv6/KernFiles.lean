import ProvenXv6.KernRules
import ProvenXv6.VmCopy

namespace ProvenXv6.Kern
open RefCount WeakestPre
open Fs (FS FsM Fault Ip Superblock Devsw)
open Vm (Mem VmM Image PGSIZE PHYSTOP Balanced Kept)
open Ptable (NPROC Slot ProcState)

/-- Whether the write or the read end is open. -/
def Pipe.isOpen (e : Pipe) (w : Bool) : Bool := if w then e.writeopen else e.readopen

/-- The pipe after `pipeclose` of one end. -/
def Pipe.close (e : Pipe) (w : Bool) : Pipe :=
  if w then { e with writeopen := false } else { e with readopen := false }

theorem Pipe.isOpen_close (e : Pipe) (w v : Bool) :
    (e.close w).isOpen v = (e.isOpen v && decide (v ≠ w)) := by
  cases w <;> cases v <;> simp [Pipe.close, Pipe.isOpen]

def slots (k : Kernel) (i : Slot × Fd) : Option FilePtr := (k.proc i.1).ofile i.2

/-- f is the write or the read end of the pipe in page q. -/
def IsEnd (k : Kernel) (q : ℕ) (w : Bool) (f : FilePtr) : Prop :=
  (k.file f).type = .FD_PIPE ∧ (k.file f).pipe = q ∧ (k.file f).writable = w

/-- The file table and the pipes, with the descriptors S and the references X of
the running call. -/
structure Files (S : Slot × Fd → Option FilePtr) (X : List FilePtr) (k : Kernel) : Prop where
  ref : ∀ f, (k.file f).ref = (refs S f+X.count f : ℕ)
  idle : ∀ f, (k.file f).ref = 0 → (k.file f).type = .FD_NONE
  live : ∀ q w f, IsEnd k q w f → ∃ e, k.pipe q = some e ∧ e.isOpen w = true
  ends : ∀ q w e, k.pipe q = some e → e.isOpen w = true → ∃ f, IsEnd k q w f
  unique : ∀ q w f g, IsEnd k q w f → IsEnd k q w g → f = g
  used : ∀ q e, k.pipe q = some e → ∃ w, e.isOpen w = true

variable {S : Slot × Fd → Option FilePtr} {X : List FilePtr} {k k' : Kernel} {f g : FilePtr} {q : ℕ}

namespace Files

theorem congr (h : Files S X k) (hfile : k'.file = k.file) (hpipe : k'.pipe = k.pipe) :
    Files S X k' := by
  have hend : IsEnd k' = IsEnd k := by
    unfold IsEnd
    rw [hfile]
  refine ⟨?_, ?_, ?_, ?_, ?_, ?_⟩
  · rw [hfile]
    exact h.ref
  · rw [hfile]
    exact h.idle
  · rw [hend, hpipe]
    exact h.live
  · rw [hend, hpipe]
    exact h.ends
  · rw [hend]
    exact h.unique
  · rw [hpipe]
    exact h.used

theorem perm {X' : List FilePtr} (h : Files S X k) (hX : X.Perm X') : Files S X' k :=
  { h with ref := fun f => by rw [h.ref f, hX.count_eq f] }

theorem ref_pos (h : Files S (f :: X) k) : 0 < (k.file f).ref := by
  rw [h.ref f, List.count_cons_self]
  omega

theorem move (h : Files S X k) (i : Slot × Fd) {X' : List FilePtr}
    (v : Option FilePtr) (hX : ∀ f, X'.count f+(if v = some f then 1 else 0) =
      X.count f+(if S i = some f then 1 else 0)) : Files (Function.update S i v) X' k :=
  { h with
    ref := fun f => by
      have hcount := refs_update S i v f
      have := hX f
      rw [h.ref f, show refs (Function.update S i v) f+X'.count f = refs S f+X.count f by omega] }

theorem take (h : Files S X k) {i : Slot × Fd} (hi : S i = some f) :
    Files (Function.update S i none) (f :: X) k := by
  apply h.move
  intro g
  rw [hi, List.count_cons]
  simp only [reduceCtorEq, if_false, beq_iff_eq, Option.some.injEq, Nat.add_zero]

theorem give (h : Files S (f :: X) k) {i : Slot × Fd} (hi : S i = none) :
    Files (Function.update S i (some f)) X k := by
  apply h.move
  intro g
  rw [hi, List.count_cons]
  simp only [reduceCtorEq, if_false, beq_iff_eq, Option.some.injEq, Nat.add_zero]

end Files

theorem isEnd_mapFile {c : File → File} (hc : (c (k.file f)).type = (k.file f).type ∧
    (c (k.file f)).pipe = (k.file f).pipe ∧ (c (k.file f)).writable = (k.file f).writable) :
    IsEnd (k.mapFile f c) = IsEnd k := by
  funext q w g
  unfold IsEnd
  by_cases hg : g = f
  · subst hg
    simp only [Kernel.mapFile_same, hc.1, hc.2.1, hc.2.2]
  · rw [Kernel.mapFile_of_ne _ hg]

theorem Files.count {X' : List FilePtr} {r : File → ℤ} (h : Files S X k)
    (hr : r (k.file f) = (refs S f+X'.count f : ℕ))
    (hothers : ∀ g, g ≠ f → X'.count g = X.count g)
    (hidle : r (k.file f) = 0 → (k.file f).type = .FD_NONE) :
    Files S X' (k.mapFile f fun e => { e with ref := r e }) := by
  have hend : IsEnd (k.mapFile f fun e => { e with ref := r e }) = IsEnd k := isEnd_mapFile ⟨rfl, rfl, rfl⟩
  refine ⟨?_, ?_, ?_, ?_, ?_, h.used⟩
  · intro g
    by_cases hg : g = f
    · subst hg
      rw [← hr, Kernel.mapFile_same]
    · rw [Kernel.mapFile_of_ne _ hg, h.ref g, hothers g hg]
  · intro g
    by_cases hg : g = f
    · subst hg
      rw [Kernel.mapFile_same]
      exact hidle
    · rw [Kernel.mapFile_of_ne _ hg]
      exact h.idle g
  · rw [hend]
    exact h.live
  · rw [hend]
    exact h.ends
  · rw [hend]
    exact h.unique

/-- The last reference to an entry goes. -/
def File.cleared (e : File) : File := { e with ref := 0, type := .FD_NONE }

theorem isEnd_cleared {w : Bool} :
    IsEnd (k.mapFile f File.cleared) q w g ↔ IsEnd k q w g ∧ g ≠ f := by
  unfold IsEnd
  by_cases hg : g = f
  · subst hg
    simp [File.cleared]
  · simp [hg]

section Close
variable (h : Files S (f :: X) k) (hlast : (k.file f).ref = 1)

include h hlast in
theorem Files.cleared_ref : (∀ g, ((k.mapFile f File.cleared).file g).ref = (refs S g+X.count g : ℕ)) ∧
    ∀ g, ((k.mapFile f File.cleared).file g).ref = 0 → ((k.mapFile f File.cleared).file g).type = .FD_NONE := by
  refine ⟨?_, ?_⟩
  · intro g
    have hg := h.ref g
    by_cases hgf : g = f
    · subst hgf
      rw [List.count_cons_self] at hg
      rw [Kernel.mapFile_same, File.cleared]
      dsimp only
      omega
    · rw [Kernel.mapFile_of_ne _ hgf, hg, List.count_cons_of_ne (Ne.symm hgf)]
  · intro g
    by_cases hgf : g = f
    · subst hgf
      rw [Kernel.mapFile_same]
      exact fun _ => rfl
    · rw [Kernel.mapFile_of_ne _ hgf]
      exact h.idle g

include h hlast in
theorem Files.drop (htype : (k.file f).type ≠ .FD_PIPE) : Files S X (k.mapFile f File.cleared) := by
  have hend : IsEnd (k.mapFile f File.cleared) = IsEnd k := by
    funext q w g
    apply propext
    rw [isEnd_cleared]
    refine ⟨And.left, fun hg => ⟨hg, ?_⟩⟩
    rintro rfl
    exact htype hg.1
  obtain ⟨href, hidle⟩ := h.cleared_ref hlast
  refine ⟨href, hidle, ?_, ?_, ?_, h.used⟩
  · rw [hend]
    exact h.live
  · rw [hend]
    exact h.ends
  · rw [hend]
    exact h.unique

/-- What `pipeclose` leaves of a pipe. -/
def Pipe.rest (e : Pipe) (w : Bool) : Option Pipe :=
  if (e.close w).readopen = false ∧ (e.close w).writeopen = false then none else some (e.close w)

theorem Pipe.rest_eq_some {e e' : Pipe} {w : Bool} (h : e.rest w = some e') :
    e' = e.close w ∧ ∃ v, e'.isOpen v = true := by
  unfold Pipe.rest at h
  split_ifs at h with hc
  cases h
  refine ⟨rfl, ?_⟩
  by_cases hr : (e.close w).readopen = true
  · exact ⟨false, hr⟩
  · exact ⟨true, by simpa [Pipe.isOpen, hr] using hc⟩

theorem Pipe.rest_eq_none {e : Pipe} {w v : Bool} (h : e.rest w = none) (hv : e.isOpen v = true) : v = w := by
  unfold Pipe.rest at h
  split_ifs at h with hc
  by_contra hne
  have hopen : (e.close w).isOpen v = true := by
    rw [Pipe.isOpen_close, hv]
    simpa using hne
  cases v <;> simp [Pipe.isOpen, hc] at hopen

include h hlast in
theorem Files.closeEnd {w : Bool} {e : Pipe} (hf : IsEnd k q w f) (he : k.pipe q = some e) :
    Files S X ((k.mapFile f File.cleared).putPipe q (e.rest w)) := by
  obtain ⟨href, hidle⟩ := h.cleared_ref hlast
  have hend {r : ℕ} {v : Bool} {g : FilePtr} :
      IsEnd ((k.mapFile f File.cleared).putPipe q (e.rest w)) r v g ↔ IsEnd k r v g ∧ g ≠ f := isEnd_cleared
  refine ⟨href, hidle, ?_, ?_, ?_, ?_⟩
  · intro r v g hg'
    obtain ⟨hg, hne⟩ := hend.mp hg'
    obtain ⟨e₁, he₁, hopen⟩ := h.live r v g hg
    by_cases hr : r = q
    · subst hr
      rw [he] at he₁
      cases he₁
      -- the other end: the one that is closed has no other entry
      have hvw : v ≠ w := by
        rintro rfl
        exact hne (h.unique _ _ _ _ hg hf)
      rw [Kernel.putPipe_same]
      cases hrest : e.rest w with
      | none => exact absurd (Pipe.rest_eq_none hrest hopen) hvw
      | some e' =>
        obtain ⟨rfl, -⟩ := Pipe.rest_eq_some hrest
        refine ⟨_, rfl, ?_⟩
        rw [Pipe.isOpen_close, hopen]
        simpa using hvw
    · rw [Kernel.putPipe_of_ne _ hr]
      exact ⟨e₁, he₁, hopen⟩
  · intro r v e' he' hopen
    by_cases hr : r = q
    · subst hr
      rw [Kernel.putPipe_same] at he'
      obtain ⟨rfl, -⟩ := Pipe.rest_eq_some he'
      rw [Pipe.isOpen_close, Bool.and_eq_true, decide_eq_true_eq] at hopen
      obtain ⟨g, hg⟩ := h.ends r v e he hopen.1
      refine ⟨g, hend.mpr ⟨hg, ?_⟩⟩
      rintro rfl
      exact hopen.2 (hg.2.2.symm.trans hf.2.2)
    · rw [Kernel.putPipe_of_ne _ hr] at he'
      obtain ⟨g, hg⟩ := h.ends r v e' he' hopen
      refine ⟨g, hend.mpr ⟨hg, ?_⟩⟩
      rintro rfl
      exact hr (hg.2.1.symm.trans hf.2.1)
  · intro r v g g' hg hg'
    exact h.unique r v g g' (hend.mp hg).1 (hend.mp hg').1
  · intro r e' he'
    by_cases hr : r = q
    · subst hr
      rw [Kernel.putPipe_same] at he'
      exact (Pipe.rest_eq_some he').2
    · rw [Kernel.putPipe_of_ne _ hr] at he'
      exact h.used r e' he'

end Close

theorem Files.fill {c : File → File} (h : Files S X k) (hf : (k.file f).ref ≠ 0)
    (htype : (k.file f).type ≠ .FD_PIPE)
    (hc : (c (k.file f)).ref = (k.file f).ref ∧ (c (k.file f)).type ≠ .FD_PIPE) :
    Files S X (k.mapFile f c) := by
  have hend : IsEnd (k.mapFile f c) = IsEnd k := by
    funext q w g
    unfold IsEnd
    by_cases hg : g = f
    · subst hg
      simp only [Kernel.mapFile_same, hc.2, htype, false_and]
    · rw [Kernel.mapFile_of_ne _ hg]
  refine ⟨?_, ?_, ?_, ?_, ?_, h.used⟩
  · intro g
    by_cases hg : g = f
    · subst hg
      rw [Kernel.mapFile_same, hc.1, h.ref g]
    · rw [Kernel.mapFile_of_ne _ hg, h.ref g]
  · intro g
    by_cases hg : g = f
    · subst hg
      rw [Kernel.mapFile_same, hc.1]
      exact fun h0 => absurd h0 hf
    · rw [Kernel.mapFile_of_ne _ hg]
      exact h.idle g
  · rw [hend]
    exact h.live
  · rw [hend]
    exact h.ends
  · rw [hend]
    exact h.unique

/-- The contents that `pipealloc` gives to an end of the pipe in page q. -/
def File.pipeEnd (q : ℕ) (w : Bool) (e : File) : File :=
  { e with type := .FD_PIPE, readable := !w, writable := w, pipe := q }

def Kernel.withPipe (k : Kernel) (q : ℕ) (f₀ f₁ : FilePtr) : Kernel :=
  ((k.putPipe q (some ⟨true, true⟩)).mapFile f₀ (File.pipeEnd q false)).mapFile f₁ (File.pipeEnd q true)

section NewPipe
variable {f₀ f₁ : FilePtr}

theorem withPipe_file (hne : f₀ ≠ f₁) (k : Kernel) (q : ℕ) (g : FilePtr) :
    (k.withPipe q f₀ f₁).file g =
      if g = f₁ then File.pipeEnd q true (k.file g)
      else if g = f₀ then File.pipeEnd q false (k.file g) else k.file g := by
  unfold Kernel.withPipe
  by_cases h₁ : g = f₁
  · subst h₁
    rw [Kernel.mapFile_same, Kernel.mapFile_of_ne _ (Ne.symm hne), if_pos rfl]
    rfl
  · rw [Kernel.mapFile_of_ne _ h₁, if_neg h₁]
    by_cases h₀ : g = f₀
    · subst h₀
      rw [Kernel.mapFile_same, if_pos rfl]
      rfl
    · rw [Kernel.mapFile_of_ne _ h₀, if_neg h₀]
      rfl

theorem isEnd_withPipe {r : ℕ} {v : Bool} (hne : f₀ ≠ f₁) (h₀ : (k.file f₀).type ≠ .FD_PIPE)
    (h₁ : (k.file f₁).type ≠ .FD_PIPE) : IsEnd (k.withPipe q f₀ f₁) r v g ↔
      IsEnd k r v g ∨ (r = q ∧ g = if v then f₁ else f₀) := by
  unfold IsEnd
  rw [withPipe_file hne]
  by_cases hg₁ : g = f₁
  · subst hg₁
    cases v <;> simp [File.pipeEnd, h₁, Ne.symm hne, @eq_comm _ q r]
  · by_cases hg₀ : g = f₀
    · subst hg₀
      cases v <;> simp [File.pipeEnd, h₀, hne, @eq_comm _ q r]
    · cases v <;> simp [hg₀, hg₁]

theorem Files.openPipe (h : Files S X k) (hq : k.pipe q = none) (hne : f₀ ≠ f₁)
    (h₀ : (k.file f₀).type ≠ .FD_PIPE) (h₁ : (k.file f₁).type ≠ .FD_PIPE)
    (hr₀ : (k.file f₀).ref ≠ 0) (hr₁ : (k.file f₁).ref ≠ 0) : Files S X (k.withPipe q f₀ f₁) := by
  have hnew {r : ℕ} {v : Bool} {g : FilePtr} (hg : IsEnd k r v g) : r ≠ q := by
    rintro rfl
    obtain ⟨e, he, -⟩ := h.live r v g hg
    rw [hq] at he
    cases he
  refine ⟨?_, ?_, ?_, ?_, ?_, ?_⟩
  · intro g
    rw [withPipe_file hne, ← h.ref g]
    split_ifs <;> rfl
  · intro g
    rw [withPipe_file hne]
    split_ifs with hg₁ hg₀
    · subst hg₁
      exact fun hr => absurd hr hr₁
    · subst hg₀
      exact fun hr => absurd hr hr₀
    · exact h.idle g
  · intro r v g hg
    rcases (isEnd_withPipe hne h₀ h₁).mp hg with hg | ⟨rfl, -⟩
    · obtain ⟨e, he, hopen⟩ := h.live r v g hg
      exact ⟨e, (Function.update_of_ne (hnew hg) _ _).trans he, hopen⟩
    · exact ⟨_, Function.update_self _ _ _, by cases v <;> rfl⟩
  · intro r v e he hopen
    by_cases hr : r = q
    · exact ⟨_, (isEnd_withPipe hne h₀ h₁).mpr (.inr ⟨hr, rfl⟩)⟩
    · obtain ⟨g, hg⟩ := h.ends r v e ((Function.update_of_ne hr _ _).symm.trans he) hopen
      exact ⟨g, (isEnd_withPipe hne h₀ h₁).mpr (.inl hg)⟩
  · intro r v g g' hg hg'
    rcases (isEnd_withPipe hne h₀ h₁).mp hg with hg | ⟨hr, rfl⟩ <;>
    rcases (isEnd_withPipe hne h₀ h₁).mp hg' with hg' | ⟨hr', rfl⟩
    · exact h.unique r v g g' hg hg'
    · exact absurd hr' (hnew hg)
    · exact absurd hr (hnew hg')
    · rfl
  · intro r e he
    by_cases hr : r = q
    · subst hr
      cases (Function.update_self _ _ _).symm.trans he
      exact ⟨true, rfl⟩
    · exact h.used r e ((Function.update_of_ne hr _ _).symm.trans he)

end NewPipe

end ProvenXv6.Kern
