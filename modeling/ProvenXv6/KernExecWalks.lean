import ProvenXv6.KernWalks
import ProvenXv6.Lockstep

namespace ProvenXv6.Kern
open WeakestPre Lockstep
open Fs (Byte Block Fault Superblock Devsw)
open Vm (Mem VmM BootImage Balanced KERNBASE PHYSTOP DEVSPACE PGSIZE pages PGROUNDUP copyoutBy checkedUva2ka uva2ka nullPte)
open Ptable (Slot)

variable {img : BootImage} {B D L : List ℕ} {k k₁ : Kernel} {p : Slot} {s t : Mem} {d sz : ℕ}
  {argv : List (List Byte)} {path : List Byte}

theorem checkedUva2ka_guards (cr3 pgdir uva : ℕ) : Guards nullPte (checkedUva2ka pgdir uva) (uva2ka cr3 pgdir uva) := by
  refine (Guards.refl _ _).bind fun tab => ?_
  rcases tab with _ | tab
  · exact fun _ => Or.inl rfl
  · exact Guards.refl _ _

theorem copyoutBy_guards {e : Fault} {ka ka' : ℕ → VmM (Option ℕ)} (h : ∀ va, Guards e (ka va) (ka' va)) (fuel va : ℕ)
    (bytes : List Byte) : Guards e (copyoutBy ka fuel va bytes) (copyoutBy ka' fuel va bytes) := by
  induction fuel generalizing va bytes with
  | zero => exact Guards.refl _ _
  | succ fuel ih =>
    unfold copyoutBy
    split_ifs
    · exact Guards.refl _ _
    · refine (h _).bind fun pa0 => ?_
      rcases pa0 with _ | pa0
      · exact Guards.refl _ _
      · exact (Guards.refl _ _).bind fun s => (Guards.refl _ _).bind fun _ => ih _ _

theorem pushArgsBy_guards {e : Fault} {copy copy' : ℕ → ℕ → List Byte → VmM Bool}
    (h : ∀ fuel va bytes, Guards e (copy fuel va bytes) (copy' fuel va bytes)) (argv : List (List Byte)) (sp : ℕ)
    (ustack : List ℕ) : Guards e (pushArgsBy copy argv sp ustack) (pushArgsBy copy' argv sp ustack) := by
  induction argv generalizing sp ustack with
  | nil => exact Guards.refl _ _
  | cons arg argv ih =>
    unfold pushArgsBy
    split_ifs
    · exact Guards.refl _ _
    · refine (h _ _ _).bind fun r => ?_
      split_ifs
      · exact ih _ _
      · exact Guards.refl _ _

theorem userStackBy_guards {e : Fault} {copy copy' : ℕ → ℕ → List Byte → VmM Bool}
    (h : ∀ fuel va bytes, Guards e (copy fuel va bytes) (copy' fuel va bytes)) (pgdir sz : ℕ)
    (argv : List (List Byte)) : Guards e (userStackBy img copy pgdir sz argv) (userStackBy img copy' pgdir sz argv) := by
  unfold userStackBy
  refine (Guards.refl _ _).bind fun r => ?_
  split_ifs
  · exact Guards.refl _ _
  · refine (Guards.refl _ _).bind fun _ => (pushArgsBy_guards h _ _ _).bind fun r => ?_
    rcases r with _ | ⟨sp, ustack⟩
    · exact Guards.refl _ _
    · exact (h _ _ _).bind fun r => Guards.refl _ _

theorem onMem_guards {α : Type} {e : Fault} {m m' : VmM α} (h : Guards e m m') :
    Guards (.mem e) (onMem m) (onMem m') := by
  intro k
  unfold onMem
  rcases h k.mem with he | hs
  · left
    rw [he]
  · right
    rw [hs]

section Exec
variable (sb : Superblock) (dev : Devsw)

/-- Up to a page table that is not there, the check changes nothing. -/
theorem execBy_guards : Guards (.mem nullPte) (execBy sb dev img (fun _ => checkedUva2ka) p path argv)
    (execBy sb dev img uva2ka p path argv) := by
  unfold execBy
  refine (Guards.refl _ _).bind fun r => ?_
  rcases r with _ | ⟨d, sz⟩
  · exact Guards.refl _ _
  · refine (Guards.refl _ _).bind fun e => (onMem_guards ?_).bind fun r => Guards.refl _ _
    exact userStackBy_guards (copyoutBy_guards (checkedUva2ka_guards e.pgdir d)) _ _ _

variable {sb dev} in
theorem exec_eq_ok {r : ℤ} {k' : Kernel} (h : exec sb dev img p path argv k = .ok (r, k')) :
    ∃ esp, execBy sb dev img uva2ka p path argv k = .ok (esp, k') ∧ r = if esp.isSome then 0 else -1 := by
  rw [exec_eq, map_eq_pure_bind, bind_eq_ok] at h
  obtain ⟨esp, k₁, hrun, hr⟩ := h
  cases hr
  exact ⟨esp, hrun, rfl⟩

/-- The arguments that `sys_exec` lets through. -/
def Admitted (e : Proc) (argv : List (List Byte)) : Prop :=
  argv.length < MAXARG ∧ ∀ arg ∈ argv, arg.length < e.sz

section Walks
variable {sb dev} (h : Inv img B k) (hp : (k.proc p).state = .runnable)

include h hp in
theorem Admitted.small (hargv : Admitted (k.proc p) argv) : ∀ arg ∈ argv, arg.length < KERNBASE := by
  intro arg harg
  exact (hargv.2 arg harg).trans (h.size _ (mem_spaces (space_runnable hp)))

include h in
theorem filling_of_openImage (hload : openImage sb dev img p path k = .ok (some (d, sz), k₁)) :
    Filling img (slots k) [] ((spaces k).map Space.pgdir) ((spaces k).map Space.kstack ++ B) d sz k k₁ := by
  have hspec : wp Allowed (openImage sb dev img p path) _ k := openImage_spec sb dev h
  have hfill := wp_ok hspec hload
  exact hfill

include h hp in
theorem checkedExec_spec (hargv : Admitted (k.proc p) argv)
    (hload : openImage sb dev img p path k = .ok (some (d, sz), k₁))
    (hgap : HasStack img d sz k₁.mem → ¬HitsGap argv PGSIZE (stackTop sz)) :
    wp (fun e => e ≠ .mem nullPte) (execBy sb dev img (fun _ => checkedUva2ka) p path argv)
      (fun r _ => ¬StackFits argv → r = none) k := by
  obtain ⟨hproc, hmid, hl⟩ := filling_of_openImage h hload
  unfold execBy
  rw [wp_bind]
  apply wp_of_ok hload
  dsimp only
  rw [wp_bind, wp_getProc, wp_bind, hproc]
  refine hmid.onMem (fun _ => d :: (spaces k).map Space.pgdir)
    (fun _ => (spaces k).map Space.kstack ++ B)
    (fun r _ => ∀ x, r = some x → StackFits argv ∧ x.1 < KERNBASE) ?_ ?_
  · intro P hb
    have hremap : Fault.panic "remap" ≠ nullPte := by decide
    have hgap' : ∀ t, Vm.allocuvm img d (pages sz*PGSIZE) ((pages sz+2)*PGSIZE) k₁.mem =
        .ok ((pages sz+2)*PGSIZE, t) → ¬HitsGap argv PGSIZE ((pages sz+2)*PGSIZE) := by
      intro t ht
      rw [← stackTop_eq hl.size] at ht ⊢
      rw [← Vm.PGROUNDUP_eq hl.size] at ht
      exact hgap ⟨t, ht⟩
    apply wp_mono (userStackBy_spec (hargv.small h hp) hargv.1 (Vm.checkedUva2ka_translates d)
      (fun he => hremap (Stop.mem.inj he)) hb hl hgap')
    rintro r t ⟨hbt, hr⟩
    refine ⟨hbt, ?_⟩
    rintro x rfl
    obtain ⟨hfit, hx, hle, -⟩ := hr.resolve_left (Option.some_ne_none x)
    cases hx
    exact ⟨hfit, hle⟩
  · rintro (_ | ⟨sz', sp⟩) t hmid₂ hr
    · dsimp only
      rw [wp_bind]
      apply hmid₂.freevm
      exact fun _ _ _ => rfl
    · have hreplace := replaceImage_spec (G := fun e => e ≠ .mem nullPte) h hp hmid₂ hproc (hr _ rfl).2
      rw [wp_bind] at hreplace
      dsimp only
      rw [wp_bind]
      apply wp_mono hreplace
      intro _ k₂ hk₂
      rw [wp_bind]
      apply wp_mono hk₂
      intro _ k₃ _ hnot
      exact absurd (hr _ rfl).1 hnot

include h hp in
theorem checkedExec_gap (hargv : Admitted (k.proc p) argv)
    (hload : openImage sb dev img p path k = .ok (some (d, sz), k₁)) (hstack : HasStack img d sz k₁.mem)
    (hgap : HitsGap argv PGSIZE (stackTop sz)) :
    execBy sb dev img (fun _ => checkedUva2ka) p path argv k = .error (.mem nullPte) := by
  obtain ⟨hproc, hmid, hl⟩ := filling_of_openImage h hload
  obtain ⟨P, -, -, hb⟩ := hmid.pages
  obtain ⟨t, ht⟩ := hstack
  rw [stackTop_eq hl.size] at ht hgap
  rw [Vm.PGROUNDUP_eq hl.size] at ht
  have hwp : wp (fun e => e = .mem nullPte) (execBy sb dev img (fun _ => checkedUva2ka) p path argv)
      (fun _ _ => False) k := by
    unfold execBy
    rw [wp_bind]
    apply wp_of_ok hload
    dsimp only
    rw [wp_bind, wp_getProc, wp_bind, wp_onMem]
    have hstop := userStackBy_gap (hargv.small h hp) hargv.1 hb hl ht hgap
    apply wp_mono (wp_weaken hstop fun e he => congrArg Stop.mem he)
    exact fun _ _ => False.elim
  cases hrun : execBy sb dev img (fun _ => checkedUva2ka) p path argv k with
  | ok r => exact (wp_ok hwp hrun).elim
  | error e => rw [wp_error hwp hrun]

include h hp in
/-- `exec` finds a page table for every address, and fails when the arguments do not
fit on the stack, unless the first string that does not fit hits the gap between the
memory and the devices. -/
theorem exec_walks_iff (hargv : Admitted (k.proc p) argv)
    (hload : openImage sb dev img p path k = .ok (some (d, sz), k₁)) :
    (execBy sb dev img (fun _ => checkedUva2ka) p path argv k ≠ .error (.mem nullPte) ∧
      ∀ r k', exec sb dev img p path argv k = .ok (r, k') → ¬StackFits argv → r = -1) ↔
    ¬(HasStack img d sz k₁.mem ∧ HitsGap argv PGSIZE (stackTop sz)) := by
  constructor
  · rintro ⟨hwalk, -⟩ ⟨hstack, hgap⟩
    exact hwalk (checkedExec_gap h hp hargv hload hstack hgap)
  · intro hgap
    have hspec := checkedExec_spec h hp hargv hload fun hstack hhit => hgap ⟨hstack, hhit⟩
    have hwalk : execBy sb dev img (fun _ => checkedUva2ka) p path argv k ≠ .error (.mem nullPte) :=
      fun hrun => wp_error hspec hrun rfl
    refine ⟨hwalk, fun r k' hrun hnot => ?_⟩
    obtain ⟨esp, hesp, rfl⟩ := exec_eq_ok hrun
    rw [← (execBy_guards sb dev k).resolve_left hwalk] at hesp
    rw [wp_ok hspec hesp hnot]
    rfl

end Walks

end Exec

section Solo
open Fs (tinySuperblock noDevices)
open Vm (smallImage NPDENTRIES UPAGES Spare target entry)

theorem hasStack_spare {m : ℕ} (h : Balanced img (d :: D) L s) (hempty : ∀ v < UPAGES, entry s.page d v = 0)
    (hs : Spare pool d (m+2) s) : HasStack img d 0 s := by
  obtain ⟨_, t, hrun, rfl, -⟩ := wp_total (allocuvm_stack h hempty hs)
  refine ⟨t, ?_⟩
  rw [stackTop_eq (Nat.zero_le _), Vm.PGROUNDUP_eq (Nat.zero_le _)]
  exact hrun

theorem openImage_solo {n sz tab q : ℕ} {cwd : Fs.Ip} (h : Solo smallImage n sz p tab q k)
    (hn : NPDENTRIES+3 ≤ n) (hcwd : (k.proc p).cwd = some cwd)
    (hfs : wp (fun _ => False) (readProgram cwd) (fun b _ => b = true) k.fs) :
    ∃ d k₁, openImage tinySuperblock noDevices smallImage p programPath k = .ok (some (d, 0), k₁) ∧
      HasStack smallImage d 0 k₁.mem := by
  obtain ⟨_, k₁, hrun, -, d, L, rfl, -, -, hb, -, hempty, hs⟩ := wp_total (openImage_takes h hn hcwd hfs)
  exact ⟨d, k₁, hrun, hasStack_spare (m := 0) hb hempty hs⟩

/-- A process of 0x2004000 bytes runs the program "a" with one argument of 0x2002FFF. -/
theorem exec_walks_to_no_table : ∃ k₀ p k, Booted tinySuperblock noDevices smallImage [] k₀ ∧
    step tinySuperblock noDevices smallImage k₀ (p, .sbrk (0x2003000 : ℕ)) = some k ∧
    Admitted (k.proc p) [longArg] ∧
    execBy tinySuperblock noDevices smallImage (fun _ => checkedUva2ka) p programPath [longArg] k =
      .error (.mem nullPte) := by
  obtain ⟨k₀, p, k, tab, q, cwd, hboot, hstep, hsolo, hcwd, hfs⟩ :=
    boot_and_grow (m := 0x2003000) (by decide) (by decide) (by decide)
  obtain ⟨d, k₁, hload, hstack⟩ := openImage_solo hsolo (by decide) hcwd hfs
  have hadm : Admitted (k.proc p) [longArg] := by
    refine ⟨by decide, fun arg harg => ?_⟩
    rw [List.mem_singleton.mp harg, longArg_length, hsolo.size]
    decide
  refine ⟨k₀, p, k, hboot, hstep, hadm, checkedExec_gap hsolo.inv hsolo.state hadm hload hstack ?_⟩
  rw [stackTop_eq (Nat.zero_le _), HitsGap, padded, longArg_length, if_neg (by decide)]
  decide

/-- The same process runs the program with the arguments "a" and "b". -/
theorem exec_walks_two : ∃ k p d k₁, openImage tinySuperblock noDevices smallImage p programPath k =
      .ok (some (d, 0), k₁) ∧
    execBy tinySuperblock noDevices smallImage (fun _ => checkedUva2ka) p programPath [[97], [98]] k ≠
      .error (.mem nullPte) := by
  obtain ⟨k₀, p, k, tab, q, cwd, hboot, hstep, hsolo, hcwd, hfs⟩ :=
    boot_and_grow (m := 0x2003000) (by decide) (by decide) (by decide)
  obtain ⟨d, k₁, hload, -⟩ := openImage_solo hsolo (by decide) hcwd hfs
  have hadm : Admitted (k.proc p) [[97], [98]] := by
    refine ⟨by decide, ?_⟩
    rw [hsolo.size]
    decide
  refine ⟨k, p, d, k₁, hload, ((exec_walks_iff hsolo.inv hsolo.state hadm hload).mpr ?_).1⟩
  rintro ⟨-, hhit⟩
  rw [HitsGap, if_pos (by decide), HitsGap, if_pos (by decide), HitsGap] at hhit
  exact hhit

end Solo

end ProvenXv6.Kern
