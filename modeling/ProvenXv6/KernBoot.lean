import ProvenXv6.KernExec
import ProvenXv6.VmSpare

namespace ProvenXv6.Kern
open RefCount WeakestPre
open Fs (Byte Block FS FsM Fault Ip Superblock Devsw)
open Vm (Mem VmM BootImage Balanced Spare KERNBASE PGSIZE UPAGES NPDENTRIES entry target userPte)
open Ptable (NPROC Slot ProcState)

variable {img : BootImage} {B D L pool : List ℕ} {s t : Mem} {d n : ℕ}

/-- The allocator before `userinit`: the pages B have been taken during the boot, and
there are n free pages at least. -/
structure BootMem (img : BootImage) (B : List ℕ) (n : ℕ) (s : Mem) : Prop where
  balanced : Balanced img [] B s
  deny : s.deny = []
  room : n ≤ s.free.length

theorem balanced_nodup (h : Balanced img D L s) : s.free.Nodup := by
  rw [List.nodup_iff_count_le_one]
  intro x
  have := h.le_one x
  omega

theorem balanced_small (h : Balanced img D L s) : ∀ p ∈ s.free, p < 0x100000 := by
  intro p hp
  have hm : img.Managed p := h.managed (by have := List.count_pos_iff.mpr hp; omega)
  have := hm.2
  simp only [Vm.PHYSTOP, PGSIZE] at this
  omega

theorem inituvm_spec {F : Fault → Prop} {code : List Byte}
    (hF : code.length < PGSIZE ∨ F (.panic "inituvm: more than a page"))
    (h : Balanced img (d :: D) L s) (hs : Spare pool d (n+1) s) (hempty : ∀ v < UPAGES, entry s.page d v = 0) :
    wp F (Vm.inituvm d code) (fun _ t => Balanced img (d :: D) L t ∧ Spare pool d n t ∧
      (∃ q, q < 0x100000 ∧ entry t.page d 0 = userPte q) ∧ ∀ v < UPAGES, v ≠ 0 → entry t.page d v = 0) s := by
  unfold Vm.inituvm
  split_ifs with hlen
  · exact hF.resolve_left (not_lt.mpr hlen)
  · rw [wp_bind]
    refine wp_mono (wp_and (Vm.kalloc_spec h) (Vm.kalloc_spare (F := F) hs) fun _ he _ => he) ?_
    rintro _ s₁ ⟨⟨hpage, hb₁⟩, q, rfl, hqd, hs₁⟩
    dsimp only at hb₁ ⊢
    have hq := hb₁.page_lt List.mem_cons_self
    have hzero : ∀ v < UPAGES, entry (s₁.put q fun _ => 0).page d v = 0 := by
      intro v hv
      rw [← hempty v hv, ← hpage]
      apply Vm.entry_congr _ (Vm.user_lt ⟨v, hv⟩)
      intro x hx
      apply Mem.put_of_ne
      rintro rfl
      exact hb₁.not_control_loose List.mem_cons_self List.mem_cons_self hx
    rw [wp_bind, Vm.wp_memset, wp_bind]
    have hmap := Vm.mappages_user (F := F) (v := 0) (hb₁.put_loose fun _ => 0) (by decide)
      (Or.inl (by rw [hzero 0 (by decide), Vm.target_zero]))
      (show (Vm.PTE_W ||| Vm.PTE_U).toNat < 4096 by decide)
    rw [Nat.zero_mul] at hmap
    have hmap' : wp (fun _ => True) (Vm.mappages d 0 PGSIZE (q*PGSIZE) (Vm.PTE_W ||| Vm.PTE_U))
        (fun r t => r = true ∧ Spare pool d n t) (s₁.put q fun _ => 0) :=
      Vm.mappages_spare trivial (by decide) (hs₁.put hqd fun _ => 0)
    refine wp_mono (wp_and hmap hmap' fun _ he _ => he) ?_
    rintro _ s₂ ⟨hr, rfl, hs₂⟩
    obtain ⟨-, hb₂, hu, hentry⟩ := hr.resolve_left fun hf => absurd hf.1 (by decide)
    rw [wp_bind, wp_get, Vm.wp_setPage]
    have htarget : target (entry s₂.page d 0) = some q := by
      rw [hentry]
      exact Vm.target_mapped hq (by decide)
    obtain ⟨hb₃, hsame⟩ := hb₂.put_user (by decide) htarget
      (Fs.copyIn (s₂.page q) 0 code.length fun j => code.getD j 0)
    refine ⟨hb₃, hs₂.put hqd _, ⟨q, hq, ?_⟩, ?_⟩
    · rw [hsame.entry_eq (v := 0) (by decide), hentry]
      rfl
    · intro v hv hv0
      rw [hsame.entry_eq (v := v) (Vm.user_lt ⟨v, hv⟩), hu.entries v (Vm.user_lt ⟨v, hv⟩) hv0, hzero v hv]

section Userinit
variable {fs : FS} {sb : Superblock} {dev : Devsw}

theorem spaces_bare (fs : FS) (s : Mem) : spaces (bareKernel fs s) = [] :=
  List.filterMap_eq_nil_iff.mpr fun _ _ => rfl

theorem files_bare (fs : FS) (s : Mem) : Files (slots (bareKernel fs s)) [] (bareKernel fs s) where
  ref f := by
    rw [show slots (bareKernel fs s) = fun _ => none from rfl, refs_none]
    rfl
  idle _ _ := rfl
  live _ _ _ hend := FdType.noConfusion hend.1
  ends _ _ _ he _ := by cases he
  unique _ _ _ _ hend := FdType.noConfusion hend.1
  used _ _ he := by cases he

theorem BootMem.inv (h : BootMem img B n s) : Inv img B (bareKernel fs s) where
  mid := by
    rw [spaces_bare]
    refine ⟨files_bare fs s, [], List.nodup_nil, ?_, ?_⟩
    · exact fun q => iff_of_false List.not_mem_nil fun hne => hne rfl
    · rw [List.append_nil]
      exact h.balanced
  closed _ _ _ := rfl
  size x hx := by
    rw [spaces_bare] at hx
    cases hx

/-- What `userinit` leaves: the process p alone, with its code in the first page. -/
structure Fresh (img : BootImage) (B : List ℕ) (n : ℕ) (p : Slot) (k : Kernel) : Prop where
  inv : Inv img B k
  state : (k.proc p).state = .runnable
  size : (k.proc p).sz = PGSIZE
  alone : ∃ x, spaces k = [x]
  others : ∀ q, q ≠ p → (k.proc q).state = .unused
  closed : ∀ fd, (k.proc p).ofile fd = none
  spare : Spare k.mem.free (k.proc p).pgdir n k.mem
  code : ∃ q, q < 0x100000 ∧ entry k.mem.page (k.proc p).pgdir 0 = userPte q
  rest : ∀ v < UPAGES, v ≠ 0 → entry k.mem.page (k.proc p).pgdir v = 0

theorem Fresh.mono {k : Kernel} {p : Slot} {m : ℕ} (h : Fresh img B n p k) (hm : m ≤ n) : Fresh img B m p k :=
  { h with spare := { h.spare with room := (Nat.add_le_add_right hm _).trans h.spare.room } }

theorem allocproc_takes {F : Stop → Prop} {k : Kernel} {p : Slot} {st : ℕ} {free : List ℕ}
    (hp : (k.proc p).state = .unused) (hdeny : k.mem.deny = []) (hfree : k.mem.free = st :: free) :
    wp F allocproc (fun r k' => r ≠ none ∧ k'.fs = k.fs ∧ k'.mem = { k.mem with free := free, deny := [] }) k := by
  unfold allocproc
  rw [wp_bind, wp_get]
  split
  next hnone =>
    have := List.find?_eq_none.mp hnone p (List.mem_finRange p)
    simp [hp] at this
  next np _ =>
    have hkalloc : wp (fun e => F (.mem e)) Vm.kalloc (fun r t => r = some st ∧
        t = { k.mem with free := free, deny := [] }) k.mem := by
      rw [wp, Vm.kalloc_some hdeny hfree]
      exact ⟨rfl, rfl⟩
    simp only [wp_bind, wp_setProc, wp_modify]
    rw [wp_onMem]
    apply wp_mono hkalloc
    rintro _ _ ⟨rfl, rfl⟩
    exact ⟨Option.some_ne_none np, rfl, rfl⟩

theorem fresh_of_proc {k k' : Kernel} {p : Slot} {st : ℕ} (pid : ℕ) (cwd : Option Ip)
    (hinv : Inv img B (bareKernel fs s)) (hmid : Mid img (slots (bareKernel fs s)) [] [d] (st :: B) k')
    (hfile : k.file = k'.file) (hpipe : k.pipe = k'.pipe) (hmem : k.mem = k'.mem)
    (hproc : k.proc = Function.update (bareKernel fs s).proc p { (bareKernel fs s).proc p with
      state := .runnable, pid := pid, kstack := st, pgdir := d, sz := PGSIZE, cwd := cwd })
    (hspare : Spare pool d n k'.mem) (hcode : ∃ q, q < 0x100000 ∧ entry k'.mem.page d 0 = userPte q)
    (hrest : ∀ v < UPAGES, v ≠ 0 → entry k'.mem.page d v = 0) : Fresh img B n p k := by
  obtain ⟨e, he⟩ : ∃ e : Proc, e = { (bareKernel fs s).proc p with
    state := .runnable, pid := pid, kstack := st, pgdir := d, sz := PGSIZE, cwd := cwd } := ⟨_, rfl⟩
  rw [← he] at hproc
  have hp : k.proc p = e := by rw [hproc, Function.update_self]
  have hspace : e.space = some ⟨d, st, PGSIZE⟩ := by rw [he]; rfl
  have hslots : slots k = slots (bareKernel fs s) := slots_update hproc (by rw [he])
  have hspaces := spaces_update hproc
  rw [Proc.space_unused rfl, spaces_bare] at hspaces
  refine ⟨?_, ?_, ?_, ?_, ?_, ?_, ?_, ?_, ?_⟩
  · refine hinv.add rfl hproc (by rw [he]) hspace (by decide : PGSIZE < KERNBASE) ?_
    rw [hslots, spaces_bare]
    exact hmid.congr hfile hpipe hmem
  · rw [hp, he]
  · rw [hp, he]
  · rw [hspace] at hspaces
    exact ⟨_, List.perm_singleton.mp hspaces⟩
  · intro q hq
    rw [hproc, Function.update_of_ne hq]
    rfl
  · rw [hp, he]
    exact fun _ => rfl
  · rw [hp, he, hmem]
    exact hspare.own
  · rw [hp, he, hmem]
    exact hcode
  · rw [hp, he, hmem]
    exact hrest

theorem userinit_spec {F : Stop → Prop} (code : List Byte)
    (hcode : code.length < PGSIZE ∨ F (.mem (.panic "inituvm: more than a page")))
    (hroot : wp (fun e => F (.fs e)) (Fs.namei sb dev ⟨0, ninode_pos⟩ [Fs.slash]) (fun _ _ => True) fs)
    (h : BootMem img B (n+NPDENTRIES+3) s) :
    wp F (userinit sb dev img code) (fun _ k => ∃ p, Fresh img B n p k ∧ k.mem.free <:+ s.free ∧
      Fs.namei sb dev ⟨0, ninode_pos⟩ [Fs.slash] fs = .ok ((k.proc p).cwd, k.fs)) (bareKernel fs s) := by
  have hroom := h.room
  cases hf : s.free with
  | nil =>
    rw [hf, List.length_nil] at hroom
    omega
  | cons st free =>
    have hinv : Inv img B (bareKernel fs s) := h.inv
    have hnodup := balanced_nodup h.balanced
    have hsmall := balanced_small h.balanced
    rw [hf] at hnodup hsmall hroom
    unfold userinit
    rw [wp_bind]
    refine wp_mono (wp_and (allocproc_spec (F := F) hinv) (allocproc_takes (F := F) (p := ⟨0, nproc_pos⟩) rfl h.deny hf)
      fun _ _ he => he) ?_
    rintro (_ | p) k₁ ⟨hk₁, hsome, hfs₁, hmem₁⟩
    · exact absurd rfl hsome
    · obtain ⟨-, -, pid, st', hproc₁, hmid₁⟩ := hk₁
      rw [spaces_bare] at hmid₁
      dsimp only
      rw [wp_bind, wp_modify, wp_bind]
      have hmid₂ : Mid img (slots (bareKernel fs s)) [] [] (st' :: B) { k₁ with initproc := p } :=
        hmid₁.congr rfl rfl rfl
      refine hmid₂.onMem (fun r => r.toList) (fun _ => st' :: B)
        (fun r t => ∃ d, r = some d ∧ Spare k₁.mem.free d (n+1) t ∧ ∀ v < UPAGES, entry t.page d v = 0) ?_ ?_
      · intro P hb
        have hspare := Vm.setupkvm_spare img (F := fun _ => True) (m := n+1) (s := k₁.mem) trivial
          (by rw [hmem₁]) (by rw [hmem₁]; exact (List.nodup_cons.mp hnodup).2)
          (by rw [hmem₁]; exact fun q hq => hsmall q (List.mem_cons_of_mem _ hq))
          (by rw [hmem₁]; rw [List.length_cons] at hroom; dsimp only; omega)
        refine wp_mono (wp_and (Vm.setupkvm_spec hb) hspare fun _ he _ => he) ?_
        rintro _ t ⟨⟨-, hr⟩, d, rfl, hs⟩
        obtain ⟨hb', -, hempty⟩ := hr
        exact ⟨hb', d, rfl, hs, hempty⟩
      · rintro _ t hmid₃ ⟨d, rfl, hspare, hempty⟩
        dsimp only
        rw [wp_bind, wp_setProc, wp_bind]
        have hmid₄ : Mid img (slots (bareKernel fs s)) [] [d] (st' :: B)
            ({ { k₁ with initproc := p } with mem := t }.mapProc p fun e => { e with pgdir := d }) :=
          hmid₃.congr rfl rfl rfl
        refine hmid₄.onMem (fun _ => [d]) (fun _ => st' :: B)
          (fun _ t => Spare k₁.mem.free d n t ∧ (∃ q, q < 0x100000 ∧ entry t.page d 0 = userPte q) ∧
            ∀ v < UPAGES, v ≠ 0 → entry t.page d v = 0) ?_ ?_
        · exact fun P hb => inituvm_spec hcode hb hspare hempty
        · rintro _ t' hmid₅ ⟨hspare', hcode', hrest⟩
          rw [wp_bind, wp_setProc, wp_bind, wp_onFs]
          change wp _ _ _ k₁.fs
          rw [hfs₁]
          refine wp_mono (wp_and hroot (wp_self _ fs) fun _ he _ => he) ?_
          rintro cwd fs' ⟨-, hnamei⟩
          rw [wp_bind, wp_setProc, wp_setProc]
          have hmid₆ : Mid img (slots (bareKernel fs s)) [] [d] (st' :: B) { k₁ with mem := t' } :=
            hmid₅.congr rfl rfl rfl
          refine ⟨p, fresh_of_proc pid cwd hinv hmid₆ rfl rfl rfl ?_ hspare' hcode' hrest, ?_, ?_⟩
          · simp only [Kernel.mapProc, hproc₁, Function.update_self, Function.update_idem]
          · have hpool := hspare'.suffix
            rw [hmem₁] at hpool
            exact hpool.trans (List.suffix_cons st free)
          · rw [hnamei, Kernel.mapProc_same, Kernel.mapProc_same]
            rfl

end Userinit

end ProvenXv6.Kern
