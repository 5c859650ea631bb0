import ProvenXv6.FsOwnership
import ProvenXv6.KernBoot
import ProvenXv6.StepSystem

namespace ProvenXv6.Kern
open RefCount WeakestPre StepSystem
open Fs (Byte Block Disk Dinode FS FsM Fault Ip Superblock Devsw tinySuperblock noDevices)
open Vm (Mem VmM BootImage Balanced Spare KERNBASE PGSIZE UPAGES NPDENTRIES NPTENTRIES entry target table userPte
  smallImage pages)
open Ptable (NPROC Slot ProcState)

variable {img : BootImage} {B D L pool : List ℕ} {k k' : Kernel} {p : Slot} {s : Mem} {d n : ℕ}

/-- A call of exec has short arguments only. -/
def Call.short : Call → Prop
  | .exec _ argv => ShortArgs argv
  | _ => True

section Steps
variable (sb : Superblock) (dev : Devsw)

theorem perform_spec {call : Call} (h : Inv img B k) (hp : (k.proc p).state = .runnable)
    (hcall : call.short) : wp Allowed (perform sb dev img p call) (fun _ => Inv img B) k := by
  have hfs (e : Fault) : Allowed (.fs e) := trivial
  have hfile {m : KernM ℤ} (hm : wp Allowed m (fun _ => FileCall img p ((spaces k).map Space.pgdir)
      ((spaces k).map Space.kstack ++ B) k) k) : wp Allowed (discard m) (fun _ => Inv img B) k := by
    apply wp_discard
    exact wp_mono hm fun _ _ hcall => h.fileCall hp hcall
  cases call with
  | fork =>
    have hsrc : Vm.Source (fun e => Allowed (.mem e)) k.mem (k.proc p).pgdir (k.proc p).sz :=
      fun _ _ => Or.inr ⟨by simp [Allowed], by simp [Allowed]⟩
    exact wp_discard (wp_mono (fork_spec h hp (Or.inl allowed_trap) hsrc) fun _ _ hk => hk.1)
  | exit => exact exit_spec sb h hp
  | wait => exact wp_discard (wait_spec h)
  | sbrk n => exact wp_discard (sys_sbrk_spec h hp)
  | exec path argv => exact wp_discard (sys_exec_spec sb dev h hp hcall)
  | «open» path omode => exact hfile (sys_open_spec sb dev hfs allowed_trap h.mid)
  | dup fd => exact hfile (sys_dup_spec h.mid)
  | close fd => exact hfile (sys_close_spec sb hfs h.mid)
  | pipe =>
    refine wp_discard (wp_mono (sys_pipe_spec sb hfs h.mid) ?_)
    exact fun _ _ hcall => h.fileCall hp hcall
  | link old new => exact hfile (fsCall_spec hfs allowed_trap h.mid)
  | unlink path => exact hfile (fsCall_spec hfs allowed_trap h.mid)
  | mkdir path => exact hfile (fsCall_spec hfs allowed_trap h.mid)
  | mknod path major minor => exact hfile (fsCall_spec hfs allowed_trap h.mid)
  | chdir path => exact hfile (sys_chdir_spec sb dev hfs allowed_trap h.mid)
  | store va b => exact userStore_spec h hp

theorem step_inv {e : Slot × Call} (h : Inv img B k) (hs : step sb dev img k e = some k')
    (hcall : e.2.short) : Inv img B k' := by
  unfold step at hs
  split_ifs at hs with hp
  cases hrun : perform sb dev img e.1 e.2 k with
  | error _ => simp [hrun] at hs
  | ok r =>
    rw [hrun] at hs
    cases hs
    have hinv := wp_ok (perform_spec sb dev h hp hcall) hrun
    exact hinv

/-- The kernel after the boot, with any schedule of failures for what follows. -/
def Booted (img : BootImage) (B : List ℕ) (k : Kernel) : Prop :=
  ∃ fs s code k' deny, BootMem img B 2000 s ∧ userinit sb dev img code (bareKernel fs s) = .ok ((), k') ∧
    k = { k' with mem := { k'.mem with deny := deny } }

variable {sb dev} in
theorem Booted.inv (h : Booted sb dev img B k) : Inv img B k := by
  obtain ⟨fs, s, code, k', deny, hboot, hrun, rfl⟩ := h
  have hroot : wp (fun e => Allowed (.fs e)) (Fs.namei sb dev ⟨0, ninode_pos⟩ [Fs.slash]) (fun _ _ => True) fs :=
    wp_mono (wp_self _ fs) fun _ _ _ => trivial
  have hroom : 973+NPDENTRIES+3 = 2000 := by decide
  obtain ⟨p, hfresh, -⟩ := wp_ok (userinit_spec code (n := 973) (Or.inr (by simp [Allowed])) hroot (hroom ▸ hboot)) hrun
  obtain ⟨P, hnodup, hP, hb⟩ := hfresh.inv.mid.pages
  exact ⟨⟨hfresh.inv.mid.files.congr rfl rfl, P, hnodup, hP, hb.congr rfl rfl⟩, hfresh.inv.closed,
    hfresh.inv.size⟩

end Steps

/-- The pages were freed from low to high addresses. -/
@[irreducible] def bootPages : List ℕ := (List.range' 0x116 (0xE000-0x116)).reverse

def bootMem : Mem := ⟨bootPages, [], fun _ _ => 0⟩

theorem bootMem_boot : BootMem smallImage [] 57066 bootMem where
  balanced := by
    refine ⟨fun x => ?_, fun _ _ => rfl⟩
    have hfree : bootPages.count x = if 0x116 ≤ x ∧ x < 0xE000 then 1 else 0 := by
      unfold bootPages
      rw [List.count_reverse, List.Nodup.count (List.nodup_range' ..)]
      exact if_congr List.mem_range'_1 rfl rfl
    have hmanaged : smallImage.Managed x ↔ 0x116 ≤ x ∧ x < 0xE000 := by
      simp only [Vm.Image.Managed, smallImage, Vm.PHYSTOP, PGSIZE]
    simp only [bootMem, hfree, hmanaged, Vm.heldBy_nil, List.count_nil, Nat.add_zero]
  deny := rfl
  room := by
    unfold bootMem bootPages
    rw [List.length_reverse, List.length_range']

def fileDinode : Dinode := ⟨Fs.T_FILE, 0, 0, 1, 52, fun i => if i.val = 0 then 5 else 0⟩

/-- The root directory names inode 2 as "a", a program without any segment. -/
def programImage : Disk := fun b j =>
  if b = 2 then
    if j/64 = 1 then Fs.rootDinode.encode (j%64) else if j/64 = 2 then fileDinode.encode (j%64) else 0
  else if b = 3 then if j = 0 then 0x3f else 0
  else if b = 4 then if j = 0 then 2 else if j = 2 then 97 else 0
  else if b = 5 then if j = 0 then 0x7F else if j = 1 then 0x45 else if j = 2 then 0x4C else if j = 3 then 0x46 else 0
  else 0

def programPath : List Byte := [47, 97]

/-- What exec reads of the program. -/
def readProgram (cwd : Ip) : FsM Bool := do
  match ← Fs.namei tinySuperblock noDevices cwd programPath with
  | none => pure false
  | some ip => do
    Fs.ilock tinySuperblock ip
    let (r, elf) ← Fs.readi tinySuperblock noDevices ip 0 52
    Fs.iunlockput tinySuperblock ip
    pure (decide (r = 52 ∧ field elf 0 4 = ELF_MAGIC ∧ field elf 44 2 = 0))

theorem wp_of_eval {σ ε : Type} {m : Comp σ ε Bool} {s : σ}
    (h : (match m s with | .ok (b, _) => b | .error _ => false) = true) :
    wp (fun _ => False) m (fun b _ => b = true) s := by
  unfold wp
  split at h
  next heq =>
    rw [heq]
    exact h
  next => cases h

theorem programImage_reads : wp (fun _ => False) (do
    match ← Fs.namei tinySuperblock noDevices ⟨0, ninode_pos⟩ [Fs.slash] with
    | none => pure false
    | some cwd => readProgram cwd) (fun b _ => b = true) (Fs.boot programImage) := by
  apply wp_of_eval
  decide +kernel

theorem growproc_success {m : ℕ} (hm : 0 < m) (hk : PGSIZE+m < KERNBASE) (h : Balanced img (d :: D) L s)
    (hs : Spare pool d (n+pages (PGSIZE+m)) s) (hrest : ∀ v < UPAGES, v ≠ 0 → entry s.page d v = 0) :
    wp (fun _ => False) (Vm.growproc img d PGSIZE m) (fun r t => r = (0, PGSIZE+m) ∧ Spare pool d n t ∧
      entry t.page d 0 = entry s.page d 0 ∧ ∀ i, table s.page d i ≠ none → table t.page d i = table s.page d i) s := by
  have hnew : (((PGSIZE : ℕ) : ℤ)+(m : ℤ))%0x100000000 = ((PGSIZE+m : ℕ) : ℤ) := by
    simp only [KERNBASE] at hk
    omega
  have hone : pages PGSIZE = 1 := by decide
  have hpages := Vm.pages_le hk.le
  unfold Vm.growproc
  dsimp only
  rw [hnew, Int.toNat_natCast, if_pos (by omega), wp_bind]
  have hspare : Spare pool d (n+(pages (PGSIZE+m)-pages PGSIZE)) s :=
    ⟨hs.deny, hs.suffix, hs.small, hs.apart, by have := hs.room; omega⟩
  have hfree : ∀ u, pages PGSIZE ≤ u → u < pages (PGSIZE+m) → target (entry s.page d u) = none ∨ False := by
    intro u hu hu'
    rw [hrest u (hu'.trans_le hpages) (by omega), Vm.target_zero]
    exact Or.inl rfl
  refine wp_mono (wp_and (Vm.allocuvm_grows (Nat.le_add_right _ _) hk h (fun _ hi => hi) hfree)
    (Vm.allocuvm_spare img (F := fun _ => True) (fun _ => trivial) (Nat.le_add_right _ _) hk hspare)
    fun _ he _ => he) ?_
  rintro _ t ⟨⟨-, hr⟩, rfl, hst⟩
  rw [if_neg (by omega)]
  have hu : Vm.Upd d (fun i => Vm.KernelTable i ∨ table s.page d i ≠ none)
      (fun u => u < pages PGSIZE ∨ pages (PGSIZE+m) ≤ u) D L s t := by
    rcases hr with ⟨-, hu, -⟩ | ⟨-, hu, -⟩ <;> exact hu
  exact ⟨rfl, hst, hu.entries 0 (by decide) (Or.inl (by omega)), fun i hi => hu.tables i (Or.inr hi)⟩

/-- The process p alone, with n free pages, its page table and its first page. -/
structure Solo (img : BootImage) (n sz : ℕ) (p : Slot) (tab q : ℕ) (k : Kernel) : Prop where
  inv : Inv img [] k
  alone : ∃ x, spaces k = [x]
  state : (k.proc p).state = .runnable
  size : (k.proc p).sz = sz
  deny : k.mem.deny = []
  room : n ≤ k.mem.free.length
  small : q < 0x100000
  table : table k.mem.page (k.proc p).pgdir 0 = some tab
  entry : entry k.mem.page (k.proc p).pgdir 0 = userPte q

theorem Solo.balanced {sz tab q : ℕ} (h : Solo img n sz p tab q k) :
    ∃ L, Balanced img [(k.proc p).pgdir] L k.mem := by
  obtain ⟨x, hx⟩ := h.alone
  have hin := mem_spaces (space_runnable h.state)
  rw [hx, List.mem_singleton] at hin
  obtain ⟨P, -, -, hb⟩ := h.inv.mid.pages
  rw [hx, List.map_singleton, ← hin] at hb
  exact ⟨_, hb⟩

theorem table_of_entry {m : ℕ → Block} {v : ℕ} (h : entry m d v ≠ 0) :
    ∃ tab, table m d (v/NPTENTRIES) = some tab :=
  Option.ne_none_iff_exists'.mp fun hnone => h (Vm.entry_of_no_table hnone)

theorem userPte_ne_zero {q : ℕ} (hq : q < 0x100000) : userPte q ≠ 0 := by
  intro h0
  have := Vm.target_userPte hq
  rw [h0, Vm.target_zero] at this
  cases this

theorem alone_update {k' : Kernel} {e : Proc} {x y : Space} (h : ∃ x, spaces k = [x])
    (hx : (k.proc p).space = some x) (hy : e.space = some y) (hproc : k'.proc = Function.update k.proc p e) :
    ∃ x, spaces k' = [x] := by
  obtain ⟨z, hz⟩ := h
  have hlen := (spaces_update hproc).length_eq
  rw [hx, hy, hz] at hlen
  simp only [Option.toList_some, List.singleton_append, List.length_cons, List.length_nil] at hlen
  exact List.length_eq_one_iff.mp (by omega)

theorem sbrk_solo {m tab : ℕ} (hm : 0 < m) (hk : PGSIZE+m < KERNBASE) (h : Fresh img [] (n+pages (PGSIZE+m)) p k)
    (htab : table k.mem.page (k.proc p).pgdir 0 = some tab) :
    wp (fun _ => False) (sys_sbrk img p m) (fun _ k' => (∃ q, Solo img n (PGSIZE+m) p tab q k') ∧
      k'.fs = k.fs ∧ (k'.proc p).cwd = (k.proc p).cwd) k := by
  obtain ⟨q, hq, hcode⟩ := h.code
  have hspace := space_runnable h.state
  obtain ⟨x, hx⟩ := h.alone
  have hin := mem_spaces hspace
  rw [hx, List.mem_singleton] at hin
  obtain ⟨P, -, -, hb⟩ := h.inv.mid.pages
  rw [hx, List.map_singleton, ← hin] at hb
  have htotal : wp (fun _ => False) (sys_sbrk img p m) (fun _ k' => ∃ t, Spare k.mem.free (k.proc p).pgdir n t ∧
      entry t.page (k.proc p).pgdir 0 = userPte q ∧ table t.page (k.proc p).pgdir 0 = some tab ∧
      k' = { k with mem := t }.mapProc p fun e => { e with sz := PGSIZE+m }) k := by
    unfold sys_sbrk
    rw [wp_bind, wp_getProc, wp_bind, wp_onMem, h.size]
    apply wp_mono (growproc_success hm hk hb h.spare h.rest)
    rintro _ t ⟨rfl, hst, hentry, htables⟩
    dsimp only
    rw [wp_bind, wp_setProc, if_neg (by decide)]
    have hkeep := htables 0 (by rw [htab]; exact Option.some_ne_none tab)
    exact ⟨t, hst, hentry.trans hcode, hkeep.trans htab, rfl⟩
  refine wp_mono (wp_and htotal (sys_sbrk_spec h.inv h.state) fun _ he _ => he) ?_
  rintro _ k' ⟨⟨t, hst, hentry, hkeep, rfl⟩, hinv⟩
  have hroom := hst.room
  refine ⟨⟨q, hinv, ?_, ?_, ?_, hst.deny, ?_, hq, ?_, ?_⟩, rfl, ?_⟩
  · exact alone_update h.alone hspace (e := { k.proc p with sz := PGSIZE+m })
      (Proc.space_used (by rw [h.state]; decide)) rfl
  · rw [Kernel.mapProc_same]
    exact h.state
  · rw [Kernel.mapProc_same]
  · exact (Nat.le_add_right _ _).trans hroom
  · rw [Kernel.mapProc_same]
    exact hkeep
  · rw [Kernel.mapProc_same]
    exact hentry
  · rw [Kernel.mapProc_same]

theorem step_of_wp {img : Vm.Image} (sb : Superblock) (dev : Devsw) (call : Call) {P : Kernel → Prop}
    (hp : (k.proc p).state = .runnable) (h : wp (fun _ => False) (perform sb dev img p call) (fun _ => P) k) :
    ∃ k', step sb dev img k (p, call) = some k' ∧ P k' := by
  obtain ⟨_, k', hrun, hQ⟩ := wp_total h
  refine ⟨k', ?_, hQ⟩
  unfold step
  rw [if_pos hp, hrun]

theorem programImage_root : wp (fun _ => False) (Fs.namei tinySuperblock noDevices ⟨0, ninode_pos⟩ [Fs.slash])
    (fun r fs => ∃ cwd, r = some cwd ∧ wp (fun _ => False) (readProgram cwd) (fun b _ => b = true) fs)
    (Fs.boot programImage) := by
  have h := programImage_reads
  rw [wp_bind] at h
  apply wp_mono h
  rintro (_ | cwd) fs hfs
  · cases hfs
  · exact ⟨cwd, rfl, hfs⟩

theorem mem_bootPages {l : List ℕ} {x : ℕ} (h : l <:+ bootPages) (hlo : 0x116 ≤ x) (hhi : x < 0x116+l.length) :
    x ∈ l := by
  unfold bootPages at h
  obtain ⟨taken, happend⟩ := h
  have hrange : List.range' 0x116 (0xE000-0x116) = l.reverse ++ taken.reverse := by
    rw [← List.reverse_append, happend, List.reverse_reverse]
  obtain ⟨n, -, hl, -⟩ := List.range'_eq_append_iff.mp hrange
  have hn : l.length = n := by rw [← List.length_reverse, hl, List.length_range']
  rw [← List.mem_reverse, hl, List.mem_range'_1]
  omega

theorem boot_fresh :
    ∃ k₀ p tab cwd, Booted tinySuperblock noDevices smallImage [] k₀ ∧ Fresh smallImage [] 53000 p k₀ ∧
      table k₀.mem.page (k₀.proc p).pgdir 0 = some tab ∧ 0xD010 ≤ tab ∧ (k₀.proc p).cwd = some cwd ∧
      wp (fun _ => False) (readProgram cwd) (fun b _ => b = true) k₀.fs := by
  have hboot : BootMem smallImage [] (53000+NPDENTRIES+3) bootMem :=
    ⟨bootMem_boot.balanced, bootMem_boot.deny, le_trans (by decide) bootMem_boot.room⟩
  have hroot := wp_mono programImage_root fun _ _ _ => (trivial : True)
  obtain ⟨_, k₀, hinit, p, hfresh, hpool, hnamei⟩ :=
    wp_total (userinit_spec (F := fun _ => False) [] (Or.inl (by decide)) hroot hboot)
  obtain ⟨cwd, hcwd, hread⟩ := wp_ok programImage_root hnamei
  obtain ⟨q, hq, hcode⟩ := hfresh.code
  obtain ⟨tab, htab⟩ := table_of_entry (v := 0) (by rw [hcode]; exact userPte_ne_zero hq)
  refine ⟨k₀, p, tab, cwd, ?_, hfresh, htab, ?_, hcwd, hread⟩
  · refine ⟨Fs.boot programImage, bootMem, [], k₀, [], ?_, hinit, ?_⟩
    · exact ⟨bootMem_boot.balanced, bootMem_boot.deny, le_trans (by decide) bootMem_boot.room⟩
    · rw [← hfresh.spare.deny]
  · -- the pages below are free
    by_contra hlow
    obtain ⟨P, -, -, hb⟩ := hfresh.inv.mid.pages
    have hdir := List.mem_map_of_mem (f := Space.pgdir) (mem_spaces (space_runnable hfresh.state))
    have hheld : 0 < Vm.held k₀.mem.page (k₀.proc p).pgdir tab := by
      have : 0 < refs (Vm.tables k₀.mem.page (k₀.proc p).pgdir) tab := refs_pos_of (i := ⟨0, by decide⟩) htab
      unfold Vm.held
      omega
    have hroom := hfresh.spare.room
    have hmem : tab ∈ k₀.mem.free := mem_bootPages hpool (hb.managed_held hdir hheld).1 (by omega)
    have h1 := hb.le_one tab
    have h2 := List.count_pos_iff.mpr hmem
    have h3 := Vm.held_le_heldBy (m := k₀.mem.page) hdir tab
    dsimp only at h3
    omega

theorem boot_and_grow {m : ℕ} (hm : 0 < m) (hk : PGSIZE+m < KERNBASE) (hroom : 2000+pages (PGSIZE+m) ≤ 53000) :
    ∃ k₀ p k tab q cwd, Booted tinySuperblock noDevices smallImage [] k₀ ∧
      step tinySuperblock noDevices smallImage k₀ (p, .sbrk m) = some k ∧
      Solo smallImage 2000 (PGSIZE+m) p tab q k ∧ (k.proc p).cwd = some cwd ∧
      wp (fun _ => False) (readProgram cwd) (fun b _ => b = true) k.fs := by
  obtain ⟨k₀, p, tab, cwd, hboot, hfresh, htab, -, hcwd, hread⟩ := boot_fresh
  obtain ⟨k, hs, ⟨q, hsolo⟩, hfs, hcwd'⟩ := step_of_wp tinySuperblock noDevices (.sbrk m)
    hfresh.state (wp_discard (sbrk_solo hm hk (hfresh.mono hroom) htab))
  exact ⟨k₀, p, k, tab, q, cwd, hboot, hs, hsolo, by rw [hcwd', hcwd], by rw [hfs]; exact hread⟩

end ProvenXv6.Kern
