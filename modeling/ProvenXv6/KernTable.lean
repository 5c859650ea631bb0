import ProvenXv6.KernStray

namespace ProvenXv6.Kern
open RefCount WeakestPre StepSystem LittleEndian
open Fs (Byte Block Superblock Devsw Ip tinySuperblock noDevices getWord setWord copyIn)
open Vm (Mem Image BootImage Balanced Spare KERNBASE PGSIZE UPAGES NPDENTRIES NPTENTRIES entry table userPte userTarget
  pages smallImage)
open Ptable (NPROC Slot ProcState)

/-- `sizeof(struct proc)`; sz is its first word. -/
def PROCSIZE : ℕ := 136

/-- The physical address of `ptable.proc`, in the data of the kernel. -/
structure Layout (img : Image) where
  proc : ℕ
  above : img.data*PGSIZE ≤ proc
  below : proc+NPROC*PROCSIZE ≤ img.kend*PGSIZE

/-- The byte at physical address a. -/
def physByte (m : ℕ → Block) (a : ℕ) : Byte := m (a/PGSIZE) (a%PGSIZE)

/-- The kernel with other contents of the memory and other sizes. -/
def Kernel.reload (k : Kernel) (m : ℕ → Block) (sz : Slot → ℕ) : Kernel :=
  { k with mem := { k.mem with page := m }, proc := fun q => { k.proc q with sz := sz q } }

namespace Layout
variable {img : Image} (lay : Layout img)

def szAddr (q : Slot) : ℕ := lay.proc+q.val*PROCSIZE

def size (m : ℕ → Block) (q : Slot) : ℕ := readLE (physByte m) (lay.szAddr q) 4

/-- The memory after the sizes of the processes in P have been stored. -/
def putSizes (P : Slot → Bool) (sz : Slot → ℕ) (m : ℕ → Block) : ℕ → Block := fun x j =>
  let a := x*PGSIZE+j
  match (List.finRange NPROC).find? (fun q => P q ∧ j < PGSIZE ∧ lay.szAddr q ≤ a ∧ a < lay.szAddr q+4) with
  | some q => byteLE (sz q) (a-lay.szAddr q)
  | none => m x j

/-- The sizes in P go to the table, and then the sizes are what the table holds. -/
def sync (P : Slot → Bool) (k : Kernel) : Kernel :=
  let m := lay.putSizes P (fun q => (k.proc q).sz) k.mem.page
  k.reload m (lay.size m)

/-- The step gives the process a size: `curproc->sz = sz` and `np->sz = curproc->sz`. -/
def resized (e e' : Proc) : Bool := e'.sz ≠ e.sz ∨ e'.pgdir ≠ e.pgdir

/-- A step of the kernel with the sizes in memory, where every store of the step counts. -/
def step (sb : Superblock) (dev : Devsw) (k : Kernel) (e : Slot × Call) : Option Kernel :=
  (Kern.step sb dev img k e).map fun k' => lay.sync (fun q => resized (k.proc q) (k'.proc q)) k'

def Booted (sb : Superblock) (dev : Devsw) (B : List ℕ) (k : Kernel) : Prop :=
  ∃ contents k', Kern.Booted sb dev ⟨img, contents⟩ B k' ∧ k = lay.sync (fun _ => true) k'

/-- The sizes of the processes are those in the table. -/
def Synced (k : Kernel) : Prop := ∀ q, lay.size k.mem.page q = (k.proc q).sz

theorem szAddr_add_le (q : Slot) : lay.szAddr q+PROCSIZE ≤ img.kend*PGSIZE := by
  have h := lay.below
  have hq := Nat.mul_le_mul_right PROCSIZE (Nat.succ_le_of_lt q.isLt)
  unfold szAddr
  rw [Nat.succ_mul] at hq
  omega

theorem szAddr_inj {q r : Slot} {i j : ℕ} (hi : i < 4) (hj : j < 4) (h : lay.szAddr q+i = lay.szAddr r+j) : q = r := by
  apply Fin.ext
  unfold szAddr PROCSIZE at h
  omega

variable {P : Slot → Bool} {sz : Slot → ℕ} {m m' : ℕ → Block} {k k₁ : Kernel} {e : Slot × Call}

theorem putSizes_managed {x : ℕ} (hx : img.Managed x) : lay.putSizes P sz m x = m x := by
  funext j
  have hnone : (List.finRange NPROC).find? (fun q => P q ∧ j < PGSIZE ∧ lay.szAddr q ≤ x*PGSIZE+j ∧
      x*PGSIZE+j < lay.szAddr q+4) = none := by
    rw [List.find?_eq_none]
    intro q _ h
    have hend := lay.szAddr_add_le q
    have hpage := Nat.mul_le_mul_right PGSIZE hx.1
    simp only [decide_eq_true_eq] at h
    unfold PROCSIZE at hend
    omega
  unfold putSizes
  dsimp only
  rw [hnone]

theorem physByte_putSizes (q : Slot) {i : ℕ} (hi : i < 4) : physByte (lay.putSizes P sz m) (lay.szAddr q+i) =
    if P q then byteLE (sz q) i else physByte m (lay.szAddr q+i) := by
  have ha : (lay.szAddr q+i)/PGSIZE*PGSIZE+(lay.szAddr q+i)%PGSIZE = lay.szAddr q+i := Nat.div_add_mod' _ _
  unfold physByte putSizes
  dsimp only
  rw [ha]
  split
  next r hr =>
    have hin := List.find?_some hr
    simp only [decide_eq_true_eq] at hin
    obtain ⟨hP, -, hlow, hhigh⟩ := hin
    obtain rfl : q = r := lay.szAddr_inj hi (j := lay.szAddr q+i-lay.szAddr r) (by omega) (by omega)
    rw [if_pos hP, Nat.add_sub_cancel_left]
  next hnone =>
    have hnot := List.find?_eq_none.mp hnone q (List.mem_finRange q)
    simp only [decide_eq_true_eq, not_and, not_lt] at hnot
    rw [if_neg]
    intro hP
    have := hnot hP (Nat.mod_lt _ (by decide)) (Nat.le_add_right _ _)
    omega

theorem size_putSizes (q : Slot) :
    lay.size (lay.putSizes P sz m) q = if P q then sz q%256^4 else lay.size m q := by
  unfold size
  split_ifs with hP
  · apply readLE_of_bytes
    intro i hi
    rw [lay.physByte_putSizes q hi, if_pos hP]
  · apply readLE_congr
    intro i hi
    rw [lay.physByte_putSizes q hi, if_neg hP]

theorem size_congr (h : ∀ x, ¬img.Managed x → m' x = m x) (q : Slot) : lay.size m' q = lay.size m q := by
  apply readLE_congr
  intro i hi
  have hend := lay.szAddr_add_le q
  have hpage : ¬img.Managed ((lay.szAddr q+i)/PGSIZE) := by
    intro hm
    have := (Nat.le_div_iff_mul_le (by decide : 0 < PGSIZE)).mp hm.1
    unfold PROCSIZE at hend
    omega
  unfold physByte
  rw [h _ hpage]

theorem step_of_proc {sb : Superblock} {dev : Devsw} (hs : Kern.step sb dev img k e = some k₁)
    (hproc : k₁.proc = k.proc) : lay.step sb dev k e = some (k₁.reload k₁.mem.page (lay.size k₁.mem.page)) := by
  have hput : lay.putSizes (fun q => resized (k.proc q) (k₁.proc q)) (fun q => (k₁.proc q).sz) k₁.mem.page =
      k₁.mem.page := by
    have hnone (f : Slot → Prop) [DecidablePred f] : (List.finRange NPROC).find? (fun q =>
        resized (k.proc q) (k₁.proc q) ∧ f q) = none := by
      rw [List.find?_eq_none]
      intro q _
      simp [resized, hproc]
    funext x j
    unfold putSizes
    dsimp only
    rw [hnone]
  unfold step sync
  rw [hs, Option.map_some, hput]

theorem step_same {sb : Superblock} {dev : Devsw} (hsync : lay.Synced k) (hs : Kern.step sb dev img k e = some k₁)
    (hproc : k₁.proc = k.proc) (hpage : ∀ x, ¬img.Managed x → k₁.mem.page x = k.mem.page x) :
    lay.step sb dev k e = some k₁ ∧ lay.Synced k₁ := by
  have hsync₁ : lay.Synced k₁ := by
    intro q
    rw [lay.size_congr hpage, hsync q, hproc]
  have hsame : k₁.reload k₁.mem.page (lay.size k₁.mem.page) = k₁ := by
    have hprocs : (fun q => { k₁.proc q with sz := lay.size k₁.mem.page q }) = k₁.proc := by
      funext q
      rw [hsync₁ q]
    unfold Kernel.reload
    rw [hprocs]
  refine ⟨?_, hsync₁⟩
  rw [lay.step_of_proc hs hproc, hsame]

end Layout

/-- Contents and sizes that differ from those of the kernel outside the pages of the
allocator and the processes there are. -/
structure Reloads (img : Image) (m : ℕ → Block) (sz : Slot → ℕ) (k : Kernel) : Prop where
  page : ∀ x, img.Managed x → m x = k.mem.page x
  size : ∀ q, (k.proc q).state ≠ .unused → sz q = (k.proc q).sz

section Reload
variable {img : BootImage} {B D L pool : List ℕ} {m : ℕ → Block} {sz : Slot → ℕ} {k k₁ : Kernel} {p : Slot} {n d : ℕ}

theorem balanced_reload {s : Mem} (h : Balanced img D L s) (hm : ∀ x, img.Managed x → m x = s.page x) :
    Balanced ⟨img, m⟩ D L { s with page := m } where
  count x := by
    have hheld : Vm.heldBy m D = Vm.heldBy s.page D :=
      Vm.heldBy_congr fun _ hd => Vm.held_congr fun x hx => hm x (h.managed_held hd hx.held_pos)
    dsimp only
    rw [hheld]
    exact h.count x
  rest _ _ := rfl

theorem spaces_reload (h : Reloads img m sz k) : spaces (k.reload m sz) = spaces k := by
  apply List.filterMap_congr
  intro q _
  by_cases hq : (k.proc q).state = .unused
  · rw [Proc.space_unused hq]
    exact Proc.space_unused hq
  · rw [Proc.space_used hq, ← h.size q hq]
    exact Proc.space_used hq

theorem Inv.reload (hi : Inv img B k) (h : Reloads img m sz k) : Inv ⟨img, m⟩ B (k.reload m sz) := by
  obtain ⟨P, hnodup, hP, hb⟩ := hi.mid.pages
  refine ⟨?_, hi.closed, ?_⟩
  · rw [spaces_reload h]
    exact ⟨hi.mid.files.congr rfl rfl, P, hnodup, hP, balanced_reload hb h.page⟩
  · rw [spaces_reload h]
    exact hi.size

theorem Inv.control (hi : Inv img B k) (h : Reloads img m sz k) (hp : (k.proc p).state = .runnable) :
    ∀ x, Vm.Control k.mem.page (k.proc p).pgdir x → m x = k.mem.page x := by
  obtain ⟨P, -, -, hb⟩ := hi.mid.pages
  intro x hx
  exact h.page x (hb.managed_held (List.mem_map_of_mem (f := Space.pgdir) (mem_spaces (space_runnable hp))) hx.held_pos)

theorem Fresh.reload (hf : Fresh img B n p k) (h : Reloads img m sz k) : Fresh ⟨img, m⟩ B n p (k.reload m sz) := by
  have hcontrol := hf.inv.control h hf.state
  have hs := hf.spare
  refine ⟨hf.inv.reload h, hf.state, ?_, ?_, hf.others, hf.closed, ⟨hs.deny, List.suffix_rfl, hs.small, ?_, ?_⟩, ?_, ?_⟩
  · exact (h.size p (by rw [hf.state]; decide)).trans hf.size
  · rw [spaces_reload h]
    exact hf.alone
  · intro i hi
    change table m (k.proc p).pgdir i ≠ _
    rw [Vm.table_congr hcontrol]
    exact hs.apart i hi
  · change n+Vm.missing m (k.proc p).pgdir ≤ _
    rw [Vm.missing_congr (hcontrol _ (Or.inl rfl))]
    exact hs.room
  · obtain ⟨q, hq, hcode⟩ := hf.code
    exact ⟨q, hq, (Vm.entry_congr hcontrol (v := 0) (by decide)).trans hcode⟩
  · intro v hv hv0
    exact (Vm.entry_congr hcontrol (Vm.user_lt ⟨v, hv⟩)).trans (hf.rest v hv hv0)

theorem Solo.reload {tab q size : ℕ} (hs : Solo img n size p tab q k) (h : Reloads img m sz k) :
    Solo ⟨img, m⟩ n size p tab q (k.reload m sz) := by
  have hcontrol := hs.inv.control h hs.state
  refine ⟨hs.inv.reload h, ?_, hs.state, ?_, hs.deny, hs.room, hs.small, ?_, ?_⟩
  · rw [spaces_reload h]
    exact hs.alone
  · exact (h.size p (by rw [hs.state]; decide)).trans hs.size
  · exact (congrFun (Vm.table_congr hcontrol) 0).trans hs.table
  · exact (Vm.entry_congr hcontrol (v := 0) (by decide)).trans hs.entry

end Reload

namespace Layout
variable {img : Image} {B : List ℕ} {k₀ k k₁ : Kernel} {sb : Superblock} {dev : Devsw} (lay : Layout img)

/-- The sizes that are not stored are in the table already. -/
theorem sync_reloads {contents : ℕ → Block} {P : Slot → Bool} (hi : Inv ⟨img, contents⟩ B k)
    (hold : ∀ q, P q = false → lay.size k.mem.page q = (k.proc q).sz) :
    ∃ m, lay.sync P k = k.reload m (lay.size m) ∧ Reloads img m (lay.size m) k := by
  refine ⟨_, rfl, fun x hx => lay.putSizes_managed hx, fun q hq => ?_⟩
  have hsz : (k.proc q).sz < KERNBASE := hi.size _ (mem_spaces (Proc.space_used hq))
  rw [lay.size_putSizes]
  split_ifs with hP
  · apply Nat.mod_eq_of_lt
    simp only [KERNBASE] at hsz
    omega
  · exact hold q (Bool.eq_false_of_not_eq_true hP)

theorem step_reloads {e : Slot × Call} (hsync : lay.Synced k) (hs : Kern.step sb dev img k e = some k₁)
    (hi : Inv ⟨img, k.mem.page⟩ B k₁) : ∃ m, lay.step sb dev k e = some (k₁.reload m (lay.size m)) ∧
      Reloads img m (lay.size m) k₁ := by
  obtain ⟨P, -, -, hb⟩ := hi.mid.pages
  have hold (q : Slot) (hq : resized (k.proc q) (k₁.proc q) = false) : lay.size k₁.mem.page q = (k₁.proc q).sz := by
    unfold resized at hq
    rw [decide_eq_false_iff_not, not_or, not_not] at hq
    rw [lay.size_congr hb.rest, hq.1]
    exact hsync q
  obtain ⟨m, hm, hreloads⟩ := lay.sync_reloads hi hold
  refine ⟨m, ?_, hreloads⟩
  rw [step, hs, Option.map_some, hm]

/-- The invariant, for the contents that the kernel's own pages have now. -/
structure Good (B : List ℕ) (k : Kernel) : Prop where
  inv : Inv ⟨img, k.mem.page⟩ B k
  synced : lay.Synced k

theorem Booted.good {lay : Layout img} (h : lay.Booted sb dev B k) : lay.Good B k := by
  obtain ⟨contents, k', hk', rfl⟩ := h
  obtain ⟨m, hm, hreloads⟩ := lay.sync_reloads (P := fun _ => true) hk'.inv (fun _ h => nomatch h)
  rw [hm]
  exact ⟨hk'.inv.reload hreloads, fun _ => rfl⟩

theorem Good.step {lay : Layout img} {e : Slot × Call} {k' : Kernel} (h : lay.Good B k)
    (hs : lay.step sb dev k e = some k') (hshort : e.2.short) : lay.Good B k' := by
  obtain ⟨k₁, hk₁, -⟩ := Option.map_eq_some_iff.mp hs
  have hi₁ := step_inv sb dev h.inv hk₁ hshort
  obtain ⟨m, hm, hreloads⟩ := lay.step_reloads h.synced hk₁ hi₁
  rw [hs, Option.some.injEq] at hm
  rw [hm]
  exact ⟨hi₁.reload hreloads, fun _ => rfl⟩

end Layout

/-- Strings end at the first NUL. -/
def Call.strings : Call → Prop
  | .exec _ argv => ∀ arg ∈ argv, (0 : Byte) ∉ arg
  | _ => True

/-- An entry for page x with one of the bits that the hardware ignores. -/
def markedPte (x : ℕ) : BitVec 32 := BitVec.ofNat 32 (x*PGSIZE) ||| 0x207

section Marked
variable {x : ℕ}

theorem userTarget_markedPte (hx : x < 0x100000) : userTarget (markedPte x) = some x := by
  have htarget : Vm.target (markedPte x) = some x := Vm.target_entry hx (by decide) (by decide)
  have hU : markedPte x &&& Vm.PTE_U ≠ 0 := by
    rw [Vm.user_iff, markedPte, BitVec.getLsbD_or, show (0x207 : BitVec 32).getLsbD 2 = true by decide, Bool.or_true]
  unfold Vm.target at htarget
  split_ifs at htarget with hP
  rw [userTarget, if_neg hP, if_neg hU]
  exact htarget

theorem toNat_markedPte (hx : x < 0x100000) : (markedPte x).toNat = x*4096+0x207 := by
  have hor : 2^12*x+0x207 = 2^12*x ||| 0x207 := Nat.two_pow_add_eq_or_of_lt (by decide) x
  rw [markedPte, BitVec.toNat_or, BitVec.toNat_ofNat, Nat.mod_eq_of_lt (by simp only [PGSIZE]; omega), Nat.mul_comm,
    Nat.mul_comm x 4096]
  exact hor.symm

theorem byte_markedPte (hlow : 0xD010 ≤ x) (hhigh : x < 0xE000) {j : ℕ} (hj : j < 4) :
    byteLE (markedPte x).toNat j ≠ 0 := by
  intro h0
  have hzero := congrArg BitVec.toNat h0
  rw [byteLE, toNat_markedPte (by omega), BitVec.toNat_ofNat] at hzero
  change _ = 0 at hzero
  obtain rfl | rfl | rfl | rfl : j = 0 ∨ j = 1 ∨ j = 2 ∨ j = 3 := by omega
  all_goals omega

/-- The argument: an entry for page x, and bytes without a NUL. -/
@[irreducible] def markedArg (x : ℕ) : List Byte :=
  (List.range 4).map (byteLE (markedPte x).toNat) ++ List.replicate 0x2001FFF 1

theorem markedArg_long (x : ℕ) : LongArg 4092 (markedArg x) := by
  refine ⟨by decide, by decide, ?_⟩
  unfold markedArg
  rw [List.length_append, List.length_map, List.length_range, List.length_replicate]

theorem markedArg_getD {j : ℕ} (hj : j < 4) : (markedArg x ++ [0]).getD j 0 = byteLE (markedPte x).toNat j := by
  have hlen : ((List.range 4).map (byteLE (markedPte x).toNat)).length = 4 := by
    rw [List.length_map, List.length_range]
  unfold markedArg
  rw [List.append_assoc, List.getD_eq_getElem?_getD, List.getElem?_append_left (hlen.symm ▸ hj), List.getElem?_map,
    List.getElem?_range hj]
  rfl

theorem copyIn_markedArg (b : Block) : copyIn b 4092 (PGSIZE-4092) (fun j => (markedArg x ++ [0]).getD j 0) =
    setWord b 1023 (markedPte x) := by
  funext l
  unfold setWord copyIn
  split_ifs with hl hl' hl'
  · exact markedArg_getD (by omega)
  · exact absurd hl hl'
  · exact absurd hl' hl
  · rfl

theorem markedArg_string (hlow : 0xD010 ≤ x) (hhigh : x < 0xE000) : (0 : Byte) ∉ markedArg x := by
  unfold markedArg
  rw [List.mem_append, List.mem_map]
  rintro (⟨j, hj, h0⟩ | hmem)
  · exact byte_markedPte hlow hhigh (List.mem_range.mp hj) h0
  · exact absurd (List.eq_of_mem_replicate hmem) (by decide)

end Marked

section Forge
variable {img : Image} {lay : Layout img} {k : Kernel} {p : Slot} {v x tab q n sz : ℕ} {b c : Block}

theorem Layout.synced_onPage (h : lay.Synced k) (hx : img.Managed x) : lay.Synced (k.onPage x b) := by
  intro r
  refine (lay.size_congr (fun y hy => Mem.put_of_ne ?_) r).trans (h r)
  rintro rfl
  exact hy hx

theorem Layout.step_onPage {sb : Superblock} {dev : Devsw} {e : Slot × Call} (h : lay.Synced k) (hx : img.Managed x)
    (hs : Kern.step sb dev img (k.onPage x b) e = some (k.onPage x c)) :
    lay.step sb dev (k.onPage x b) e = some (k.onPage x c) := by
  refine (lay.step_same (Layout.synced_onPage h hx) hs rfl fun y hy => ?_).1
  have hne : y ≠ x := by
    rintro rfl
    exact hy hx
  exact (Mem.put_of_ne hne).trans (Mem.put_of_ne hne).symm

theorem storesTo_table (htable : table k.mem.page (k.proc p).pgdir 0 = some tab) (hne : tab ≠ (k.proc p).pgdir)
    (hv : v < NPTENTRIES) (hw : userTarget (getWord c v) = some x) : StoresTo (k.onPage tab c) p v x := by
  have h0 : v/NPTENTRIES = 0 := Nat.div_eq_of_lt hv
  have htable' : table (k.onPage tab c).mem.page (k.proc p).pgdir (v/NPTENTRIES) = some tab := by
    rw [h0, table, Kernel.onPage, Mem.put_of_ne hne.symm]
    exact htable
  refine ⟨hv.trans (by decide), ?_⟩
  change userTarget (entry (k.onPage tab c).mem.page (k.proc p).pgdir v) = some x
  rw [Vm.entry_of_table htable', Nat.mod_eq_of_lt hv, Kernel.onPage, Mem.put_same]
  exact hw

/-- With a page table that maps itself the process stores an entry for page x in it, and a
byte in page x. -/
theorem forge_run (hp : (k.proc p).state = .runnable) (hsync : lay.Synced k)
    (htable : table k.mem.page (k.proc p).pgdir 0 = some tab) (hne : tab ≠ (k.proc p).pgdir) (htab : img.Managed tab)
    (hself : userTarget (getWord (k.mem.page tab) 1023) = some tab) (hx : x < 0x100000) {j : ℕ} (hj : j < PGSIZE)
    (e : Byte) :
    ∃ k', Run (lay.step tinySuperblock noDevices) (fun _ e _ => e.2.strings) k
        (storeBytes p (1023*PGSIZE+4088) (byteLE (userPte x).toNat) 4 ++ [(p, .store (1022*PGSIZE+j) e)]) k' ∧
      (k'.proc p).state = .runnable ∧ (k'.proc p).sz = lay.size k'.mem.page p ∧ k'.mem.page x j = e := by
  have hsame : k.onPage tab (k.mem.page tab) = k := by simp [Kernel.onPage, Mem.put]
  have hstores : Run (lay.step tinySuperblock noDevices) (fun _ e _ => e.2.strings) (k.onPage tab (k.mem.page tab))
      (storeBytes p (1023*PGSIZE+4088) (byteLE (userPte x).toNat) 4)
      (k.onPage tab (copyIn (k.mem.page tab) 4088 4 (byteLE (userPte x).toNat))) := by
    refine storeBytes_run (fun _ _ _ _ => trivial) fun c i e hc hi hi' => ?_
    have hword : getWord c 1023 = getWord (k.mem.page tab) 1023 := by
      unfold getWord
      exact congrArg _ (readLE_congr fun l hl => hc _ (by omega))
    have hto : StoresTo (k.onPage tab c) p 1023 tab := storesTo_table htable hne (by decide) (hword ▸ hself)
    have hs : Kern.step tinySuperblock noDevices img (k.onPage tab c) (p, .store (1023*PGSIZE+i) e) = _ :=
      step_store tinySuperblock noDevices hp hto (by simp only [PGSIZE]; omega)
    rw [Kernel.onPage_onPage, Kernel.onPage, Mem.put_same, ← Kernel.onPage] at hs
    exact Layout.step_onPage hsync htab hs
  rw [hsame] at hstores
  obtain ⟨k₁, hk₁⟩ : ∃ k₁, k₁ = k.onPage tab (setWord (k.mem.page tab) 1022 (userPte x)) := ⟨_, rfl⟩
  have hto : StoresTo k₁ p 1022 x := by
    rw [hk₁]
    apply storesTo_table htable hne (by decide)
    rw [Fs.getWord_setWord, if_pos rfl]
    exact userTarget_userPte hx
  have hp₁ : (k₁.proc p).state = .runnable := by rw [hk₁]; exact hp
  have hs : Kern.step tinySuperblock noDevices img k₁ (p, .store (1022*PGSIZE+j) e) = _ :=
    step_store tinySuperblock noDevices hp₁ hto hj
  have hlast := lay.step_of_proc hs rfl
  change Run _ _ _ _ (k.onPage tab (setWord (k.mem.page tab) 1022 (userPte x))) at hstores
  rw [← hk₁] at hstores
  refine ⟨_, hstores.append (.cons hlast trivial (.nil _)), hp₁, rfl, ?_⟩
  change (k₁.onPage x _).mem.page x j = e
  rw [Kernel.onPage, Mem.put_same, Function.update_self]

/-- A process with memory enough for the argument gives itself a size of 0xFF000000 at least:
it puts an entry for its page table at address 0, so that exec copies the start of the
argument to the last entry of the page table. -/
theorem size_by_stores {cwd : Ip} (h : Solo ⟨img, k.mem.page⟩ n sz p tab q k) (hsync : lay.Synced k)
    (hn : NPDENTRIES+3 ≤ n) (hsz : 0x2002FFF < sz) (hlow : 0xD010 ≤ tab) (hcwd : (k.proc p).cwd = some cwd)
    (hread : wp (fun _ => False) (readProgram cwd) (fun b _ => b = true) k.fs) :
    ∃ es k', Run (lay.step tinySuperblock noDevices) (fun _ e _ => e.2.strings) k es k' ∧
      (k'.proc p).state = .runnable ∧ 0xFF000000 ≤ (k'.proc p).sz := by
  obtain ⟨L, hb⟩ := h.balanced
  have hq : img.Managed q := hb.managed (by have := held_first (L := L) h.small h.entry; omega)
  have htab : img.Managed tab :=
    hb.managed_held List.mem_cons_self (Vm.Control.held_pos (Or.inr ⟨0, by decide, h.table⟩))
  have hhigh : tab < 0xE000 := htab.2
  have hword := storeWord_run (userPte tab) (Q := fun _ e _ => e.2.strings) (fun _ _ _ _ => trivial) fun c j e hj =>
    Layout.step_onPage hsync hq (h.step_store tinySuperblock noDevices hj)
  have h₁ := h.onPage (setWord (k.mem.page q) 0 (userPte tab))
  have hentry : getWord ((k.onPage q (setWord (k.mem.page q) 0 (userPte tab))).mem.page q) 0 = userPte tab := by
    rw [Kernel.onPage, Mem.put_same, Fs.getWord_setWord, if_pos rfl]
  obtain ⟨k₂, hs, hproc, hdir, hcopy, hrest⟩ := step_of_wp tinySuperblock noDevices
    (.exec programPath [markedArg tab]) h₁.state
    (wp_discard (sys_exec_null (markedArg_long tab) h₁ hn hsz hcwd hentry hread))
  obtain ⟨hexec, hsync₂⟩ := lay.step_same (Layout.synced_onPage hsync hq) hs hproc hrest
  have htable : table k₂.mem.page (k₂.proc p).pgdir 0 = some tab := by
    rw [hproc, table, hdir]
    exact h₁.table
  have hself : userTarget (getWord (k₂.mem.page tab) 1023) = some tab := by
    rw [hcopy, copyIn_markedArg, Fs.getWord_setWord, if_pos rfl]
    exact userTarget_markedPte (by omega)
  have hp₂ : (k₂.proc p).state = .runnable := by rw [hproc]; exact h.state
  have hne : tab ≠ (k₂.proc p).pgdir := by rw [hproc]; exact h.distinct.1
  have hx : (lay.szAddr p+3)/PGSIZE < 0x100000 := by
    have := lay.szAddr_add_le p
    have := img.room
    simp only [PROCSIZE, PGSIZE] at *
    omega
  obtain ⟨k₃, hforge, hp₃, hsz₃, hbyte⟩ :=
    forge_run hp₂ hsync₂ htable hne htab hself hx (Nat.mod_lt (lay.szAddr p+3) (by decide)) 0xFF
  refine ⟨_, k₃, (hword.append (.cons hexec ?_ (.nil _))).append hforge, hp₃, ?_⟩
  · intro arg harg
    rw [List.mem_singleton.mp harg]
    exact markedArg_string hlow hhigh
  · rw [hsz₃, Layout.size]
    have hlast : (physByte k₃.mem.page (lay.szAddr p+1+1+1)).toNat = 0xFF := congrArg BitVec.toNat hbyte
    simp only [readLE]
    omega

end Forge

theorem Layout.boot_and_grow (lay : Layout smallImage) {m : ℕ} (hm : 0 < m) (hk : PGSIZE+m < KERNBASE)
    (hroom : 2000+pages (PGSIZE+m) ≤ 53000) : ∃ k₀ p k tab q cwd, lay.Booted tinySuperblock noDevices [] k₀ ∧
      lay.step tinySuperblock noDevices k₀ (p, .sbrk m) = some k ∧
      Solo ⟨smallImage, k.mem.page⟩ 2000 (PGSIZE+m) p tab q k ∧ lay.Synced k ∧ 0xD010 ≤ tab ∧
      (k.proc p).cwd = some cwd ∧ wp (fun _ => False) (readProgram cwd) (fun b _ => b = true) k.fs := by
  obtain ⟨k', p, tab, cwd, hboot, hfresh, htab, hlow, hcwd, hread⟩ := boot_fresh
  obtain ⟨m₀, hm₀, hreloads₀⟩ := lay.sync_reloads (P := fun _ => true) hfresh.inv (fun _ h => nomatch h)
  have htab₀ : table m₀ (k'.proc p).pgdir 0 = some tab := by
    rw [Vm.table_congr (hfresh.inv.control hreloads₀ hfresh.state)]
    exact htab
  have hfresh₀ := (hfresh.reload hreloads₀).mono hroom
  obtain ⟨k₁, hs, ⟨q, hsolo⟩, hfs, hcwd₁⟩ := step_of_wp tinySuperblock noDevices (.sbrk m) hfresh₀.state
    (wp_discard (sbrk_solo hm hk hfresh₀ htab₀))
  obtain ⟨m₁, hm₁, hreloads₁⟩ := lay.step_reloads (fun _ => rfl) hs hsolo.inv
  refine ⟨_, p, _, tab, q, cwd, ⟨_, k', hboot, hm₀.symm⟩, hm₁, hsolo.reload hreloads₁, fun _ => rfl, hlow, ?_, ?_⟩
  · exact hcwd₁.trans hcwd
  · change wp _ _ _ k₁.fs
    rw [hfs]
    exact hread

/-- The kernel of kernel.sym: `ptable` is at 0x80112D80 and begins with a lock of 52 bytes. -/
def kernelLayout : Layout smallImage := ⟨0x112DB4, by decide, by decide⟩

end ProvenXv6.Kern
