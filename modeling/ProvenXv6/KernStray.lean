import ProvenXv6.KernStack
import ProvenXv6.KernSteps

namespace ProvenXv6.Kern
open RefCount WeakestPre StepSystem LittleEndian
open Fs (Byte Block Superblock Devsw Fault Ip tinySuperblock noDevices getWord copyIn)
open Vm (Mem VmM BootImage Balanced Spare KERNBASE PGSIZE UPAGES NPDENTRIES NPTENTRIES entry target table held
  heldBy userPte userTarget pages)
open Ptable (Slot)

variable {img : BootImage} {D L pool : List ℕ} {k : Kernel} {p : Slot} {s t : Mem} {d n x v off : ℕ}

theorem userPte_flags {q : ℕ} (hq : q < 0x100000) :
    ¬(userPte q &&& Vm.PTE_P = 0) ∧ ¬(userPte q &&& Vm.PTE_U = 0) ∧ Vm.PTE_ADDR (userPte q) = q := by
  have htarget := Vm.target_userPte hq
  refine ⟨?_, ?_, ?_⟩
  · intro h0
    rw [Vm.target_eq_none.mpr h0] at htarget
    cases htarget
  · rw [← not_ne_iff, not_not, Vm.user_iff, userPte, BitVec.getLsbD_or, BitVec.getLsbD_or,
      show (Vm.PTE_W ||| Vm.PTE_U).getLsbD 2 = true by decide, Bool.or_true, Bool.true_or]
  · unfold Vm.target at htarget
    split_ifs at htarget
    exact Option.some.inj htarget

theorem userTarget_userPte {q : ℕ} (hq : q < 0x100000) : userTarget (userPte q) = some q := by
  obtain ⟨hP, hU, haddr⟩ := userPte_flags hq
  rw [userTarget, if_neg hP, if_neg hU, haddr]

/-- What process p stores in its page v goes to page x. -/
def StoresTo (k : Kernel) (p : Slot) (v x : ℕ) : Prop :=
  v < UPAGES ∧ userTarget (entry k.mem.page (k.proc p).pgdir v) = some x

/-- The kernel with other contents of page x. -/
def Kernel.onPage (k : Kernel) (x : ℕ) (b : Block) : Kernel := { k with mem := k.mem.put x b }

theorem step_store {img : Vm.Image} (sb : Superblock) (dev : Devsw) {j : ℕ} {b : Byte} (hp : (k.proc p).state = .runnable)
    (h : StoresTo k p v x) (hj : j < PGSIZE) : step sb dev img k (p, .store (v*PGSIZE+j) b) =
      some (k.onPage x (Function.update (k.mem.page x) j b)) := by
  have hva : v*PGSIZE+j < KERNBASE := by
    have := h.1
    simp only [UPAGES, KERNBASE, PGSIZE] at this hj ⊢
    omega
  have hv : (v*PGSIZE+j)/PGSIZE = v := by
    simp only [PGSIZE] at hj ⊢
    omega
  have hPDX : Vm.PDX (v*PGSIZE+j) = v/NPTENTRIES := by
    rw [Vm.PDX, show 0x400000 = PGSIZE*NPTENTRIES from rfl, ← Nat.div_div_eq_div_mul, hv]
  have hPTX : Vm.PTX (v*PGSIZE+j) = v%NPTENTRIES := by rw [Vm.PTX, hv]
  have hmod : (v*PGSIZE+j)%PGSIZE = j := by
    simp only [PGSIZE] at hj ⊢
    omega
  obtain ⟨tab, htab⟩ := Option.ne_none_iff_exists'.mp
    (Vm.table_of_target (by rw [Vm.target_of_userTarget h.2]; exact Option.some_ne_none x))
  have hentry := h.2
  rw [Vm.entry_of_table htab] at hentry
  unfold userTarget at hentry
  split_ifs at hentry with hP hU
  have hstore : wp (fun _ => False) (perform sb dev img p (.store (v*PGSIZE+j) b))
      (fun _ k' => k' = k.onPage x (Function.update (k.mem.page x) j b)) k := by
    show wp _ (userStore p (v*PGSIZE+j) b) _ k
    unfold userStore
    rw [wp_bind, wp_getProc, if_neg (not_le.mpr hva), wp_bind, wp_onMem, Vm.walkpgdir_false, hPDX, htab]
    dsimp only
    rw [wp_bind, wp_onMem, Vm.wp_getPte, hPTX]
    dsimp only
    rw [if_neg (not_or.mpr ⟨hP, hU⟩), wp_bind, wp_get, Option.some.inj hentry, wp_onMem, Vm.wp_setPage, hmod]
    rfl
  obtain ⟨k', hs, rfl⟩ := step_of_wp sb dev (.store (v*PGSIZE+j) b) hp hstore
  exact hs

def storeBytes (p : Slot) (va : ℕ) (src : ℕ → Byte) (n : ℕ) : List (Slot × Call) :=
  (List.range n).map fun j => (p, .store (va+j) (src j))

theorem storeBytes_run {st : Kernel → Slot × Call → Option Kernel} {Q : Kernel → Slot × Call → Kernel → Prop}
    {src : ℕ → Byte} {b : Block} (hQ : ∀ k va e k', Q k (p, .store va e) k')
    (hst : ∀ c j e, (∀ l, ¬(off ≤ l ∧ l < off+n) → c l = b l) → off ≤ j → j < off+n →
      st (k.onPage x c) (p, .store (v*PGSIZE+j) e) = some (k.onPage x (Function.update c j e))) :
    Run st Q (k.onPage x b) (storeBytes p (v*PGSIZE+off) src n) (k.onPage x (copyIn b off n src)) := by
  have hrun (m : ℕ) (hm : m ≤ n) :
      Run st Q (k.onPage x b) (storeBytes p (v*PGSIZE+off) src m) (k.onPage x (copyIn b off m src)) := by
    induction m with
    | zero =>
      have hb : copyIn b off 0 src = b := funext fun j => if_neg (by omega)
      rw [hb]
      exact .nil _
    | succ m ih =>
      have hlast := hst (copyIn b off m src) (off+m) (src m) (fun l hl => if_neg (by omega))
        (Nat.le_add_right _ _) (by omega)
      have hnext : Function.update (copyIn b off m src) (off+m) (src m) = copyIn b off (m+1) src := by
        funext j
        by_cases hj : j = off+m
        · rw [hj, Function.update_self, copyIn, if_pos (by omega), Nat.add_sub_cancel_left]
        · rw [Function.update_of_ne hj, copyIn, copyIn]
          exact if_congr (by omega) rfl rfl
      rw [hnext, ← Nat.add_assoc] at hlast
      rw [storeBytes, List.range_succ, List.map_append]
      exact (ih (by omega)).append (.cons hlast (hQ _ _ _ _) (.nil _))
  exact hrun n le_rfl

theorem Solo.distinct {sz tab q : ℕ} (h : Solo img n sz p tab q k) :
    tab ≠ (k.proc p).pgdir ∧ q ≠ tab ∧ q ≠ (k.proc p).pgdir := by
  obtain ⟨L, hb⟩ := h.balanced
  have hdist := hb.distinct List.mem_cons_self
  have htarget : target (Vm.entry k.mem.page (k.proc p).pgdir 0) = some q := by
    rw [h.entry]
    exact Vm.target_userPte h.small
  have hcontrol := hdist.not_control (v := 0) (by decide) htarget
  refine ⟨hdist.table_ne (i := 0) (by decide) h.table, ?_, ?_⟩
  · rintro rfl
    exact hcontrol (Or.inr ⟨0, by decide, h.table⟩)
  · intro he
    exact hcontrol (Or.inl he)

theorem Solo.onPage {sz tab q : ℕ} (h : Solo img n sz p tab q k) (b : Block) :
    Solo img n sz p tab q (k.onPage q b) := by
  have htarget : target (Vm.entry k.mem.page (k.proc p).pgdir 0) = some q := by
    rw [h.entry]
    exact Vm.target_userPte h.small
  have hcontrol (x : ℕ) (hx : Vm.Control k.mem.page (k.proc p).pgdir x) :
      (k.onPage q b).mem.page x = k.mem.page x := by
    apply Mem.put_of_ne
    rintro rfl
    obtain ⟨L, hb⟩ := h.balanced
    exact (hb.distinct List.mem_cons_self).not_control (v := 0) (by decide) htarget hx
  refine ⟨h.inv.put_user h.state (by decide) htarget b, h.alone, h.state, h.size, h.deny, h.room, h.small, ?_, ?_⟩
  · exact (congrFun (Vm.table_congr hcontrol) 0).trans h.table
  · exact (Vm.entry_congr hcontrol (v := 0) (by decide)).trans h.entry

theorem Kernel.onPage_onPage (b c : Block) : (k.onPage x b).onPage x c = k.onPage x c := by
  simp [Kernel.onPage, Mem.put]

theorem Solo.step_store (sb : Superblock) (dev : Devsw) {sz tab q j : ℕ} {b : Block} {e : Byte}
    (h : Solo img n sz p tab q k) (hj : j < PGSIZE) :
    step sb dev img (k.onPage q b) (p, .store j e) = some (k.onPage q (Function.update b j e)) := by
  have hto : StoresTo (k.onPage q b) p 0 q :=
    ⟨by decide, by rw [(h.onPage b).entry]; exact userTarget_userPte h.small⟩
  have hstore : step sb dev img (k.onPage q b) (p, .store (0*PGSIZE+j) e) = _ :=
    Kern.step_store sb dev (h.onPage b).state hto hj
  rwa [Nat.zero_mul, Nat.zero_add, Kernel.onPage_onPage, Kernel.onPage, Mem.put_same, ← Kernel.onPage] at hstore

theorem storeWord_run {st : Kernel → Slot × Call → Option Kernel} {Q : Kernel → Slot × Call → Kernel → Prop}
    (w : BitVec 32) (hQ : ∀ k va e k', Q k (p, .store va e) k')
    (hst : ∀ c j e, j < PGSIZE → st (k.onPage x c) (p, .store j e) = some (k.onPage x (Function.update c j e))) :
    Run st Q k (storeBytes p 0 (byteLE w.toNat) 4) (k.onPage x (Fs.setWord (k.mem.page x) 0 w)) := by
  have hsame : k.onPage x (k.mem.page x) = k := by simp [Kernel.onPage, Mem.put]
  have hrun : Run st Q (k.onPage x (k.mem.page x)) (storeBytes p (0*PGSIZE+0) (byteLE w.toNat) 4)
      (k.onPage x (copyIn (k.mem.page x) 0 4 (byteLE w.toNat))) := by
    refine storeBytes_run hQ fun c j e _ _ hj => ?_
    rw [Nat.zero_mul, Nat.zero_add]
    exact hst c j e (by simp only [PGSIZE]; omega)
  rwa [hsame] at hrun

variable {cr3 tab q : ℕ}

theorem tab_small {D : List ℕ} (h : Balanced img D L s) (hd : d ∈ D) {i : ℕ} (hi : i < NPDENTRIES)
    (htab : table s.page d i = some tab) : tab < 0x100000 := by
  have hheld : 0 < held s.page d tab := by
    have : 0 < refs (Vm.tables s.page d) tab := refs_pos_of (i := ⟨i, hi⟩) htab
    unfold held
    omega
  have hm : img.Managed tab := h.managed (by have := Vm.held_le_heldBy (m := s.page) hd tab; omega)
  have := hm.2
  simp only [Vm.PHYSTOP, PGSIZE] at this
  omega

theorem held_first {m : ℕ → Block} {L : List ℕ} (hq : q < 0x100000) (hentry : entry m d 0 = userPte q) :
    0 < heldBy m [d] q+L.count q := by
  have huser : target (entry m d 0) = some q := by
    rw [hentry]
    exact Vm.target_userPte hq
  have hzero : 0 < UPAGES := by decide
  have : 0 < refs (Vm.user m d) q := refs_pos_of (i := ⟨0, hzero⟩) huser
  rw [Vm.heldBy_cons, held]
  omega

/-- The first word of the caller's memory, in page q, is an entry for its own page table. -/
structure Primed (cr3 tab q : ℕ) (s : Mem) : Prop where
  table : table s.page cr3 0 = some tab
  entry : entry s.page cr3 0 = userPte q
  word : getWord (s.page q) 0 = userPte tab
  small : q < 0x100000 ∧ tab < 0x100000

theorem Primed.kept (h : Primed cr3 tab q s) (hk : Vm.Kept [cr3] L s t) : Primed cr3 tab q t := by
  have hcontrol := hk.control (List.mem_singleton.mpr rfl)
  refine ⟨?_, ?_, ?_, h.small⟩
  · rw [Vm.table_congr hcontrol, h.table]
  · rw [Vm.entry_congr hcontrol (by decide), h.entry]
  · rw [hk q (held_first h.small.1 h.entry), h.word]

theorem Primed.held (h : Primed cr3 tab q s) : 0 < held s.page cr3 tab := by
  have : 0 < refs (Vm.tables s.page cr3) tab := refs_pos_of (i := ⟨0, by decide⟩) h.table
  unfold Vm.held
  omega

/-- Where there is no page table, `uva2ka` takes the word at address 0 for the entry. -/
theorem uva2ka_null {va : ℕ} (hnone : table s.page d (Vm.PDX va) = none) (h : Primed cr3 tab q s) :
    wp (fun _ => False) (Vm.uva2ka cr3 d va) (fun r t => r = some tab ∧ t = s) s := by
  obtain ⟨hP, -, haddr⟩ := userPte_flags h.small.1
  obtain ⟨hP', hU', haddr'⟩ := userPte_flags h.small.2
  have hfirst : getWord (s.page tab) 0 = userPte q := by
    rw [← h.entry]
    exact (Vm.entry_of_table (v := 0) h.table).symm
  unfold Vm.uva2ka Vm.readNull
  rw [wp_bind, Vm.walkpgdir_false, hnone]
  dsimp only
  rw [wp_bind, wp_bind, Vm.walkpgdir_false, show Vm.PDX 0 = 0 from rfl, h.table]
  dsimp only
  rw [wp_bind, Vm.wp_getPte, hfirst, if_neg hP, haddr, Vm.wp_getPte, h.word, if_neg hP', if_neg hU', haddr']
  exact ⟨rfl, rfl⟩

/-- The bytes for the rest of a page go to the page table of the caller, and then
`copyout` fails at the devices. -/
theorem copyout_null {fuel : ℕ} {bytes : List Byte} (hoff : off < PGSIZE) (hlen : PGSIZE-off < bytes.length)
    (hk : Vm.KernelPart s d) (hcontrol : ¬Vm.Control s.page d tab) (h : Primed cr3 tab q s) :
    wp (fun _ => False) (Vm.copyout cr3 d (fuel+2) (0xFDFFF000+off) bytes) (fun r t => r = false ∧
      t = s.put tab (copyIn (s.page tab) off (PGSIZE-off) fun j => bytes.getD j 0)) s := by
  have hne : bytes ≠ [] := List.ne_nil_of_length_pos (by omega)
  have hdown : Vm.PGROUNDDOWN (0xFDFFF000+off) = 0xFDFFF000 := by
    simp only [Vm.PGROUNDDOWN, PGSIZE] at hoff ⊢
    omega
  have hgap : table s.page d (Vm.PDX 0xFDFFF000) = none := hk.gap _ (by decide) (by decide)
  have hn : min (PGSIZE-off) bytes.length = PGSIZE-off := min_eq_left hlen.le
  have hnext : Vm.uint (0xFDFFF000+PGSIZE) = 0xFE000*PGSIZE := by decide
  rw [Vm.copyout, if_neg hne]
  dsimp only
  rw [wp_bind, hdown]
  apply wp_mono (uva2ka_null hgap h)
  rintro _ s' ⟨rfl, hs'⟩
  dsimp only
  rw [hs', wp_bind, wp_get, wp_bind, Vm.wp_setPage, Nat.add_sub_cancel_left, hn, hnext]
  -- the entry for the devices is no entry for users
  obtain ⟨b, hb⟩ : ∃ b, b = copyIn (s.page tab) off (PGSIZE-off) fun j => bytes.getD j 0 := ⟨_, rfl⟩
  rw [← hb]
  have hsame : Vm.SameMap d [] [] s (s.put tab b) := by
    refine ⟨fun x hx => absurd hx (by simp), fun x hx => Mem.put_of_ne ?_⟩
    rintro rfl
    exact hcontrol hx
  have hk' := hk.same hsame
  have hdev : target (entry (s.put tab b).page d 0xFE000) ≠ none := hk'.devices _ (by decide) (by decide)
  have huser : entry (s.put tab b).page d 0xFE000 &&& Vm.PTE_U = 0 := hk'.noUser _ (by decide) (by decide)
  have hdown' : Vm.PGROUNDDOWN (0xFE000*PGSIZE) = 0xFE000*PGSIZE := by decide
  have hrest : bytes.drop (PGSIZE-off) ≠ [] := List.ne_nil_of_length_pos (by rw [List.length_drop]; omega)
  rw [Vm.copyout, if_neg hrest]
  dsimp only
  rw [wp_bind, hdown']
  apply Vm.uva2ka_spec
  · intro hnone
    exact hdev (by rw [Vm.entry_of_no_table hnone, Vm.target_zero])
  · rw [huser, if_pos rfl]
    split_ifs <;> exact ⟨rfl, rfl⟩

/-- An argument whose copy starts at byte off of the last page below the devices. -/
def LongArg (off : ℕ) (arg : List Byte) : Prop := off < PGSIZE ∧ off%4 = 0 ∧ arg.length+off = 0x2002FFF

theorem allocuvm_stack {m : ℕ} (h : Balanced img (d :: D) L s) (hempty : ∀ v < UPAGES, entry s.page d v = 0)
    (hs : Spare pool d (m+2) s) : wp (fun _ => False) (Vm.allocuvm img d 0 (2*PGSIZE)) (fun r t =>
      r = 2*PGSIZE ∧ Vm.Grown img d D L 0 (2*PGSIZE) (pages 0) s r t) s := by
  have hspare : Spare pool d (m+(pages (2*PGSIZE)-pages 0)) s := hs
  have hfree : ∀ u, pages 0 ≤ u → u < pages (2*PGSIZE) → target (entry s.page d u) = none ∨ False := by
    intro u _ hu
    rw [hempty u (hu.trans (by decide)), Vm.target_zero]
    exact Or.inl rfl
  refine wp_mono (wp_and (Vm.allocuvm_spec (Nat.zero_le _) (by decide) h hfree)
    (Vm.allocuvm_spare img (F := fun _ => True) (fun _ => trivial) (Nat.zero_le _) (by decide) hspare)
    fun _ he _ => he) ?_
  rintro r t ⟨hgrown, hr, -⟩
  exact ⟨hr, hgrown⟩

theorem userStack_null {arg : List Byte} (harg : LongArg off arg) (h : Balanced img [d, cr3] L s)
    (hk : Vm.KernelPart s d) (hempty : ∀ v < UPAGES, entry s.page d v = 0) (hs : Spare pool d 2 s)
    (hprimed : Primed cr3 tab q s) :
    wp (fun _ => False) (userStack img cr3 d 0 [arg]) (fun r t => r = none ∧ ∃ u,
      Balanced img [d, cr3] L u ∧ Vm.Kept [cr3] L s u ∧
      t = u.put tab (copyIn (u.page tab) off (PGSIZE-off) fun j => (arg ++ [0]).getD j 0)) s := by
  unfold userStack
  dsimp only
  rw [wp_bind, show Vm.PGROUNDUP 0 = 0 by decide, show Vm.uint (0+2*PGSIZE) = 2*PGSIZE by decide]
  apply wp_mono (allocuvm_stack (m := 0) h hempty hs)
  rintro _ t ⟨rfl, hb, hr⟩
  obtain ⟨-, hu, hz⟩ := hr.resolve_right fun hf => absurd hf.1 (by decide)
  have hk₁ : Vm.KernelPart t d := hk.upd hu fun v hv => Or.inr (le_trans (by decide) hv)
  rw [if_neg (by decide), wp_bind, show 2*PGSIZE-2*PGSIZE = 0*PGSIZE by decide]
  refine wp_mono (Vm.clearpteu_spec hb (by decide) ?_) ?_
  · intro hnone
    obtain ⟨x, hx, -⟩ := hz 0 (by decide) (by decide)
    rw [Vm.entry_of_no_table hnone, Vm.target_zero] at hx
    cases hx
  intro _ u hclear
  have hb₂ := hclear.1
  have hu₂ := hclear.2.1
  have hk₂ : Vm.KernelPart u d :=
    hk₁.upd (hu₂.mono (fun _ _ => trivial) fun _ h => h) fun v hv => ne_of_gt (lt_of_lt_of_le (by decide) hv)
  -- the caller's space is as before
  have hkept : Vm.Kept [cr3] L s u := hu.kept.trans hu₂.kept
  have hprimed₂ := hprimed.kept hkept
  have hloose : ¬Vm.Control u.page d tab := by
    intro hc
    have h1 := hb₂.le_one tab
    have h2 := hc.held_pos
    have h3 := hprimed₂.held
    rw [Vm.heldBy_cons, Vm.heldBy_cons] at h1
    omega
  obtain ⟨hoff, halign, hlen⟩ := harg
  have hsp : Vm.uint (0x100000000+2*PGSIZE-(arg.length+1))/4*4 = 0xFDFFF000+off := by
    simp only [Vm.uint, PGSIZE] at hoff ⊢
    omega
  have hbytes : PGSIZE-off < (arg ++ [0]).length := by
    rw [List.length_append, List.length_singleton]
    simp only [PGSIZE] at hoff ⊢
    omega
  rw [wp_bind, pushArgs, if_neg (by decide), hsp, wp_bind]
  apply wp_mono (copyout_null hoff hbytes hk₂ hloose hprimed₂)
  rintro _ t' ⟨rfl, ht'⟩
  exact ⟨rfl, u, hb₂, hkept, ht'⟩

theorem balanced_loosen (h : Balanced img (d :: D) L s) :
    ∃ H, Balanced img [d] (H ++ L) s ∧ ∀ x, H.count x = heldBy s.page D x := by
  have hcount (x : ℕ) : ((List.range 0xE000).filter fun x => 0 < heldBy s.page D x).count x = heldBy s.page D x := by
    have hnodup : ((List.range 0xE000).filter fun x => decide (0 < heldBy s.page D x)).Nodup :=
      List.nodup_range.filter _
    have hmem : x ∈ ((List.range 0xE000).filter fun x => decide (0 < heldBy s.page D x)) ↔
        x < 0xE000 ∧ 0 < heldBy s.page D x := by
      rw [List.mem_filter, List.mem_range, decide_eq_true_eq]
    have hle := h.le_one x
    rw [Vm.heldBy_cons] at hle
    rw [hnodup.count]
    by_cases hpos : 0 < heldBy s.page D x
    · have hm : img.Managed x := h.managed (by rw [Vm.heldBy_cons]; omega)
      have hlt : x < 0xE000 := hm.2
      rw [if_pos (hmem.mpr ⟨hlt, hpos⟩)]
      omega
    · rw [if_neg fun hx => hpos (hmem.mp hx).2]
      omega
  refine ⟨(List.range 0xE000).filter fun x => 0 < heldBy s.page D x, ⟨fun x => ?_, h.rest⟩, hcount⟩
  have hx := h.count x
  rw [Vm.heldBy_cons] at hx
  rw [← hx, List.count_append, hcount x, Vm.heldBy_cons, Vm.heldBy_nil]
  omega

/-- A space is freed beside the pages of the caller, after a stray copy to its page table. -/
theorem freevm_beside (h : Balanced img [d, cr3] L s) (hprimed : Primed cr3 tab q s) (hne : cr3 ≠ tab) (b : Block) :
    wp (fun _ => False) (Vm.freevm img d) (fun _ t => t.page cr3 = s.page cr3 ∧ t.page tab = b ∧
      ∀ x, ¬img.Managed x → t.page x = s.page x) (s.put tab b) := by
  obtain ⟨H, hb, hH⟩ := balanced_loosen h
  have hheld : 0 < H.count tab ∧ 0 < H.count cr3 := by
    have htab := hprimed.held
    rw [hH, hH, Vm.heldBy_cons, Vm.heldBy_cons]
    refine ⟨by omega, ?_⟩
    rw [held, if_pos rfl]
    omega
  have htab : tab ∈ H ++ L := List.mem_append_left _ (List.count_pos_iff.mp hheld.1)
  have hb' : Balanced img [d] (H ++ L) (s.put tab b) := by
    apply hb.put _ (hb.managed_loose htab)
    intro e he
    exact hb.not_control_loose htab he
  apply wp_mono (Vm.freevm_spec hb')
  rintro _ t ⟨ht, hkept⟩
  refine ⟨?_, ?_, fun x hx => (ht.rest x hx).trans (h.rest x hx).symm⟩
  · rw [hkept _ (by rw [List.count_append]; omega), Mem.put_of_ne hne]
  · rw [hkept _ (by rw [List.count_append]; omega), Mem.put_same]

/-- Up to the user stack exec takes pages from the free list only. -/
theorem openImage_takes {sz : ℕ} {cwd : Ip} (h : Solo img n sz p tab q k) (hn : NPDENTRIES+3 ≤ n)
    (hcwd : (k.proc p).cwd = some cwd) (hfs : wp (fun _ => False) (readProgram cwd) (fun b _ => b = true) k.fs) :
    wp (fun _ => False) (openImage tinySuperblock noDevices img p programPath) (fun r k₁ =>
      k₁.proc = k.proc ∧ ∃ d L, r = some (d, 0) ∧ Balanced img [(k.proc p).pgdir] L k.mem ∧
        Vm.Kept [(k.proc p).pgdir] L k.mem k₁.mem ∧ Balanced img [d, (k.proc p).pgdir] L k₁.mem ∧
        Vm.KernelPart k₁.mem d ∧ (∀ v < UPAGES, entry k₁.mem.page d v = 0) ∧ Spare k.mem.free d 2 k₁.mem) k := by
  obtain ⟨L, hb⟩ := h.balanced
  have hroom := h.room
  unfold openImage
  rw [wp_bind, wp_begin_op, wp_bind, getCwd, wp_bind, wp_getProc]
  rw [show ((k.txn .begin_op).proc p).cwd = some cwd from hcwd]
  dsimp only
  rw [wp_pure, wp_bind, wp_onFs]
  unfold readProgram at hfs
  rw [wp_bind] at hfs
  apply wp_mono hfs
  rintro (_ | ip) fs₁ hfs₁
  · cases hfs₁
  dsimp only at hfs₁ ⊢
  rw [wp_bind] at hfs₁ ⊢
  rw [wp_onFs]
  apply wp_mono hfs₁
  rintro _ fs₂ hfs₂
  rw [wp_bind] at hfs₂ ⊢
  unfold loadImage
  rw [wp_bind, wp_onFs]
  apply wp_mono hfs₂
  rintro ⟨r, elf⟩ fs₃ hfs₃
  dsimp only at hfs₃ ⊢
  rw [wp_bind] at hfs₃
  obtain ⟨_, fs₄, hput, hread⟩ := wp_total hfs₃
  obtain ⟨hr, hmagic, hnum⟩ := of_decide_eq_true hread
  rw [if_neg (not_not.mpr hr), if_neg (not_not.mpr hmagic), wp_bind, wp_onMem]
  have hspare := Vm.setupkvm_spare img (F := fun _ => True) (m := 2) (s := k.mem) trivial h.deny
    (balanced_nodup hb) (balanced_small hb) (by omega)
  refine wp_mono (wp_and (Vm.setupkvm_spec (F := fun _ => False) hb) hspare fun _ he _ => he) ?_
  rintro _ t ⟨⟨hkept, hnew⟩, d, rfl, hs⟩
  obtain ⟨hb₁, hk₁, hempty⟩ := hnew
  dsimp only
  rw [wp_bind, hnum, loadProgram, wp_pure, wp_pure]
  dsimp only
  rw [wp_bind, wp_onFs]
  apply wp_of_ok hput
  rw [wp_bind, wp_end_op, wp_pure]
  exact ⟨rfl, d, L, rfl, hb, hkept, hb₁, hk₁, hempty, hs⟩

/-- The argument overwrites the end of the page table, from off on, and nothing else of the
caller and of the kernel. -/
theorem sys_exec_null {sz : ℕ} {cwd : Ip} {arg : List Byte} (harg : LongArg off arg)
    (h : Solo img n sz p tab q k) (hn : NPDENTRIES+3 ≤ n) (hsz : 0x2002FFF < sz) (hcwd : (k.proc p).cwd = some cwd)
    (hword : getWord (k.mem.page q) 0 = userPte tab)
    (hfs : wp (fun _ => False) (readProgram cwd) (fun b _ => b = true) k.fs) :
    wp (fun _ => False) (sys_exec tinySuperblock noDevices img p programPath [arg]) (fun _ k' =>
      k'.proc = k.proc ∧ k'.mem.page (k.proc p).pgdir = k.mem.page (k.proc p).pgdir ∧
      k'.mem.page tab = copyIn (k.mem.page tab) off (PGSIZE-off) (fun j => (arg ++ [0]).getD j 0) ∧
      ∀ x, ¬img.Managed x → k'.mem.page x = k.mem.page x) k := by
  have hlen : ¬([arg].length ≥ MAXARG ∨ [arg].any (fun s => decide (s.length ≥ (k.proc p).sz)) = true) := by
    have := harg.2.2
    rw [List.any_cons, List.any_nil, Bool.or_false, decide_eq_true_eq, h.size]
    simp only [List.length_cons, List.length_nil, MAXARG]
    omega
  unfold sys_exec
  rw [wp_bind, wp_getProc, if_neg hlen, exec_eq, map_eq_pure_bind, wp_bind, execBy, wp_bind]
  apply wp_mono (openImage_takes h hn hcwd hfs)
  rintro _ k₁ ⟨hproc, d, L, rfl, hb, hkept, hb₁, hk₁, hempty, hs⟩
  have hprimed : Primed (k.proc p).pgdir tab q k.mem :=
    ⟨h.table, h.entry, hword, h.small, tab_small hb (List.mem_singleton.mpr rfl) (by decide) h.table⟩
  have hstack := userStack_null harg hb₁ hk₁ hempty hs (hprimed.kept hkept)
  rw [userStack_eq, map_eq_pure_bind, wp_bind] at hstack
  dsimp only
  rw [wp_bind, wp_getProc, wp_bind, wp_onMem, hproc]
  apply wp_mono hstack
  rintro (_ | r) t' ⟨hnone, u, hb₂, hkept₂, ht'⟩
  swap
  · cases hnone
  dsimp only
  rw [wp_bind, wp_onMem, ht']
  apply wp_mono (freevm_beside hb₂ ((hprimed.kept hkept).kept hkept₂) h.distinct.1.symm _)
  rintro _ t ⟨hdir, htab, hrest⟩
  rw [wp_pure]
  -- the caller's pages are those of the start
  have hcontrol := (hkept.trans hkept₂).control (List.mem_singleton.mpr rfl)
  refine ⟨rfl, ?_, ?_, fun x hx => ?_⟩
  · exact hdir.trans (hcontrol _ (Or.inl rfl))
  · change t.page tab = _
    rw [htab, hcontrol _ (Or.inr ⟨0, by decide, h.table⟩)]
  · exact (hrest x hx).trans ((hb₂.rest x hx).trans (hb.rest x hx).symm)

end ProvenXv6.Kern
