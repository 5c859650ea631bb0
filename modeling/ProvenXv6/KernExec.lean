import ProvenXv6.KernSpaces
import ProvenXv6.KernStackModel

namespace ProvenXv6.Kern
open WeakestPre LittleEndian
open Fs (Byte Block FS FsM Fault Ip Superblock Devsw)
open Vm (Mem VmM BootImage Balanced KERNBASE PGSIZE UPAGES NPTENTRIES pages target table entry Control
  KernelPart SameMap uint DEVSPACE)
open Ptable (NPROC Slot ProcState)

variable {img : BootImage} {B D L : List ℕ} {R : List Space} {k k' : Kernel} {p : Slot}
  {S : Slot × Fd → Option FilePtr} {X : List FilePtr} {s t : Mem} {d sz v : ℕ} {F : Fault → Prop}

/-- A directory with the kernel part and with all pages below sz. -/
structure Loaded (s : Mem) (d sz : ℕ) : Prop where
  kernel : KernelPart s d
  size : sz ≤ KERNBASE
  present : ∀ v < pages sz, target (entry s.page d v) ≠ none

theorem Loaded.congr (h : Loaded s d sz) (hc : ∀ x, Control s.page d x → t.page x = s.page x) :
    Loaded t d sz where
  kernel := h.kernel.same (D := []) (L := []) ⟨fun x hx => absurd hx (by simp), hc⟩
  size := h.size
  present v hv := by
    rw [Vm.entry_congr hc (Vm.user_lt ⟨v, hv.trans_le (Vm.pages_le h.size)⟩)]
    exact h.present v hv

theorem allocuvm_loaded {newsz : ℕ} (hF : F (.panic "remap")) (h : Balanced img (d :: D) L s)
    (hl : Loaded s d sz) : wp F (Vm.allocuvm img d sz newsz)
      (fun r t => Balanced img (d :: D) L t ∧ Loaded t d sz ∧ (r ≠ 0 → r = max sz newsz ∧ Loaded t d r)) s := by
  by_cases hk : newsz ≥ KERNBASE
  · rw [Vm.allocuvm, if_pos hk]
    exact ⟨h, hl, fun h0 => absurd rfl h0⟩
  · by_cases hlt : newsz < sz
    · rw [Vm.allocuvm, if_neg hk, if_pos hlt, wp_pure]
      exact ⟨h, hl, fun _ => ⟨by omega, hl⟩⟩
    · have hpages : pages newsz ≤ UPAGES := Vm.pages_le (by omega)
      have hmono : pages sz ≤ pages newsz := Vm.pages_mono (not_lt.mp hlt)
      apply wp_mono (Vm.allocuvm_spec (not_lt.mp hlt) (not_le.mp hk) h fun _ _ _ => Or.inr hF)
      rintro r t ⟨hb, hr⟩
      have hu : Vm.Upd d Vm.KernelTable (fun u => u < pages sz ∨ pages newsz ≤ u) D L s t := by
        rcases hr with ⟨-, hu, -⟩ | ⟨-, hu, -⟩ <;> exact hu
      have hold : Loaded t d sz := by
        refine ⟨hl.kernel.upd hu fun v hv => Or.inr (hpages.trans hv), hl.size, ?_⟩
        intro v hv
        rw [hu.entries v (Vm.user_lt ⟨v, hv.trans_le (hmono.trans hpages)⟩) (Or.inl hv)]
        exact hl.present v hv
      refine ⟨hb, hold, fun hne => ?_⟩
      rcases hr with ⟨rfl, -, hz⟩ | ⟨rfl, -⟩
      · refine ⟨by omega, hold.kernel, by omega, ?_⟩
        intro v hv
        by_cases hlow : v < pages sz
        · exact hold.present v hlow
        · obtain ⟨x, hx, -⟩ := hz v (not_lt.mp hlow) hv
          rw [hx]
          exact Option.some_ne_none x
      · exact absurd rfl hne

section Load
variable (sb : Superblock) (dev : Devsw) {ip : Ip}

/-- The state while d is being filled. -/
def Filling (img : BootImage) (S : Slot × Fd → Option FilePtr) (X : List FilePtr) (D L : List ℕ) (d sz : ℕ)
    (k k' : Kernel) : Prop :=
  k'.proc = k.proc ∧ Mid img S X (d :: D) L k' ∧ Loaded k'.mem d sz

theorem readPage_spec {off n x : ℕ} (h : Filling img S X D L d sz k k') (hv : v < pages sz)
    (hx : target (entry k'.mem.page d v) = some x) :
    wp Allowed (readPage sb dev ip x off n) (fun _ => Filling img S X D L d sz k) k' := by
  obtain ⟨hproc, hmid, hl⟩ := h
  have hvu := hv.trans_le (Vm.pages_le hl.size)
  unfold readPage
  rw [wp_bind]
  apply wp_anyFs fun _ => trivial
  rintro ⟨r, bytes⟩ fs
  dsimp only
  rw [wp_bind, wp_get, wp_bind]
  have hmid₁ : Mid img S X (d :: D) L { k' with fs := fs } := hmid.congr rfl rfl rfl
  apply hmid₁.onMem (fun _ => d :: D) (fun _ => L) (fun _ t => Loaded t d sz)
  · intro P hb
    rw [Vm.wp_setPage]
    obtain ⟨hb', hsame⟩ := hb.put_user hvu hx (Fs.copyIn (k'.mem.page x) 0 (min n bytes.length) fun j => bytes.getD j 0)
    exact ⟨hb', hl.congr hsame.control⟩
  · rintro _ t hmid₂ hl₂
    exact ⟨hproc, hmid₂, hl₂⟩

theorem loadLoop_spec {addr offset n a : ℕ} (haddr : addr = a*PGSIZE) (hn : addr+n ≤ sz) (fuel j : ℕ)
    (hpos : 0 < fuel) (hfuel : n+PGSIZE ≤ (j+fuel)*PGSIZE) (k' : Kernel)
    (h : Filling img S X D L d sz k k') :
    wp Allowed (loadLoop sb dev ip d addr offset n fuel (j*PGSIZE)) (fun _ => Filling img S X D L d sz k) k' := by
  induction fuel generalizing j k' with
  | zero => exact absurd hpos (lt_irrefl 0)
  | succ fuel ih =>
    have hsz := h.2.2.size
    unfold loadLoop
    split_ifs with hlt
    · have hu : uint (addr+j*PGSIZE) = (a+j)*PGSIZE := by
        simp only [uint, PGSIZE, KERNBASE] at hsz haddr hlt ⊢
        omega
      have hv : a+j < pages sz := by
        rw [Vm.lt_pages, Nat.add_mul, ← haddr]
        exact (Nat.add_lt_add_left hlt addr).trans_le hn
      have hnext : uint (j*PGSIZE+PGSIZE) = (j+1)*PGSIZE := by
        simp only [uint, PGSIZE, KERNBASE] at hsz haddr hlt ⊢
        omega
      rw [wp_bind, wp_onMem, hu, Vm.walkpgdir_false, Vm.PDX_eq]
      cases htab : table k'.mem.page d ((a+j)/NPTENTRIES) with
      | none => exact ⟨by decide, by decide⟩
      | some tab =>
        have hpresent := h.2.2.present (a+j) hv
        dsimp only
        rw [wp_bind, wp_onMem, Vm.wp_getPte, Vm.PTX_eq, ← Vm.entry_of_table htab, wp_bind]
        apply wp_mono (readPage_spec sb dev h hv
          (Vm.target_of_present fun hz => hpresent (Vm.target_eq_none.mpr hz)))
        intro r k₁ hk₁
        split_ifs
        · exact hk₁
        · rw [hnext]
          apply ih (j+1) _ _ k₁ hk₁
          · simp only [PGSIZE] at hlt hfuel
            omega
          · rw [show j+1+fuel = j+(fuel+1) by omega]
            exact hfuel
    · exact h

theorem loaduvm_spec {addr offset n : ℕ} (hn : addr+n ≤ sz) (h : Filling img S X D L d sz k k') :
    wp Allowed (loaduvm sb dev d addr ip offset n) (fun _ => Filling img S X D L d sz k) k' := by
  unfold loaduvm
  split_ifs with halign
  · exact ⟨by decide, by decide⟩
  · have haddr : addr = addr/PGSIZE*PGSIZE := (Nat.div_mul_cancel (Nat.dvd_of_mod_eq_zero (not_not.mp halign))).symm
    rw [show (0 : ℕ) = 0*PGSIZE from rfl]
    apply loadLoop_spec sb dev haddr hn _ 0 (Nat.succ_pos _) _ k' h
    simp only [PGSIZE]
    omega

theorem field_lt (bytes : List Byte) (off : ℕ) : field bytes off 4 < 0x100000000 := readLE_lt ..

theorem loadProgram_spec (n off : ℕ) (h : Filling img S X D L d sz k k') :
    wp Allowed (loadProgram sb dev img ip d n off sz)
      (fun r k'' => ∃ sz', Filling img S X D L d sz' k k'' ∧ ∀ x, r = some x → x = sz') k' := by
  induction n generalizing off sz k' with
  | zero => exact ⟨sz, h, fun x hx => (Option.some.inj hx).symm⟩
  | succ n ih =>
    have hbad {k'' : Kernel} {sz' : ℕ} (h' : Filling img S X D L d sz' k k'') :
        ∃ sz', Filling img S X D L d sz' k k'' ∧ ∀ x, none = some x → x = sz' :=
      ⟨sz', h', by simp⟩
    unfold loadProgram
    rw [wp_bind]
    apply wp_anyFs fun _ => trivial
    rintro ⟨r, ph⟩ fs
    have h₁ : Filling img S X D L d sz k { k' with fs := fs } := ⟨h.1, h.2.1.congr rfl rfl rfl, h.2.2⟩
    dsimp only
    by_cases hr : r ≠ 32
    · rw [if_pos hr]
      exact hbad h₁
    rw [if_neg hr]
    by_cases htype : field ph 0 4 ≠ 1
    · rw [if_pos htype]
      exact ih _ h₁
    rw [if_neg htype]
    by_cases hmem : field ph 20 4 < field ph 16 4
    · rw [if_pos hmem]
      exact hbad h₁
    rw [if_neg hmem]
    by_cases hwrap : uint (field ph 8 4+field ph 20 4) < field ph 8 4
    · rw [if_pos hwrap]
      exact hbad h₁
    have hend : uint (field ph 8 4+field ph 20 4) = field ph 8 4+field ph 20 4 := by
      have h1 := field_lt ph 8
      have h2 := field_lt ph 20
      simp only [uint] at hwrap ⊢
      omega
    rw [if_neg hwrap, hend, wp_bind]
    apply h₁.2.1.onMem (fun _ => d :: D) (fun _ => L)
      (fun x t => Loaded t d sz ∧ (x ≠ 0 → x = max sz (field ph 8 4+field ph 20 4) ∧ Loaded t d x))
    · intro P hb
      exact allocuvm_loaded (by simp [Allowed]) hb h₁.2.2
    · rintro x t hmid ⟨hold, hx⟩
      split_ifs with hzero halign
      · exact hbad ⟨h.1, hmid, hold⟩
      · exact hbad ⟨h.1, hmid, hold⟩
      · obtain ⟨rfl, hl⟩ := hx hzero
        have hfill : Filling img S X D L d _ k { { k' with fs := fs } with mem := t } := ⟨h.1, hmid, hl⟩
        rw [wp_bind]
        apply wp_mono (loaduvm_spec sb dev (by omega) hfill)
        intro r k₂ hk₂
        split_ifs
        · exact ih _ hk₂
        · exact hbad hk₂

theorem loadImage_spec (h : Mid img S X D L k) : wp Allowed (loadImage sb dev img ip)
    (fun r k' => match r with
      | (some d, sz?) => ∃ sz, Filling img S X D L d sz k k' ∧ ∀ x, sz? = some x → x = sz
      | (none, _) => k'.proc = k.proc ∧ Mid img S X D L k') k := by
  unfold loadImage
  rw [wp_bind]
  apply wp_anyFs fun _ => trivial
  rintro ⟨r, elf⟩ fs
  have h₁ : Mid img S X D L { k with fs := fs } := h.congr rfl rfl rfl
  dsimp only
  by_cases hr : r ≠ 52
  · rw [if_pos hr]
    exact ⟨rfl, h₁⟩
  rw [if_neg hr]
  by_cases hmagic : field elf 0 4 ≠ ELF_MAGIC
  · rw [if_pos hmagic]
    exact ⟨rfl, h₁⟩
  rw [if_neg hmagic, wp_bind]
  apply h₁.onMem (fun r => r.toList ++ D) (fun _ => L)
    (fun r t => ∀ d, r = some d → Loaded t d 0)
  · intro P hb
    apply wp_mono (Vm.setupkvm_spec hb)
    rintro (_ | d) t ⟨-, hr⟩
    · exact ⟨hr, by simp⟩
    · refine ⟨hr.1, ?_⟩
      rintro _ ⟨⟩
      exact ⟨hr.2.1, Nat.zero_le _, fun v hv => absurd hv (Nat.not_lt_zero v)⟩
  · rintro (_ | d) t hmid hl
    · exact ⟨rfl, hmid⟩
    · have hfill : Filling img S X D L d 0 k { { k with fs := fs } with mem := t } := ⟨rfl, hmid, hl d rfl⟩
      dsimp only
      rw [wp_bind]
      apply wp_mono (loadProgram_spec sb dev _ _ hfill)
      intro sz k₂ hk₂
      exact hk₂

end Load

/-- No string, with its NUL, is longer than the address range of the devices. -/
def ShortArgs (argv : List (List Byte)) : Prop := ∀ arg ∈ argv, arg.length+1 ≤ 0x2000000

instance (argv : List (List Byte)) : Decidable (ShortArgs argv) :=
  inferInstanceAs (Decidable (∀ arg ∈ argv, _))

section Stack
variable {cr3 : ℕ}

theorem copyout_loaded {va fuel : ℕ} {bytes : List Byte} (hne : bytes ≠ []) (hfuel : bytes.length < fuel)
    (hva : va+bytes.length ≤ sz ∨ DEVSPACE ≤ va ∧ va < 0x100000000)
    (h : Balanced img (d :: D) L s) (hl : Loaded s d sz) :
    wp F (Vm.copyout cr3 d fuel va bytes) (fun r t => Balanced img (d :: D) L t ∧ Loaded t d sz ∧
      (r = true → va ≤ sz)) s := by
  apply wp_mono (Vm.copyout_spec hl.size fuel va bytes hfuel (fun _ => hva) s h hl.kernel hl.present)
  rintro r t ⟨hb, hsame, htrue⟩
  exact ⟨hb, hl.congr hsame.control, fun hr => (Nat.le_add_right _ _).trans (htrue hr hne)⟩

/-- Below the bottom of the memory the stack pointer wraps around to the devices. -/
theorem below_or_device {sp n : ℕ} (hsp : sp ≤ sz) (hsz : sz ≤ KERNBASE) (hn : n ≤ 0x2000000) :
    uint (0x100000000+sp-n)/4*4+n ≤ sz ∨
      DEVSPACE ≤ uint (0x100000000+sp-n)/4*4 ∧ uint (0x100000000+sp-n)/4*4 < 0x100000000 := by
  simp only [uint, KERNBASE, DEVSPACE] at hsz ⊢
  omega

/-- The stack pointer stays below the size as long as `copyout` succeeds. -/
theorem pushArgs_spec (argv : List (List Byte)) (hargs : ShortArgs argv) (sp : ℕ) (hsp : sp ≤ sz)
    (ustack : List ℕ) (hstack : ustack.length ≤ MAXARG) (s : Mem) (h : Balanced img (d :: D) L s)
    (hl : Loaded s d sz) : wp F (pushArgs cr3 d argv sp ustack) (fun r t =>
      Balanced img (d :: D) L t ∧ Loaded t d sz ∧
        ∀ x, r = some x → x.1 ≤ sz ∧ x.2.length ≤ MAXARG) s := by
  induction argv generalizing sp ustack s with
  | nil =>
    refine ⟨h, hl, ?_⟩
    rintro _ ⟨⟩
    exact ⟨hsp, hstack⟩
  | cons arg argv ih =>
    have hlen := hargs arg List.mem_cons_self
    unfold pushArgs
    split_ifs with hfull
    · exact ⟨h, hl, by simp⟩
    · have hva := below_or_device hsp hl.size hlen
      rw [wp_bind]
      apply wp_mono (copyout_loaded (by simp) (by simp) (by simpa using hva) h hl)
      rintro r t ⟨hb, hl', hr⟩
      split_ifs with htrue
      · apply ih (fun a ha => hargs a (List.mem_cons_of_mem _ ha)) _ (hr htrue) _ _ t hb hl'
        rw [List.length_append]
        simp only [MAXARG] at hfull ⊢
        simp only [List.length_cons, List.length_nil]
        omega
      · exact ⟨hb, hl', by simp⟩

theorem length_wordBytes (words : List ℕ) : (wordBytes words).length = 4*words.length := by
  induction words with
  | nil => rfl
  | cons w words ih =>
    rw [wordBytes, List.flatMap_cons, List.length_append, List.length_map, List.length_range,
      ← wordBytes, ih, List.length_cons]
    omega

theorem userStack_spec {argv : List (List Byte)} (hargs : ShortArgs argv) (hF : F (.panic "remap"))
    (h : Balanced img (d :: D) L s) (hl : Loaded s d sz) :
    wp F (userStack img cr3 d sz argv) (fun r t => Balanced img (d :: D) L t ∧
      ∀ x, r = some x → x < KERNBASE) s := by
  have hsz := hl.size
  have hround := Vm.PGROUNDUP_eq hsz
  have hle : pages sz*PGSIZE ≤ KERNBASE := by
    have := Nat.mul_le_mul_right PGSIZE (Vm.pages_le hsz)
    exact this.trans (by decide)
  have hpages : pages (pages sz*PGSIZE) = pages sz := by
    simp only [pages, PGSIZE]
    omega
  have hl₀ : Loaded s d (pages sz*PGSIZE) := ⟨hl.kernel, hle, by rw [hpages]; exact hl.present⟩
  have hnew : uint (pages sz*PGSIZE+2*PGSIZE) = (pages sz+2)*PGSIZE := by
    simp only [uint, PGSIZE, KERNBASE] at hle ⊢
    omega
  unfold userStack
  dsimp only
  rw [hround, hnew, wp_bind]
  by_cases hk : (pages sz+2)*PGSIZE ≥ KERNBASE
  · rw [Vm.allocuvm, if_pos hk]
    exact ⟨h, by simp⟩
  apply wp_mono (allocuvm_loaded hF h hl₀)
  rintro r t ⟨hb, -, hr⟩
  split_ifs with hzero
  · exact ⟨hb, by simp⟩
  · obtain ⟨rfl, hl₁⟩ := hr hzero
    have hmax : max (pages sz*PGSIZE) ((pages sz+2)*PGSIZE) = (pages sz+2)*PGSIZE :=
      max_eq_right (Nat.mul_le_mul_right _ (by omega))
    rw [hmax] at hl₁ ⊢
    have hguard : (pages sz+2)*PGSIZE-2*PGSIZE = pages sz*PGSIZE := by
      rw [Nat.add_mul, Nat.add_sub_cancel]
    have hlt : pages sz < pages ((pages sz+2)*PGSIZE) := by
      rw [Vm.lt_pages]
      exact Nat.mul_lt_mul_of_pos_right (by omega) (by decide)
    have hv : pages sz < UPAGES := hlt.trans_le (Vm.pages_le hl₁.size)
    rw [wp_bind, hguard]
    have htab : table t.page d (pages sz/NPTENTRIES) ≠ none := by
      intro hnone
      exact hl₁.present _ hlt (by rw [Vm.entry_of_no_table hnone, Vm.target_zero])
    apply wp_mono (Vm.clearpteu_spec hb hv htab)
    rintro _ t₂ ⟨hb₂, hu, hsame, -⟩
    have hl₂ : Loaded t₂ d ((pages sz+2)*PGSIZE) := by
      refine ⟨hl₁.kernel.upd (hu.mono (fun _ _ => trivial) fun _ h => h) fun v hv' => by omega, hl₁.size, ?_⟩
      intro v hv'
      by_cases hvp : v = pages sz
      · rw [hvp, hsame]
        exact hl₁.present _ hlt
      · rw [hu.entries v (Vm.user_lt ⟨v, hv'.trans_le (Vm.pages_le hl₁.size)⟩) hvp]
        exact hl₁.present v hv'
    rw [wp_bind]
    apply wp_mono (pushArgs_spec argv hargs _ le_rfl [] (Nat.zero_le _) t₂ hb₂ hl₂)
    rintro (_ | ⟨sp, ustack⟩) t₃ ⟨hb₃, hl₃, hsp⟩
    · exact ⟨hb₃, by simp⟩
    · obtain ⟨hsp, hstack⟩ := hsp _ rfl
      dsimp only at hsp hstack ⊢
      have hbytes : (wordBytes ([0xFFFFFFFF, ustack.length, uint (0x100000000+sp-(ustack.length+1)*4)] ++
          ustack ++ [0])).length = (3+ustack.length+1)*4 := by
        rw [length_wordBytes]
        simp only [List.length_append, List.length_cons, List.length_nil]
        omega
      have hva : uint (0x100000000+sp-(3+ustack.length+1)*4)+(3+ustack.length+1)*4 ≤ (pages sz+2)*PGSIZE ∨
          DEVSPACE ≤ uint (0x100000000+sp-(3+ustack.length+1)*4) ∧
            uint (0x100000000+sp-(3+ustack.length+1)*4) < 0x100000000 := by
        have hsize := hl₃.size
        simp only [uint, KERNBASE, DEVSPACE, MAXARG] at hsize hstack ⊢
        omega
      rw [wp_bind]
      refine wp_mono (copyout_loaded (List.ne_nil_of_length_pos (by omega)) (by omega)
        (by rw [hbytes]; exact hva) hb₃ hl₃) ?_
      rintro r t₄ ⟨hb₄, -, -⟩
      split_ifs
      · refine ⟨hb₄, ?_⟩
        rintro _ ⟨⟩
        exact not_le.mp hk
      · exact ⟨hb₄, by simp⟩

end Stack

section Exec
variable (sb : Superblock) (dev : Devsw) (h : Inv img B k) (hp : (k.proc p).state = .runnable)

theorem Mid.freevm {G : Stop → Prop} {Q : Unit → Kernel → Prop} (h : Mid img S X (d :: D) L k)
    (hQ : ∀ t, Mid img S X D L { k with mem := t } → Q () { k with mem := t }) :
    wp G (Kern.onMem (Vm.freevm img d)) Q k := by
  apply h.onMem (fun _ => D) (fun _ => L) (fun _ _ => True)
  · intro P hb
    apply wp_mono (Vm.freevm_spec hb)
    rintro _ t ⟨hb', -⟩
    exact ⟨hb', trivial⟩
  · rintro _ t h' -
    exact hQ t h'

include h in
theorem Inv.undone (hproc : k'.proc = k.proc)
    (hmid : Mid img (slots k) [] ((spaces k).map Space.pgdir) ((spaces k).map Space.kstack ++ B) k') :
    Inv img B k' := by
  apply h.same
  · rw [show slots k' = slots k by unfold slots; rw [hproc]]
    exact hmid
  · rw [hproc]
    exact fun _ => rfl
  · rw [hproc]
    exact h.closed

include h in
theorem openImage_spec {path : List Byte} : wp Allowed (openImage sb dev img p path) (fun r k' => match r with
    | none => Inv img B k'
    | some (d, sz) => Filling img (slots k) [] ((spaces k).map Space.pgdir)
        ((spaces k).map Space.kstack ++ B) d sz k k') k := by
  unfold openImage
  rw [wp_bind, wp_begin_op, wp_bind]
  apply wp_getCwd allowed_trap
  intro cwd _
  rw [wp_bind]
  apply wp_anyFs fun _ => trivial
  rintro (_ | ip) fs
  · exact h.undone rfl (h.mid.congr rfl rfl rfl)
  dsimp only
  rw [wp_bind]
  apply wp_anyFs fun _ => trivial
  intro _ fs'
  rw [wp_bind]
  have hmid₁ : Mid img (slots k) [] ((spaces k).map Space.pgdir) ((spaces k).map Space.kstack ++ B)
      { { k.txn .begin_op with fs := fs } with fs := fs' } := h.mid.congr rfl rfl rfl
  apply wp_mono (loadImage_spec sb dev hmid₁)
  rintro ⟨_ | d, sz?⟩ k₂ hk₂
  · -- no directory yet
    obtain ⟨hproc₂, hmid₂⟩ := hk₂
    dsimp only [freeImage]
    rw [wp_bind, wp_pure, wp_bind]
    apply wp_anyFs fun _ => trivial
    intro _ fs₃
    exact h.undone hproc₂ (hmid₂.congr rfl rfl rfl)
  · obtain ⟨sz, ⟨hproc₂, hmid₂, hl⟩, hsz⟩ := hk₂
    cases sz? with
    | none =>
      dsimp only [freeImage]
      rw [wp_bind]
      apply hmid₂.freevm
      intro t hmid₃
      rw [wp_bind]
      apply wp_anyFs fun _ => trivial
      intro _ fs₃
      exact h.undone hproc₂ (hmid₃.congr rfl rfl rfl)
    | some _ =>
      cases hsz _ rfl
      dsimp only
      rw [wp_bind]
      apply wp_anyFs fun _ => trivial
      intro _ fs₃
      rw [wp_bind, wp_end_op]
      exact ⟨hproc₂, hmid₂.congr rfl rfl rfl, hl⟩

include h hp in
theorem replaceImage_spec {G : Stop → Prop} {sz' : ℕ}
    (hmid : Mid img (slots k) [] (d :: (spaces k).map Space.pgdir) ((spaces k).map Space.kstack ++ B) k')
    (hproc : k'.proc = k.proc) (hsz' : sz' < KERNBASE) : wp G (do
      setProc p fun e => { e with pgdir := d, sz := sz' }
      Kern.onMem (Vm.freevm img (k.proc p).pgdir)) (fun _ => Inv img B) k' := by
  have hspace := space_runnable hp
  obtain ⟨R, hR, hnew⟩ := spaces_split hspace
  rw [wp_bind, wp_setProc]
  have hmid₅ : Mid img (slots k) [] ((k.proc p).pgdir :: d :: R.map Space.pgdir)
      ((k.proc p).kstack :: R.map Space.kstack ++ B)
      (k'.mapProc p fun e => { e with pgdir := d, sz := sz' }) := by
    refine (hmid.perm ?_ ((hR.map Space.kstack).append_right B)).congr rfl rfl rfl
    exact ((hR.map Space.pgdir).cons d).trans (List.Perm.swap _ _ _)
  apply hmid₅.freevm
  intro t' hmid₆
  obtain ⟨e, he⟩ : ∃ e : Proc, e = { k.proc p with pgdir := d, sz := sz' } := ⟨_, rfl⟩
  have hspace' : e.space = some ⟨d, (k.proc p).kstack, sz'⟩ := by
    rw [he]
    exact Proc.space_used (by rw [hp]; decide)
  have hproc' : ({ k'.mapProc p fun e => { e with pgdir := d, sz := sz' } with mem := t' }).proc =
      Function.update k.proc p e := by
    rw [he]
    change Function.update k'.proc p { k'.proc p with pgdir := d, sz := sz' } = _
    rw [hproc]
  have hslots := slots_update hproc' (by rw [he])
  refine h.change (hnew _ _ hproc') hproc' ?_
    (fun x hx => hR.mem_iff.mpr (List.mem_cons_of_mem _ hx)) ?_ ?_
  · rw [hslots, hspace']
    exact hmid₆
  · intro x hx
    rw [hspace'] at hx
    cases hx
    exact hsz'
  · rw [he]
    exact fun hne => absurd hp hne

include h hp in
theorem exec_spec {path : List Byte} {argv : List (List Byte)} (hargs : ShortArgs argv) :
    wp Allowed (exec sb dev img p path argv) (fun _ => Inv img B) k := by
  rw [exec_eq, map_eq_pure_bind, wp_bind]
  unfold execBy
  rw [wp_bind]
  apply wp_mono (openImage_spec sb dev h)
  rintro (_ | ⟨d, sz⟩) k₂ hk₂
  · exact hk₂
  · obtain ⟨hproc₂, hmid₂, hl⟩ := hk₂
    dsimp only
    rw [wp_bind, wp_getProc, wp_bind, hproc₂]
    refine hmid₂.onMem (fun _ => d :: (spaces k).map Space.pgdir)
      (fun _ => (spaces k).map Space.kstack ++ B) (fun r _ => ∀ x, r = some x → x.1 < KERNBASE) ?_ ?_
    · intro P hb
      have hstack : wp (fun e => Allowed (.mem e)) (userStack img (k.proc p).pgdir d sz argv) _ k₂.mem :=
        userStack_spec hargs (by simp [Allowed]) hb hl
      rw [userStack_eq, map_eq_pure_bind, wp_bind] at hstack
      apply wp_mono hstack
      rintro r t ⟨hbt, hr⟩
      refine ⟨hbt, ?_⟩
      rintro x rfl
      exact hr _ rfl
    · rintro (_ | ⟨sz', sp⟩) t hmid₄ hsz'
      · dsimp only
        rw [wp_bind]
        apply hmid₄.freevm
        intro t' hmid₅
        exact h.undone hproc₂ (hmid₅.congr rfl rfl rfl)
      · have hreplace := replaceImage_spec (G := Allowed) h hp hmid₄ hproc₂ (hsz' _ rfl)
        rw [wp_bind] at hreplace
        dsimp only
        rw [wp_bind]
        apply wp_mono hreplace
        intro _ k₃ hk₃
        rw [wp_bind]
        exact hk₃

include h hp in
theorem sys_exec_spec {path : List Byte} {argv : List (List Byte)} (hargs : ShortArgs argv) :
    wp Allowed (sys_exec sb dev img p path argv) (fun _ => Inv img B) k := by
  unfold sys_exec
  rw [wp_bind, wp_getProc]
  split_ifs
  · exact h
  · exact exec_spec sb dev h hp hargs

end Exec

end ProvenXv6.Kern
