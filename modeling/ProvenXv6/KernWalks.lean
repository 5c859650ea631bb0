import ProvenXv6.KernOwners
import ProvenXv6.KernStack

namespace ProvenXv6.Kern
open WeakestPre
open Fs (Byte Block Fault copyIn Superblock Devsw)
open Vm (Mem VmM BootImage Balanced KERNBASE PHYSTOP DEVSPACE PGSIZE UPAGES NPTENTRIES pages target table entry
  KernelPart SameMap uint PGROUNDUP Translates userTarget copyoutBy checkedUva2ka nullPte)
open Ptable (Slot)

variable {img : BootImage} {D L : List ℕ} {s t : Mem} {d n x sz : ℕ} {F : Fault → Prop}
  {ka : ℕ → VmM (Option ℕ)} {argv : List (List Byte)}

@[irreducible] def stackTop (sz : ℕ) : ℕ := uint (PGROUNDUP sz+2*PGSIZE)

/-- There is memory for the stack of the new program. -/
def HasStack (img : BootImage) (d sz : ℕ) (s : Mem) : Prop :=
  ∃ t, Vm.allocuvm img d (PGROUNDUP sz) (stackTop sz) s = .ok (stackTop sz, t)

/-- The strings and ustack fit in the stack page. -/
def StackFits (argv : List (List Byte)) : Prop := used argv+(3+argv.length+1)*4 ≤ PGSIZE

def startSp (top : ℕ) (argv : List (List Byte)) : ℕ := top-used argv-(3+argv.length+1)*4

def stackWords (top : ℕ) (argv : List (List Byte)) : List ℕ :=
  [0xFFFFFFFF, argv.length, top-used argv-(argv.length+1)*4] ++ places argv top ++ [0]

def stackPage (top : ℕ) (argv : List (List Byte)) (b : Block) : Block :=
  copyIn (pushedPage (top-PGSIZE) argv top b) (startSp top argv-(top-PGSIZE))
    (wordBytes (stackWords top argv)).length fun j => (wordBytes (stackWords top argv)).getD j 0

theorem length_places (argv : List (List Byte)) (sp : ℕ) : (places argv sp).length = argv.length := by
  induction argv generalizing sp with
  | nil => rfl
  | cons arg argv ih => rw [places, List.length_cons, List.length_cons, ih]

theorem used_mod (argv : List (List Byte)) : used argv%4 = 0 := by
  induction argv with
  | nil => rfl
  | cons arg argv ih =>
    have := padded_mod arg
    rw [used]
    omega

theorem length_stackWords (top : ℕ) (argv : List (List Byte)) :
    (wordBytes (stackWords top argv)).length = (3+argv.length+1)*4 := by
  rw [length_wordBytes, stackWords]
  simp only [List.length_append, List.length_cons, List.length_nil, length_places]
  omega

theorem uint_stack (h : sz ≤ KERNBASE) : uint (pages sz*PGSIZE+2*PGSIZE) = (pages sz+2)*PGSIZE := by
  have hpages := Vm.pages_le h
  simp only [uint, PGSIZE, UPAGES, KERNBASE] at hpages ⊢
  omega

theorem stackTop_eq (h : sz ≤ KERNBASE) : stackTop sz = (pages sz+2)*PGSIZE := by
  unfold stackTop
  rw [Vm.PGROUNDUP_eq h, uint_stack h]

theorem Loaded.whole (hl : Loaded s d sz) : Loaded s d (pages sz*PGSIZE) := by
  have hle : pages sz*PGSIZE ≤ KERNBASE :=
    (Nat.mul_le_mul_right PGSIZE (Vm.pages_le hl.size)).trans (by decide)
  have hpages : pages (pages sz*PGSIZE) = pages sz := by
    simp only [pages, PGSIZE]
    omega
  exact ⟨hl.kernel, hle, by rw [hpages]; exact hl.present⟩

theorem userTarget_fresh {v : ℕ} (h : Vm.Fresh s d v) : ∃ x, userTarget (entry s.page d v) = some x := by
  obtain ⟨x, hx, hentry, -⟩ := h
  obtain ⟨hP, hU, haddr⟩ := userPte_flags hx
  refine ⟨x, ?_⟩
  rw [hentry, userTarget]
  exact (if_neg hP).trans ((if_neg hU).trans (congrArg some haddr))

theorem stackPages_spec (hF : F (.panic "remap")) (h : Balanced img (d :: D) L s) (hl : Loaded s d sz) :
    wp F (Vm.allocuvm img d (pages sz*PGSIZE) ((pages sz+2)*PGSIZE)) (fun r t => Balanced img (d :: D) L t ∧
      (r = 0 ∨ r = (pages sz+2)*PGSIZE ∧ ∀ G, wp G (Vm.clearpteu d (r-2*PGSIZE)) (fun _ u =>
        Balanced img (d :: D) L u ∧ ∃ x, Stacked u d (pages sz) x) t)) s := by
  by_cases hk : (pages sz+2)*PGSIZE ≥ KERNBASE
  · rw [Vm.allocuvm, if_pos hk]
    exact ⟨h, Or.inl rfl⟩
  have hle : pages sz*PGSIZE ≤ (pages sz+2)*PGSIZE := Nat.mul_le_mul_right _ (by omega)
  have hpages (n : ℕ) : pages (n*PGSIZE) = n := by
    simp only [pages, PGSIZE]
    omega
  have hgrow := Vm.allocuvm_grows (F := F) (I := Vm.KernelTable) hle (not_le.mp hk) h (fun _ => Or.inl)
    fun _ _ _ => Or.inr hF
  refine wp_mono (wp_and (H := F) (allocuvm_loaded hF h hl.whole) hgrow fun _ he _ => he) ?_
  rintro r t ⟨⟨hb, -, hr⟩, -, ⟨rfl, -, hfresh⟩ | ⟨rfl, -⟩⟩
  · obtain ⟨-, hl₁⟩ := hr (by simp only [PGSIZE]; omega)
    rw [hpages, hpages] at hfresh
    obtain ⟨x, hx⟩ := userTarget_fresh (hfresh (pages sz+1) (by omega) (by omega))
    have hguard : (pages sz+2)*PGSIZE-2*PGSIZE = pages sz*PGSIZE := by
      rw [Nat.add_mul, Nat.add_sub_cancel]
    have hlt : pages sz < pages ((pages sz+2)*PGSIZE) := by
      rw [hpages]
      omega
    have hv : pages sz+1 < UPAGES := by
      simp only [UPAGES, KERNBASE, PGSIZE] at hk ⊢
      omega
    refine ⟨hb, Or.inr ⟨rfl, fun G => ?_⟩⟩
    rw [hguard]
    apply wp_mono (Vm.clearpteu_spec hb (by omega) (Vm.table_of_target (hl₁.present _ hlt)))
    rintro _ u ⟨hbu, hu, hsame, hclosed⟩
    refine ⟨hbu, x, ⟨⟨?_, hl₁.size, ?_⟩, not_le.mp hk, hclosed, ?_⟩⟩
    · exact hl₁.kernel.upd (hu.mono (fun _ _ => trivial) fun _ h => h) fun v hv' => by omega
    · intro v hv'
      by_cases hvp : v = pages sz
      · rw [hvp, hsame]
        exact hl₁.present _ hlt
      · rw [hu.entries v (Vm.user_lt ⟨v, hv'.trans_le (Vm.pages_le hl₁.size)⟩) hvp]
        exact hl₁.present v hv'
    · rw [hu.entries _ (Vm.user_lt ⟨_, hv⟩) (Nat.succ_ne_self _), hx]
  · exact ⟨hb, Or.inl rfl⟩

section Stack
variable (hlen : ∀ arg ∈ argv, arg.length < KERNBASE) (hargc : argv.length < MAXARG)

include hlen hargc in
theorem fillStack_spec {Q : Option (ℕ × ℕ) → Mem → Prop} (hka : Translates ka d)
    (hb : Balanced img (d :: D) L s) (h : Stacked s d n x) (hgap : ¬HitsGap argv PGSIZE ((n+2)*PGSIZE))
    (hfail : ∀ t, Balanced img (d :: D) L t → ¬StackFits argv → Q none t)
    (hdone : StackFits argv → Q (some ((n+2)*PGSIZE, startSp ((n+2)*PGSIZE) argv))
      (s.put x (stackPage ((n+2)*PGSIZE) argv (s.page x)))) :
    wp F (do
      match ← pushArgsBy (copyoutBy ka) argv ((n+2)*PGSIZE) [] with
      | none => pure none
      | some (sp, ustack) => do
        let argc := ustack.length
        let words := [0xFFFFFFFF, argc, uint (0x100000000+sp-(argc+1)*4)] ++ ustack ++ [0]
        let sp := uint (0x100000000+sp-(3+argc+1)*4)
        if ← copyoutBy ka ((3+argc+1)*4+1) sp (wordBytes words) then pure (some ((n+2)*PGSIZE, sp))
        else pure none) Q s := by
  have hsize := h.loaded.size
  have htop : (n+2)*PGSIZE-(n+1)*PGSIZE = PGSIZE := by
    simp only [PGSIZE]
    omega
  have hbase : (n+2)*PGSIZE-PGSIZE = (n+1)*PGSIZE := by
    simp only [PGSIZE]
    omega
  have hle : (n+1)*PGSIZE ≤ (n+2)*PGSIZE := Nat.mul_le_mul_right _ (by omega)
  have hpage : PGSIZE ≤ (n+1)*PGSIZE := Nat.le_mul_of_pos_left _ (Nat.succ_pos n)
  have hmod : (n+2)*PGSIZE%4 = 0 := by
    simp only [PGSIZE]
    omega
  rw [wp_bind]
  apply wp_mono (pushArgsBy_spec hka argv hlen _ [] (by simpa using hargc) s hb h hmod hle le_rfl (by rwa [htop]))
  rintro r t (⟨hused, rfl, rfl⟩ | ⟨hused, rfl, hbt⟩)
  · rw [htop] at hused
    obtain ⟨hb', h'⟩ := h.put hb (pushedPage ((n+1)*PGSIZE) argv ((n+2)*PGSIZE) (s.page x))
    dsimp only
    rw [List.nil_append, length_places]
    -- the vector of words is short, so the stack pointer does not wrap around
    simp only [MAXARG] at hargc
    have hsp : uint (0x100000000+((n+2)*PGSIZE-used argv)-(3+argv.length+1)*4) = startSp ((n+2)*PGSIZE) argv := by
      simp only [startSp, uint, PGSIZE, KERNBASE] at hused hsize hpage ⊢
      omega
    have hargp : uint (0x100000000+((n+2)*PGSIZE-used argv)-(argv.length+1)*4) =
        (n+2)*PGSIZE-used argv-(argv.length+1)*4 := by
      simp only [uint, PGSIZE, KERNBASE] at hused hsize hpage ⊢
      omega
    rw [hsp, hargp, ← stackWords]
    have hwords := length_stackWords ((n+2)*PGSIZE) argv
    have hne : wordBytes (stackWords ((n+2)*PGSIZE) argv) ≠ [] := List.ne_nil_of_length_pos (by omega)
    rw [wp_bind]
    by_cases hfit : StackFits argv
    · have hroom := hfit
      unfold StackFits at hroom
      rw [copyoutBy_inside hka h' (by unfold startSp; omega) (by rw [hwords, startSp]; omega) hne (by omega),
        if_pos rfl, wp_pure]
      rw [Vm.Mem.put_put, Mem.put_same]
      have hdone' := hdone hfit
      rw [stackPage, hbase] at hdone'
      exact hdone'
    · have hmiss := hfit
      unfold StackFits at hfit
      refine wp_mono (copyoutBy_guard hka _ _ _ (by omega) ?_ ?_ _ hb' h' hne) ?_
      · simp only [startSp, PGSIZE] at hused hpage hfit ⊢
        omega
      · rw [hwords]
        simp only [startSp, PGSIZE] at hused hpage ⊢
        omega
      · rintro r t ⟨rfl, hbt⟩
        exact hfail t hbt hmiss
  · refine hfail t hbt fun hfit => hused ?_
    unfold StackFits at hfit
    omega

include hlen hargc in
theorem userStackBy_spec (hka : Translates ka d) (hF : F (.panic "remap")) (h : Balanced img (d :: D) L s)
    (hl : Loaded s d sz)
    (hgap : ∀ t, Vm.allocuvm img d (pages sz*PGSIZE) ((pages sz+2)*PGSIZE) s = .ok ((pages sz+2)*PGSIZE, t) →
      ¬HitsGap argv PGSIZE ((pages sz+2)*PGSIZE)) :
    wp F (userStackBy img (copyoutBy ka) d sz argv) (fun r t => Balanced img (d :: D) L t ∧
      (r = none ∨ StackFits argv ∧ r = some ((pages sz+2)*PGSIZE, startSp ((pages sz+2)*PGSIZE) argv) ∧
        (pages sz+2)*PGSIZE < KERNBASE ∧
        ∃ b, Vm.content t d (pages sz+1) = some (stackPage ((pages sz+2)*PGSIZE) argv b))) s := by
  have hround := Vm.PGROUNDUP_eq hl.size
  have hnew := uint_stack hl.size
  unfold userStackBy
  dsimp only
  rw [hround, hnew, wp_bind]
  refine wp_mono (wp_and (H := F) (stackPages_spec (F := F) hF h hl) (wp_self _ s) fun _ he _ => he) ?_
  rintro r t ⟨⟨hb, hr⟩, hrun⟩
  rcases hr with rfl | ⟨rfl, hclear⟩
  · rw [if_pos rfl]
    exact ⟨hb, Or.inl rfl⟩
  rw [if_neg (by simp only [PGSIZE]; omega), wp_bind]
  apply wp_mono (hclear F)
  rintro _ u ⟨hbu, x, hst⟩
  apply fillStack_spec hlen hargc hka hbu hst (hgap t hrun)
  · intro t ht _
    exact ⟨ht, Or.inl rfl⟩
  · intro hfit
    obtain ⟨hb', h'⟩ := hst.put hbu (stackPage ((pages sz+2)*PGSIZE) argv (u.page x))
    refine ⟨hb', Or.inr ⟨hfit, rfl, hst.below, u.page x, ?_⟩⟩
    rw [Vm.content, Vm.target_of_userTarget h'.page, Option.map_some, Mem.put_same]

include hlen hargc in
theorem userStackBy_done (hka : Translates ka d) (h : Balanced img (d :: D) L s) (hl : Loaded s d sz)
    (hstack : HasStack img d sz s) (hfit : StackFits argv) :
    wp F (userStackBy img (copyoutBy ka) d sz argv) (fun r t =>
      r = some (stackTop sz, startSp (stackTop sz) argv) ∧ Balanced img (d :: D) L t) s := by
  have hround := Vm.PGROUNDUP_eq hl.size
  have hnew := uint_stack hl.size
  have hle : PGSIZE ≤ (pages sz+2)*PGSIZE := Nat.le_mul_of_pos_left _ (by omega)
  have hne : (pages sz+2)*PGSIZE ≠ 0 := (Nat.lt_of_lt_of_le (by decide) hle).ne'
  obtain ⟨t, halloc⟩ := hstack
  rw [stackTop_eq hl.size] at halloc ⊢
  rw [hround] at halloc
  obtain ⟨-, hr⟩ := wp_ok (stackPages_spec (F := fun _ => True) trivial h hl) halloc
  obtain ⟨-, hclear⟩ := hr.resolve_left hne
  unfold userStackBy
  dsimp only
  rw [hround, hnew, wp_bind]
  apply wp_of_ok halloc
  rw [if_neg hne, wp_bind]
  apply wp_mono (hclear _)
  rintro _ u ⟨hbu, x, hst⟩
  have hused : used argv ≤ (pages sz+2)*PGSIZE := by
    unfold StackFits at hfit
    omega
  apply fillStack_spec hlen hargc hka hbu hst (not_hitsGap argv _ _ hused)
  · exact fun _ _ hnot => absurd hfit hnot
  · exact fun _ => ⟨rfl, (hst.put hbu _).1⟩

include hlen hargc in
theorem userStackBy_gap (h : Balanced img (d :: D) L s) (hl : Loaded s d sz)
    (halloc : Vm.allocuvm img d (pages sz*PGSIZE) ((pages sz+2)*PGSIZE) s = .ok ((pages sz+2)*PGSIZE, t))
    (hgap : HitsGap argv PGSIZE ((pages sz+2)*PGSIZE)) :
    wp (fun e => e = nullPte) (userStackBy img (copyoutBy (checkedUva2ka d)) d sz argv) (fun _ _ => False) s := by
  have hround := Vm.PGROUNDUP_eq hl.size
  have hnew := uint_stack hl.size
  have hle : (pages sz+1)*PGSIZE ≤ (pages sz+2)*PGSIZE := Nat.mul_le_mul_right _ (by omega)
  have hroom : (pages sz+2)*PGSIZE-(pages sz+1)*PGSIZE = PGSIZE := by
    simp only [PGSIZE]
    omega
  have hmod : (pages sz+2)*PGSIZE%4 = 0 := by
    simp only [PGSIZE]
    omega
  have hne : (pages sz+2)*PGSIZE ≠ 0 := by
    simp only [PGSIZE]
    omega
  obtain ⟨-, hr⟩ := wp_ok (stackPages_spec (F := fun _ => True) trivial h hl) halloc
  obtain ⟨-, hclear⟩ := hr.resolve_left hne
  unfold userStackBy
  dsimp only
  rw [hround, hnew, wp_bind]
  apply wp_of_ok halloc
  rw [if_neg hne, wp_bind]
  apply wp_mono (hclear _)
  rintro _ u ⟨hbu, x, hst⟩
  rw [wp_bind]
  apply wp_mono (pushArgsBy_gap argv hlen _ [] (by simpa using hargc) u hbu hst hmod hle le_rfl (by rwa [hroom]))
  exact fun _ _ => False.elim

end Stack

end ProvenXv6.Kern
