import ProvenXv6.KernExec
import ProvenXv6.KernStackModel
import ProvenXv6.VmGrow

namespace ProvenXv6.Vm
open WeakestPre
open Fs (Byte Block Fault copyIn)

variable {s : Mem} {d v x : ℕ} {F : Fault → Prop} {ka : ℕ → VmM (Option ℕ)}

/-- The page that an entry gives to the user. -/
def userTarget (w : BitVec 32) : Option ℕ :=
  if w &&& PTE_P = 0 then none else if w &&& PTE_U = 0 then none else some (PTE_ADDR w)

theorem userTarget_kernel {w : BitVec 32} (h : w &&& PTE_U = 0) : userTarget w = none := by
  unfold userTarget
  split_ifs
  · rfl
  · rfl

theorem target_of_userTarget {w : BitVec 32} (h : userTarget w = some x) : target w = some x := by
  unfold userTarget at h
  split_ifs at h with hP hU
  rw [target_of_present hP]
  exact h

/-- ka finds the pages of d, as long as there is a page table. -/
def Translates (ka : ℕ → VmM (Option ℕ)) (d : ℕ) : Prop :=
  ∀ s v, table s.page d (v/NPTENTRIES) ≠ none → ka (v*PGSIZE) s = .ok (userTarget (entry s.page d v), s)

theorem uva2ka_translates (cr3 d : ℕ) : Translates (uva2ka cr3 d) d := by
  intro s v htab
  have h : wp (fun _ => False) (uva2ka cr3 d (v*PGSIZE))
      (fun r t => r = userTarget (entry s.page d v) ∧ t = s) s := uva2ka_spec htab ⟨rfl, rfl⟩
  obtain ⟨r, t, hrun, rfl, rfl⟩ := wp_total h
  exact hrun

theorem checkedUva2ka_translates (d : ℕ) : Translates (checkedUva2ka d) d := by
  intro s v htab
  have h : wp (fun _ => False) (checkedUva2ka d (v*PGSIZE))
      (fun r t => r = userTarget (entry s.page d v) ∧ t = s) s := by
    unfold checkedUva2ka
    rw [wp_bind, walkpgdir_false, PDX_eq]
    cases ht : table s.page d (v/NPTENTRIES) with
    | none => exact absurd ht htab
    | some tab =>
      dsimp only
      rw [wp_bind, wp_getPte, PTX_eq, ← entry_of_table ht]
      unfold userTarget
      split_ifs <;> exact ⟨rfl, rfl⟩
  obtain ⟨r, t, hrun, rfl, rfl⟩ := wp_total h
  exact hrun

theorem Translates.wp_iff {Q : Option ℕ → Mem → Prop} (hka : Translates ka d)
    (htab : table s.page d (v/NPTENTRIES) ≠ none) :
    wp F (ka (v*PGSIZE)) Q s ↔ Q (userTarget (entry s.page d v)) s := by
  unfold wp
  rw [hka s v htab]

theorem table_of_target (h : target (entry s.page d v) ≠ none) : table s.page d (v/NPTENTRIES) ≠ none := by
  intro hnone
  exact h (by rw [entry_of_no_table hnone, target_zero])

theorem PGROUNDDOWN_eq (va : ℕ) : PGROUNDDOWN va = va/PGSIZE*PGSIZE := rfl

theorem Mem.put_self : s.put x (s.page x) = s := by
  unfold Mem.put
  rw [Function.update_eq_self]

theorem Mem.put_put (b c : Block) : (s.put x b).put x c = s.put x c := by
  unfold Mem.put
  rw [Function.update_idem]

theorem copyoutBy_kernel {fuel va : ℕ} {bytes : List Byte} (hka : Translates ka d) (hk : KernelPart s d)
    (hlo : KERNBASE ≤ va) (hhi : va < 0x100000000) (hgap : ¬(KERNBASE+PHYSTOP ≤ va ∧ va < DEVSPACE))
    (hne : bytes ≠ []) (hfuel : 0 < fuel) : wp F (copyoutBy ka fuel va bytes) (fun r t => r = false ∧ t = s) s := by
  obtain ⟨fuel, rfl⟩ := Nat.exists_eq_add_one.mpr hfuel
  have hlt : va/PGSIZE < NPDENTRIES*NPTENTRIES := by
    simp only [PGSIZE, NPDENTRIES, NPTENTRIES]
    omega
  have hup : UPAGES ≤ va/PGSIZE := Nat.div_le_div_right hlo
  have hpresent : target (entry s.page d (va/PGSIZE)) ≠ none := by
    by_cases hmem : va < KERNBASE+PHYSTOP
    · refine hk.memory _ ?_ hup
      simp only [PGSIZE, KERNBASE, PHYSTOP] at hmem ⊢
      omega
    · exact hk.devices _ hlt (Nat.div_le_div_right (by omega))
  unfold copyoutBy
  rw [if_neg hne]
  dsimp only
  rw [wp_bind, PGROUNDDOWN_eq, hka.wp_iff (table_of_target hpresent),
    userTarget_kernel (hk.noUser _ hlt hup)]
  exact ⟨rfl, rfl⟩

/-- Between the memory and the devices there is no page table. -/
theorem copyoutBy_gap {fuel va : ℕ} {bytes : List Byte} (hk : KernelPart s d)
    (hgap : KERNBASE+PHYSTOP ≤ va ∧ va < DEVSPACE) (hne : bytes ≠ []) (hfuel : 0 < fuel) :
    wp (fun e => e = nullPte) (copyoutBy (checkedUva2ka d) fuel va bytes) (fun _ _ => False) s := by
  obtain ⟨fuel, rfl⟩ := Nat.exists_eq_add_one.mpr hfuel
  have hnone : table s.page d (PDX (PGROUNDDOWN va)) = none := by
    apply hk.gap
    · simp only [PDX, PGROUNDDOWN, PGSIZE, KERNBASE, PHYSTOP] at hgap ⊢
      omega
    · simp only [PDX, PGROUNDDOWN, PGSIZE, DEVSPACE] at hgap ⊢
      omega
  unfold copyoutBy
  rw [if_neg hne]
  dsimp only
  rw [wp_bind]
  unfold checkedUva2ka
  rw [wp_bind, walkpgdir_false, hnone]
  rfl

end ProvenXv6.Vm

namespace ProvenXv6.Kern
open WeakestPre
open Fs (Byte Block Fault copyIn)
open Vm (Mem VmM BootImage Balanced KERNBASE PHYSTOP DEVSPACE PGSIZE UPAGES NPTENTRIES pages target table entry
  KernelPart SameMap uint PGROUNDUP Translates userTarget copyoutBy checkedUva2ka nullPte)

variable {img : BootImage} {D L : List ℕ} {s t : Mem} {d n x sp : ℕ} {F : Fault → Prop}
  {ka : ℕ → VmM (Option ℕ)} {argv : List (List Byte)}

/-- The pages of a new program: n pages, the guard page and the stack page x. -/
structure Stacked (s : Mem) (d n x : ℕ) : Prop where
  loaded : Loaded s d ((n+2)*PGSIZE)
  below : (n+2)*PGSIZE < KERNBASE
  guard : entry s.page d n &&& Vm.PTE_U = 0
  page : userTarget (entry s.page d (n+1)) = some x

theorem Stacked.lt_UPAGES (h : Stacked s d n x) : n+1 < UPAGES := by
  have := h.loaded.size
  simp only [UPAGES, KERNBASE, PGSIZE] at this ⊢
  omega

theorem Stacked.same (h : Stacked s d n x) (hs : SameMap d D L s t) : Stacked t d n x where
  loaded := h.loaded.congr hs.control
  below := h.below
  guard := by
    rw [hs.entry_eq (Vm.user_lt ⟨n, (Nat.lt_succ_self n).trans h.lt_UPAGES⟩)]
    exact h.guard
  page := by
    rw [hs.entry_eq (Vm.user_lt ⟨n+1, h.lt_UPAGES⟩)]
    exact h.page

theorem Stacked.put (h : Stacked s d n x) (hb : Balanced img (d :: D) L s) (b : Block) :
    Balanced img (d :: D) L (s.put x b) ∧ Stacked (s.put x b) d n x := by
  obtain ⟨hb', hsame⟩ := hb.put_user h.lt_UPAGES (Vm.target_of_userTarget h.page) b
  exact ⟨hb', h.same hsame⟩

theorem Stacked.present (h : Stacked s d n x) {v : ℕ} (hv : v < n+2) : target (entry s.page d v) ≠ none := by
  apply h.loaded.present
  rw [Vm.lt_pages]
  exact Nat.mul_lt_mul_of_pos_right hv (by decide)

theorem copyoutBy_inside {fuel va : ℕ} {bytes : List Byte} {Q : Bool → Mem → Prop} (hka : Translates ka d)
    (h : Stacked s d n x) (hlo : (n+1)*PGSIZE ≤ va) (hhi : va+bytes.length ≤ (n+2)*PGSIZE) (hne : bytes ≠ [])
    (hfuel : 2 ≤ fuel) : wp F (copyoutBy ka fuel va bytes) Q s ↔ Q true (s.put x
      (copyIn (s.page x) (va-(n+1)*PGSIZE) bytes.length fun j => bytes.getD j 0)) := by
  obtain ⟨fuel, rfl⟩ := Nat.exists_eq_add_of_le hfuel
  have hpos : 0 < bytes.length := List.length_pos_iff.mpr hne
  have hpage : va/PGSIZE = n+1 := by
    simp only [PGSIZE] at hlo hhi ⊢
    omega
  have hmin : min (PGSIZE-(va-(n+1)*PGSIZE)) bytes.length = bytes.length := by
    simp only [PGSIZE] at hlo hhi ⊢
    omega
  rw [show 2+fuel = fuel+1+1 by omega]
  unfold copyoutBy
  rw [if_neg hne]
  dsimp only
  rw [wp_bind, Vm.PGROUNDDOWN_eq, hpage, hka.wp_iff (Vm.table_of_target (h.present (by omega))), h.page]
  dsimp only
  rw [wp_bind, wp_get, wp_bind, Vm.wp_setPage, hmin, List.drop_length]
  unfold copyoutBy
  rw [if_pos rfl, wp_pure]

/-- A copy that begins below the stack page and reaches the guard page fails. -/
theorem copyoutBy_guard (hka : Translates ka d) (fuel va : ℕ) (bytes : List Byte) (hfuel : bytes.length < fuel)
    (hva : va < (n+1)*PGSIZE) (hreach : n*PGSIZE < va+bytes.length) (s : Mem) (hb : Balanced img (d :: D) L s)
    (h : Stacked s d n x) (hne : bytes ≠ []) :
    wp F (copyoutBy ka fuel va bytes) (fun r t => r = false ∧ Balanced img (d :: D) L t) s := by
  induction fuel generalizing va bytes s with
  | zero => exact absurd hfuel (Nat.not_lt_zero _)
  | succ fuel ih =>
    have hv : va/PGSIZE < n+1 := Nat.div_lt_of_lt_mul (by rw [Nat.mul_comm]; exact hva)
    have hvu : va/PGSIZE < UPAGES := hv.trans h.lt_UPAGES
    unfold copyoutBy
    rw [if_neg hne]
    dsimp only
    rw [wp_bind, Vm.PGROUNDDOWN_eq, hka.wp_iff (Vm.table_of_target (h.present (by omega)))]
    cases hy : userTarget (entry s.page d (va/PGSIZE)) with
    | none => exact ⟨rfl, hb⟩
    | some y =>
      -- the guard page gives no page to the user, so this page lies below it
      have hlt : va/PGSIZE < n := by
        refine lt_of_le_of_ne (Nat.lt_succ_iff.mp hv) fun he => ?_
        rw [he, Vm.userTarget_kernel h.guard] at hy
        cases hy
      dsimp only
      rw [wp_bind, wp_get, wp_bind, Vm.wp_setPage, Vm.uint_next hvu]
      obtain ⟨hb', hsame⟩ := hb.put_user hvu (Vm.target_of_userTarget hy) (copyIn _ _ _ _)
      have hlen : (bytes.drop (min (PGSIZE-(va-va/PGSIZE*PGSIZE)) bytes.length)).length =
          va+bytes.length-(va/PGSIZE+1)*PGSIZE := by
        rw [List.length_drop]
        simp only [PGSIZE] at hlt hreach ⊢
        omega
      have hpos : 0 < va+bytes.length-(va/PGSIZE+1)*PGSIZE := by
        simp only [PGSIZE] at hlt hreach ⊢
        omega
      refine ih _ _ ?_ ?_ ?_ _ hb' (h.same hsame) (List.ne_nil_of_length_pos (hlen ▸ hpos))
      · rw [hlen]
        simp only [PGSIZE] at hpos ⊢
        omega
      · exact Nat.mul_lt_mul_of_pos_right (by omega) (by decide)
      · rw [hlen]
        omega

/-- The bytes that a string takes, with its NUL and up to a multiple of 4. -/
def padded (arg : List Byte) : ℕ := (arg.length+4)/4*4

def used : List (List Byte) → ℕ
  | [] => 0
  | arg :: argv => padded arg+used argv

/-- The addresses of the strings, the first one below sp. -/
def places : List (List Byte) → ℕ → List ℕ
  | [], _ => []
  | arg :: argv, sp => (sp-padded arg) :: places argv (sp-padded arg)

/-- The page at address base with the strings in it. -/
def pushedPage (base : ℕ) : List (List Byte) → ℕ → Block → Block
  | [], _, b => b
  | arg :: argv, sp, b => pushedPage base argv (sp-padded arg)
      (copyIn b (sp-padded arg-base) (arg ++ [0]).length fun j => (arg ++ [0]).getD j 0)

/-- The first string that does not fit in the room below sp would begin in the addresses
between the memory and the devices. -/
def HitsGap : List (List Byte) → ℕ → ℕ → Prop
  | [], _, _ => False
  | arg :: argv, room, sp =>
    if padded arg ≤ room then HitsGap argv (room-padded arg) (sp-padded arg)
    else KERNBASE+PHYSTOP ≤ 0x100000000+sp-padded arg ∧ 0x100000000+sp-padded arg < DEVSPACE

theorem padded_mod (arg : List Byte) : padded arg%4 = 0 := Nat.mul_mod_left _ _

theorem length_le_padded (arg : List Byte) : arg.length+1 ≤ padded arg ∧ padded arg ≤ arg.length+4 := by
  unfold padded
  omega

theorem next_sp (arg : List Byte) (hsp : sp%4 = 0) (hlt : sp < 0x100000000) (hlen : arg.length < KERNBASE) :
    uint (0x100000000+sp-(arg.length+1))/4*4 =
      if padded arg ≤ sp then sp-padded arg else 0x100000000+sp-padded arg := by
  by_cases hle : padded arg ≤ sp
  · rw [if_pos hle]
    simp only [uint, padded, KERNBASE] at hle hlen ⊢
    omega
  · rw [if_neg hle]
    simp only [uint, padded, KERNBASE] at hle hlen ⊢
    omega

theorem push_spec (hka : Translates ka d) {arg : List Byte} (hlen : arg.length < KERNBASE)
    (hb : Balanced img (d :: D) L s) (h : Stacked s d n x) (hsp : sp%4 = 0) (hlo : (n+1)*PGSIZE ≤ sp)
    (hhi : sp ≤ (n+2)*PGSIZE) (hgap : padded arg ≤ sp-(n+1)*PGSIZE ∨
      ¬(KERNBASE+PHYSTOP ≤ 0x100000000+sp-padded arg ∧ 0x100000000+sp-padded arg < DEVSPACE)) :
    wp F (copyoutBy ka (arg.length+2) (uint (0x100000000+sp-(arg.length+1))/4*4) (arg ++ [0]))
      (fun r t => padded arg ≤ sp-(n+1)*PGSIZE ∧ r = true ∧ t = s.put x (copyIn (s.page x)
          (sp-padded arg-(n+1)*PGSIZE) (arg ++ [0]).length fun j => (arg ++ [0]).getD j 0) ∨
        ¬padded arg ≤ sp-(n+1)*PGSIZE ∧ r = false ∧ Balanced img (d :: D) L t) s := by
  have hsize := h.loaded.size
  have hpad := length_le_padded arg
  have hbytes : (arg ++ [0]).length = arg.length+1 := List.length_append
  have hne : arg ++ [0] ≠ [] := by simp
  have hlt : sp < 0x100000000 := by
    simp only [KERNBASE] at hsize
    omega
  rw [next_sp arg hsp hlt hlen]
  by_cases hfit : padded arg ≤ sp-(n+1)*PGSIZE
  · rw [if_pos (by omega), copyoutBy_inside hka h (by omega) (by omega) hne (by omega)]
    exact Or.inl ⟨hfit, rfl, rfl⟩
  · by_cases hle : padded arg ≤ sp
    · -- the string ends just below sp, so it reaches the guard page
      rw [if_pos hle]
      refine wp_mono (copyoutBy_guard hka _ _ _ (by omega) (by omega) ?_ s hb h hne) ?_
      · simp only [PGSIZE] at hlo ⊢
        omega
      · rintro r t ⟨rfl, hbt⟩
        exact Or.inr ⟨hfit, rfl, hbt⟩
    · rw [if_neg hle]
      refine wp_mono (Vm.copyoutBy_kernel hka h.loaded.kernel ?_ (by omega) (hgap.resolve_left hfit) hne
        (by omega)) ?_
      · have hpages : PGSIZE ≤ sp := (Nat.le_mul_of_pos_left _ (Nat.succ_pos n)).trans hlo
        simp only [KERNBASE, PGSIZE] at hlen hpages ⊢
        omega
      · rintro r t ⟨rfl, rfl⟩
        exact Or.inr ⟨hfit, rfl, hb⟩

theorem mod_sub_padded (arg : List Byte) (hsp : sp%4 = 0) : (sp-padded arg)%4 = 0 := by
  have := padded_mod arg
  omega

theorem not_hitsGap (argv : List (List Byte)) (room sp : ℕ) (hused : used argv ≤ sp) : ¬HitsGap argv room sp := by
  induction argv generalizing room sp with
  | nil => exact id
  | cons arg argv ih =>
    rw [used] at hused
    rw [HitsGap]
    split_ifs
    · exact ih _ _ (by omega)
    · simp only [DEVSPACE]
      omega

theorem pushArgsBy_spec (hka : Translates ka d) (argv : List (List Byte)) (hlen : ∀ arg ∈ argv, arg.length < KERNBASE)
    (sp : ℕ) (ustack : List ℕ) (hargc : ustack.length+argv.length < MAXARG) (s : Mem)
    (hb : Balanced img (d :: D) L s) (h : Stacked s d n x) (hsp : sp%4 = 0) (hlo : (n+1)*PGSIZE ≤ sp)
    (hhi : sp ≤ (n+2)*PGSIZE) (hgap : ¬HitsGap argv (sp-(n+1)*PGSIZE) sp) :
    wp F (pushArgsBy (copyoutBy ka) argv sp ustack)
      (fun r t => used argv ≤ sp-(n+1)*PGSIZE ∧ r = some (sp-used argv, ustack ++ places argv sp) ∧
          t = s.put x (pushedPage ((n+1)*PGSIZE) argv sp (s.page x)) ∨
        ¬used argv ≤ sp-(n+1)*PGSIZE ∧ r = none ∧ Balanced img (d :: D) L t) s := by
  induction argv generalizing sp ustack s with
  | nil =>
    refine Or.inl ⟨Nat.zero_le _, ?_, ?_⟩
    · rw [places, List.append_nil]
      rfl
    · exact (Vm.Mem.put_self).symm
  | cons arg argv ih =>
    have hsize : sp < 0x100000000 := by
      have := h.loaded.size
      simp only [KERNBASE] at this
      omega
    unfold pushArgsBy
    rw [if_neg (by simp only [List.length_cons] at hargc; omega)]
    dsimp only
    rw [wp_bind]
    have hgap' : padded arg ≤ sp-(n+1)*PGSIZE ∨
        ¬(KERNBASE+PHYSTOP ≤ 0x100000000+sp-padded arg ∧ 0x100000000+sp-padded arg < DEVSPACE) := by
      by_cases hfit : padded arg ≤ sp-(n+1)*PGSIZE
      · exact Or.inl hfit
      · rw [HitsGap, if_neg hfit] at hgap
        exact Or.inr hgap
    apply wp_mono (push_spec hka (hlen arg List.mem_cons_self) hb h hsp hlo hhi hgap')
    rintro r t (⟨hfit, rfl, rfl⟩ | ⟨hfit, rfl, hbt⟩)
    · have hnext : uint (0x100000000+sp-(arg.length+1))/4*4 = sp-padded arg := by
        rw [next_sp arg hsp hsize (hlen arg List.mem_cons_self), if_pos (by omega)]
      rw [if_pos rfl, hnext]
      obtain ⟨hb', h'⟩ := h.put hb (copyIn (s.page x) (sp-padded arg-(n+1)*PGSIZE) (arg ++ [0]).length
        fun j => (arg ++ [0]).getD j 0)
      have hroom : sp-padded arg-(n+1)*PGSIZE = sp-(n+1)*PGSIZE-padded arg := by omega
      rw [HitsGap, if_pos hfit, ← hroom] at hgap
      refine wp_mono (ih (fun a ha => hlen a (List.mem_cons_of_mem _ ha)) _ _ ?_ _ hb' h'
        (mod_sub_padded arg hsp) (by omega) (by omega) hgap) ?_
      · rw [List.length_append, List.length_singleton]
        rw [List.length_cons] at hargc
        omega
      · rintro r t (⟨hused, rfl, rfl⟩ | ⟨hused, rfl, hbt⟩)
        · refine Or.inl ⟨by rw [used]; omega, ?_, ?_⟩
          · rw [used, places, List.append_assoc, List.singleton_append, Nat.sub_sub]
          · rw [Vm.Mem.put_put, Mem.put_same]
            rfl
        · exact Or.inr ⟨by rw [used]; omega, rfl, hbt⟩
    · rw [if_neg (by decide)]
      refine Or.inr ⟨?_, rfl, hbt⟩
      rw [used]
      omega

/-- The loop stops at the first string that hits the gap. -/
theorem pushArgsBy_gap (argv : List (List Byte)) (hlen : ∀ arg ∈ argv, arg.length < KERNBASE)
    (sp : ℕ) (ustack : List ℕ) (hargc : ustack.length+argv.length < MAXARG) (s : Mem)
    (hb : Balanced img (d :: D) L s) (h : Stacked s d n x) (hsp : sp%4 = 0) (hlo : (n+1)*PGSIZE ≤ sp)
    (hhi : sp ≤ (n+2)*PGSIZE) (hgap : HitsGap argv (sp-(n+1)*PGSIZE) sp) :
    wp (fun e => e = nullPte) (pushArgsBy (copyoutBy (checkedUva2ka d)) argv sp ustack) (fun _ _ => False) s := by
  induction argv generalizing sp ustack s with
  | nil => exact absurd hgap id
  | cons arg argv ih =>
    have hsize : sp < 0x100000000 := by
      have := h.loaded.size
      simp only [KERNBASE] at this
      omega
    have hnext := next_sp arg hsp hsize (hlen arg List.mem_cons_self)
    unfold pushArgsBy
    rw [if_neg (by simp only [List.length_cons] at hargc; omega)]
    dsimp only
    rw [wp_bind]
    by_cases hfit : padded arg ≤ sp-(n+1)*PGSIZE
    · rw [HitsGap, if_pos hfit] at hgap
      apply wp_mono (push_spec (Vm.checkedUva2ka_translates d) (hlen arg List.mem_cons_self) hb h hsp hlo hhi
        (Or.inl hfit))
      rintro r t (⟨-, rfl, rfl⟩ | ⟨hnot, -⟩)
      · rw [if_pos (by omega)] at hnext
        rw [if_pos rfl, hnext]
        obtain ⟨hb', h'⟩ := h.put hb (copyIn (s.page x) (sp-padded arg-(n+1)*PGSIZE) (arg ++ [0]).length
          fun j => (arg ++ [0]).getD j 0)
        have hroom : sp-padded arg-(n+1)*PGSIZE = sp-(n+1)*PGSIZE-padded arg := by omega
        rw [← hroom] at hgap
        refine ih (fun a ha => hlen a (List.mem_cons_of_mem _ ha)) _ _ ?_ _ hb' h'
          (mod_sub_padded arg hsp) (by omega) (by omega) hgap
        rw [List.length_append, List.length_singleton]
        rw [List.length_cons] at hargc
        omega
      · exact absurd hfit hnot
    · rw [HitsGap, if_neg hfit] at hgap
      have hwrap : ¬padded arg ≤ sp := by
        simp only [DEVSPACE] at hgap
        omega
      rw [hnext, if_neg hwrap]
      apply wp_mono (Vm.copyoutBy_gap h.loaded.kernel hgap (by simp) (Nat.succ_pos _))
      exact fun _ _ => False.elim

end ProvenXv6.Kern
