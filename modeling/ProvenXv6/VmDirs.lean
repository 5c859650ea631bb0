import ProvenXv6.VmMap

namespace ProvenXv6.Vm
open RefCount WeakestPre
open Fs (Byte Block Fault getWord setWord)

variable {img : BootImage} {D L : List ℕ} {s t : Mem} {d p v : ℕ} {F : Fault → Prop}

theorem Balanced.dissolve (h : Balanced img (d :: D) L s)
    (hnone : ∀ v < UPAGES, target (entry s.page d v) = none) :
    Balanced img D (d :: ((List.range NPDENTRIES).filterMap
      (fun i => target (getWord (s.page d) i)) ++ L)) s := by
  have huser : user s.page d = fun _ => none := funext fun v => hnone v v.isLt
  refine ⟨fun x => ?_, h.rest⟩
  have hx := h.count x
  rw [heldBy_cons, held, huser, refs_none] at hx
  have htab : refs (tables s.page d) x = ((List.range NPDENTRIES).filterMap
      (fun i => target (getWord (s.page d) i))).count x := refs_eq_count _ x
  rw [← hx, htab, List.count_cons, List.count_append]
  simp only [beq_iff_eq, eq_comm (a := d)]
  omega

theorem freeTables_spec (l : List ℕ) (m : Block) (hm : s.page d = m)
    (h : Balanced img D (d :: (l.filterMap (fun i => target (getWord m i)) ++ L)) s) :
    wp F (forM l fun i => do
        let pde ← getPte d i
        if pde &&& PTE_P ≠ 0 then kfree img (PTE_ADDR pde) else pure ())
      (fun _ t => Balanced img D (d :: L) t ∧ Kept D L s t) s := by
  have hloop := wp_forM (F := F)
    (I := fun l t => t.page d = m ∧
      Balanced img D (d :: (l.filterMap (fun i => target (getWord m i)) ++ L)) t ∧ Kept D L s t)
    (f := fun i => do
      let pde ← getPte d i
      if pde &&& PTE_P ≠ 0 then kfree img (PTE_ADDR pde) else pure ())
  refine wp_mono (hloop ?_ l s ⟨hm, h, Kept.refl _ _ _⟩) ?_
  · rintro i l t ⟨hd, hb, hk⟩
    rw [wp_bind, wp_getPte, hd]
    by_cases hp : getWord m i &&& PTE_P ≠ 0
    · rw [if_pos hp]
      simp only [List.filterMap_cons, target_of_present hp] at hb
      have hb' : Balanced img D (PTE_ADDR (getWord m i) :: d ::
          (l.filterMap (fun i => target (getWord m i)) ++ L)) t :=
        hb.perm (List.Perm.refl _) (List.Perm.swap _ _ _)
      apply wp_mono (kfree_spec hb')
      rintro _ u ⟨hbu, hku⟩
      refine ⟨?_, hbu, hk.trans ?_⟩
      · rw [hku d (by rw [List.count_cons_self]; omega), hd]
      · intro x hx
        apply hku
        rw [List.count_cons, List.count_append]
        omega
    · rw [if_neg hp]
      simp only [List.filterMap_cons, target_eq_none.mpr (not_not.mp hp)] at hb
      exact ⟨hd, hb, hk⟩
  · rintro _ t ⟨-, hb, hk⟩
    exact ⟨hb, hk⟩

theorem freevm_spec (h : Balanced img (d :: D) L s) :
    wp F (freevm img d) (fun _ t => Balanced img D L t ∧ Kept D L s t) s := by
  have hd : d ≠ 0 := by
    have hm : img.Managed d := h.managed (by rw [heldBy_cons, held, if_pos rfl]; omega)
    exact (img.kend_pos.trans_le hm.1).ne'
  unfold freevm
  rw [if_neg hd, wp_bind]
  apply wp_mono (deallocuvm_spec 0 le_rfl h)
  intro _ s₁ hs₁
  have hb₁ := hs₁.2.1
  have hu₁ := hs₁.2.2.1
  have hnone := hs₁.2.2.2
  have hall : ∀ v < UPAGES, target (entry s₁.page d v) = none :=
    fun v hv => hnone v (Nat.zero_le _) hv
  rw [wp_bind]
  have hloose := hb₁.dissolve hall
  -- which list of indices it is does not matter from here on
  generalize List.range NPDENTRIES = l at hloose ⊢
  apply wp_mono (freeTables_spec l (s₁.page d) rfl hloose)
  rintro _ s₂ ⟨hb₂, hk₂⟩
  apply wp_mono (kfree_spec hb₂)
  rintro _ t ⟨hb, hk⟩
  exact ⟨hb, (hu₁.kept.trans hk₂).trans hk⟩

theorem mappages_eq {n : ℕ} (hlt : v+n < NPDENTRIES*NPTENTRIES) (pa : ℕ) (perm : BitVec 32) :
    mappages d (v*PGSIZE) ((n+1)*PGSIZE) pa perm = mapLoop d perm n (v*PGSIZE) pa := by
  have hdown : PGROUNDDOWN (v*PGSIZE) = v*PGSIZE := by
    unfold PGROUNDDOWN
    rw [Nat.mul_div_cancel _ (by decide)]
  have hlast : PGROUNDDOWN (uint (v*PGSIZE+(n+1)*PGSIZE-1)) = (v+n)*PGSIZE := by
    simp only [PGROUNDDOWN, uint, PGSIZE, NPDENTRIES, NPTENTRIES] at hlt ⊢
    omega
  have hcount : ((v+n)*PGSIZE-v*PGSIZE)/PGSIZE = n := by
    simp only [PGSIZE]
    omega
  unfold mappages
  simp only [hdown, hlast, hcount]

/-- The pages from v on, n more behind it, are mapped for the kernel. -/
structure Kmapped (d v n : ℕ) (D L : List ℕ) (s : Mem) (r : Bool) (t : Mem) : Prop where
  upd : Upd d (fun i => i < v/NPTENTRIES ∨ (v+n)/NPTENTRIES < i) (fun u => u < v ∨ v+n < u) D L s t
  kernel : ∀ u, v ≤ u → u ≤ v+n → entry t.page d u = entry s.page d u ∨ entry t.page d u &&& PTE_U = 0
  present : r = true → ∀ u, v ≤ u → u ≤ v+n → target (entry t.page d u) ≠ none

theorem mapPage_kernel {w : BitVec 32} {k : VmM Bool} {Q : Bool → Mem → Prop} (hv : UPAGES ≤ v)
    (hlt : v < NPDENTRIES*NPTENTRIES) (h : Balanced img (d :: D) L s)
    (hfree : target (entry s.page d v) = none ∨ F (.panic "remap"))
    (hfail : ∀ t, Balanced img (d :: D) L t → Upd d (· ≠ v/NPTENTRIES) All D L s t → Q false t)
    (hdone : ∀ t, Balanced img (d :: D) L t → Upd d (· ≠ v/NPTENTRIES) (· ≠ v) D L s t →
      entry t.page d v = w → wp F k Q t) :
    wp F (do
      match ← walkpgdir d (v*PGSIZE) true with
      | none => pure false
      | some tab => do
        let pte ← getPte tab (PTX (v*PGSIZE))
        if pte &&& PTE_P ≠ 0 then panic "remap"
        else do
          setPte tab (PTX (v*PGSIZE)) w
          k) Q s := by
  rw [wp_bind]
  apply wp_mono (walkpgdir_true h hlt)
  rintro (_ | tab) s' ⟨hb, hu, htab⟩
  · exact hfail s' hb (hu.mono (fun _ h => Or.inl h) fun _ h => h)
  · have ht := htab tab rfl
    have hentry : getWord (s'.page tab) (v%NPTENTRIES) = entry s.page d v := by
      rw [← entry_of_table ht, hu.entries v hlt trivial]
    dsimp only
    rw [wp_bind, wp_getPte, PTX_eq, hentry]
    split_ifs with hp
    · rcases hfree with hfree | hfree
      · exact absurd (target_eq_none.mp hfree) hp
      · exact hfree
    · obtain ⟨hu', hw⟩ := upd_setEntry (w := w) hb hlt ht
      rw [wp_bind, wp_setPte]
      exact hdone _ (hb.map_kernel hlt hv ht)
        ((hu.mono (fun _ h => Or.inl h) fun _ _ => trivial).trans (hu'.mono (fun _ _ => trivial) fun _ h => h)) hw

theorem mapLoop_kernel {perm : BitVec 32} (hperm : perm &&& PTE_U = 0) (n v q : ℕ) (hv : UPAGES ≤ v)
    (hlt : v+n < NPDENTRIES*NPTENTRIES) (s : Mem) (h : Balanced img (d :: D) L s)
    (hfree : ∀ u, v ≤ u → u ≤ v+n → target (entry s.page d u) = none ∨ F (.panic "remap")) :
    wp F (mapLoop d perm n (v*PGSIZE) (q*PGSIZE)) (fun r t => Balanced img (d :: D) L t ∧
      Kmapped d v n D L s r t) s := by
  have hword (q : ℕ) : target (BitVec.ofNat 32 (q*PGSIZE) ||| perm ||| PTE_P) ≠ none := by
    rw [ne_eq, target_eq_none, ← ne_eq, present_iff, BitVec.getLsbD_or]
    simp [PTE_P]
  induction n generalizing v q s with
  | zero =>
    have hdiv : (v+0)/NPTENTRIES = v/NPTENTRIES := rfl
    unfold mapLoop
    apply mapPage_kernel hv hlt h (hfree v le_rfl le_rfl)
    · intro t hb hu
      refine ⟨hb, hu.mono (by omega) fun _ _ => trivial, ?_, by simp⟩
      intro u _ hu'
      exact Or.inl (hu.entries u (by omega) trivial)
    · intro t hb hu hw
      refine ⟨hb, hu.mono (by omega) (by omega), ?_, ?_⟩
      · intro u hvu hu'
        rw [show u = v by omega, hw]
        exact Or.inr (kernel_entry q hperm)
      · intro _ u hvu hu'
        rw [show u = v by omega, hw]
        exact hword q
  | succ n ih =>
    unfold mapLoop
    have hdiv : v/NPTENTRIES ≤ (v+1)/NPTENTRIES ∧ (v+1)/NPTENTRIES ≤ (v+(n+1))/NPTENTRIES :=
      ⟨Nat.div_le_div_right (by omega), Nat.div_le_div_right (by omega)⟩
    apply mapPage_kernel hv (by omega) h (hfree v le_rfl (by omega))
    · intro t hb hu
      refine ⟨hb, hu.mono (by omega) fun _ _ => trivial, ?_, by simp⟩
      intro u _ hu'
      exact Or.inl (hu.entries u (by omega) trivial)
    · intro s' hb hu hw
      dsimp only
      rw [← Nat.succ_mul, ← Nat.succ_mul]
      have hfree' : ∀ u, v+1 ≤ u → u ≤ v+1+n → target (entry s'.page d u) = none ∨ F (.panic "remap") := by
        intro u hvu hu'
        rw [hu.entries u (by omega) (by omega)]
        exact hfree u (by omega) (by omega)
      apply wp_mono (ih (v+1) (q+1) (by omega) (by omega) s' hb hfree')
      rintro r t ⟨hbt, hk⟩
      refine ⟨hbt, ⟨?_, ?_, ?_⟩⟩
      · exact (hu.mono (by omega) (by omega)).trans (hk.upd.mono (by
          rw [show v+1+n = v+(n+1) by omega]
          omega) (by omega))
      · intro u hvu hu'
        rcases Nat.eq_or_lt_of_le hvu with rfl | hvu
        · rw [hk.upd.entries v (by omega) (by omega), hw]
          exact Or.inr (kernel_entry q hperm)
        · rw [← hu.entries u (by omega) (by omega)]
          exact hk.kernel u hvu (by omega)
      · intro hr u hvu hu'
        rcases Nat.eq_or_lt_of_le hvu with rfl | hvu
        · rw [hk.upd.entries v (by omega) (by omega), hw]
          exact hword q
        · exact hk.present hr u hvu (by omega)

/-- The kernel part of a page directory as `setupkvm` builds it. -/
structure KernelPart (s : Mem) (d : ℕ) : Prop where
  noUser : ∀ v < NPDENTRIES*NPTENTRIES, UPAGES ≤ v → entry s.page d v &&& PTE_U = 0
  devices : ∀ v < NPDENTRIES*NPTENTRIES, DEVSPACE/PGSIZE ≤ v → target (entry s.page d v) ≠ none
  memory : ∀ v < (KERNBASE+PHYSTOP)/PGSIZE, UPAGES ≤ v → target (entry s.page d v) ≠ none
  gap : ∀ i, PDX (KERNBASE+PHYSTOP) ≤ i → i < PDX DEVSPACE → table s.page d i = none

theorem memory_lt (hv : v < (KERNBASE+PHYSTOP)/PGSIZE) : v < NPDENTRIES*NPTENTRIES :=
  hv.trans (by decide)

theorem KernelPart.upd {V : ℕ → Prop} (h : KernelPart s d) (hu : Upd d KernelTable V D L s t)
    (hV : ∀ v, UPAGES ≤ v → V v) : KernelPart t d where
  noUser v hv hk := by
    rw [hu.entries v hv (hV v hk)]
    exact h.noUser v hv hk
  devices v hv hk := by
    have hle : UPAGES ≤ DEVSPACE/PGSIZE := by decide
    rw [hu.entries v hv (hV v (hle.trans hk))]
    exact h.devices v hv hk
  memory v hv hk := by
    rw [hu.entries v (memory_lt hv) (hV v hk)]
    exact h.memory v hv hk
  gap i hi hi' := by
    have hk : KernelTable i := by
      simp only [KernelTable, UPAGES, KERNBASE, PGSIZE, NPTENTRIES, PDX, PHYSTOP] at hi ⊢
      omega
    rw [hu.tables i hk]
    exact h.gap i hi hi'

/-- A directory with kernel mappings below page lo only. -/
structure Built (lo : ℕ) (s : Mem) (d : ℕ) : Prop where
  user : ∀ v < UPAGES, entry s.page d v = 0
  rest : ∀ v < NPDENTRIES*NPTENTRIES, lo ≤ v → entry s.page d v = 0
  noUser : ∀ v < NPDENTRIES*NPTENTRIES, UPAGES ≤ v → entry s.page d v &&& PTE_U = 0
  tables : ∀ i, lo ≤ i*NPTENTRIES → table s.page d i = none

theorem Built.next {lo n : ℕ} {r : Bool} (h : Built lo s d) (hlo : UPAGES ≤ lo) (hv : lo ≤ v)
    (hk : Kmapped d v n D L s r t) : Built (v+n+1) t d where
  user u hu := by
    rw [hk.upd.entries u (user_lt ⟨u, hu⟩) (by omega)]
    exact h.user u hu
  rest u hu hle := by
    rw [hk.upd.entries u hu (by omega)]
    exact h.rest u hu (by omega)
  noUser u hu hle := by
    by_cases hin : v ≤ u ∧ u ≤ v+n
    · rcases hk.kernel u hin.1 hin.2 with he | he
      · rw [he]
        exact h.noUser u hu hle
      · exact he
    · rw [hk.upd.entries u hu (by omega)]
      exact h.noUser u hu hle
  tables i hi := by
    have hlast : (v+n)/NPTENTRIES < i := Nat.div_lt_of_lt_mul (by rw [Nat.mul_comm]; omega)
    rw [hk.upd.tables i (Or.inr hlast)]
    exact h.tables i (by omega)

theorem setupLoop_row {k : Kmap} {rest : List Kmap} {Q : Option ℕ → Mem → Prop} {lo n q : ℕ}
    (hvirt : k.virt = v*PGSIZE) (hphys : k.phys_start = q*PGSIZE) (hperm : k.perm &&& PTE_U = 0)
    (hsize : uint (0x100000000+k.phys_end-k.phys_start) = (n+1)*PGSIZE)
    (hlo : UPAGES ≤ lo) (hv : lo ≤ v) (hlt : v+n < NPDENTRIES*NPTENTRIES)
    (h : Balanced img (d :: D) L s) (hbuilt : Built lo s d)
    (hnone : ∀ t, Balanced img D L t → Kept D L s t → Q none t)
    (hnext : ∀ t, Balanced img (d :: D) L t → Built (v+n+1) t d → Kmapped d v n D L s true t →
      wp F (setupLoop img d rest) Q t) : wp F (setupLoop img d (k :: rest)) Q s := by
  unfold setupLoop
  rw [wp_bind, hvirt, hsize, hphys, mappages_eq hlt]
  have hfree : ∀ u, v ≤ u → u ≤ v+n → target (entry s.page d u) = none ∨ F (.panic "remap") := by
    intro u hvu hu
    rw [hbuilt.rest u (by omega) (by omega), target_zero]
    exact Or.inl rfl
  apply wp_mono (mapLoop_kernel hperm n v q (by omega) hlt s h hfree)
  rintro (_ | _) t ⟨hb, hk⟩
  · rw [if_neg Bool.false_ne_true, wp_bind]
    apply wp_mono (freevm_spec hb)
    rintro _ u ⟨hbu, hku⟩
    exact hnone u hbu (hk.upd.kept.trans hku)
  · rw [if_pos rfl]
    exact hnext t hb (hbuilt.next hlo hv hk) hk

theorem setupkvm_spec (h : Balanced img D L s) :
    wp F (setupkvm img) (fun r t => Kept D L s t ∧ match r with
      | none => Balanced img D L t
      | some d => Balanced img (d :: D) L t ∧ KernelPart t d ∧ ∀ v < UPAGES, entry t.page d v = 0) s := by
  unfold setupkvm
  rw [wp_bind]
  apply wp_mono (kalloc_spec h)
  rintro (_ | d) s₁ ⟨hpage, hb₁⟩
  · exact ⟨fun x _ => congrFun hpage x, hb₁⟩
  · have hk₁ : Kept D L s (s₁.put d fun _ => 0) := by
      intro x hx
      rw [hb₁.kept_put _ x (by rwa [hpage]), hpage]
    have hb₂ := (hb₁.put_loose fun _ => 0).directory (Mem.put_same _)
    have hbuilt₂ : Built UPAGES (s₁.put d fun _ => 0) d := by
      have hentry := fun v => entry_zero (m := (s₁.put d fun _ => 0).page) (Mem.put_same _) v
      refine ⟨fun v _ => hentry v, fun v _ _ => hentry v, fun v _ _ => ?_, fun i _ => ?_⟩
      · rw [hentry]
        decide
      · rw [table, Mem.put_same, Fs.getWord_zero, target_zero]
    have htext := img.text
    have hdata := img.data_le
    have hroom := img.room
    simp only [EXTMEM, PGSIZE] at htext hroom
    dsimp only
    rw [wp_bind, wp_memset]
    unfold kmap
    -- the four rows of kmap, one behind the other
    apply setupLoop_row (v := UPAGES) (n := 0xFF) (q := 0) (by decide) (by decide) (by decide) (by decide)
      le_rfl le_rfl (by decide) hb₂ hbuilt₂ (fun t hb hk => ⟨hk₁.trans hk, hb⟩)
    intro s₃ hb₃ hbuilt₃ hk₃
    have hk₃' := hk₁.trans hk₃.upd.kept
    apply setupLoop_row (v := UPAGES+0x100) (n := img.data-0x101) (q := 0x100) (by rfl) (by rfl)
      (by dsimp only; decide)
      (by simp only [uint, PGSIZE, EXTMEM]; omega) (by decide) (by decide)
      (by simp only [UPAGES, KERNBASE, PGSIZE, NPDENTRIES, NPTENTRIES]; omega)
      hb₃ hbuilt₃ (fun t hb hk => ⟨hk₃'.trans hk, hb⟩)
    intro s₄ hb₄ hbuilt₄ hk₄
    have hk₄' := hk₃'.trans hk₄.upd.kept
    apply setupLoop_row (v := UPAGES+img.data) (n := 0xDFFF-img.data) (q := img.data)
      (by simp only [UPAGES, KERNBASE, PGSIZE]; omega) (by rfl) (by dsimp only; decide)
      (by simp only [uint, PGSIZE, PHYSTOP]; omega) (by omega) (by omega)
      (by simp only [UPAGES, KERNBASE, PGSIZE, NPDENTRIES, NPTENTRIES]; omega)
      hb₄ hbuilt₄ (fun t hb hk => ⟨hk₄'.trans hk, hb⟩)
    intro s₅ hb₅ hbuilt₅ hk₅
    have hk₅' := hk₄'.trans hk₅.upd.kept
    apply setupLoop_row (v := 0xFE000) (n := 0x1FFF) (q := 0xFE000) (by decide) (by decide) (by decide)
      (by decide) (by omega) (by simp only [UPAGES, KERNBASE, PGSIZE]; omega) (by decide)
      hb₅ hbuilt₅ (fun t hb hk => ⟨hk₅'.trans hk, hb⟩)
    intro t hb hbuilt hk
    refine ⟨hk₅'.trans hk.upd.kept, hb, ⟨hbuilt.noUser, ?_, ?_, ?_⟩, hbuilt.user⟩
    · intro v hv hdev
      simp only [DEVSPACE, PGSIZE, NPDENTRIES, NPTENTRIES] at hv hdev
      exact hk.present rfl v (by omega) (by omega)
    · -- each row leaves the entries of the rows before it
      intro v hv hmem
      have hlt := memory_lt hv
      simp only [KERNBASE, PHYSTOP, PGSIZE, UPAGES] at hv hmem
      rw [hk.upd.entries v hlt (by omega)]
      by_cases h3 : UPAGES+img.data ≤ v
      · exact hk₅.present rfl v h3 (by simp only [UPAGES, KERNBASE, PGSIZE] at h3 ⊢; omega)
      rw [hk₅.upd.entries v hlt (by omega)]
      by_cases h2 : UPAGES+0x100 ≤ v
      · exact hk₄.present rfl v h2 (by omega)
      rw [hk₄.upd.entries v hlt (by omega)]
      exact hk₃.present rfl v hmem (by omega)
    · intro i hi hi'
      simp only [PDX, KERNBASE, PHYSTOP, DEVSPACE] at hi hi'
      rw [hk.upd.tables i (Or.inl (by simp only [NPTENTRIES]; omega))]
      apply hbuilt₅.tables
      simp only [UPAGES, KERNBASE, PGSIZE, NPTENTRIES]
      omega

end ProvenXv6.Vm
