import ProvenXv6.VmDirs

namespace ProvenXv6.Vm
open RefCount WeakestPre
open Fs (Byte Block Fault getWord setWord copyIn)

variable {img : BootImage} {D L : List ℕ} {s t : Mem} {d v sz pgdir : ℕ} {F : Fault → Prop}

/-- `copyuvm` meets no page of the source that is not there, unless it may panic. -/
def Source (F : Fault → Prop) (s : Mem) (pgdir sz : ℕ) : Prop :=
  ∀ u < pages sz, target (entry s.page pgdir u) ≠ none ∨
    F (.panic "copyuvm: pte should exist") ∧ F (.panic "copyuvm: page not present")

/-- The pages of [v, pages sz) of the directory d are copies of those of pgdir. -/
structure Copied (d pgdir sz v : ℕ) (D L : List ℕ) (s t : Mem) : Prop where
  upd : Upd d KernelTable (fun u => u < v ∨ pages sz ≤ u) D L s t
  copies : ∀ u, v ≤ u → u < pages sz → content t d u = content s pgdir u

theorem Kept.content (h : Kept D L s t) (hd : d ∈ D) (hv : v < UPAGES) :
    content t d v = content s d v := by
  unfold Vm.content
  rw [entry_congr (h.control hd) (user_lt ⟨v, hv⟩)]
  cases hx : target (entry s.page d v) with
  | none => rfl
  | some x =>
    refine congrArg some (h x ?_)
    have h1 : 0 < refs (user s.page d) x := refs_pos_of (i := ⟨v, hv⟩) hx
    have h2 := held_le_heldBy (m := s.page) hd x
    unfold held at h2
    omega

theorem PTE_FLAGS_lt (w : BitVec 32) : (PTE_FLAGS w).toNat < 4096 := by
  unfold PTE_FLAGS
  rw [BitVec.toNat_and]
  exact Nat.and_lt_two_pow (n := 12) _ (by decide)

theorem copyLoop_spec (hsz : sz ≤ KERNBASE) (hD : pgdir ∈ D) (fuel v : ℕ) (hpos : 0 < fuel)
    (hfuel : pages sz < v+fuel) (s : Mem) (h : Balanced img (d :: D) L s)
    (hempty : ∀ u, v ≤ u → u < pages sz → target (entry s.page d u) = none) (hsrc : Source F s pgdir sz) :
    wp F (copyLoop img pgdir sz d fuel (v*PGSIZE)) (fun r t => Kept D L s t ∧ match r with
      | none => Balanced img D L t
      | some e => e = d ∧ Balanced img (d :: D) L t ∧ Copied d pgdir sz v D L s t) s := by
  have hpages := pages_le hsz
  induction fuel generalizing v s with
  | zero => exact absurd hpos (lt_irrefl 0)
  | succ fuel ih =>
    unfold copyLoop
    split_ifs with hlt
    · have hv : v < pages sz := lt_pages.mpr hlt
      have hvu : v < UPAGES := hv.trans_le hpages
      rw [wp_bind, walkpgdir_false, PDX_eq]
      cases ht : table s.page pgdir (v/NPTENTRIES) with
      | none =>
        rcases hsrc v hv with hsrc | hsrc
        · rw [entry_of_no_table ht, target_zero] at hsrc
          exact absurd rfl hsrc
        · exact hsrc.1
      | some tab =>
        dsimp only
        rw [wp_bind, wp_getPte, PTX_eq, ← entry_of_table ht]
        by_cases hp : entry s.page pgdir v &&& PTE_P = 0
        · rw [if_pos hp]
          rcases hsrc v hv with hsrc | hsrc
          · exact absurd (target_eq_none.mpr hp) hsrc
          · exact hsrc.2
        · rw [if_neg hp, wp_bind]
          apply wp_mono (kalloc_spec h)
          rintro (_ | q) s₁ ⟨hpage, hb₁⟩
          · dsimp only
            rw [wp_bind]
            apply wp_mono (freevm_spec hb₁)
            rintro _ t ⟨hb, hk⟩
            exact ⟨Kept.trans (fun x _ => congrFun hpage x) hk, hb⟩
          · dsimp only
            rw [wp_bind, wp_get, wp_bind, wp_setPage, wp_bind]
            have hb₂ := hb₁.put_loose (s₁.page (PTE_ADDR (entry s.page pgdir v)))
            have hk₂ : Kept (d :: D) L s (s₁.put q (s₁.page (PTE_ADDR (entry s.page pgdir v)))) := by
              intro x hx
              rw [hb₁.kept_put _ x (by rwa [hpage]), hpage]
            have hempty₂ : target (entry (s₁.put q (s₁.page (PTE_ADDR (entry s.page pgdir v)))).page d v) =
                none := by
              rw [entry_congr (hk₂.control List.mem_cons_self) (user_lt ⟨v, hvu⟩)]
              exact hempty v le_rfl hv
            apply wp_mono (mappages_user hb₂ hvu (Or.inl hempty₂) (PTE_FLAGS_lt _))
            rintro r s₃ (⟨rfl, hb₃, hu₃⟩ | ⟨rfl, hb₃, hu₃, hw⟩)
            · rw [if_neg Bool.false_ne_true, wp_bind]
              apply wp_mono (kfree_spec hb₃)
              rintro _ s₄ ⟨hb₄, hk₄⟩
              rw [wp_bind]
              apply wp_mono (freevm_spec hb₄)
              rintro _ t ⟨hb, hk⟩
              exact ⟨((hk₂.dirs.trans hu₃.kept.loose).trans hk₄.dirs).trans hk, hb⟩
            · rw [if_pos rfl, uint_next hvu]
              have hu : Upd d KernelTable (· ≠ v) D L s s₃ :=
                hk₂.upd.trans (hu₃.loose.mono (fun i hi => Or.inl (kernelTable_ne hi hvu)) fun _ h => h)
              have hcopy : content s₃ d v = content s pgdir v := by
                have hq : s₃.page q = s.page (PTE_ADDR (entry s.page pgdir v)) := by
                  rw [hu₃.kept q (by rw [List.count_cons_self]; omega), Mem.put_same, hpage]
                unfold content
                rw [hw, target_mapped (hb₂.page_lt List.mem_cons_self) (PTE_FLAGS_lt _),
                  target_of_present hp, Option.map_some, Option.map_some, hq]
              have hempty₃ : ∀ u, v+1 ≤ u → u < pages sz → target (entry s₃.page d u) = none := by
                intro u hvu' hu'
                rw [hu.entries u (user_lt ⟨u, hu'.trans_le hpages⟩) (by omega)]
                exact hempty u (by omega) hu'
              have hsrc₃ : Source F s₃ pgdir sz := by
                intro u hu'
                rw [entry_congr (hu.kept.control hD) (user_lt ⟨u, hu'.trans_le hpages⟩)]
                exact hsrc u hu'
              apply wp_mono (ih (v+1) (by omega) (by omega) s₃ hb₃ hempty₃ hsrc₃)
              rintro (_ | e) t ⟨hk, hr⟩
              · exact ⟨hu.kept.trans hk, hr⟩
              · obtain ⟨rfl, hb, hc⟩ := hr
                refine ⟨hu.kept.trans hk, rfl, hb, ⟨?_, ?_⟩⟩
                · exact (hu.mono (fun _ h => h) (by omega)).trans (hc.upd.mono (fun _ h => h) (by omega))
                · intro u hvu' hu'
                  rcases Nat.eq_or_lt_of_le hvu' with rfl | hvu'
                  · rw [hc.upd.content hvu (Or.inl (by omega)), hcopy]
                  · rw [hc.copies u hvu' hu', hu.kept.content hD (hu'.trans_le hpages)]
    · have hv : pages sz ≤ v := by
        rw [← not_lt, lt_pages]
        exact hlt
      refine ⟨Kept.refl _ _ _, rfl, h, (Kept.refl _ _ _).upd, ?_⟩
      intro u hu hu'
      omega

theorem copyuvm_spec (hsz : sz ≤ KERNBASE) (hD : pgdir ∈ D) (h : Balanced img D L s)
    (hsrc : Source F s pgdir sz) :
    wp F (copyuvm img pgdir sz) (fun r t => Kept D L s t ∧ match r with
      | none => Balanced img D L t
      | some d => Balanced img (d :: D) L t ∧ KernelPart t d ∧
        ∀ v < UPAGES, content t d v = if v < pages sz then content s pgdir v else none) s := by
  unfold copyuvm
  rw [wp_bind]
  apply wp_mono (setupkvm_spec h)
  rintro (_ | d) s₁ ⟨hk₁, hr⟩
  · exact ⟨hk₁, hr⟩
  · obtain ⟨hb₁, hkernel, hempty⟩ := hr
    have hsrc₁ : Source F s₁ pgdir sz := by
      intro u hu
      rw [entry_congr (hk₁.control hD) (user_lt ⟨u, hu.trans_le (pages_le hsz)⟩)]
      exact hsrc u hu
    have hempty₁ : ∀ u, 0 ≤ u → u < pages sz → target (entry s₁.page d u) = none := by
      intro u _ hu
      rw [hempty u (hu.trans_le (pages_le hsz)), target_zero]
    have hfuel : pages sz < 0+(sz/PGSIZE+2) := by
      simp only [pages, PGSIZE]
      omega
    dsimp only
    rw [show (0 : ℕ) = 0*PGSIZE from rfl]
    apply wp_mono (copyLoop_spec hsz hD _ 0 (Nat.succ_pos _) hfuel s₁ hb₁ hempty₁ hsrc₁)
    rintro (_ | e) t ⟨hk, hr⟩
    · exact ⟨hk₁.trans hk, hr⟩
    · obtain ⟨rfl, hb, hc⟩ := hr
      refine ⟨hk₁.trans hk, hb, ?_, ?_⟩
      · exact hkernel.upd hc.upd fun v hv => Or.inr ((pages_le hsz).trans hv)
      · intro v hv
        split_ifs with hlt
        · rw [hc.copies v (Nat.zero_le _) hlt, hk₁.content hD hv]
        · rw [hc.upd.content hv (Or.inr (not_lt.mp hlt)), content_eq_none, hempty v hv, target_zero]

theorem target_clear (w : BitVec 32) : target (w &&& ~~~PTE_U) = target w := by
  have hpresent : (w &&& ~~~PTE_U) &&& PTE_P = w &&& PTE_P := by
    rw [BitVec.and_assoc, show ~~~PTE_U &&& PTE_P = PTE_P by decide]
  have haddr : PTE_ADDR (w &&& ~~~PTE_U) = PTE_ADDR w := by
    have hones : ∀ k < 32, 12 ≤ k → (~~~PTE_U).getLsbD k = true := by decide
    unfold PTE_ADDR
    congr 1
    ext i hi
    rw [BitVec.getElem_ushiftRight, BitVec.getElem_ushiftRight, BitVec.getLsbD_and]
    by_cases hk : 12+i < 32
    · rw [hones _ hk (by omega), Bool.and_true]
    · rw [BitVec.getLsbD_of_ge w _ (by omega), Bool.false_and]
  unfold target
  rw [hpresent, haddr]

theorem clearpteu_spec (h : Balanced img (d :: D) L s) (hv : v < UPAGES)
    (htab : table s.page d (v/NPTENTRIES) ≠ none) :
    wp F (clearpteu d (v*PGSIZE)) (fun _ t => Balanced img (d :: D) L t ∧
      Upd d All (· ≠ v) D L s t ∧ target (entry t.page d v) = target (entry s.page d v) ∧
      entry t.page d v &&& PTE_U = 0) s := by
  unfold clearpteu
  rw [wp_bind, walkpgdir_false, PDX_eq]
  cases ht : table s.page d (v/NPTENTRIES) with
  | none => exact absurd ht htab
  | some tab =>
    dsimp only
    rw [wp_bind, wp_getPte, PTX_eq, ← entry_of_table ht, wp_setPte]
    obtain ⟨hu, hw⟩ := upd_setEntry (w := entry s.page d v &&& ~~~PTE_U) h (user_lt ⟨v, hv⟩) ht
    have hsame : target (entry s.page d v &&& ~~~PTE_U) = target (entry s.page d v) := target_clear _
    refine ⟨h.map_same hv ht hsame, hu, (congrArg target hw).trans hsame, ?_⟩
    refine (congrArg (· &&& PTE_U) hw).trans ?_
    rw [BitVec.and_assoc, show ~~~PTE_U &&& PTE_U = 0 by decide]
    exact BitVec.and_zero

/-- The user pages of d may have changed, but not what d maps. -/
structure SameMap (d : ℕ) (D L : List ℕ) (s t : Mem) : Prop where
  kept : Kept D L s t
  control : ∀ x, Control s.page d x → t.page x = s.page x

theorem SameMap.refl (d : ℕ) (D L : List ℕ) (s : Mem) : SameMap d D L s s :=
  ⟨Kept.refl _ _ _, fun _ _ => rfl⟩

theorem SameMap.trans {u : Mem} (h : SameMap d D L s t) (h' : SameMap d D L t u) : SameMap d D L s u where
  kept := h.kept.trans h'.kept
  control x hx := by
    have hx' : Control t.page d x := by
      unfold Control
      rw [table_congr h.control]
      exact hx
    rw [h'.control x hx', h.control x hx]

theorem uva2ka_spec {cr3 : ℕ} {Q : Option ℕ → Mem → Prop} (htab : table s.page d (v/NPTENTRIES) ≠ none)
    (hQ : Q (if entry s.page d v &&& PTE_P = 0 then none else if entry s.page d v &&& PTE_U = 0 then none
      else some (PTE_ADDR (entry s.page d v))) s) : wp F (uva2ka cr3 d (v*PGSIZE)) Q s := by
  unfold uva2ka
  rw [wp_bind, walkpgdir_false, PDX_eq]
  cases ht : table s.page d (v/NPTENTRIES) with
  | none => exact absurd ht htab
  | some tab =>
    dsimp only
    rw [wp_bind, wp_getPte, PTX_eq, ← entry_of_table ht]
    split_ifs at hQ ⊢ <;> exact hQ

theorem SameMap.entry_eq (h : SameMap d D L s t) (hv : v < NPDENTRIES*NPTENTRIES) :
    entry t.page d v = entry s.page d v := entry_congr h.control hv

theorem KernelPart.same (hk : KernelPart s d) (h : SameMap d D L s t) : KernelPart t d where
  noUser v hv hle := by
    rw [h.entry_eq hv]
    exact hk.noUser v hv hle
  devices v hv hle := by
    rw [h.entry_eq hv]
    exact hk.devices v hv hle
  memory v hv hle := by
    rw [h.entry_eq (memory_lt hv)]
    exact hk.memory v hv hle
  gap i hi hi' := by
    rw [table_congr h.control]
    exact hk.gap i hi hi'

theorem Balanced.put_user {x : ℕ} (h : Balanced img (d :: D) L s) (hv : v < UPAGES)
    (hx : target (entry s.page d v) = some x) (b : Block) :
    Balanced img (d :: D) L (s.put x b) ∧ SameMap d D L s (s.put x b) := by
  have hheld : 0 < held s.page d x := by
    have : 0 < refs (user s.page d) x := refs_pos_of (i := ⟨v, hv⟩) hx
    unfold held
    omega
  have hown := (h.distinct List.mem_cons_self).not_control hv hx
  refine ⟨?_, fun y hy => Mem.put_of_ne ?_, fun y hy => Mem.put_of_ne ?_⟩
  · apply h.put b (h.managed_held List.mem_cons_self hheld)
    intro e he
    rcases List.mem_cons.mp he with rfl | he
    · exact hown
    · exact h.not_control_other hheld he
  · rintro rfl
    have := h.le_one y
    rw [heldBy_cons] at this
    omega
  · rintro rfl
    exact hown hy

/-- `copyout` finds a page table for every page it looks at: below sz, where all
pages are there, or among the devices, where it stops at once. -/
theorem copyout_spec {cr3 : ℕ} (hsz : sz ≤ KERNBASE) (fuel va : ℕ) (p : List Byte)
    (hfuel : p.length < fuel)
    (hva : p ≠ [] → va+p.length ≤ sz ∨ DEVSPACE ≤ va ∧ va < 0x100000000) (s : Mem) (h : Balanced img (d :: D) L s)
    (hk : KernelPart s d) (hpresent : ∀ v < pages sz, target (entry s.page d v) ≠ none) :
    wp F (copyout cr3 d fuel va p) (fun r t => Balanced img (d :: D) L t ∧ SameMap d D L s t ∧
      (r = true → p ≠ [] → va+p.length ≤ sz)) s := by
  induction fuel generalizing va p s with
  | zero => exact absurd hfuel (Nat.not_lt_zero _)
  | succ fuel ih =>
    unfold copyout
    split_ifs with hp
    · exact ⟨h, SameMap.refl _ _ _ _, fun _ hne => absurd hp hne⟩
    · have hlen : 0 < p.length := List.length_pos_iff.mpr hp
      have hdown : PGROUNDDOWN va = va/PGSIZE*PGSIZE := rfl
      have htab : table s.page d (va/PGSIZE/NPTENTRIES) ≠ none := by
        intro hnone
        have hentry := entry_of_no_table hnone
        rcases hva hp with hva | hva
        · have hlt : va/PGSIZE < pages sz := by
            simp only [pages, PGSIZE]
            omega
          exact hpresent _ hlt (by rw [hentry, target_zero])
        · have hdev : DEVSPACE/PGSIZE ≤ va/PGSIZE := Nat.div_le_div_right hva.1
          have hlt : va/PGSIZE < NPDENTRIES*NPTENTRIES := by
            simp only [PGSIZE, NPDENTRIES, NPTENTRIES]
            omega
          exact hk.devices _ hlt hdev (by rw [hentry, target_zero])
      dsimp only
      rw [wp_bind, hdown]
      apply uva2ka_spec htab
      split_ifs with h1 h2
      · exact ⟨h, SameMap.refl _ _ _ _, by simp⟩
      · exact ⟨h, SameMap.refl _ _ _ _, by simp⟩
      · -- a page with PTE_U is a user page
        have hle : va+p.length ≤ sz := by
          rcases hva hp with hva | hva
          · exact hva
          · refine absurd (hk.noUser (va/PGSIZE) ?_ ?_) h2
            · simp only [PGSIZE, NPDENTRIES, NPTENTRIES]
              omega
            · simp only [UPAGES, KERNBASE, DEVSPACE, PGSIZE] at hva ⊢
              omega
        have hvu : va/PGSIZE < UPAGES := by
          simp only [UPAGES, KERNBASE, PGSIZE] at hsz ⊢
          omega
        dsimp only
        rw [wp_bind, wp_get, wp_bind, wp_setPage]
        obtain ⟨hb', hsame⟩ := h.put_user hvu (target_of_present h1) (copyIn _ _ _ _)
        have hnext : uint (va/PGSIZE*PGSIZE+PGSIZE) = (va/PGSIZE+1)*PGSIZE := uint_next hvu
        rw [hnext]
        refine wp_mono (ih _ _ ?_ ?_ _ hb' (hk.same hsame) ?_) ?_
        · rw [List.length_drop]
          simp only [PGSIZE]
          omega
        · intro hrest
          have hn : 0 < (p.drop (min (PGSIZE-(va-va/PGSIZE*PGSIZE)) p.length)).length :=
            List.length_pos_iff.mpr hrest
          rw [List.length_drop] at hn ⊢
          simp only [PGSIZE] at hn ⊢
          omega
        · intro v hv
          rw [hsame.entry_eq (user_lt ⟨v, hv.trans_le (pages_le hsz)⟩)]
          exact hpresent v hv
        · rintro _ t ⟨hbt, hst, -⟩
          exact ⟨hbt, hsame.trans hst, fun _ _ => hle⟩

end ProvenXv6.Vm
