import ProvenXv6.VmPages

namespace ProvenXv6.Vm
open RefCount WeakestPre
open Fs (Byte Block Fault getWord setWord getWord_setWord)

variable {img : BootImage} {D L : List ℕ} {s t : Mem} {d p v tab : ℕ} {w : BitVec 32} {F : Fault → Prop}

def Mem.setEntry (s : Mem) (tab v : ℕ) (w : BitVec 32) : Mem :=
  s.put tab (setWord (s.page tab) (v%NPTENTRIES) w)

section Entry
variable (h : Balanced img (d :: D) L s) (hv : v < NPDENTRIES*NPTENTRIES)
  (ht : table s.page d (v/NPTENTRIES) = some tab)

include h hv ht in
theorem upd_setEntry : Upd d All (· ≠ v) D L s (s.setEntry tab v w) ∧
    entry (s.setEntry tab v w).page d v = w := by
  have hdist := h.distinct List.mem_cons_self
  have hcontrol : Control s.page d tab := Or.inr ⟨_, div_lt_of_lt hv, ht⟩
  have hentry := fun u => entry_rewrite (w := w) (u := u) hdist hv ht
  refine ⟨⟨?_, ?_, ?_, ?_⟩, ?_⟩
  · intro x hx
    apply Mem.put_of_ne
    rintro rfl
    have h1 := h.le_one x
    have h2 := hcontrol.held_pos
    rw [heldBy_cons] at h1
    omega
  · intro i _
    exact congrFun (table_rewrite hdist hv ht) i
  · intro u hu hne
    exact (hentry u hu).trans (if_neg hne)
  · intro u hu _ x hx
    apply Mem.put_of_ne
    rintro rfl
    exact hdist.not_control hu hx hcontrol
  · exact (hentry v hv).trans (if_pos rfl)

include h ht in
theorem count_setEntry (hv : v < UPAGES) (x : ℕ) :
    (s.setEntry tab v w).free.count x+heldBy (s.setEntry tab v w).page (d :: D) x+
        (if target (entry s.page d v) = some x then 1 else 0) =
      s.free.count x+heldBy s.page (d :: D) x+(if target w = some x then 1 else 0) := by
  have hkept := (upd_setEntry (w := w) h (user_lt ⟨v, hv⟩) ht).1.kept
  have hheld := held_rewrite_user (w := w) (h.distinct List.mem_cons_self) ht hv x
  have hpage : (s.setEntry tab v w).page = rewrite s.page tab v w := rfl
  rw [heldBy_cons, heldBy_cons, hkept.heldBy_eq, hpage]
  dsimp only [Mem.setEntry, Mem.put]
  omega

include h ht in
theorem rest_setEntry (hv : v < NPDENTRIES*NPTENTRIES) (x : ℕ) (hx : ¬img.Managed x) :
    (s.setEntry tab v w).page x = img.contents x := by
  have hcontrol : Control s.page d tab := Or.inr ⟨_, div_lt_of_lt hv, ht⟩
  have hne : x ≠ tab := fun he => hx (he ▸ h.managed_held List.mem_cons_self hcontrol.held_pos)
  exact (Mem.put_of_ne hne).trans (h.rest x hx)

end Entry

theorem Balanced.map_user (h : Balanced img (d :: D) (p :: L) s) (hv : v < UPAGES)
    (ht : table s.page d (v/NPTENTRIES) = some tab) (hnone : target (entry s.page d v) = none)
    (hw : target w = some p) : Balanced img (d :: D) L (s.setEntry tab v w) := by
  refine ⟨fun x => ?_, rest_setEntry h ht (user_lt ⟨v, hv⟩)⟩
  have hcount := count_setEntry (w := w) h ht hv x
  have hx := h.count x
  rw [List.count_cons] at hx
  simp only [hnone, hw, reduceCtorEq, if_false, Option.some.injEq] at hcount
  simp only [beq_iff_eq] at hx
  omega

theorem Balanced.unmap_user (h : Balanced img (d :: D) L s) (hv : v < UPAGES)
    (ht : table s.page d (v/NPTENTRIES) = some tab) (hp : target (entry s.page d v) = some p) :
    Balanced img (d :: D) (p :: L) (s.setEntry tab v 0) := by
  refine ⟨fun x => ?_, rest_setEntry h ht (user_lt ⟨v, hv⟩)⟩
  have hcount := count_setEntry (w := 0) h ht hv x
  have hx := h.count x
  rw [List.count_cons]
  simp only [hp, target_zero, reduceCtorEq, if_false, Option.some.injEq] at hcount
  simp only [beq_iff_eq]
  omega

theorem Balanced.map_same (h : Balanced img (d :: D) L s) (hv : v < UPAGES)
    (ht : table s.page d (v/NPTENTRIES) = some tab) (hw : target w = target (entry s.page d v)) :
    Balanced img (d :: D) L (s.setEntry tab v w) := by
  refine ⟨fun x => ?_, rest_setEntry h ht (user_lt ⟨v, hv⟩)⟩
  have hcount := count_setEntry (w := w) h ht hv x
  have hx := h.count x
  rw [hw] at hcount
  omega

theorem Balanced.map_kernel (h : Balanced img (d :: D) L s) (hv : v < NPDENTRIES*NPTENTRIES)
    (hk : UPAGES ≤ v) (ht : table s.page d (v/NPTENTRIES) = some tab) :
    Balanced img (d :: D) L (s.setEntry tab v w) := by
  have hkept := (upd_setEntry (w := w) h hv ht).1.kept
  have hheld : held (s.setEntry tab v w).page d = held s.page d :=
    held_rewrite_kernel (h.distinct List.mem_cons_self) hv ht hk
  refine ⟨fun x => ?_, rest_setEntry h ht hv⟩
  rw [heldBy_cons, hkept.heldBy_eq, hheld, ← heldBy_cons]
  exact h.count x

theorem mappages_one (hv : v < NPDENTRIES*NPTENTRIES) (pa : ℕ) (perm : BitVec 32) :
    mappages d (v*PGSIZE) PGSIZE pa perm = mapLoop d perm 0 (v*PGSIZE) pa := by
  have hdown : PGROUNDDOWN (v*PGSIZE) = v*PGSIZE := by
    unfold PGROUNDDOWN
    rw [Nat.mul_div_cancel _ (by decide)]
  have hlast : PGROUNDDOWN (uint (v*PGSIZE+PGSIZE-1)) = v*PGSIZE := by
    simp only [PGROUNDDOWN, uint, PGSIZE, NPDENTRIES, NPTENTRIES] at hv ⊢
    omega
  unfold mappages
  simp only [hdown, hlast, Nat.sub_self, Nat.zero_div]

theorem mappages_user {perm : BitVec 32} (h : Balanced img (d :: D) (p :: L) s) (hv : v < UPAGES)
    (hfree : target (entry s.page d v) = none ∨ F (.panic "remap")) (hperm : perm.toNat < 4096) :
    wp F (mappages d (v*PGSIZE) PGSIZE (p*PGSIZE) perm) (fun r t =>
      r = false ∧ Balanced img (d :: D) (p :: L) t ∧ Upd d (Standing s.page d v) All D (p :: L) s t ∨
      r = true ∧ Balanced img (d :: D) L t ∧ Upd d (Standing s.page d v) (· ≠ v) D (p :: L) s t ∧
        entry t.page d v = BitVec.ofNat 32 (p*PGSIZE) ||| perm ||| PTE_P) s := by
  have hlt := user_lt ⟨v, hv⟩
  rw [mappages_one hlt]
  unfold mapLoop
  rw [wp_bind]
  apply wp_mono (walkpgdir_true h hlt)
  rintro (_ | tab) s' ⟨hb, hu, htab⟩
  · exact Or.inl ⟨rfl, hb, hu⟩
  · have ht := htab tab rfl
    have hentry : getWord (s'.page tab) (v%NPTENTRIES) = entry s.page d v := by
      rw [← entry_of_table ht, hu.entries v hlt trivial]
    simp only [wp_bind, wp_getPte, PTX_eq, hentry]
    split_ifs with hp
    · -- an entry that is present can only be here if the panic may happen
      rcases hfree with hfree | hfree
      · exact absurd (target_eq_none.mp hfree) hp
      · exact hfree
    · obtain ⟨hu', hw⟩ := upd_setEntry (w := BitVec.ofNat 32 (p*PGSIZE) ||| perm ||| PTE_P) hb hlt ht
      refine Or.inr ⟨rfl, ?_, ?_, hw⟩
      · apply hb.map_user hv ht
        · rw [hu.entries v hlt trivial, target_eq_none]
          exact not_not.mp hp
        · exact target_mapped (hb.page_lt List.mem_cons_self) hperm
      · exact (hu.mono (fun _ h => h) fun _ _ => trivial).trans (hu'.mono (fun _ _ => trivial) fun _ h => h)

def content (s : Mem) (d v : ℕ) : Option Block := (target (entry s.page d v)).map s.page

theorem content_eq_none : content s d v = none ↔ target (entry s.page d v) = none :=
  Option.map_eq_none_iff

theorem Upd.content {I V : ℕ → Prop} (h : Upd d I V D L s t) (hv : v < UPAGES) (hV : V v) :
    content t d v = content s d v := by
  unfold Vm.content
  rw [h.entries v (user_lt ⟨v, hv⟩) hV]
  cases hx : target (entry s.page d v) with
  | none => rfl
  | some x => exact congrArg some (h.contents v hv hV x hx)

def pages (sz : ℕ) : ℕ := (sz+PGSIZE-1)/PGSIZE

theorem lt_pages {v sz : ℕ} : v < pages sz ↔ v*PGSIZE < sz := by
  simp only [pages, PGSIZE]
  omega

theorem PGROUNDUP_eq {sz : ℕ} (h : sz ≤ KERNBASE) : PGROUNDUP sz = pages sz*PGSIZE := by
  simp only [PGROUNDUP, uint, pages, PGSIZE, KERNBASE] at h ⊢
  omega

theorem pages_mono {a b : ℕ} (h : a ≤ b) : pages a ≤ pages b :=
  Nat.div_le_div_right (by omega)

theorem pages_le {sz : ℕ} (h : sz ≤ KERNBASE) : pages sz ≤ UPAGES := by
  simp only [pages, UPAGES, PGSIZE, KERNBASE] at h ⊢
  omega

/-- A page is freed and its entry cleared: the entry could as well be cleared first. -/
theorem kfree_setPte (hne : p ≠ tab) (s : Mem) :
    (do kfree img p; setPte tab (v%NPTENTRIES) 0 : VmM Unit) s = kfree img p (s.setEntry tab v 0) := by
  have hpage : Function.update (Function.update s.page p fun _ => 1) tab
        (setWord (Function.update s.page p (fun _ => 1) tab) (v%NPTENTRIES) 0) =
      Function.update (s.setEntry tab v 0).page p fun _ => 1 := by
    rw [Function.update_of_ne hne.symm, Function.update_comm hne]
    rfl
  unfold kfree
  split_ifs
  · rfl
  · exact congrArg (fun m => Except.ok ((), Mem.mk (p :: s.free) s.deny m)) hpage

theorem Balanced.user_ne_table (h : Balanced img (d :: D) L s) (hv : v < UPAGES)
    (ht : table s.page d (v/NPTENTRIES) = some tab) (hp : target (entry s.page d v) = some p) : p ≠ tab := by
  rintro rfl
  exact (h.distinct List.mem_cons_self).not_control hv hp (Or.inr ⟨_, div_lt_of_lt (user_lt ⟨v, hv⟩), ht⟩)

theorem free_user (h : Balanced img (d :: D) L s) (hv : v < UPAGES)
    (ht : table s.page d (v/NPTENTRIES) = some tab) (hp : target (entry s.page d v) = some p) :
    wp F (do kfree img p; setPte tab (v%NPTENTRIES) 0) (fun _ t => Balanced img (d :: D) L t ∧
      Upd d All (· ≠ v) D L s t ∧ target (entry t.page d v) = none) s := by
  have hlt := user_lt ⟨v, hv⟩
  obtain ⟨hu, hw⟩ := upd_setEntry (w := 0) h hlt ht
  unfold wp
  rw [kfree_setPte (h.user_ne_table hv ht hp)]
  apply wp_mono (kfree_spec (h.unmap_user hv ht hp))
  rintro _ t ⟨hbt, hkt⟩
  have hut : Upd d All (· ≠ v) D L s t := hu.trans hkt.upd
  refine ⟨hbt, hut, ?_⟩
  rw [entry_congr (hkt.control List.mem_cons_self) hlt, hw, target_zero]

theorem Balanced.user_managed (h : Balanced img (d :: D) L s) (hv : v < UPAGES)
    (hp : target (entry s.page d v) = some p) : img.Managed p := by
  apply h.managed
  have : 0 < refs (user s.page d) p := refs_pos_of (i := ⟨v, hv⟩) hp
  rw [heldBy_cons, held]
  omega

theorem freePte_spec (h : Balanced img (d :: D) L s) (hv : v < UPAGES)
    (ht : table s.page d (v/NPTENTRIES) = some tab) :
    wp F (freePte img tab (v%NPTENTRIES)) (fun _ t => Balanced img (d :: D) L t ∧
      Upd d All (· ≠ v) D L s t ∧ target (entry t.page d v) = none) s := by
  unfold freePte
  rw [wp_bind, wp_getPte, ← entry_of_table ht]
  by_cases hp : entry s.page d v &&& PTE_P ≠ 0
  · have htarget := target_of_present hp
    have hm := h.user_managed hv htarget
    have hne : PTE_ADDR (entry s.page d v) ≠ 0 := (img.kend_pos.trans_le hm.1).ne'
    rw [if_pos hp, if_neg hne]
    exact free_user h hv ht htarget
  · rw [if_neg hp]
    exact ⟨h, (Kept.refl _ _ _).upd, target_eq_none.mpr (not_not.mp hp)⟩

theorem uint_next (hv : v < UPAGES) : uint (v*PGSIZE+PGSIZE) = (v+1)*PGSIZE := by
  simp only [uint, PGSIZE, UPAGES, KERNBASE] at hv ⊢
  omega

theorem deallocLoop_spec {oldsz : ℕ} (hold : oldsz ≤ KERNBASE) (fuel v : ℕ) (hpos : 0 < fuel)
    (hfuel : pages oldsz < v+fuel) (s : Mem) (h : Balanced img (d :: D) L s) :
    wp F (deallocLoop img d oldsz fuel (v*PGSIZE)) (fun _ t => Balanced img (d :: D) L t ∧
      Upd d All (fun u => u < v ∨ pages oldsz ≤ u) D L s t ∧
      ∀ u, v ≤ u → u < pages oldsz → target (entry t.page d u) = none) s := by
  have hpages := pages_le hold
  induction fuel generalizing v s with
  | zero => exact absurd hpos (lt_irrefl 0)
  | succ fuel ih =>
    unfold deallocLoop
    split_ifs with hlt
    · have hv : v < pages oldsz := lt_pages.mpr hlt
      rw [wp_bind, walkpgdir_false, PDX_eq]
      cases ht : table s.page d (v/NPTENTRIES) with
      | none =>
        have hnext : uint ((v/NPTENTRIES+1)*0x400000) = (v/NPTENTRIES+1)*NPTENTRIES*PGSIZE := by
          simp only [uint, NPTENTRIES, PGSIZE, UPAGES, KERNBASE] at hpages ⊢
          omega
        have hgap : v < (v/NPTENTRIES+1)*NPTENTRIES := by
          simp only [NPTENTRIES]
          omega
        rw [hnext]
        apply wp_mono (ih _ (by omega) (by omega) s h)
        rintro _ t ⟨hb, hu, hnone⟩
        refine ⟨hb, hu.mono (fun _ h => h) (by omega), ?_⟩
        intro u hvu hu'
        by_cases hugap : u < (v/NPTENTRIES+1)*NPTENTRIES
        · -- no page is present up to the next page table
          have hdiv : u/NPTENTRIES = v/NPTENTRIES := by
            simp only [NPTENTRIES] at hugap ⊢
            omega
          have htab : table t.page d (u/NPTENTRIES) = none := by
            rw [hu.tables _ trivial, hdiv, ht]
          rw [entry_of_no_table htab, target_zero]
        · exact hnone u (by omega) hu'
      | some tab =>
        have hlt' := user_lt ⟨v, hv.trans_le hpages⟩
        dsimp only
        rw [wp_bind, PTX_eq]
        apply wp_mono (freePte_spec h (hv.trans_le hpages) ht)
        rintro _ s' ⟨hb', hu', hnone'⟩
        rw [uint_next (hv.trans_le hpages)]
        apply wp_mono (ih (v+1) (by omega) (by omega) s' hb')
        rintro _ t ⟨hb, hu, hnone⟩
        refine ⟨hb, ?_, ?_⟩
        · exact (hu'.mono (fun _ h => h) (by omega)).trans (hu.mono (fun _ h => h) (by omega))
        · intro u hvu hu2
          rcases Nat.eq_or_lt_of_le hvu with rfl | hvu
          · rw [hu.entries v hlt' (Or.inl (by omega)), hnone']
          · exact hnone u hvu hu2
    · have hv : pages oldsz ≤ v := by
        rw [← not_lt, lt_pages]
        exact hlt
      refine ⟨h, (Kept.refl _ _ _).upd, ?_⟩
      intro u hu hu'
      omega

theorem deallocuvm_spec {oldsz : ℕ} (newsz : ℕ) (hold : oldsz ≤ KERNBASE) (h : Balanced img (d :: D) L s) :
    wp F (deallocuvm img d oldsz newsz) (fun r t => r = min oldsz newsz ∧ Balanced img (d :: D) L t ∧
      Upd d All (fun u => u < pages newsz ∨ pages oldsz ≤ u) D L s t ∧
      ∀ u, pages newsz ≤ u → u < pages oldsz → target (entry t.page d u) = none) s := by
  unfold deallocuvm
  split_ifs with hle
  · refine ⟨(min_eq_left hle).symm, h, (Kept.refl _ _ _).upd, ?_⟩
    intro u hu hu'
    have := pages_mono hle
    omega
  · rw [wp_bind, PGROUNDUP_eq (by omega)]
    have hfuel : pages oldsz < pages newsz+(oldsz/PGSIZE+2) := by
      simp only [pages, PGSIZE]
      omega
    apply wp_mono (deallocLoop_spec hold _ _ (Nat.succ_pos _) hfuel s h)
    rintro _ t ⟨hb, hu, hnone⟩
    exact ⟨(min_eq_right (by omega)).symm, hb, hu, hnone⟩

/-- The user page v is there and is zero. -/
def Zeroed (s : Mem) (d v : ℕ) : Prop :=
  ∃ x, target (entry s.page d v) = some x ∧ s.page x = fun _ => 0

theorem Zeroed.content (h : Zeroed s d v) : content s d v = some fun _ => 0 := by
  obtain ⟨x, hx, hzero⟩ := h
  rw [Vm.content, hx, Option.map_some, hzero]

/-- The page tables of the kernel part. -/
def KernelTable (i : ℕ) : Prop := UPAGES ≤ i*NPTENTRIES

/-- The user page v is a page of zeros, which the user may write. -/
def Fresh (s : Mem) (d v : ℕ) : Prop :=
  ∃ x < 0x100000, entry s.page d v = BitVec.ofNat 32 (x*PGSIZE) ||| (PTE_W ||| PTE_U) ||| PTE_P ∧
    s.page x = fun _ => 0

theorem Fresh.zeroed (h : Fresh s d v) : Zeroed s d v := by
  obtain ⟨x, hx, hentry, hzero⟩ := h
  exact ⟨x, by rw [hentry, target_mapped hx (by decide)], hzero⟩

theorem Fresh.upd {I V : ℕ → Prop} (h : Fresh s d v) (hu : Upd d I V D L s t) (hv : v < UPAGES)
    (hV : V v) : Fresh t d v := by
  obtain ⟨x, hx, hentry, hzero⟩ := h
  refine ⟨x, hx, ?_, ?_⟩
  · rw [hu.entries v (user_lt ⟨v, hv⟩) hV, hentry]
  · rw [hu.contents v hv hV x (by rw [hentry, target_mapped hx (by decide)]), hzero]

/-- From the user page v on: all pages up to newsz are there and are zero, or the
pages from oldsz on are gone again. The page tables in I stay. -/
def GrownOn (I : ℕ → Prop) (img : BootImage) (d : ℕ) (D L : List ℕ) (oldsz newsz v : ℕ) (s : Mem) (r : ℕ)
    (t : Mem) : Prop :=
  Balanced img (d :: D) L t ∧
    (r = newsz ∧ Upd d I (fun u => u < v ∨ pages newsz ≤ u) D L s t ∧
        (∀ u, v ≤ u → u < pages newsz → Fresh t d u) ∨
      r = 0 ∧ Upd d I (fun u => u < pages oldsz ∨ pages newsz ≤ u) D L s t ∧
        ∀ u, pages oldsz ≤ u → u < pages newsz → target (entry t.page d u) = none)

def Grown (img : BootImage) (d : ℕ) (D L : List ℕ) (oldsz newsz v : ℕ) (s : Mem) (r : ℕ) (t : Mem) : Prop :=
  Balanced img (d :: D) L t ∧
    (r = newsz ∧ Upd d KernelTable (fun u => u < v ∨ pages newsz ≤ u) D L s t ∧
        (∀ u, v ≤ u → u < pages newsz → Zeroed t d u) ∨
      r = 0 ∧ Upd d KernelTable (fun u => u < pages oldsz ∨ pages newsz ≤ u) D L s t ∧
        ∀ u, pages oldsz ≤ u → u < pages newsz → target (entry t.page d u) = none)

theorem kernelTable_ne {i : ℕ} (hi : KernelTable i) (hv : v < UPAGES) : i ≠ v/NPTENTRIES := by
  rintro rfl
  have := Nat.div_mul_le_self v NPTENTRIES
  unfold KernelTable at hi
  omega

section Alloc
variable {I : ℕ → Prop}

theorem standing_of (hI : ∀ i, I i → KernelTable i ∨ table s.page d i ≠ none) (hv : v < UPAGES) (i : ℕ)
    (hi : I i) : Standing s.page d v i :=
  (hI i hi).imp_left fun hk => kernelTable_ne hk hv

theorem grown_back {oldsz newsz : ℕ} (hnew : newsz ≤ KERNBASE) (hle : pages oldsz ≤ v)
    (hs : Balanced img (d :: D) L t) (hu : Upd d I (fun u => u < v ∨ pages newsz ≤ u) D L s t) :
    wp F (deallocuvm img d newsz oldsz) (fun _ u => Balanced img (d :: D) L u ∧
      Upd d I (fun u => u < pages oldsz ∨ pages newsz ≤ u) D L s u ∧
      ∀ v, pages oldsz ≤ v → v < pages newsz → target (entry u.page d v) = none) t := by
  apply wp_mono (deallocuvm_spec _ hnew hs)
  rintro _ u ⟨-, hb, hu', hnone⟩
  refine ⟨hb, ?_, hnone⟩
  exact (hu.mono (fun _ h => h) (by omega)).trans (hu'.mono (fun _ _ => trivial) fun _ h => h)

theorem allocLoop_spec {oldsz newsz : ℕ} (hnew : newsz < KERNBASE) (fuel v : ℕ)
    (hle : pages oldsz ≤ v) (hpos : 0 < fuel) (hfuel : pages newsz < v+fuel) (s : Mem)
    (h : Balanced img (d :: D) L s) (hI : ∀ i, I i → KernelTable i ∨ table s.page d i ≠ none)
    (hfree : ∀ u, v ≤ u → u < pages newsz → target (entry s.page d u) = none ∨ F (.panic "remap")) :
    wp F (allocLoop img d oldsz newsz fuel (v*PGSIZE)) (GrownOn I img d D L oldsz newsz v s) s := by
  have hpages := pages_le hnew.le
  induction fuel generalizing v s with
  | zero => exact absurd hpos (lt_irrefl 0)
  | succ fuel ih =>
    unfold allocLoop
    split_ifs with hlt
    · have hv : v < pages newsz := lt_pages.mpr hlt
      have hvu : v < UPAGES := hv.trans_le hpages
      rw [wp_bind]
      apply wp_mono (kalloc_spec h)
      rintro (_ | q) s₁ ⟨hpage, hb₁⟩
      · dsimp only
        rw [wp_bind]
        apply wp_mono (grown_back hnew.le hle hb₁ (Kept.upd fun x _ => congrFun hpage x))
        rintro _ t ⟨hb, hu, hnone⟩
        exact ⟨hb, Or.inr ⟨rfl, hu, hnone⟩⟩
      · have hb₂ := hb₁.put_loose fun _ => 0
        have hu₂ : Upd d I All D L s (s₁.put q fun _ => 0) := by
          apply Kept.upd
          intro x hx
          rw [hb₁.kept_put _ x (by rwa [hpage]), hpage]
        -- the tables of I stand in the state after each step
        have hI₂ : ∀ i, I i → KernelTable i ∨ table (s₁.put q fun _ => 0).page d i ≠ none := by
          intro i hi
          rw [hu₂.tables i hi]
          exact hI i hi
        dsimp only
        rw [wp_bind, wp_memset, wp_bind]
        have hfree₂ : target (entry (s₁.put q fun _ => 0).page d v) = none ∨ F (.panic "remap") := by
          rw [hu₂.entries v (user_lt ⟨v, hvu⟩) trivial]
          exact hfree v le_rfl hv
        apply wp_mono (mappages_user hb₂ hvu hfree₂ (by decide))
        rintro r s₃ (⟨rfl, hb₃, hu₃⟩ | ⟨rfl, hb₃, hu₃, hw⟩)
        · rw [if_neg Bool.false_ne_true, wp_bind]
          apply wp_mono (grown_back hnew.le hle hb₃
            (hu₃.mono (standing_of hI₂ hvu) fun _ _ => trivial))
          rintro _ s₄ ⟨hb₄, hu₄, hnone⟩
          rw [wp_bind]
          apply wp_mono (kfree_spec hb₄)
          rintro _ t ⟨hb, hk⟩
          refine ⟨hb, Or.inr ⟨rfl, ?_, ?_⟩⟩
          · exact ((hu₂.mono (fun _ h => h) fun _ _ => trivial).trans hu₄.loose).trans hk.upd
          · intro u hu hu'
            rw [entry_congr (hk.control List.mem_cons_self) (user_lt ⟨u, hu'.trans_le hpages⟩)]
            exact hnone u hu hu'
        · have hu : Upd d I (· ≠ v) D L s s₃ :=
            (hu₂.mono (fun _ h => h) fun _ _ => trivial).trans
              (hu₃.loose.mono (standing_of hI₂ hvu) fun _ h => h)
          have hfresh : Fresh s₃ d v := by
            refine ⟨q, hb₂.page_lt List.mem_cons_self, hw, ?_⟩
            rw [hu₃.kept q (by rw [List.count_cons_self]; omega), Mem.put_same]
          rw [if_pos rfl, uint_next hvu]
          have hI₃ : ∀ i, I i → KernelTable i ∨ table s₃.page d i ≠ none := by
            intro i hi
            rw [hu.tables i hi]
            exact hI i hi
          have hfree₃ : ∀ u, v+1 ≤ u → u < pages newsz →
              target (entry s₃.page d u) = none ∨ F (.panic "remap") := by
            intro u hvu' hu'
            rw [hu.entries u (user_lt ⟨u, hu'.trans_le hpages⟩) (by omega)]
            exact hfree u (by omega) hu'
          apply wp_mono (ih (v+1) (by omega) (by omega) (by omega) s₃ hb₃ hI₃ hfree₃)
          rintro r t ⟨hb, ⟨rfl, hut, hz⟩ | ⟨rfl, hut, hnone⟩⟩
          · refine ⟨hb, Or.inl ⟨rfl, ?_, ?_⟩⟩
            · exact (hu.mono (fun _ h => h) (by omega)).trans (hut.mono (fun _ h => h) (by omega))
            · intro u hvu' hu'
              rcases Nat.eq_or_lt_of_le hvu' with rfl | hvu'
              · exact hfresh.upd hut hvu (Or.inl (by omega))
              · exact hz u hvu' hu'
          · refine ⟨hb, Or.inr ⟨rfl, ?_, hnone⟩⟩
            exact (hu.mono (fun _ h => h) (by omega)).trans hut
    · have hv : pages newsz ≤ v := by
        rw [← not_lt, lt_pages]
        exact hlt
      refine ⟨h, Or.inl ⟨rfl, (Kept.refl _ _ _).upd, ?_⟩⟩
      intro u hu hu'
      omega

theorem allocuvm_grows {oldsz newsz : ℕ} (hle : oldsz ≤ newsz) (hnew : newsz < KERNBASE)
    (h : Balanced img (d :: D) L s) (hI : ∀ i, I i → KernelTable i ∨ table s.page d i ≠ none)
    (hfree : ∀ u, pages oldsz ≤ u → u < pages newsz →
      target (entry s.page d u) = none ∨ F (.panic "remap")) :
    wp F (allocuvm img d oldsz newsz) (GrownOn I img d D L oldsz newsz (pages oldsz) s) s := by
  unfold allocuvm
  rw [if_neg (by omega), if_neg (by omega), PGROUNDUP_eq (by omega)]
  have hfuel : pages newsz < pages oldsz+(newsz/PGSIZE+2) := by
    simp only [pages, PGSIZE]
    omega
  exact allocLoop_spec hnew _ _ le_rfl (Nat.succ_pos _) hfuel s h hI hfree

end Alloc

theorem allocuvm_spec {oldsz newsz : ℕ} (hle : oldsz ≤ newsz) (hnew : newsz < KERNBASE)
    (h : Balanced img (d :: D) L s) (hfree : ∀ u, pages oldsz ≤ u → u < pages newsz →
      target (entry s.page d u) = none ∨ F (.panic "remap")) :
    wp F (allocuvm img d oldsz newsz) (Grown img d D L oldsz newsz (pages oldsz) s) s := by
  apply wp_mono (allocuvm_grows hle hnew h (fun _ => Or.inl) hfree)
  rintro r t ⟨hb, ⟨hr, hu, hz⟩ | hback⟩
  · exact ⟨hb, Or.inl ⟨hr, hu, fun u hu hu' => (hz u hu hu').zeroed⟩⟩
  · exact ⟨hb, Or.inr hback⟩

end ProvenXv6.Vm
