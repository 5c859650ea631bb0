import ProvenXv6.VmMap

namespace ProvenXv6.Vm
open WeakestPre
open Fs (Byte Block Fault getWord setWord getWord_setWord)

/-- The entries of the directory d without a page table. -/
def missing (m : ℕ → Block) (d : ℕ) : ℕ :=
  ((Finset.range NPDENTRIES).filter fun i => table m d i = none).card

/-- No allocation is denied, and beside the page tables that d may still get there
are n free pages, the last ones of pool. -/
structure Spare (pool : List ℕ) (d n : ℕ) (s : Mem) : Prop where
  deny : s.deny = []
  suffix : s.free <:+ pool
  small : ∀ p ∈ s.free, p < 0x100000 ∧ p ≠ d
  apart : ∀ i < NPDENTRIES, table s.page d i ≠ some d
  room : n+missing s.page d ≤ s.free.length

variable {img : Image} {s t : Mem} {pool : List ℕ} {d n p v i : ℕ} {F : Fault → Prop}

theorem suffix_tail {l rest : List ℕ} (h : l <:+ pool) (hl : l = p :: rest) : rest <:+ pool :=
  (hl ▸ List.suffix_cons p rest).trans h

theorem missing_le (m : ℕ → Block) (d : ℕ) : missing m d ≤ NPDENTRIES :=
  (Finset.card_filter_le _ _).trans_eq (Finset.card_range _)

theorem missing_congr {m m' : ℕ → Block} (h : m' d = m d) : missing m' d = missing m d := by
  unfold missing table
  rw [h]

theorem missing_install {m : ℕ → Block} {w : BitVec 32} (hi : i < NPDENTRIES) (hnone : table m d i = none)
    (hw : target w = some p) : missing (install m d i p w) d+1 = missing m d := by
  have hset : ((Finset.range NPDENTRIES).filter fun j => table (install m d i p w) d j = none) =
      ((Finset.range NPDENTRIES).filter fun j => table m d j = none).erase i := by
    ext j
    rw [Finset.mem_erase, Finset.mem_filter, Finset.mem_filter, table_install hw]
    by_cases hj : j = i
    · simp [hj]
    · simp [hj]
  unfold missing
  rw [hset]
  exact Finset.card_erase_add_one (Finset.mem_filter.mpr ⟨Finset.mem_range.mpr hi, hnone⟩)

theorem Spare.own (h : Spare pool d n s) : Spare s.free d n s := { h with suffix := List.suffix_rfl }

theorem Spare.put (h : Spare pool d n s) (hp : p ≠ d) (b : Block) : Spare pool d n (s.put p b) := by
  have hd : (s.put p b).page d = s.page d := Mem.put_of_ne hp.symm
  refine ⟨h.deny, h.suffix, h.small, ?_, ?_⟩
  · intro i hi
    rw [table, hd]
    exact h.apart i hi
  · rw [missing_congr hd]
    exact h.room

theorem kalloc_some {rest : List ℕ} (hdeny : s.deny = []) (hfree : s.free = p :: rest) :
    kalloc s = .ok (some p, { s with free := rest, deny := [] }) := by
  obtain ⟨free, deny, page⟩ := s
  cases hdeny
  cases hfree
  rfl

theorem kalloc_spare (h : Spare pool d (n+1) s) : wp F kalloc (fun r t => ∃ p, r = some p ∧ p ≠ d ∧ Spare pool d n t) s := by
  have hroom := h.room
  cases hf : s.free with
  | nil =>
    rw [hf, List.length_nil] at hroom
    omega
  | cons p rest =>
    rw [wp, kalloc_some h.deny hf]
    refine ⟨p, rfl, (h.small p (by rw [hf]; exact List.mem_cons_self)).2, rfl, suffix_tail h.suffix hf, ?_, h.apart, ?_⟩
    · exact fun q hq => h.small q (by rw [hf]; exact List.mem_cons_of_mem _ hq)
    · rw [hf, List.length_cons] at hroom
      dsimp only
      omega

theorem walkpgdir_spare {va : ℕ} (hva : va < 0x100000000) (h : Spare pool d n s) :
    wp F (walkpgdir d va true) (fun r t => ∃ tab, r = some tab ∧ tab ≠ d ∧ Spare pool d n t) s := by
  have hi : PDX va < NPDENTRIES := by
    simp only [PDX, NPDENTRIES]
    omega
  unfold walkpgdir
  simp only [wp_bind, wp_getPte, Bool.true_eq_false, if_false]
  split_ifs with hp
  · refine ⟨_, rfl, ?_, h⟩
    intro he
    exact h.apart _ hi ((target_of_present hp).trans (congrArg some he))
  · have hnone : table s.page d (PDX va) = none := target_eq_none.mpr (not_not.mp hp)
    have hmissing : 0 < missing s.page d :=
      Finset.card_pos.mpr ⟨_, Finset.mem_filter.mpr ⟨Finset.mem_range.mpr hi, hnone⟩⟩
    have hroom := h.room
    cases hf : s.free with
    | nil =>
      rw [hf, List.length_nil] at hroom
      omega
    | cons q rest =>
      have hq := h.small q (by rw [hf]; exact List.mem_cons_self)
      have hw : target (BitVec.ofNat 32 (q*PGSIZE) ||| PTE_P ||| PTE_W ||| PTE_U) = some q := by
        rw [BitVec.or_assoc, BitVec.or_assoc]
        exact target_entry hq.1 (by decide) (by decide)
      rw [wp_bind, wp, kalloc_some h.deny hf]
      dsimp only
      simp only [wp_bind, wp_memset, wp_setPte, wp_pure]
      refine ⟨q, rfl, hq.2, rfl, suffix_tail h.suffix hf, ?_, ?_, ?_⟩
      · exact fun r hr => h.small r (by rw [hf]; exact List.mem_cons_of_mem _ hr)
      · intro j hj
        have htab := table_install (m := s.page) (d := d) (i := PDX va) hw j
        rw [Vm.install] at htab
        dsimp only [Mem.put]
        rw [Function.update_of_ne hq.2.symm, htab]
        split_ifs
        · exact fun he => hq.2 (Option.some.inj he)
        · exact h.apart j hj
      · have hcount := missing_install hi hnone hw
        rw [Vm.install] at hcount
        rw [hf, List.length_cons] at hroom
        dsimp only [Mem.put]
        rw [Function.update_of_ne hq.2.symm]
        omega

theorem mapLoop_spare {perm : BitVec 32} (hF : F (.panic "remap")) (n a pa m : ℕ) (s : Mem)
    (ha : a+n*PGSIZE < 0x100000000) (h : Spare pool d m s) :
    wp F (mapLoop d perm n a pa) (fun r t => r = true ∧ Spare pool d m t) s := by
  induction n generalizing a pa s with
  | zero =>
    unfold mapLoop
    rw [wp_bind]
    apply wp_mono (walkpgdir_spare (by omega) h)
    rintro _ t ⟨tab, rfl, htab, ht⟩
    dsimp only
    rw [wp_bind, wp_getPte]
    split_ifs
    · exact hF
    · rw [wp_bind, wp_setPte]
      exact ⟨rfl, ht.put htab _⟩
  | succ n ih =>
    unfold mapLoop
    rw [wp_bind]
    apply wp_mono (walkpgdir_spare (by omega) h)
    rintro _ t ⟨tab, rfl, htab, ht⟩
    dsimp only
    rw [wp_bind, wp_getPte]
    split_ifs
    · exact hF
    · rw [wp_bind, wp_setPte]
      apply ih _ _ _ _ (ht.put htab _)
      rw [Nat.add_mul, Nat.one_mul] at ha
      omega

theorem mappages_spare {perm : BitVec 32} {va size pa m : ℕ} (hF : F (.panic "remap"))
    (hva : va < 0x100000000) (h : Spare pool d m s) :
    wp F (mappages d va size pa perm) (fun r t => r = true ∧ Spare pool d m t) s := by
  apply mapLoop_spare hF _ _ _ _ _ _ h
  simp only [PGROUNDDOWN, uint, PGSIZE]
  omega

theorem allocLoop_spare {oldsz newsz : ℕ} (hF : ∀ e, F e) (hnew : newsz < KERNBASE) (fuel v m : ℕ) (s : Mem)
    (h : Spare pool d (m+(pages newsz-v)) s) :
    wp F (allocLoop img d oldsz newsz fuel (v*PGSIZE)) (fun r t => r = newsz ∧ Spare pool d m t) s := by
  have hpages := pages_le hnew.le
  induction fuel generalizing v s with
  | zero => exact hF _
  | succ fuel ih =>
    unfold allocLoop
    split_ifs with hlt
    · have hv : v < pages newsz := lt_pages.mpr hlt
      rw [show m+(pages newsz-v) = m+(pages newsz-(v+1))+1 by omega] at h
      rw [wp_bind]
      apply wp_mono (kalloc_spare h)
      rintro _ t ⟨q, rfl, hq, ht⟩
      dsimp only
      rw [wp_bind, wp_memset, wp_bind]
      apply wp_mono (mappages_spare (hF _) _ (ht.put hq _))
      · rintro _ u ⟨rfl, hu⟩
        rw [if_pos rfl, uint_next (hv.trans_le hpages)]
        exact ih _ _ hu
      · simp only [KERNBASE, PGSIZE] at hlt hnew ⊢
        omega
    · refine ⟨rfl, h.deny, h.suffix, h.small, h.apart, ?_⟩
      have := h.room
      omega

theorem allocuvm_spare (img : Image) {oldsz newsz m : ℕ} (hF : ∀ e, F e) (hle : oldsz ≤ newsz) (hnew : newsz < KERNBASE)
    (h : Spare pool d (m+(pages newsz-pages oldsz)) s) :
    wp F (allocuvm img d oldsz newsz) (fun r t => r = newsz ∧ Spare pool d m t) s := by
  unfold allocuvm
  rw [if_neg (by omega), if_neg (by omega), PGROUNDUP_eq (by omega)]
  exact allocLoop_spare hF hnew _ _ _ _ h

theorem setupLoop_spare {m : ℕ} (hF : F (.panic "remap")) (rows : List Kmap)
    (hrows : ∀ k ∈ rows, k.virt < 0x100000000) (s : Mem) (h : Spare pool d m s) :
    wp F (setupLoop img d rows) (fun r t => r = some d ∧ Spare pool d m t) s := by
  induction rows generalizing s with
  | nil => exact ⟨rfl, h⟩
  | cons k rows ih =>
    unfold setupLoop
    rw [wp_bind]
    apply wp_mono (mappages_spare hF (hrows k List.mem_cons_self) h)
    rintro _ t ⟨rfl, ht⟩
    rw [if_pos rfl]
    exact ih (fun k hk => hrows k (List.mem_cons_of_mem _ hk)) t ht

theorem setupkvm_spare (img : Image) {m : ℕ} (hF : F (.panic "remap")) (hdeny : s.deny = []) (hnodup : s.free.Nodup)
    (hsmall : ∀ p ∈ s.free, p < 0x100000) (hroom : m+NPDENTRIES+1 ≤ s.free.length) :
    wp F (setupkvm img) (fun r t => ∃ d, r = some d ∧ Spare s.free d m t) s := by
  cases hf : s.free with
  | nil =>
    rw [hf, List.length_nil] at hroom
    omega
  | cons d rest =>
    rw [hf] at hnodup hsmall hroom
    unfold setupkvm
    rw [wp_bind, wp, kalloc_some hdeny hf]
    dsimp only
    rw [wp_bind, wp_memset]
    have hspare : Spare (d :: rest) d m (Mem.put { s with free := rest, deny := [] } d fun _ => 0) := by
      refine ⟨rfl, List.suffix_cons d rest, ?_, ?_, ?_⟩
      · intro p hp
        refine ⟨hsmall p (List.mem_cons_of_mem _ hp), ?_⟩
        rintro rfl
        exact (List.nodup_cons.mp hnodup).1 hp
      · intro i _
        rw [table, Mem.put_same, Fs.getWord_zero, target_zero]
        exact Option.some_ne_none d ∘ Eq.symm
      · have := missing_le (Mem.put { s with free := rest, deny := [] } d fun _ => 0).page d
        rw [List.length_cons] at hroom
        dsimp only [Mem.put] at this ⊢
        omega
    refine wp_mono (setupLoop_spare hF (kmap img) ?_ _ hspare) ?_
    · have hdata := img.data_le
      have hroom := img.room
      intro k hk
      simp only [kmap, List.mem_cons, List.not_mem_nil, or_false] at hk
      rcases hk with rfl | rfl | rfl | rfl <;>
        simp only [KERNBASE, KERNLINK, EXTMEM, DEVSPACE, PGSIZE] at hroom ⊢ <;> omega
    · rintro _ t ⟨rfl, ht⟩
      exact ⟨d, rfl, ht⟩

theorem copyLoop_spare {pgdir sz : ℕ} (hF : ∀ e, F e) (hsz : sz ≤ KERNBASE) (fuel v : ℕ) (s : Mem)
    (h : Spare pool d (pages sz-v) s) :
    wp F (copyLoop img pgdir sz d fuel (v*PGSIZE)) (fun r _ => r ≠ none) s := by
  have hpages := pages_le hsz
  induction fuel generalizing v s with
  | zero => exact hF _
  | succ fuel ih =>
    unfold copyLoop
    split_ifs with hlt
    · have hv : v < pages sz := lt_pages.mpr hlt
      rw [show pages sz-v = pages sz-(v+1)+1 by omega] at h
      rw [wp_bind, walkpgdir_false]
      cases table s.page pgdir (PDX (v*PGSIZE)) with
      | none => exact hF _
      | some tab =>
        dsimp only
        rw [wp_bind, wp_getPte]
        split_ifs
        · exact hF _
        · rw [wp_bind]
          apply wp_mono (kalloc_spare h)
          rintro _ t ⟨q, rfl, hq, ht⟩
          dsimp only
          rw [wp_bind, wp_get, wp_bind, wp_setPage, wp_bind]
          apply wp_mono (mappages_spare (hF _) _ (ht.put hq _))
          · rintro _ u ⟨rfl, hu⟩
            rw [if_pos rfl, uint_next (hv.trans_le hpages)]
            exact ih _ _ hu
          · simp only [KERNBASE, PGSIZE] at hlt hsz ⊢
            omega
    · exact Option.some_ne_none d

theorem copyuvm_spare (img : Image) {pgdir sz : ℕ} (hF : ∀ e, F e) (hsz : sz ≤ KERNBASE) (hdeny : s.deny = [])
    (hnodup : s.free.Nodup) (hsmall : ∀ p ∈ s.free, p < 0x100000)
    (hroom : pages sz+NPDENTRIES+1 ≤ s.free.length) : wp F (copyuvm img pgdir sz) (fun r _ => r ≠ none) s := by
  unfold copyuvm
  rw [wp_bind]
  apply wp_mono (setupkvm_spare img (hF _) hdeny hnodup hsmall hroom)
  rintro _ t ⟨d, rfl, ht⟩
  dsimp only
  rw [show (0 : ℕ) = 0*PGSIZE from rfl]
  exact copyLoop_spare hF hsz _ 0 t ht

end ProvenXv6.Vm
