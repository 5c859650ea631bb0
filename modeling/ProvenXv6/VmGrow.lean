import ProvenXv6.VmMap

namespace ProvenXv6.Vm
open WeakestPre
open Fs (Block Fault setWord)

variable {img : BootImage} {D L : List ℕ} {s t : Mem} {d sz v : ℕ} {n : ℤ}

/-- Exactly the pages of [0, PGROUNDUP(sz)) are present in the user part. -/
structure Exact (s : Mem) (d sz : ℕ) : Prop where
  size : sz ≤ KERNBASE
  present : ∀ v < UPAGES, content s d v ≠ none ↔ v*PGSIZE < PGROUNDUP sz

/-- From size sz to size sz': the old pages below sz' stay and the others are zero. -/
def Resized (s : Mem) (d sz sz' : ℕ) (t : Mem) : Prop :=
  ∀ v < UPAGES, content t d v = if v*PGSIZE < PGROUNDUP sz' then
    if v*PGSIZE < PGROUNDUP sz then content s d v else some fun _ => 0 else none

/-- The result r with the size sz' afterwards, as sbrk promises them. -/
def AllOrNothing (s : Mem) (d sz : ℕ) (n : ℤ) (r : ℤ) (sz' : ℕ) (t : Mem) : Prop :=
  r = 0 ∧ (sz' : ℤ) = sz+n ∧ Exact t d sz' ∧ Resized s d sz sz' t ∨
  r = -1 ∧ sz' = sz ∧ ∀ v < UPAGES, content t d v = content s d v

theorem lt_round {sz : ℕ} (h : sz ≤ KERNBASE) : v*PGSIZE < PGROUNDUP sz ↔ v < pages sz := by
  rw [PGROUNDUP_eq h]
  exact Nat.mul_lt_mul_right (by decide)

theorem Exact.content_none (h : Exact s d sz) (hv : v < UPAGES) (hle : pages sz ≤ v) :
    content s d v = none := by
  by_contra hne
  have := (lt_round h.size).mp ((h.present v hv).mp hne)
  omega

theorem Resized.exact {sz' : ℕ} (h : Resized s d sz sz' t) (hx : Exact s d sz) (hsz : sz' ≤ KERNBASE) :
    Exact t d sz' where
  size := hsz
  present v hv := by
    rw [h v hv]
    split_ifs with h1 h2
    · exact iff_of_true ((hx.present v hv).mpr h2) h1
    · exact iff_of_true (Option.some_ne_none _) h1
    · exact iff_of_false (fun h => h rfl) h1

section Ways
variable (h : Balanced img (d :: D) L s) (hx : Exact s d sz)

include h hx in
theorem growproc_grows (hn : 0 < n) (hint : n < 0x80000000) :
    wp (fun _ => False) (growproc img d sz n) (fun r t => AllOrNothing s d sz n r.1 r.2 t) s := by
  have hsize := hx.size
  have hnew : (((sz : ℤ)+n)%0x100000000).toNat = (sz+n).toNat := by
    simp only [KERNBASE] at hsize
    omega
  unfold growproc
  simp only [hnew, gt_iff_lt]
  rw [if_pos hn, wp_bind]
  by_cases hk : KERNBASE ≤ (sz+n).toNat
  · rw [allocuvm, if_pos hk]
    exact Or.inr ⟨rfl, rfl, fun _ _ => rfl⟩
  · have hfree : ∀ u, pages sz ≤ u → u < pages (sz+n).toNat →
        target (entry s.page d u) = none ∨ False := by
      intro u hu hu'
      exact Or.inl (content_eq_none.mp (hx.content_none (hu'.trans_le (pages_le (by omega))) hu))
    apply wp_mono (allocuvm_spec (by omega) (by omega) h hfree)
    rintro r t ⟨hb, ⟨rfl, hu, hz⟩ | ⟨rfl, hu, hnone⟩⟩
    · rw [if_neg (by omega)]
      have hres : Resized s d sz (sz+n).toNat t := by
        intro v hv
        simp only [lt_round hsize, lt_round (show (sz+n).toNat ≤ KERNBASE by omega)]
        split_ifs with h1 h2
        · exact hu.content hv (Or.inl h2)
        · exact (hz v (by omega) h1).content
        · have hle : pages sz ≤ v := (pages_mono (by omega)).trans (not_lt.mp h1)
          rw [hu.content hv (Or.inr (by omega)), hx.content_none hv hle]
      exact Or.inl ⟨rfl, by omega, hres.exact hx (by omega), hres⟩
    · rw [if_pos rfl]
      refine Or.inr ⟨rfl, rfl, ?_⟩
      intro v hv
      by_cases hin : pages sz ≤ v ∧ v < pages (sz+n).toNat
      · rw [content_eq_none.mpr (hnone v hin.1 hin.2), hx.content_none hv hin.1]
      · exact hu.content hv (by omega)

include h hx in
theorem deallocuvm_resizes {newsz : ℕ} (hlt : newsz < sz) :
    wp (fun _ => False) (deallocuvm img d sz newsz) (fun r t => r = newsz ∧ Resized s d sz newsz t) s := by
  have hsize := hx.size
  apply wp_mono (deallocuvm_spec _ hsize h)
  rintro r t ⟨rfl, hb, hu, hnone⟩
  refine ⟨min_eq_right hlt.le, ?_⟩
  intro v hv
  have hmono : pages newsz ≤ pages sz := pages_mono hlt.le
  simp only [lt_round hsize, lt_round (show newsz ≤ KERNBASE by omega)]
  split_ifs with h1 h2
  · exact hu.content hv (Or.inl h1)
  · omega
  · by_cases h2 : v < pages sz
    · exact content_eq_none.mpr (hnone v (not_lt.mp h1) h2)
    · rw [hu.content hv (Or.inr (not_lt.mp h2)), hx.content_none hv (not_lt.mp h2)]

include h hx in
theorem growproc_shrinks (hn : n < 0) (hpos : 0 < sz+n) :
    wp (fun _ => False) (growproc img d sz n) (fun r t => AllOrNothing s d sz n r.1 r.2 t) s := by
  have hsize := hx.size
  have hnew : (((sz : ℤ)+n)%0x100000000).toNat = (sz+n).toNat := by
    simp only [KERNBASE] at hsize
    omega
  unfold growproc
  simp only [hnew]
  rw [if_neg (by omega), if_pos hn, wp_bind]
  apply wp_mono (deallocuvm_resizes h hx (show (sz+n).toNat < sz by omega))
  rintro r t ⟨rfl, hres⟩
  rw [if_neg (by omega)]
  exact Or.inl ⟨rfl, by omega, hres.exact hx (by omega), hres⟩

include h hx in
/-- To size 0, `deallocuvm` returns what means an error, after it has freed all pages. -/
theorem growproc_empties (hn : sz+n = 0) (hpos : 0 < sz) :
    wp (fun _ => False) (growproc img d sz n)
      (fun r t => r = (-1, sz) ∧ ∀ v < UPAGES, content t d v = none) s := by
  have hnew : (((sz : ℤ)+n)%0x100000000).toNat = 0 := by
    omega
  unfold growproc
  simp only [hnew]
  rw [if_neg (by omega), if_pos (by omega), wp_bind]
  apply wp_mono (deallocuvm_resizes h hx hpos)
  rintro r t ⟨rfl, hres⟩
  rw [if_pos rfl]
  refine ⟨rfl, ?_⟩
  intro v hv
  rw [hres v hv, if_neg (by rw [lt_round (Nat.zero_le _)]; exact Nat.not_lt_zero v)]

include hx in
theorem growproc_wraps (img : Image) (hn : sz+n < 0) (hint : -0x80000000 ≤ n) :
    wp (fun _ => False) (growproc img d sz n)
      (fun r t => t = s ∧ r = if sz = 0 then (-1, sz) else (0, sz)) s := by
  have hsize := hx.size
  have hge : (((sz : ℤ)+n)%0x100000000).toNat ≥ sz := by
    simp only [KERNBASE] at hsize
    omega
  unfold growproc
  dsimp only
  rw [if_neg (by omega), if_pos (by omega), wp_bind, deallocuvm, if_pos hge, wp_pure]
  split_ifs <;> exact ⟨rfl, rfl⟩

end Ways

theorem Exact.content_zero (hx : Exact s d sz) (hpos : 0 < sz) : content s d 0 ≠ none := by
  rw [hx.present 0 (by decide), lt_round hx.size, lt_pages]
  omega

theorem not_allOrNothing_empty {sz' : ℕ} (hx : Exact s d sz) (hpos : 0 < sz)
    (hnone : ∀ v < UPAGES, content t d v = none) : ¬AllOrNothing s d sz n (-1) sz' t := by
  rintro (⟨hr, -⟩ | ⟨-, -, hsame⟩)
  · exact absurd hr (by decide)
  · apply hx.content_zero hpos
    rw [← hsame 0 (by decide)]
    exact hnone 0 (by decide)

/-- sbrk is all or nothing except where it should take the size of a process to 0
or below. -/
theorem growproc_all_or_nothing (h : Balanced img (d :: D) L s) (hx : Exact s d sz)
    (hint : -0x80000000 ≤ n ∧ n < 0x80000000) :
    ∃ r sz' t, growproc img d sz n s = .ok ((r, sz'), t) ∧
      (AllOrNothing s d sz n r sz' t ↔ ¬(n < 0 ∧ 0 < sz ∧ sz+n ≤ 0)) := by
  rcases lt_trichotomy n 0 with hn | rfl | hn
  · rcases lt_trichotomy (sz+n) 0 with hlt | heq | hgt
    · obtain ⟨r, t, hrun, rfl, rfl⟩ := wp_total (growproc_wraps hx img hlt hint.1)
      by_cases hz : sz = 0
      · rw [if_pos hz] at hrun
        exact ⟨_, _, _, hrun, iff_of_true (Or.inr ⟨rfl, rfl, fun _ _ => rfl⟩) (by omega)⟩
      · rw [if_neg hz] at hrun
        refine ⟨_, _, _, hrun, iff_of_false ?_ (by omega)⟩
        rintro (⟨-, hsz, -⟩ | ⟨hr, -⟩)
        · omega
        · exact absurd hr (by decide)
    · obtain ⟨r, t, hrun, rfl, hnone⟩ := wp_total (growproc_empties h hx heq (by omega))
      exact ⟨_, _, _, hrun, iff_of_false (not_allOrNothing_empty hx (by omega) hnone) (by omega)⟩
    · obtain ⟨r, t, hrun, hok⟩ := wp_total (growproc_shrinks h hx hn hgt)
      exact ⟨_, _, _, hrun, iff_of_true hok (by omega)⟩
  · refine ⟨0, sz, s, rfl, iff_of_true (Or.inl ⟨rfl, by omega, hx, ?_⟩) (by omega)⟩
    intro v hv
    split_ifs with h1
    · rfl
    · by_contra hne
      exact h1 ((hx.present v hv).mp hne)
  · obtain ⟨r, t, hrun, hok⟩ := wp_total (growproc_grows h hx hn hint.2)
    exact ⟨_, _, _, hrun, iff_of_true hok (by omega)⟩

def smallImage : BootImage := ⟨⟨0x108, 0x116, by decide, by decide, by decide⟩, fun _ _ => 0⟩

/-- All pages behind the third are free, and nothing is mapped. -/
def blankMem : Mem := ⟨List.range' 0x119 (0xE000-0x119), [], fun _ _ => 0⟩

theorem blankMem_balanced : Balanced smallImage [] [0x116, 0x117, 0x118] blankMem := by
  refine ⟨fun x => ?_, fun _ _ => rfl⟩
  have hfree : blankMem.free.count x = if x ∈ blankMem.free then 1 else 0 :=
    List.Nodup.count (List.nodup_range' ..)
  have hmem : x ∈ blankMem.free ↔ 0x119 ≤ x ∧ x < 0xE000 := by
    rw [blankMem, List.mem_range'_1]
  have hmanaged : smallImage.Managed x ↔ 0x116 ≤ x ∧ x < 0xE000 := by
    simp only [Image.Managed, smallImage, PHYSTOP, PGSIZE]
  simp only [hfree, hmem, hmanaged, heldBy_nil, List.count_cons, List.count_nil, beq_iff_eq]
  split_ifs <;> omega

def userPte (p : ℕ) : BitVec 32 := BitVec.ofNat 32 (p*PGSIZE) ||| (PTE_W ||| PTE_U) ||| PTE_P

/-- Directory 0x116 maps page 0x118 at address 0, with page table 0x117. -/
def onePage : Mem :=
  ((blankMem.put 0x117 fun _ => 0).put 0x116
    (setWord (blankMem.page 0x116) 0 (userPte 0x117))).setEntry 0x117 0 (userPte 0x118)

theorem target_userPte {p : ℕ} (hp : p < 0x100000) : target (userPte p) = some p :=
  target_mapped hp (by decide)

theorem onePage_spec : Balanced smallImage [0x116] [] onePage ∧
    ∀ v < UPAGES, entry onePage.page 0x116 v = if v = 0 then userPte 0x118 else 0 := by
  have h₀ : Balanced smallImage [0x116] [0x117, 0x118] blankMem := blankMem_balanced.directory rfl
  have hw : target (userPte 0x117) = some 0x117 := target_userPte (by decide)
  have hempty (v : ℕ) : entry blankMem.page 0x116 v = 0 := entry_zero rfl v
  obtain ⟨h₁, hu₁⟩ := h₀.install (i := 0) (by decide)
    (by rw [table, blankMem, Fs.getWord_zero, target_zero]) hw
  have htab : table ((blankMem.put 0x117 fun _ => 0).put 0x116
      (setWord (blankMem.page 0x116) 0 (userPte 0x117))).page 0x116 (0/NPTENTRIES) = some 0x117 :=
    (table_install hw _).trans (if_pos rfl)
  have hnone := (hu₁.entries 0 (by decide) trivial).trans (hempty 0)
  obtain ⟨hu₂, hentry⟩ := upd_setEntry (w := userPte 0x118) h₁ (by decide) htab
  refine ⟨h₁.map_user (by decide) htab (by rw [hnone, target_zero]) (target_userPte (by decide)), ?_⟩
  intro v hv
  split_ifs with hv0
  · rw [hv0]
    exact hentry
  · have hlt := user_lt ⟨v, hv⟩
    rw [onePage, hu₂.entries v hlt hv0, hu₁.entries v hlt trivial, hempty]

theorem onePage_exact : Exact onePage 0x116 4096 where
  size := by decide
  present v hv := by
    rw [lt_round (by decide), content, onePage_spec.2 v hv]
    have hpages : pages 4096 = 1 := by decide
    split_ifs with h0
    · rw [target_userPte (by decide)]
      exact iff_of_true (Option.some_ne_none _) (by omega)
    · rw [target_zero]
      exact iff_of_false (fun h => h rfl) (by omega)

/-- `sbrk(-4096)` of a process of one page fails, and the page is gone. -/
theorem sbrk_to_zero_loses_pages : Balanced smallImage [0x116] [] onePage ∧ Exact onePage 0x116 4096 ∧
    ∃ r sz' t, growproc smallImage 0x116 4096 (-4096) onePage = .ok ((r, sz'), t) ∧
      r = -1 ∧ content t 0x116 0 = none ∧ ¬AllOrNothing onePage 0x116 4096 (-4096) r sz' t := by
  obtain ⟨r, t, hrun, rfl, hnone⟩ :=
    wp_total (growproc_empties onePage_spec.1 onePage_exact (n := -4096) (by decide) (by decide))
  exact ⟨onePage_spec.1, onePage_exact, _, _, _, hrun, rfl, hnone 0 (by decide),
    not_allOrNothing_empty onePage_exact (by decide) hnone⟩

theorem growproc_all_or_nothing_onePage :
    ∃ r sz' t, growproc smallImage 0x116 4096 4096 onePage = .ok ((r, sz'), t) ∧
      AllOrNothing onePage 0x116 4096 4096 r sz' t := by
  obtain ⟨r, sz', t, hrun, hiff⟩ :=
    growproc_all_or_nothing (n := 4096) onePage_spec.1 onePage_exact (by decide)
  exact ⟨r, sz', t, hrun, hiff.mpr (by decide)⟩

end ProvenXv6.Vm
