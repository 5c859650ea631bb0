import Mathlib.Data.List.Intervals
import ProvenXv6.VmGrow

namespace ProvenXv6.Vm
open RefCount WeakestPre
open Fs (Block Fault setWord)

variable {img : BootImage} {D L vs ws : List ℕ} {s t u : Mem} {d p v x tab : ℕ} {F : Fault → Prop}

/-- The pages of memory behind the virtual pages vs that are present. -/
def frames (m : ℕ → Block) (d : ℕ) (vs : List ℕ) : List ℕ := vs.filterMap fun v => target (entry m d v)

theorem mem_frames {m : ℕ → Block} : x ∈ frames m d vs ↔ ∃ v ∈ vs, target (entry m d v) = some x :=
  List.mem_filterMap

/-- The virtual pages vs are unmapped and their pages freed, one after the other. Nothing else
changes. -/
structure Unmapped (d : ℕ) (vs : List ℕ) (s t : Mem) : Prop where
  free : t.free = (frames s.page d vs).reverse ++ s.free
  deny : t.deny = s.deny
  junk : ∀ x ∈ frames s.page d vs, t.page x = fun _ => 1
  entries : ∀ v < NPDENTRIES*NPTENTRIES, entry t.page d v =
    if v ∈ vs ∧ target (entry s.page d v) ≠ none then 0 else entry s.page d v
  directory : t.page d = s.page d
  others : ∀ x ∉ frames s.page d vs, (∀ v ∈ vs, table s.page d (v/NPTENTRIES) ≠ some x) → t.page x = s.page x

namespace Unmapped

theorem table_eq (h : Unmapped d vs s t) (i : ℕ) : table t.page d i = table s.page d i := by
  rw [table, h.directory, table]

theorem of_absent (h : ∀ v ∈ vs, target (entry s.page d v) = none) : Unmapped d vs s s := by
  have hframes : frames s.page d vs = [] := List.filterMap_eq_nil_iff.mpr h
  refine ⟨by rw [hframes]; rfl, rfl, ?_, ?_, rfl, fun _ _ _ => rfl⟩
  · rw [hframes]
    exact fun x hx => absurd hx List.not_mem_nil
  · intro v _
    rw [if_neg fun hv => hv.2 (h v hv.1)]

theorem frames_eq (h : Unmapped d vs s t) (hws : ∀ v ∈ ws, v < UPAGES) (hdisj : ∀ v ∈ ws, v ∉ vs) :
    frames t.page d ws = frames s.page d ws := by
  apply List.filterMap_congr
  intro v hv
  rw [h.entries v (user_lt ⟨v, hws v hv⟩), if_neg fun hm => hdisj v hv hm.1]

theorem trans (h : Unmapped d vs s t) (h' : Unmapped d ws t u) (hdist : Distinct s.page d)
    (hvs : ∀ v ∈ vs, v < UPAGES) (hws : ∀ v ∈ ws, v < UPAGES) (hdisj : ∀ v ∈ ws, v ∉ vs) :
    Unmapped d (vs ++ ws) s u := by
  have hsame := h.frames_eq hws hdisj
  have happ : frames s.page d (vs ++ ws) = frames s.page d vs ++ frames s.page d ws :=
    List.filterMap_append
  refine ⟨?_, h'.deny.trans h.deny, ?_, ?_, h'.directory.trans h.directory, ?_⟩
  · rw [h'.free, h.free, hsame, happ, List.reverse_append, List.append_assoc]
  · intro x hx
    rw [happ, List.mem_append] at hx
    by_cases hx' : x ∈ frames s.page d ws
    · exact h'.junk x (hsame ▸ hx')
    · have hx := hx.resolve_right hx'
      obtain ⟨v, hv, hxv⟩ := mem_frames.mp hx
      -- a user page is not a page table
      rw [h'.others x (hsame ▸ hx') fun w hw ht => ?_, h.junk x hx]
      rw [h.table_eq] at ht
      exact hdist.not_control (hvs v hv) hxv (Or.inr ⟨_, div_lt_of_lt (user_lt ⟨w, hws w hw⟩), ht⟩)
  · intro v hv
    rw [h'.entries v hv, h.entries v hv]
    by_cases hin : v ∈ vs ∧ target (entry s.page d v) ≠ none
    · rw [if_pos hin, target_zero, if_neg fun hw => hw.2 rfl, if_pos ⟨List.mem_append_left _ hin.1, hin.2⟩]
    · simp only [if_neg hin, List.mem_append]
      by_cases hin' : v ∈ ws ∧ target (entry s.page d v) ≠ none
      · rw [if_pos hin', if_pos ⟨Or.inr hin'.1, hin'.2⟩]
      · rw [if_neg hin', if_neg]
        rintro ⟨hv | hv, hp⟩
        · exact hin ⟨hv, hp⟩
        · exact hin' ⟨hv, hp⟩
  · intro x hx hnot
    rw [happ, List.mem_append, not_or] at hx
    rw [h'.others x (hsame ▸ hx.2) fun v hv => ?_, h.others x hx.1 fun v hv => hnot v (List.mem_append_left _ hv)]
    rw [h.table_eq]
    exact hnot v (List.mem_append_right _ hv)

end Unmapped

def Mem.release (s : Mem) (p : ℕ) : Mem := { s.put p fun _ => 1 with free := p :: s.free }

theorem kfree_eq (hm : img.Managed p) (s : Mem) : kfree img p s = .ok ((), s.release p) := by
  have hrange : ¬(p < img.kend ∨ p*PGSIZE ≥ PHYSTOP) := by
    have h1 := hm.1
    have h2 := hm.2
    simp only [PHYSTOP, PGSIZE] at h2 ⊢
    omega
  rw [kfree, if_neg hrange]
  rfl

theorem freePte_exact (h : Balanced img (d :: D) L s) (hv : v < UPAGES)
    (ht : table s.page d (v/NPTENTRIES) = some tab) :
    wp F (freePte img tab (v%NPTENTRIES)) (fun _ t => Unmapped d [v] s t) s := by
  have hlt := user_lt ⟨v, hv⟩
  have hdist := h.distinct List.mem_cons_self
  unfold freePte
  rw [wp_bind, wp_getPte, ← entry_of_table ht]
  by_cases hp : entry s.page d v &&& PTE_P ≠ 0
  · have htarget := target_of_present hp
    have hm := h.user_managed hv htarget
    have hne := h.user_ne_table hv ht htarget
    have hpd : PTE_ADDR (entry s.page d v) ≠ d := fun he => hdist.not_control hv htarget (Or.inl he)
    have htd : tab ≠ d := hdist.table_ne (div_lt_of_lt hlt) ht
    generalize PTE_ADDR (entry s.page d v) = q at htarget hm hne hpd ⊢
    rw [if_pos hp, if_neg (img.kend_pos.trans_le hm.1).ne']
    unfold wp
    rw [kfree_setPte hne, kfree_eq hm]
    have hframes : frames s.page d [v] = [q] := List.filterMap_cons_some htarget
    have hpage (x : ℕ) (hx : x ≠ q) (hx' : x ≠ tab) : ((s.setEntry tab v 0).release q).page x = s.page x := by
      rw [Mem.release, Mem.put_of_ne hx, Mem.setEntry, Mem.put_of_ne hx']
    refine ⟨by rw [hframes]; rfl, rfl, ?_, ?_, ?_, ?_⟩
    · intro x hx
      rw [hframes, List.mem_singleton] at hx
      rw [hx, Mem.release, Mem.put_same]
    · intro w hw
      have hcontrol (x : ℕ) (hx : Control (rewrite s.page tab v 0) d x) :
          ((s.setEntry tab v 0).release q).page x = rewrite s.page tab v 0 x := by
        refine Mem.put_of_ne ?_
        rintro rfl
        rw [Control, table_rewrite hdist hlt ht] at hx
        exact hdist.not_control hv htarget hx
      rw [entry_congr hcontrol hw, entry_rewrite hdist hlt ht hw]
      by_cases hwv : w = v
      · rw [if_pos hwv, if_pos ⟨List.mem_singleton.mpr hwv, by rw [hwv, htarget]; exact Option.some_ne_none _⟩]
      · rw [if_neg hwv, if_neg fun hin => hwv (List.mem_singleton.mp hin.1)]
    · exact hpage d hpd.symm htd.symm
    · intro x hx hnot
      rw [hframes, List.mem_singleton] at hx
      refine hpage x hx ?_
      rintro rfl
      exact hnot v (List.mem_singleton_self v) ht
  · rw [if_neg hp]
    refine Unmapped.of_absent ?_
    intro w hw
    rw [List.mem_singleton.mp hw]
    exact target_eq_none.mpr (not_not.mp hp)

theorem target_no_table (h : table s.page d (v/NPTENTRIES) = none) : target (entry s.page d v) = none := by
  rw [entry_of_no_table h, target_zero]

theorem deallocLoop_exact {oldsz : ℕ} (hold : oldsz ≤ KERNBASE) (fuel v : ℕ) (hpos : 0 < fuel)
    (hfuel : pages oldsz < v+fuel) (s : Mem) (h : Balanced img (d :: D) L s) :
    wp F (deallocLoop img d oldsz fuel (v*PGSIZE))
      (fun _ t => Unmapped d (List.range' v (pages oldsz-v)) s t) s := by
  have hpages := pages_le hold
  have huser {a : ℕ} (u : ℕ) (hu : u ∈ List.range' a (pages oldsz-a)) : u < UPAGES := by
    rw [List.mem_range'_1] at hu
    omega
  induction fuel generalizing v s with
  | zero => exact absurd hpos (lt_irrefl 0)
  | succ fuel ih =>
    unfold deallocLoop
    split_ifs with hlt
    · have hv : v < pages oldsz := lt_pages.mpr hlt
      rw [wp_bind, walkpgdir_false, PDX_eq]
      cases ht : table s.page d (v/NPTENTRIES) with
      | none =>
        have hnext : uint ((v/NPTENTRIES+1)*0x400000) = (v/NPTENTRIES+1)*NPTENTRIES*PGSIZE := by
          simp only [uint, NPTENTRIES, PGSIZE, UPAGES, KERNBASE] at hpages ⊢
          omega
        have hgap : v < (v/NPTENTRIES+1)*NPTENTRIES := by
          simp only [NPTENTRIES]
          omega
        have hregion (u : ℕ) (hu : u ∈ List.range' v (min (pages oldsz) ((v/NPTENTRIES+1)*NPTENTRIES)-v)) :
            u/NPTENTRIES = v/NPTENTRIES := by
          rw [List.mem_range'_1] at hu
          simp only [NPTENTRIES] at hu ⊢
          omega
        rw [hnext]
        generalize (v/NPTENTRIES+1)*NPTENTRIES = w at hgap hregion ⊢
        -- the list is the rest of the region and what the loop goes on with
        have hsplit : List.range' v (pages oldsz-v) =
            List.range' v (min (pages oldsz) w-v) ++ List.range' w (pages oldsz-w) := by
          rcases le_total (pages oldsz) w with hle | hle
          · rw [min_eq_left hle, Nat.sub_eq_zero_of_le hle, List.range'_zero, List.append_nil]
          · rw [min_eq_right hle]
            exact (List.Ico.append_consecutive hgap.le hle).symm
        apply wp_mono (ih w (by omega) (by omega) s h)
        intro _ t hut
        have habsent : Unmapped d (List.range' v (min (pages oldsz) w-v)) s s :=
          Unmapped.of_absent fun u hu => target_no_table (by rw [hregion u hu, ht])
        rw [hsplit]
        refine habsent.trans hut (h.distinct List.mem_cons_self) (fun u hu => ?_) huser fun u hu hu' => ?_
        · rw [List.mem_range'_1] at hu
          omega
        · rw [List.mem_range'_1] at hu hu'
          omega
      | some tab =>
        dsimp only
        rw [wp_bind, PTX_eq]
        refine wp_mono (wp_and (freePte_spec h (hv.trans_le hpages) ht) (freePte_exact (F := F) h (hv.trans_le hpages) ht)
          fun _ he _ => he) ?_
        rintro _ s' ⟨⟨hb', -, -⟩, hu'⟩
        rw [uint_next (hv.trans_le hpages)]
        apply wp_mono (ih (v+1) (by omega) (by omega) s' hb')
        intro _ t hut
        have hsplit : List.range' v (pages oldsz-v) = [v] ++ List.range' (v+1) (pages oldsz-(v+1)) := by
          rw [show pages oldsz-v = pages oldsz-(v+1)+1 by omega, List.range'_succ, List.singleton_append]
        rw [hsplit]
        refine hu'.trans hut (h.distinct List.mem_cons_self) (fun u hu => ?_) huser fun u hu hu' => ?_
        · rw [List.mem_singleton.mp hu]
          omega
        · rw [List.mem_range'_1] at hu
          have := List.mem_singleton.mp hu'
          omega
    · have hnil : List.range' v (pages oldsz-v) = [] := by
        rw [List.range'_eq_nil_iff]
        have := lt_pages.not.mpr hlt
        omega
      rw [hnil]
      exact Unmapped.of_absent fun v hv => absurd hv List.not_mem_nil

/-- The virtual pages with an address in [PGROUNDUP(lo), hi). -/
def between (lo hi : ℕ) : List ℕ :=
  (List.range UPAGES).filter fun v => PGROUNDUP lo ≤ v*PGSIZE ∧ v*PGSIZE < hi

theorem mem_between {lo hi : ℕ} (hlo : lo ≤ KERNBASE) (hhi : hi ≤ KERNBASE) :
    v ∈ between lo hi ↔ pages lo ≤ v ∧ v < pages hi := by
  have hpages := pages_le hhi
  rw [between, List.mem_filter, List.mem_range, decide_eq_true_eq, PGROUNDUP_eq hlo, ← lt_pages,
    Nat.mul_le_mul_right_iff (by decide)]
  omega

theorem between_eq {lo hi : ℕ} (hlo : lo ≤ KERNBASE) (hhi : hi ≤ KERNBASE) :
    between lo hi = List.range' (pages lo) (pages hi-pages lo) := by
  have hfilter : between lo hi = ((List.Ico 0 UPAGES).filter (· < pages hi)).filter (pages lo ≤ ·) := by
    rw [List.filter_filter, List.Ico.zero_bot, between]
    apply List.filter_congr
    intro v _
    rw [← Bool.decide_and, decide_eq_decide, PGROUNDUP_eq hlo, ← lt_pages,
      Nat.mul_le_mul_right_iff (by decide)]
  rw [hfilter, List.Ico.filter_lt, List.Ico.filter_le, min_eq_right (pages_le hhi), Nat.zero_max]
  rfl

theorem deallocuvm_exact {oldsz newsz : ℕ} (hold : oldsz ≤ KERNBASE) (hlt : newsz < oldsz)
    (h : Balanced img (d :: D) L s) :
    wp F (deallocuvm img d oldsz newsz) (fun r t => r = newsz ∧ Unmapped d (between newsz oldsz) s t) s := by
  have hfuel : pages oldsz < pages newsz+(oldsz/PGSIZE+2) := by
    simp only [pages, PGSIZE]
    omega
  rw [deallocuvm, if_neg (by omega), wp_bind, PGROUNDUP_eq (by omega), between_eq (by omega) hold]
  apply wp_mono (deallocLoop_exact hold _ _ (Nat.succ_pos _) hfuel s h)
  exact fun _ t hut => ⟨rfl, hut⟩

/-- The page tables that d has in m' and did not have in m. -/
def newTables (m m' : ℕ → Block) (d : ℕ) : List ℕ :=
  ((List.range NPDENTRIES).filter fun i => (table m d i).isNone).filterMap (table m' d)

theorem Balanced.free_perm {P : ℕ → Bool} (h : Balanced img (d :: D) L s) (h' : Balanced img (d :: D) L t)
    (hk : Kept D L s t) (htab : ∀ i, table s.page d i ≠ none → table t.page d i = table s.page d i)
    (hin : ∀ v < UPAGES, P v = true → target (entry s.page d v) = none)
    (hout : ∀ v < UPAGES, P v = false → target (entry t.page d v) = target (entry s.page d v)) :
    s.free.Perm (frames t.page d ((List.range UPAGES).filter P) ++ (newTables s.page t.page d ++ t.free)) := by
  rw [List.perm_iff_count]
  intro x
  have hs := h.count x
  have ht := h'.count x
  rw [heldBy_cons, held] at hs ht
  rw [hk.heldBy_eq] at ht
  have hu : refs (user t.page d) x =
      refs (user s.page d) x+(frames t.page d ((List.range UPAGES).filter P)).count x := refs_gain hin hout x
  have hnew : refs (tables t.page d) x = refs (tables s.page d) x+(newTables s.page t.page d).count x := by
    refine refs_gain (fun i _ hi => Option.isNone_iff_eq_none.mp hi) (fun i _ hi => htab i ?_) x
    intro hnone
    rw [hnone] at hi
    cases hi
  rw [List.count_append, List.count_append]
  omega

/-- The virtual pages vs have new pages of zeros, which come from the free list. -/
structure Mapped (d : ℕ) (vs : List ℕ) (s t : Mem) : Prop where
  fresh : ∀ v ∈ vs, Fresh t d v
  distinct : (frames t.page d vs).Nodup
  free : s.free.Perm (frames t.page d vs ++ (newTables s.page t.page d ++ t.free))
  tables : ∀ i, table s.page d i ≠ none → table t.page d i = table s.page d i
  entries : ∀ v < NPDENTRIES*NPTENTRIES, v ∉ vs → entry t.page d v = entry s.page d v
  contents : ∀ v < UPAGES, v ∉ vs → content t d v = content s d v

/-- The user pages are as before, and only new page tables are missing on the free list. -/
structure Restored (d : ℕ) (s t : Mem) : Prop where
  free : s.free.Perm (newTables s.page t.page d ++ t.free)
  tables : ∀ i, table s.page d i ≠ none → table t.page d i = table s.page d i
  kernel : ∀ v < NPDENTRIES*NPTENTRIES, UPAGES ≤ v → entry t.page d v = entry s.page d v
  targets : ∀ v < UPAGES, target (entry t.page d v) = target (entry s.page d v)
  contents : ∀ v < UPAGES, content t d v = content s d v

section Ends
variable (h : Balanced img (d :: D) L s) (h' : Balanced img (d :: D) L t)

include h h' in
theorem Upd.restored {V : ℕ → Prop} (hu : Upd d (fun i => KernelTable i ∨ table s.page d i ≠ none) V D L s t)
    (hk : ∀ v, UPAGES ≤ v → V v)
    (hout : ∀ v < UPAGES, ¬V v → target (entry s.page d v) = none ∧ target (entry t.page d v) = none) :
    Restored d s t := by
  have htargets : ∀ v < UPAGES, target (entry t.page d v) = target (entry s.page d v) := by
    intro v hv
    by_cases hV : V v
    · rw [hu.entries v (user_lt ⟨v, hv⟩) hV]
    · rw [(hout v hv hV).1, (hout v hv hV).2]
  have htables (i : ℕ) (hi : table s.page d i ≠ none) : table t.page d i = table s.page d i :=
    hu.tables i (Or.inr hi)
  refine ⟨?_, htables, fun v hv hle => hu.entries v hv (hk v hle), htargets, ?_⟩
  · have hperm := h.free_perm h' (P := fun _ => false) hu.kept htables (fun _ _ h => absurd h Bool.false_ne_true)
      fun v hv _ => htargets v hv
    rwa [List.filter_false, frames, List.filterMap_nil, List.nil_append] at hperm
  · intro v hv
    by_cases hV : V v
    · exact hu.content hv hV
    · rw [content_eq_none.mpr (hout v hv hV).1, content_eq_none.mpr (hout v hv hV).2]

include h h' in
theorem Upd.mapped {oldsz newsz : ℕ} (hold : oldsz ≤ KERNBASE) (hnew : newsz ≤ KERNBASE)
    (hu : Upd d (fun i => KernelTable i ∨ table s.page d i ≠ none)
      (fun v => v < pages oldsz ∨ pages newsz ≤ v) D L s t)
    (hnone : ∀ v ∈ between oldsz newsz, target (entry s.page d v) = none)
    (hfresh : ∀ v ∈ between oldsz newsz, Fresh t d v) : Mapped d (between oldsz newsz) s t := by
  have hout {v : ℕ} (hv : v ∉ between oldsz newsz) : v < pages oldsz ∨ pages newsz ≤ v := by
    rw [mem_between hold hnew] at hv
    omega
  have htables (i : ℕ) (hi : table s.page d i ≠ none) : table t.page d i = table s.page d i :=
    hu.tables i (Or.inr hi)
  have hperm : s.free.Perm (frames t.page d (between oldsz newsz) ++ (newTables s.page t.page d ++ t.free)) := by
    refine h.free_perm h' hu.kept htables (fun v hv hP => hnone v ?_) fun v hv hP => ?_
    · exact List.mem_filter.mpr ⟨List.mem_range.mpr hv, hP⟩
    · rw [hu.entries v (user_lt ⟨v, hv⟩) (hout fun hin => ?_)]
      exact Bool.false_ne_true (hP.symm.trans (List.mem_filter.mp hin).2)
  have hnodup : s.free.Nodup := by
    rw [List.nodup_iff_count_le_one]
    intro x
    have := h.le_one x
    omega
  exact ⟨hfresh, (List.nodup_append.mp (hperm.nodup_iff.mp hnodup)).1, hperm, htables,
    fun v hv hin => hu.entries v hv (hout hin), fun v hv hin => hu.content hv (hout hin)⟩

end Ends

/-- The pages of directory d and the free pages are managed ones, and none is two of them. -/
def OneUse (img : Image) (d : ℕ) (s : Mem) : Prop :=
  ∀ x, s.free.count x+held s.page d x ≤ if img.Managed x then 1 else 0

theorem Balanced.oneUse (h : Balanced img (d :: D) L s) : OneUse img d s := by
  intro x
  rw [← h.count x, heldBy_cons]
  omega

theorem OneUse.balanced {img : Image} (h : OneUse img d s) : ∃ L, Balanced ⟨img, s.page⟩ [d] L s := by
  refine ⟨(List.range (PHYSTOP/PGSIZE)).filter fun x => img.Managed x ∧ s.free.count x+held s.page d x = 0, ?_,
    fun _ _ => rfl⟩
  intro x
  have hx := h x
  rw [(List.nodup_range.filter _).count, heldBy_cons, heldBy_nil]
  simp only [List.mem_filter, List.mem_range, decide_eq_true_eq]
  by_cases hm : img.Managed x
  · have hlt := hm.2
    rw [if_pos hm] at hx ⊢
    split_ifs with hin
    · omega
    · have : s.free.count x+held s.page d x ≠ 0 := fun h0 => hin ⟨hlt, hm, h0⟩
      omega
  · rw [if_neg hm] at hx ⊢
    rw [if_neg fun hin => hm hin.2.1]
    omega

/-- `deallocuvm` unmaps and frees the pages in its range that are present, each once and nothing
else. `allocuvm` fills an empty range with new pages of zeros, or ends with 0 and the user pages as
before, whenever `kalloc` fails. -/
theorem allocuvm_deallocuvm_exact {img : Image} {oldsz newsz : ℕ} (h : OneUse img d s) (hold : oldsz ≤ KERNBASE)
    (hnew : newsz ≤ KERNBASE) :
    (newsz < oldsz → ∃ t, deallocuvm img d oldsz newsz s = .ok (newsz, t) ∧ OneUse img d t ∧
      Unmapped d (between newsz oldsz) s t) ∧
    ((∀ v ∈ between oldsz newsz, target (entry s.page d v) = none) →
      ∃ r t, allocuvm img d oldsz newsz s = .ok (r, t) ∧ OneUse img d t ∧
        (newsz < oldsz ∧ r = oldsz ∧ t = s ∨
          oldsz ≤ newsz ∧ r = newsz ∧ Mapped d (between oldsz newsz) s t ∨
          oldsz ≤ newsz ∧ r = 0 ∧ Restored d s t)) := by
  obtain ⟨L, hb⟩ := h.balanced
  constructor
  · intro hlt
    obtain ⟨r, t, hrun, rfl, hut⟩ := wp_total (deallocuvm_exact hold hlt hb)
    obtain ⟨-, hbt, -⟩ := wp_ok (deallocuvm_spec (F := fun _ => False) r hold hb) hrun
    exact ⟨t, hrun, hbt.oneUse, hut⟩
  · intro hnone
    by_cases hk : KERNBASE ≤ newsz
    · refine ⟨0, s, by rw [allocuvm, if_pos hk]; rfl, h, Or.inr (Or.inr ⟨hold.trans hk, rfl, ?_⟩)⟩
      exact (Kept.refl _ _ _).upd.restored (V := All) hb hb (fun _ _ => trivial) fun _ _ hV => absurd trivial hV
    · by_cases hlt : newsz < oldsz
      · exact ⟨oldsz, s, by rw [allocuvm, if_neg hk, if_pos hlt]; rfl, h, Or.inl ⟨hlt, rfl, rfl⟩⟩
      · have hfree (u : ℕ) (hu : pages oldsz ≤ u) (hu' : u < pages newsz) :
            target (entry s.page d u) = none ∨ False :=
          Or.inl (hnone u ((mem_between hold hnew).mpr ⟨hu, hu'⟩))
        obtain ⟨r, t, hrun, hbt, ⟨rfl, hu, hfresh⟩ | ⟨rfl, hu, hback⟩⟩ :=
          wp_total (allocuvm_grows (not_lt.mp hlt) (not_le.mp hk) hb (fun _ h => h) hfree)
        · refine ⟨r, t, hrun, hbt.oneUse, Or.inr (Or.inl ⟨not_lt.mp hlt, rfl, ?_⟩)⟩
          exact hu.mapped hb hbt hold hnew hnone fun v hv =>
            hfresh v ((mem_between hold hnew).mp hv).1 ((mem_between hold hnew).mp hv).2
        · refine ⟨0, t, hrun, hbt.oneUse, Or.inr (Or.inr ⟨not_lt.mp hlt, rfl, ?_⟩)⟩
          refine hu.restored hb hbt (fun v hv => Or.inr ((pages_le hnew).trans hv)) fun v hv hV => ?_
          have hin : pages oldsz ≤ v ∧ v < pages newsz := by omega
          exact ⟨hnone v ((mem_between hold hnew).mpr hin), hback v hin.1 hin.2⟩

theorem allocuvm_deallocuvm_exact_onePage :
    (∃ t, deallocuvm smallImage 0x116 4096 0 onePage = .ok (0, t) ∧ t.free = 0x118 :: onePage.free) ∧
    ∃ r t, allocuvm smallImage 0x116 4096 8192 onePage = .ok (r, t) ∧
      (r = 8192 ∧ Mapped 0x116 (between 4096 8192) onePage t ∨ r = 0 ∧ Restored 0x116 onePage t) := by
  have h := onePage_spec.1.oneUse
  constructor
  · obtain ⟨t, hrun, -, hut⟩ := (allocuvm_deallocuvm_exact h (show 4096 ≤ KERNBASE by decide)
      (Nat.zero_le _)).1 (by decide)
    have hone : between 0 4096 = [0] := between_eq (by decide) (by decide)
    have hframes : frames onePage.page 0x116 [0] = [0x118] := by
      refine List.filterMap_cons_some ?_
      rw [onePage_spec.2 0 (by decide), if_pos rfl, target_userPte (by decide)]
    refine ⟨t, hrun, ?_⟩
    rw [hut.free, hone, hframes, List.reverse_singleton, List.singleton_append]
  · have hnone : ∀ v ∈ between 4096 8192, target (entry onePage.page 0x116 v) = none := by
      intro v hv
      have hin := (mem_between (by decide) (by decide)).mp hv
      have hpages : pages 4096 = 1 ∧ pages 8192 = 2 := ⟨rfl, rfl⟩
      rw [onePage_spec.2 v (by rw [UPAGES, KERNBASE, PGSIZE]; omega), if_neg (by omega), target_zero]
    obtain ⟨r, t, hrun, -, hends⟩ := (allocuvm_deallocuvm_exact h (show 4096 ≤ KERNBASE by decide)
      (show 8192 ≤ KERNBASE by decide)).2 hnone
    rcases hends with ⟨hlt, -⟩ | ⟨-, hr, hm⟩ | ⟨-, hr, hm⟩
    · exact absurd hlt (by decide)
    · exact ⟨r, t, hrun, Or.inl ⟨hr, hm⟩⟩
    · exact ⟨r, t, hrun, Or.inr ⟨hr, hm⟩⟩

end ProvenXv6.Vm
