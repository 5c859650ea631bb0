import ProvenXv6.VmLayout

namespace ProvenXv6.Vm
open RefCount WeakestPre
open Fs (Byte Block Fault getWord setWord getWord_setWord)

/-- The pages that kinit1 and kinit2 hand to the allocator. -/
def Image.Managed (img : Image) (x : ℕ) : Prop := img.kend ≤ x ∧ x < PHYSTOP/PGSIZE

instance (img : Image) (x : ℕ) : Decidable (img.Managed x) := inferInstanceAs (Decidable (_ ∧ _))

theorem Image.kend_pos (img : Image) : 0 < img.kend :=
  ((Nat.zero_le _).trans_lt img.text).trans_le img.data_le

/-- An image in memory, with what the pages hold that the allocator does not manage. -/
structure BootImage extends Image where
  contents : ℕ → Block

instance : CoeOut BootImage Image := ⟨BootImage.toImage⟩

/-- How often the directories D hold page x. -/
def heldBy (m : ℕ → Block) (D : List ℕ) (x : ℕ) : ℕ := (D.map fun d => held m d x).sum

@[simp] theorem heldBy_nil (m : ℕ → Block) (x : ℕ) : heldBy m [] x = 0 := rfl

@[simp] theorem heldBy_cons (m : ℕ → Block) (d : ℕ) (D : List ℕ) (x : ℕ) :
    heldBy m (d :: D) x = held m d x+heldBy m D x := by
  simp [heldBy]

theorem heldBy_perm {D D' : List ℕ} (h : D.Perm D') (m : ℕ → Block) (x : ℕ) :
    heldBy m D x = heldBy m D' x := (h.map _).sum_eq

theorem held_le_heldBy {m : ℕ → Block} {D : List ℕ} {d : ℕ} (hd : d ∈ D) (x : ℕ) :
    held m d x ≤ heldBy m D x := by
  induction D with
  | nil => cases hd
  | cons e D ih =>
    rw [heldBy_cons]
    rcases List.mem_cons.mp hd with rfl | hd
    · omega
    · have := ih hd
      omega

theorem heldBy_congr {m m' : ℕ → Block} {D : List ℕ} (h : ∀ d ∈ D, held m' d = held m d) :
    heldBy m' D = heldBy m D := by
  have hmap (x : ℕ) : (D.map fun d => held m' d x) = D.map fun d => held m d x := by
    apply List.map_congr_left
    intro d hd
    rw [h d hd]
  funext x
  rw [heldBy, heldBy, hmap]

/-- Every page that the allocator manages is on the free list, held by one of the
directories D, or one of the loose pages L, and that once. The others are untouched. -/
structure Balanced (img : BootImage) (D L : List ℕ) (s : Mem) : Prop where
  count : ∀ x, s.free.count x+heldBy s.page D x+L.count x = if img.Managed x then 1 else 0
  rest : ∀ x, ¬img.Managed x → s.page x = img.contents x

variable {img : BootImage} {D L : List ℕ} {s t u : Mem} {d x p v : ℕ} {F : Fault → Prop}

namespace Balanced

theorem le_one (h : Balanced img D L s) (x : ℕ) : s.free.count x+heldBy s.page D x+L.count x ≤ 1 := by
  rw [h.count x]
  split_ifs <;> omega

theorem managed (h : Balanced img D L s) (hx : 0 < s.free.count x+heldBy s.page D x+L.count x) :
    img.Managed x := by
  rw [h.count x] at hx
  by_contra hn
  rw [if_neg hn] at hx
  omega

theorem page_lt (h : Balanced img D L s) (hx : x ∈ L) : x < 0x100000 := by
  have hm : img.Managed x := h.managed (by have := List.count_pos_iff.mpr hx; omega)
  have := hm.2
  simp only [PHYSTOP, PGSIZE] at this
  omega

theorem distinct (h : Balanced img D L s) (hd : d ∈ D) : Distinct s.page d := by
  intro x
  have h1 := h.le_one x
  have h2 := held_le_heldBy (m := s.page) hd x
  omega

theorem not_control (h : Balanced img D L s) (hx : 0 < s.free.count x+L.count x) (hd : d ∈ D) :
    ¬Control s.page d x := by
  intro hc
  have h1 := h.le_one x
  have h2 := held_le_heldBy (m := s.page) hd x
  have h3 := hc.held_pos
  omega

theorem not_control_loose (h : Balanced img D L s) (hx : x ∈ L) (hd : d ∈ D) :
    ¬Control s.page d x :=
  h.not_control (by have := List.count_pos_iff.mpr hx; omega) hd

theorem not_control_other (h : Balanced img (d :: D) L s) (hx : 0 < held s.page d x) {e : ℕ}
    (he : e ∈ D) : ¬Control s.page e x := by
  intro hc
  have h1 := h.le_one x
  rw [heldBy_cons] at h1
  have h2 := held_le_heldBy (m := s.page) he x
  have h3 := hc.held_pos
  omega

theorem congr (h : Balanced img D L s) (hfree : t.free = s.free) (hpage : t.page = s.page) :
    Balanced img D L t := by
  constructor
  · rw [hfree, hpage]
    exact h.count
  · rw [hpage]
    exact h.rest

theorem perm {D' L' : List ℕ} (h : Balanced img D L s) (hD : D.Perm D') (hL : L.Perm L') :
    Balanced img D' L' s where
  count x := by rw [← heldBy_perm hD, ← hL.count_eq x, h.count x]
  rest := h.rest

end Balanced

def Kept (D L : List ℕ) (s t : Mem) : Prop :=
  ∀ x, 0 < heldBy s.page D x+L.count x → t.page x = s.page x

namespace Kept

theorem control (h : Kept D L s t) (hd : d ∈ D) (x : ℕ) (hx : Control s.page d x) :
    t.page x = s.page x := by
  apply h
  have h1 := hx.held_pos
  have h2 := held_le_heldBy (m := s.page) hd x
  omega

theorem heldBy_eq (h : Kept D L s t) : heldBy t.page D = heldBy s.page D :=
  heldBy_congr fun _ hd => held_congr (h.control hd)

theorem refl (D L : List ℕ) (s : Mem) : Kept D L s s := fun _ _ => rfl

theorem trans (h : Kept D L s t) (h' : Kept D L t u) : Kept D L s u := by
  intro x hx
  rw [h' x (by rwa [h.heldBy_eq]), h x hx]

theorem loose (h : Kept D (p :: L) s t) : Kept D L s t := by
  intro x hx
  apply h
  rw [List.count_cons]
  omega

theorem dirs (h : Kept (d :: D) L s t) : Kept D L s t := by
  intro x hx
  apply h
  rw [heldBy_cons]
  omega

end Kept

/-- A change to the directory d beside the directories D and the loose pages L: the
page tables in I and the entries in V stay, with the user pages behind them. -/
structure Upd (d : ℕ) (I V : ℕ → Prop) (D L : List ℕ) (s t : Mem) : Prop where
  kept : Kept D L s t
  tables : ∀ i, I i → table t.page d i = table s.page d i
  entries : ∀ v < NPDENTRIES*NPTENTRIES, V v → entry t.page d v = entry s.page d v
  contents : ∀ v < UPAGES, V v → ∀ x, target (entry s.page d v) = some x → t.page x = s.page x

def All : ℕ → Prop := fun _ => True

section UpdRules
variable {I I' V V' : ℕ → Prop}

theorem Upd.trans (h : Upd d I V D L s t) (h' : Upd d I V D L t u) : Upd d I V D L s u where
  kept := h.kept.trans h'.kept
  tables i hi := by rw [h'.tables i hi, h.tables i hi]
  entries v hv hV := by rw [h'.entries v hv hV, h.entries v hv hV]
  contents v hv hV x hx := by
    have hx' : target (entry t.page d v) = some x := by
      rw [h.entries v (user_lt ⟨v, hv⟩) hV, hx]
    rw [h'.contents v hv hV x hx', h.contents v hv hV x hx]

theorem Upd.mono (h : Upd d I V D L s t) (hI : ∀ i, I' i → I i) (hV : ∀ v, V' v → V v) :
    Upd d I' V' D L s t where
  kept := h.kept
  tables i hi := h.tables i (hI i hi)
  entries v hv hv' := h.entries v hv (hV v hv')
  contents v hv hv' := h.contents v hv (hV v hv')

theorem Upd.loose (h : Upd d I V D (p :: L) s t) : Upd d I V D L s t :=
  { h with kept := h.kept.loose }

theorem Kept.upd (h : Kept (d :: D) L s t) : Upd d I V D L s t where
  kept := h.dirs
  tables i _ := by rw [table_congr (h.control List.mem_cons_self)]
  entries v hv _ := entry_congr (h.control List.mem_cons_self) hv
  contents v hv _ x hx := by
    apply h
    have : 0 < refs (user s.page d) x := refs_pos_of (i := ⟨v, hv⟩) hx
    rw [heldBy_cons, held]
    omega

end UpdRules

def Mem.put (s : Mem) (p : ℕ) (b : Block) : Mem := { s with page := Function.update s.page p b }

theorem Mem.put_of_ne {b : Block} (h : x ≠ p) : (s.put p b).page x = s.page x :=
  Function.update_of_ne h ..

@[simp] theorem Mem.put_same (b : Block) : (s.put p b).page p = b := Function.update_self ..

theorem heldBy_put (b : Block) (hp : ∀ d ∈ D, ¬Control s.page d p) :
    heldBy (s.put p b).page D = heldBy s.page D := by
  apply heldBy_congr
  intro d hd
  apply held_congr
  intro x hx
  apply Mem.put_of_ne
  rintro rfl
  exact hp d hd hx

theorem Balanced.put (h : Balanced img D L s) (b : Block) (hm : img.Managed p)
    (hp : ∀ d ∈ D, ¬Control s.page d p) : Balanced img D L (s.put p b) where
  count x := by
    rw [heldBy_put b hp]
    exact h.count x
  rest x hx := by
    have hne : x ≠ p := fun he => hx (he ▸ hm)
    rw [Mem.put_of_ne hne]
    exact h.rest x hx

theorem Balanced.managed_held (h : Balanced img D L s) (hd : d ∈ D) (hx : 0 < held s.page d x) :
    img.Managed x :=
  h.managed (by have := held_le_heldBy (m := s.page) hd x; omega)

theorem Balanced.managed_dir (h : Balanced img D L s) (hd : d ∈ D) : img.Managed d :=
  h.managed_held hd (Control.held_pos (Or.inl rfl))

theorem Balanced.managed_loose (h : Balanced img D L s) (hp : p ∈ L) : img.Managed p :=
  h.managed (by have := List.count_pos_iff.mpr hp; omega)

theorem Balanced.put_loose (h : Balanced img D (p :: L) s) (b : Block) :
    Balanced img D (p :: L) (s.put p b) :=
  h.put b (h.managed_loose List.mem_cons_self) fun _ hd => h.not_control_loose List.mem_cons_self hd

theorem Balanced.kept_put (h : Balanced img D (p :: L) s) (b : Block) : Kept D L s (s.put p b) := by
  intro x hx
  apply Mem.put_of_ne
  rintro rfl
  have h1 := h.le_one x
  rw [List.count_cons_self] at h1
  omega

section Rules

@[simp] theorem wp_panic {α : Type} (msg : String) (Q : α → Mem → Prop) :
    wp F (panic msg) Q s ↔ F (.panic msg) := Iff.rfl

@[simp] theorem wp_setPage (b : Block) (Q : Unit → Mem → Prop) :
    wp F (setPage p b) Q s ↔ Q () (s.put p b) := Iff.rfl

@[simp] theorem wp_memset (b : Byte) (Q : Unit → Mem → Prop) :
    wp F (memset p b) Q s ↔ Q () (s.put p fun _ => b) := Iff.rfl

@[simp] theorem wp_getPte (i : ℕ) (Q : BitVec 32 → Mem → Prop) :
    wp F (getPte p i) Q s ↔ Q (getWord (s.page p) i) s := Iff.rfl

@[simp] theorem wp_setPte (i : ℕ) (w : BitVec 32) (Q : Unit → Mem → Prop) :
    wp F (setPte p i w) Q s ↔ Q () (s.put p (setWord (s.page p) i w)) := Iff.rfl

end Rules

theorem kalloc_spec (h : Balanced img D L s) :
    wp F kalloc (fun r t => t.page = s.page ∧ match r with
      | none => Balanced img D L t
      | some p => Balanced img D (p :: L) t) s := by
  unfold kalloc
  simp only [wp_bind, wp_get, wp_modify]
  cases hf : s.free with
  | nil => exact ⟨rfl, h.congr hf.symm rfl⟩
  | cons p rest =>
    dsimp only
    split_ifs with hd
    · exact ⟨rfl, h.congr hf.symm rfl⟩
    · refine ⟨rfl, fun x => ?_, h.rest⟩
      have hx := h.count x
      rw [hf, List.count_cons] at hx
      rw [← hx, List.count_cons]
      dsimp only
      omega

theorem kfree_spec (h : Balanced img D (p :: L) s) :
    wp F (kfree img p) (fun _ t => Balanced img D L t ∧ Kept D L s t) s := by
  have hm := h.managed_loose List.mem_cons_self
  have hrange : ¬(p < img.kend ∨ p*PGSIZE ≥ PHYSTOP) := by
    have h1 := hm.1
    have h2 := hm.2
    simp only [PHYSTOP, PGSIZE] at h2 ⊢
    omega
  unfold kfree
  rw [if_neg hrange]
  simp only [wp_bind, wp_memset, wp_modify]
  have hb := h.put_loose fun _ => 1
  refine ⟨⟨fun x => ?_, hb.rest⟩, h.kept_put _⟩
  have hx := hb.count x
  rw [List.count_cons] at hx
  rw [← hx, List.count_cons]
  dsimp only [Mem.put]
  omega

theorem walkpgdir_false (va : ℕ) (Q : Option ℕ → Mem → Prop) :
    wp F (walkpgdir d va false) Q s ↔ Q (table s.page d (PDX va)) s := by
  unfold walkpgdir table target
  simp only [wp_bind, wp_getPte]
  split_ifs <;> rfl

theorem PDX_eq (v : ℕ) : PDX (v*PGSIZE) = v/NPTENTRIES := by
  unfold PDX
  rw [show 0x400000 = NPTENTRIES*PGSIZE from rfl, ← Nat.div_div_eq_div_mul, Nat.div_div_eq_div_mul,
    Nat.mul_comm NPTENTRIES, ← Nat.div_div_eq_div_mul, Nat.mul_div_cancel _ (by decide)]

theorem PTX_eq (v : ℕ) : PTX (v*PGSIZE) = v%NPTENTRIES := by
  unfold PTX
  rw [Nat.mul_div_cancel _ (by decide)]

theorem entry_zero {m : ℕ → Block} (h : m d = fun _ => 0) (v : ℕ) : entry m d v = 0 := by
  apply entry_of_no_table
  rw [table, h, Fs.getWord_zero, target_zero]

theorem Balanced.directory (h : Balanced img D (p :: L) s) (hzero : s.page p = fun _ => 0) :
    Balanced img (p :: D) L s := by
  have htab : tables s.page p = fun _ => none := by
    funext i
    rw [tables, table, hzero, Fs.getWord_zero, target_zero]
  have huser : user s.page p = fun _ => none := by
    funext v
    rw [user, entry_zero hzero, target_zero]
  refine ⟨fun x => ?_, h.rest⟩
  rw [← h.count x, heldBy_cons, held, htab, huser, refs_none, refs_none, List.count_cons]
  simp only [beq_iff_eq, eq_comm (a := p)]
  omega

theorem Balanced.install {w : BitVec 32} {i : ℕ} (h : Balanced img (d :: D) (p :: L) s)
    (hi : i < NPDENTRIES) (hnone : table s.page d i = none) (hw : target w = some p) :
    Balanced img (d :: D) L ((s.put p fun _ => 0).put d (setWord (s.page d) i w)) ∧
      Upd d (· ≠ i) All D L s ((s.put p fun _ => 0).put d (setWord (s.page d) i w)) := by
  have hdist := h.distinct List.mem_cons_self
  have hcontrol := h.not_control_loose List.mem_cons_self List.mem_cons_self
  have hpd : p ≠ d := fun he => hcontrol (Or.inl he)
  have hfresh : ∀ j < NPDENTRIES, table s.page d j ≠ some p :=
    fun j hj ht => hcontrol (Or.inr ⟨j, hj, ht⟩)
  have hpage : ((s.put p fun _ => 0).put d (setWord (s.page d) i w)).page = Vm.install s.page d i p w := rfl
  have hkept : Kept D L s ((s.put p fun _ => 0).put d (setWord (s.page d) i w)) := by
    intro x hx
    have h1 := h.le_one x
    rw [heldBy_cons] at h1
    have hxp : x ≠ p := by
      rintro rfl
      rw [List.count_cons_self] at h1
      omega
    have hxd : x ≠ d := by
      rintro rfl
      have := Control.held_pos (m := s.page) (Or.inl rfl : Control s.page x x)
      rw [List.count_cons] at h1
      omega
    rw [Mem.put_of_ne hxd, Mem.put_of_ne hxp]
  refine ⟨⟨?_, ?_⟩, hkept, ?_, ?_, ?_⟩
  · intro x
    have hx := h.count x
    rw [heldBy_cons, List.count_cons] at hx
    rw [← hx, heldBy_cons, hkept.heldBy_eq, hpage, held_install hw hpd hi hnone hfresh hdist]
    simp only [Mem.put, beq_iff_eq, eq_comm (a := p)]
    omega
  · intro x hx
    have hxp : x ≠ p := fun he => hx (he ▸ h.managed_loose List.mem_cons_self)
    have hxd : x ≠ d := fun he => hx (he ▸ h.managed_dir List.mem_cons_self)
    rw [Mem.put_of_ne hxd, Mem.put_of_ne hxp]
    exact h.rest x hx
  · intro j hj
    rw [hpage, table_install hw, if_neg hj]
  · intro v hv _
    rw [hpage, entry_install hw hpd hnone hfresh hv hdist]
  · intro v hv _ x hx
    have hxd : x ≠ d := fun he => hdist.not_control hv hx (Or.inl he)
    have hxp : x ≠ p := by
      rintro rfl
      have h1 := h.le_one x
      have h2 : 0 < refs (user s.page d) x := refs_pos_of (i := ⟨v, hv⟩) hx
      rw [heldBy_cons, held, List.count_cons_self] at h1
      omega
    rw [Mem.put_of_ne hxd, Mem.put_of_ne hxp]

/-- The page tables that `walkpgdir` for v leaves alone: all but a new one. -/
def Standing (m : ℕ → Block) (d v i : ℕ) : Prop := i ≠ v/NPTENTRIES ∨ table m d i ≠ none

theorem walkpgdir_true (h : Balanced img (d :: D) L s) (hv : v < NPDENTRIES*NPTENTRIES) :
    wp F (walkpgdir d (v*PGSIZE) true) (fun r t => Balanced img (d :: D) L t ∧
      Upd d (Standing s.page d v) All D L s t ∧
      ∀ tab, r = some tab → table t.page d (v/NPTENTRIES) = some tab) s := by
  have hi := div_lt_of_lt hv
  unfold walkpgdir
  simp only [wp_bind, wp_getPte, PDX_eq, Bool.true_eq_false, if_false]
  split_ifs with hp
  · refine ⟨h, (Kept.refl _ _ _).upd, ?_⟩
    rintro tab ⟨⟩
    exact target_of_present hp
  · rw [wp_bind]
    apply wp_mono (kalloc_spec h)
    rintro (_ | q) s' ⟨hpage, hb⟩
    · refine ⟨hb, Kept.upd fun x _ => congrFun hpage x, by simp⟩
    · have hnone : table s'.page d (v/NPTENTRIES) = none := by
        rw [hpage]
        exact target_eq_none.mpr (not_not.mp hp)
      have hqd : d ≠ q := fun he =>
        hb.not_control_loose List.mem_cons_self List.mem_cons_self (Or.inl he.symm)
      have hw : target (BitVec.ofNat 32 (q*PGSIZE) ||| PTE_P ||| PTE_W ||| PTE_U) = some q := by
        rw [BitVec.or_assoc, BitVec.or_assoc]
        exact target_entry (hb.page_lt List.mem_cons_self) (by decide) (by decide)
      simp only [wp_bind, wp_memset, wp_setPte, wp_pure, Mem.put_of_ne hqd]
      obtain ⟨hb', hu⟩ := hb.install hi hnone hw
      refine ⟨hb', ?_, ?_⟩
      · have hother (i : ℕ) (hi : Standing s.page d v i) : i ≠ v/NPTENTRIES := by
          rintro rfl
          exact hi.elim (fun h => h rfl) fun h => h (hpage ▸ hnone)
        exact (Kept.upd fun x _ => congrFun hpage x).trans (hu.mono hother fun _ h => h)
      · rintro tab ⟨⟩
        exact (table_install (m := s'.page) hw _).trans (if_pos rfl)

end ProvenXv6.Vm
