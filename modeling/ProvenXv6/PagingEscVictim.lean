import ProvenXv6.PagingEsc

namespace ProvenXv6.Paging
open ScanMin

section Circular
variable {n : ℕ}

/-- How far f comes after e in the circular order of the frames. -/
def circDist (e f : Fin n) : ℕ := (f.val+n-e.val)%n

theorem circDist_of_le {e f : Fin n} (h : e ≤ f) : circDist e f = f.val-e.val := by
  have he : e.val ≤ f.val := h
  have hf := f.isLt
  rw [circDist, show f.val+n-e.val = f.val-e.val+n by omega, Nat.add_mod_right, Nat.mod_eq_of_lt (by omega)]

theorem circDist_of_lt {e f : Fin n} (h : f < e) : circDist e f = f.val+n-e.val := by
  have he : f.val < e.val := h
  rw [circDist, Nat.mod_eq_of_lt (by omega)]

theorem circDist_first_iff {M : Fin n → Prop} {i : Fin n} (hi : M i) (hmin : ∀ j, M j → i ≤ j) (e : Fin n) :
    (∀ j, M j → circDist e i ≤ circDist e j) ↔ (∀ j, M j → e ≤ j) ∨ ∀ j, M j → j < e := by
  constructor
  · intro h
    by_cases hei : e ≤ i
    · exact Or.inl fun j hj => hei.trans (hmin j hj)
    · right
      intro j hj
      by_contra hej
      have hie : i.val < e.val := not_le.mp hei
      have hej : e.val ≤ j.val := not_lt.mp hej
      have hle := h j hj
      rw [circDist_of_lt hie, circDist_of_le hej] at hle
      have := j.isLt
      omega
  · intro h j hj
    have hij : i.val ≤ j.val := hmin j hj
    rcases h with h | h
    · rw [circDist_of_le (h i hi), circDist_of_le (h j hj)]
      omega
    · rw [circDist_of_lt (h i hi), circDist_of_lt (h j hj)]
      omega

end Circular

section
variable {pfNum : ℕ} (P : Policy pfNum) (refs : List Psr)

def loadedAt (k : ℕ) (s : Sim pfNum P.Aux) (f : Fin pfNum) : ℕ := (uses P refs k (s.pageFrame f)).head?.getD 0

def usedAt (k : ℕ) (s : Sim pfNum P.Aux) (f : Fin pfNum) : ℕ := (uses P refs k (s.pageFrame f)).getLast?.getD 0

theorem data_of_mem_uses {k i : ℕ} {p : ℤ} (h : i ∈ uses P refs k p) : (refs[i]?).map Psr.data = some p := by
  induction k with
  | zero => exact absurd h List.not_mem_nil
  | succ k ih =>
    unfold uses at h
    split_ifs at h with hp hres
    · rcases List.mem_append.mp h with h | h
      · exact ih h
      · exact List.mem_singleton.mp h ▸ hp
    · exact List.mem_singleton.mp h ▸ hp
    · exact ih h

end

variable {pfNum : ℕ} {refs : List Psr} {k : ℕ} {r : Psr} {s s' : Sim pfNum (esc pfNum).Aux}

def bitClass (s : Sim pfNum (esc pfNum).Aux) (f : Fin pfNum) : ℕ := 2*(escAux s).rbit f+(escAux s).wbit f

theorem escClass_eq {rbit wbit : ℕ} (h : rbit ≤ 1 ∧ wbit ≤ 1) : escClass rbit wbit = some (2*rbit+wbit) := by
  obtain ⟨hr, hw⟩ := h
  interval_cases rbit <;> interval_cases wbit <;> rfl

theorem getHighPriorityIdx_eq (hb : (escAux s).Bits) (head : Fin pfNum) :
    getHighPriorityIdx head (escAux s).rbit (escAux s).wbit = some (scanMin (bitClass s) head) := by
  unfold getHighPriorityIdx
  split_ifs with hzero
  · have hclass : bitClass s head = 0 := by rw [bitClass, hzero.1, hzero.2]
    rw [scanMin_of_le _ fun j => hclass ▸ Nat.zero_le _]
  · exact scanMin?_some _ _ (fun i => escClass_eq (hb i)) head

theorem EscFrame.uses_ne_nil {f : Fin pfNum} (h : EscFrame refs k s f) :
    uses (esc pfNum) refs k (s.pageFrame f) ≠ [] := by
  intro he
  apply h.used
  rw [accesses, he, List.filterMap_nil]

theorem EscFrame.counter_eq {f : Fin pfNum} (h : EscFrame refs k s f) :
    (escAux s).counter f = usedAt (esc pfNum) refs k s f+1 := by
  have hc := h.counter
  rw [List.getLast?_eq_some_getLast h.uses_ne_nil, Option.map_some, Option.some.injEq] at hc
  rw [usedAt, List.getLast?_eq_some_getLast h.uses_ne_nil, Option.getD_some, hc]

theorem use_injective (hs : (esc pfNum).stateAt refs k = some s) (hfull : s.occupied = pfNum) {v : Fin pfNum → ℕ}
    (hv : ∀ f, v f ∈ uses (esc pfNum) refs k (s.pageFrame f)) : Function.Injective v := by
  intro f g hfg
  have hpage := (data_of_mem_uses _ _ (hv f)).symm.trans (hfg ▸ data_of_mem_uses _ _ (hv g))
  have hocc (j : Fin pfNum) : j.val < s.occupied := by
    rw [hfull]
    exact j.isLt
  exact (framed_stateAt (esc pfNum) hs).distinct f g (hocc f) (hocc g) (Option.some.inj hpage)

section History
variable (hs : (esc pfNum).stateAt refs k = some s) (hfull : s.occupied = pfNum) (h : ∀ f, EscFrame refs k s f)
include hs hfull h

theorem loadedAt_injective : Function.Injective (loadedAt (esc pfNum) refs k s) := by
  apply use_injective hs hfull
  intro f
  rw [loadedAt, List.head?_eq_some_head (h f).uses_ne_nil]
  exact List.head_mem _

theorem usedAt_injective : Function.Injective (usedAt (esc pfNum) refs k s) := by
  apply use_injective hs hfull
  intro f
  rw [usedAt, List.getLast?_eq_some_getLast (h f).uses_ne_nil]
  exact List.getLast_mem _

end History

/-- Frame e has the smallest value, and no other frame has it. -/
def OnlyLeast (v : Fin pfNum → ℕ) (e : Fin pfNum) : Prop := ∀ g, g ≠ e → v e < v g

theorem onlyLeast_scanMin {v : Fin pfNum → ℕ} (hv : Function.Injective v) (m : Fin pfNum) :
    OnlyLeast v (scanMin v m) := by
  intro g hg
  exact (scanMin_le v m g).lt_of_ne fun he => hg (hv he.symm)

/-- The frames of the smallest class. -/
def BestClass (s : Sim pfNum (esc pfNum).Aux) (f : Fin pfNum) : Prop := ∀ g, bitClass s f ≤ bitClass s g

/-- Frame f is the first of the smallest class from e on. -/
def FirstFrom (s : Sim pfNum (esc pfNum).Aux) (e f : Fin pfNum) : Prop :=
  BestClass s f ∧ ∀ g, BestClass s g → circDist e f ≤ circDist e g

theorem scan_firstFrom_iff (s : Sim pfNum (esc pfNum).Aux) (e h : Fin pfNum) :
    FirstFrom s e (scanMin (bitClass s) h) ↔
      (BestClass s h → FirstFrom s e h) ∧
      (¬BestClass s h → (∀ g, BestClass s g → e ≤ g) ∨ ∀ g, BestClass s g → g < e) := by
  have hbest : BestClass s (scanMin (bitClass s) h) := scanMin_le _ _
  by_cases hh : BestClass s h
  · rw [scanMin_of_le _ hh]
    exact ⟨fun hf => ⟨fun _ => hf, fun hn => absurd hh hn⟩, fun hf => hf.1 hh⟩
  · -- the scan has moved, so it has found the smallest index of the class
    have hfirst : ∀ g, BestClass s g → scanMin (bitClass s) h ≤ g := by
      rcases scanMin_first (bitClass s) h with he | ⟨-, hfirst⟩
      · exact absurd (he ▸ hbest) hh
      · exact fun g hg => hfirst g (hg _)
    have hiff := circDist_first_iff hbest hfirst e
    exact ⟨fun hf => ⟨fun hb => absurd hb hh, fun _ => hiff.mp hf.2⟩, fun hf => ⟨hbest, hiff.mpr (hf.2 hh)⟩⟩

/-- At a fault with all frames occupied `esc` replaces a frame of the smallest class. It is
the first of them in circular order from the frame that was loaded earliest exactly when,
with h the frame that was used least recently, no frame of the class comes before h if h is
of the class, and the class does not lie on both sides of that frame if h is not. -/
theorem esc_replaces_best_class (pfNum : ℕ) (hpf : 1 ≤ pfNum) (refs : List Psr) (hrefs : ∀ r ∈ refs, r.data ≠ -1)
    (k : ℕ) (hk : k < refs.length) :
    ∃ s s', (esc pfNum).stateAt refs k = some s ∧ (esc pfNum).stateAt refs (k+1) = some s' ∧
      (s.occupied = pfNum → refs[k].data ∉ s.resident → ∃ index e h, Replaces (esc pfNum) refs k s s' index ∧
        OnlyLeast (loadedAt (esc pfNum) refs k s) e ∧ OnlyLeast (usedAt (esc pfNum) refs k s) h ∧
        BestClass s index ∧
        (FirstFrom s e index ↔ (BestClass s h → FirstFrom s e h) ∧
          (¬BestClass s h → (∀ g, BestClass s g → e ≤ g) ∨ ∀ g, BestClass s g → g < e))) := by
  obtain ⟨s, s', hs, hs', hbits, hreplaces⟩ := (esc_sound hpf).replaces hrefs hk
  refine ⟨s, s', hs, hs', ?_⟩
  intro hfull hmiss
  obtain ⟨index, aux, hrep, hreplaced⟩ := hreplaces hfull hmiss
  have hframe (f : Fin pfNum) : EscFrame refs k s f :=
    (escHistory_stateAt hpf hrefs hs).frame f (by rw [hfull]; exact f.isLt)
  have hindex := (esc_replace hpf hrep).1.symm.trans (getHighPriorityIdx_eq hbits _)
  obtain rfl := Option.some.inj hindex
  refine ⟨_, scanMin (loadedAt (esc pfNum) refs k s) ⟨0, hpf⟩, _, hreplaced, ?_, ?_, scanMin_le _ _,
    scan_firstFrom_iff s _ _⟩
  · exact onlyLeast_scanMin (loadedAt_injective hs hfull hframe) _
  · -- the counters and the last uses are ordered alike
    have hscan : scanMin (escAux s).counter ⟨0, hpf⟩ = scanMin (usedAt (esc pfNum) refs k s) ⟨0, hpf⟩ := by
      apply scanMin_congr
      intro i j
      rw [(hframe i).counter_eq, (hframe j).counter_eq]
      exact Nat.add_lt_add_iff_right
    have hleast := onlyLeast_scanMin (usedAt_injective hs hfull hframe) ⟨0, hpf⟩
    rw [← hscan] at hleast
    exact hleast

theorem esc_replaces_best_class_oldest :
    ∃ s s' index e, Replaces (esc 2) [⟨1, 0⟩, ⟨2, 0⟩, ⟨3, 0⟩] 2 s s' index ∧
      OnlyLeast (loadedAt (esc 2) [⟨1, 0⟩, ⟨2, 0⟩, ⟨3, 0⟩] 2 s) e ∧ FirstFrom s e index := by
  obtain ⟨s, s', hs, -, h⟩ := esc_replaces_best_class 2 (by decide) [⟨1, 0⟩, ⟨2, 0⟩, ⟨3, 0⟩] (by decide) 2 (by decide)
  have hstate : ∀ t ∈ (esc 2).stateAt [⟨1, 0⟩, ⟨2, 0⟩, ⟨3, 0⟩] 2, t.occupied = 2 ∧ 3 ∉ t.resident ∧
      ∀ e h, OnlyLeast (loadedAt (esc 2) [⟨1, 0⟩, ⟨2, 0⟩, ⟨3, 0⟩] 2 t) e →
        OnlyLeast (usedAt (esc 2) [⟨1, 0⟩, ⟨2, 0⟩, ⟨3, 0⟩] 2 t) h → BestClass t h ∧ FirstFrom t e h := by
    unfold OnlyLeast FirstFrom BestClass
    decide
  obtain ⟨hfull, hmiss, hbest⟩ := hstate s hs
  obtain ⟨index, e, h, hrep, he, hh, -, hiff⟩ := h hfull hmiss
  obtain ⟨hclass, hfirst⟩ := hbest e h he hh
  exact ⟨s, s', index, e, hrep, he, hiff.mpr ⟨fun _ => hfirst, fun hn => absurd hclass hn⟩⟩

/-- Page 1 is loaded first and used again by a write, so page 2 is the one used least
recently. All pages are of one class and page 2 is replaced. -/
theorem esc_starts_at_least_recently_used :
    ∃ s s', Replaces (esc 2) [⟨1, 1⟩, ⟨2, 1⟩, ⟨1, 1⟩, ⟨3, 1⟩] 3 s s' 1 ∧
      OnlyLeast (loadedAt (esc 2) [⟨1, 1⟩, ⟨2, 1⟩, ⟨1, 1⟩, ⟨3, 1⟩] 3 s) 0 ∧ FirstFrom s 0 0 ∧ ¬FirstFrom s 0 1 := by
  refine ⟨_, _, ⟨rfl, rfl, rfl, by decide⟩, ?_, ?_, ?_⟩
  · unfold OnlyLeast
    decide
  · unfold FirstFrom BestClass
    decide
  · unfold FirstFrom BestClass
    decide

end ProvenXv6.Paging
