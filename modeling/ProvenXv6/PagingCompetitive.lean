import ProvenXv6.PagingLru

namespace ProvenXv6.Paging
open DemandPaging Recency

variable {pfNum : ℕ} {P : Policy pfNum} {refs : List Psr} {k : ℕ}

theorem length_recent_of_resident {s : Sim pfNum P.Aux} (h : Framed refs k s) :
    (∀ p ∈ s.resident, p ∈ recent (pages refs k)) ∧ s.resident.card ≤ (recent (pages refs k)).length := by
  have hsub : ∀ p ∈ s.resident, p ∈ recent (pages refs k) := by
    intro p hp
    obtain ⟨f, hf, rfl⟩ := (s.mem_resident p).mp hp
    exact mem_recent.mpr (h.referenced f hf)
  refine ⟨hsub, ?_⟩
  rw [← List.toFinset_card_of_nodup (recent_nodup _)]
  exact Finset.card_le_card fun p hp => List.mem_toFinset.mpr (hsub p hp)

/-- One reference: a fault of `lru` is paid by the debt, or by a fault of the other simulator. -/
theorem lru_pays (hpf : 1 ≤ pfNum) (hrefs : ∀ r ∈ refs, r.data ≠ -1) {r : Psr} (hr : refs[k]? = some r)
    {t t' : Sim pfNum P.Aux} (ht : Framed refs k t) (ht' : P.step refs k r t = some t') :
    debt t'.resident pfNum (recent (pages refs (k+1)))+(if r.data ∈ top pfNum (pages refs k) then 0 else 1) +
      pfNum*t.pageFault ≤ debt t.resident pfNum (recent (pages refs k))+pfNum*t'.pageFault := by
  obtain ⟨hsub, hlen⟩ := length_recent_of_resident ht
  have hcard' : t'.resident.card ≤ pfNum := by
    rw [(framed_step P hr ht ht').card_resident]
    exact t'.occupied_le
  have hin' : r.data ∈ t'.resident := by
    rcases step_resident P hrefs hr ht ht' with ⟨hin, he, -⟩ | ⟨-, -, he, -⟩ | ⟨-, -, _, _, -, -, he, -⟩
    · rwa [he]
    · exact he ▸ Finset.mem_insert_self _ _
    · exact he ▸ Finset.mem_insert_self _ _
  have hfront : debt t'.resident pfNum (recent (pages refs (k+1))) ≤ debt t'.resident pfNum (recent (pages refs k)) := by
    rw [pages_succ hr, debt_concat pfNum _ hin']
    exact debt_erase_le pfNum hin'
  -- a fault of lru with all frames in use
  have hfault (hmiss : r.data ∉ top pfNum (pages refs k)) (hfull : pfNum ≤ (recent (pages refs k)).length) :
      debt t'.resident pfNum (recent (pages refs (k+1)))+1 ≤ debt t'.resident pfNum (recent (pages refs k)) := by
    rw [pages_succ hr]
    exact debt_step hin' hcard' hmiss hfull
  rcases step_resident P hrefs hr ht ht' with ⟨hin, he, hp⟩ | ⟨-, -, he, hp⟩ | ⟨-, hc, index, -, -, -, he, hp⟩
  · rw [he] at hfront hfault ⊢
    rw [hp]
    split_ifs with hmiss
    · omega
    · have hfull : pfNum ≤ (recent (pages refs k)).length := by
        by_contra hlt
        apply hmiss
        rw [mem_top, List.take_of_length_le (by omega)]
        exact hsub _ hin
      have hle := hfault hmiss hfull
      omega
  · have hmono : debt t'.resident pfNum (recent (pages refs k)) ≤ debt t.resident pfNum (recent (pages refs k)) :=
      debt_mono pfNum fun a _ ha => he ▸ Finset.mem_insert_of_mem ha
    rw [hp, Nat.mul_succ]
    split_ifs <;> omega
  · have hgive : debt t'.resident pfNum (recent (pages refs k)) ≤
        debt t.resident pfNum (recent (pages refs k))+pfNum :=
      debt_give_up (v := t.pageFrame index) pfNum (recent_nodup _) fun a _ ha hne =>
        he ▸ Finset.mem_insert_of_mem (Finset.mem_erase.mpr ⟨hne, ha⟩)
    rw [hp, Nat.mul_succ]
    split_ifs with hmiss
    · omega
    · have hle := hfault hmiss (by omega)
      omega

/-- On every reference string `lru` has at most pfNum times the faults of any of the simulators, `optimal` among them. -/
theorem lru_competitive (pfNum : ℕ) (hpf : 1 ≤ pfNum) (refs : List Psr) (hrefs : ∀ r ∈ refs, r.data ≠ -1)
    (P : Policy pfNum) (hP : P ∈ simulators pfNum) :
    ∃ s t, (lru pfNum).run refs = some s ∧ P.run refs = some t ∧ s.pageFault ≤ pfNum*t.pageFault := by
  obtain ⟨Ok, hsound⟩ := simulators_sound hpf P hP
  obtain ⟨s, hs, -⟩ := (lru_sound hpf).stateAt refs le_rfl
  obtain ⟨t, ht, -⟩ := hsound.stateAt refs le_rfl
  -- the debt is what is left over of the faults of P
  have hdebt (k : ℕ) (s : Sim pfNum (lru pfNum).Aux) (t : Sim pfNum P.Aux) (hs : (lru pfNum).stateAt refs k = some s)
      (ht : P.stateAt refs k = some t) :
      s.pageFault+debt t.resident pfNum (recent (pages refs k)) ≤ pfNum*t.pageFault := by
    induction k generalizing s t with
    | zero =>
      cases hs
      cases ht
      simp [pages, debt, Policy.start]
    | succ k ih =>
      obtain ⟨s₀, r, hs₀, hr, hstep⟩ := ((lru pfNum).stateAt_succ_iff).mp hs
      obtain ⟨t₀, r', ht₀, hr', hstep'⟩ := (P.stateAt_succ_iff).mp ht
      obtain rfl : r' = r := by simpa [hr] using hr'.symm
      have hpays := lru_pays hpf hrefs hr (framed_stateAt P ht₀) hstep'
      have hle := ih s₀ t₀ hs₀ ht₀
      have hfaults : s.pageFault = s₀.pageFault+if r'.data ∈ top pfNum (pages refs k) then 0 else 1 := by
        rw [← lru_resident_eq_top hrefs hs₀]
        rcases step_resident (lru pfNum) hrefs hr (framed_stateAt _ hs₀) hstep with
          ⟨hin, -, he⟩ | ⟨hin, -, -, he⟩ | ⟨hin, -, _, _, -, -, -, he⟩ <;> simp [hin, he]
      omega
  have hle := hdebt refs.length s t hs ht
  exact ⟨s, t, hs, ht, by omega⟩

theorem lru_competitive_optimal : ∃ s t, (lru 2).run [⟨1, 0⟩, ⟨2, 0⟩, ⟨3, 0⟩, ⟨1, 0⟩] = some s ∧
    (optimal 2).run [⟨1, 0⟩, ⟨2, 0⟩, ⟨3, 0⟩, ⟨1, 0⟩] = some t ∧ s.pageFault ≤ 2*t.pageFault :=
  lru_competitive 2 (by decide) [⟨1, 0⟩, ⟨2, 0⟩, ⟨3, 0⟩, ⟨1, 0⟩] (by decide) (optimal 2) List.mem_cons_self

end ProvenXv6.Paging
