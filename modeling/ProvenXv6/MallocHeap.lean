import ProvenXv6.MallocFree

namespace ProvenXv6.Malloc
open Chains Extents StepSystem

variable {base : ℕ} {s t : Heap} {fl loose l m k k₂ : List Extent} {e q b : Extent} {z nunits : ℕ}

theorem units_bounds {n : ℕ} (h : n < 0x40000000) :
    0 < units n ∧ units n ≤ 0x8000001 ∧ n+8 ≤ 8*units n := by
  rw [units, wrap_eq (by omega)]
  omega

theorem Good.with_answers (h : Good base s fl loose) (answers : List (Option ℕ)) :
    Good base { s with answers := answers } fl loose :=
  ⟨⟨h.list.holds.congr fun _ _ => rfl, h.list.first, h.list.sep, h.list.pos, h.list.freep⟩, h.size,
    h.pos, h.part, h.once, h.above, h.base_pos, h.base_brk, h.brk_lt⟩

theorem Good.extend (h : Good base s fl loose) {skip nu : ℕ} (hnu : 0 < nu)
    (hroom : s.brk+skip+8*nu < 0x100000000) (answers : List (Option ℕ)) :
    Good base ((s.grow (s.brk+skip) (8*nu) answers).setSize (s.brk+skip) nu) fl
      (⟨s.brk+skip, 8*nu⟩ :: loose) := by
  have hbb := h.base_brk
  have hhdr (a : ℕ) (ha : a < s.brk) :
      ((s.grow (s.brk+skip) (8*nu) answers).setSize (s.brk+skip) nu).hdr a = s.hdr a :=
    Function.update_of_ne (by omega) _ _
  refine ⟨⟨?_, h.list.first, h.list.sep, h.list.pos, h.list.freep⟩, ?_, ?_, ?_, ?_, ?_, h.base_pos, ?_,
    hroom⟩
  · exact h.list.holds.congr fun e he => hhdr _ (h.free_bounds he).2.1
  · refine List.forall_mem_cons.mpr ⟨?_, fun c hc => ?_⟩
    · simp [Heap.size, Heap.setSize]
    · have hc' := h.loose_bounds hc
      have hpos := h.pos c hc
      rw [Heap.size, hhdr _ (by simp only [Extent.fin] at hc'; omega)]
      exact h.size c hc
  · exact List.forall_mem_cons.mpr ⟨by simp only; omega, h.pos⟩
  · intro x
    have hpart := h.part x
    show _ = cover (⟨s.brk+skip, 8*nu⟩ :: s.regions) x
    rw [cover_cons, cover_cons, ← hpart, Nat.add_assoc]
  · -- the regions before lie below brk
    intro x
    show cover (⟨s.brk+skip, 8*nu⟩ :: s.regions) x ≤ 1
    rw [cover_cons]
    split_ifs with hx
    · have hzero : cover s.regions x = 0 := by
        apply cover_eq_zero
        intro r hr hrx
        have := h.above r hr
        simp only [Extent.Has, Extent.fin] at hx hrx this
        omega
      omega
    · exact h.once x
  · refine List.forall_mem_cons.mpr ⟨?_, fun r hr => ?_⟩
    · show base+8 ≤ s.brk+skip ∧ _ ≤ s.brk+skip+8*nu
      simp only [Extent.fin]
      omega
    · show base+8 ≤ r.addr ∧ r.fin ≤ s.brk+skip+8*nu
      have := h.above r hr
      omega
  · show base+8 ≤ s.brk+skip+8*nu
    omega

theorem Good.freep_ne (h : Good base s fl loose) : s.freep ≠ 0 := by
  obtain ⟨e, he, hfreep⟩ := List.mem_map.mp h.list.freep
  have h1 := (h.free_bounds he).1
  have h2 := h.base_pos
  omega

theorem Good.morecore_spec (h : Good base s fl loose) (hnu : nunits ≤ 0x8000001) :
    ∃ t p, morecore nunits s = some (t, p) ∧ ((p = 0 ∧ Good base t fl loose) ∨
      (p = t.freep ∧ ∃ fl', Good base t fl' loose ∧ ∃ e ∈ fl', 8*nunits ≤ e.size)) := by
  rw [morecore]
  generalize hn : (if nunits < 4096 then 4096 else nunits) = nu
  have hbound : nunits ≤ nu ∧ 0 < nu ∧ nu ≤ 0x8000001 := by
    split_ifs at hn <;> omega
  have hwrap : wrap (nu*8) = 8*nu := by
    rw [wrap_eq (by omega)]
    omega
  simp only [hwrap]
  unfold sbrk
  rcases hans : s.answers with _ | ⟨_ | skip, rest⟩
  · exact ⟨s, 0, rfl, Or.inl ⟨rfl, h⟩⟩
  · exact ⟨_, 0, rfl, Or.inl ⟨rfl, h.with_answers rest⟩⟩
  · simp only
    split_ifs with hroom
    · have hext := h.extend hbound.2.1 hroom rest
      obtain ⟨t, fl', hfree, hgood, e, he, hbig⟩ := hext.free_block
      have hplus : plus (s.brk+skip) 1 = s.brk+skip+8 := plus_eq (by omega)
      refine ⟨t, t.freep, ?_, Or.inr ⟨rfl, fl', hgood, e, he, ?_⟩⟩
      · simp only [hplus]
        simp only at hfree
        rw [hfree]
        rfl
      · simp only at hbig
        omega
    · exact ⟨_, 0, rfl, Or.inl ⟨rfl, h.with_answers rest⟩⟩

theorem mallocLoop_skip {l : List ℕ} {prev n : ℕ} (h : Links s.ptr l z)
    (hl : ∀ a ∈ l, s.size a < nunits ∧ a ≠ s.freep) :
    mallocLoop nunits (l.length+n) prev (l.headD z) s =
      mallocLoop nunits n (l.getLastD prev) z s := by
  induction l generalizing prev with
  | nil =>
    rw [List.length_nil, Nat.zero_add]
    rfl
  | cons a l ih =>
    have ha := hl a List.mem_cons_self
    rw [List.length_cons, Nat.add_right_comm, List.headD_cons, mallocLoop,
      if_neg (Nat.not_le.mpr ha.1), if_neg ha.2, h.1, List.getLastD_cons]
    exact ih h.2 fun b hb => hl b (List.mem_cons_of_mem _ hb)

/-- One round from freep: small blocks, and behind them one that is large enough or, if none
is, freep again. -/
theorem Good.search (h : Good base s fl loose) (nunits : ℕ) :
    ∃ l x, Links s.ptr (s.freep :: l) x ∧ l.length < (fl.map Extent.addr).length ∧
      l.getLastD s.freep ∈ fl.map Extent.addr ∧ (∀ a ∈ l, s.size a < nunits ∧ a ≠ s.freep) ∧
      (nunits ≤ s.size x ∨ x = s.freep ∧ ∀ e ∈ fl, e.size < 8*nunits) := by
  obtain ⟨l₁, l₂, hfl, hlinks⟩ := cycle_rotate h.cycle h.list.freep
  have hperm : (fl.map Extent.addr).Perm (s.freep :: (l₂ ++ l₁)) := by
    rw [hfl]
    exact List.perm_middle.trans (List.Perm.cons _ List.perm_append_comm)
  have hnot : s.freep ∉ l₂ ++ l₁ := (List.nodup_cons.mp (hperm.nodup_iff.mp h.list.sep.nodup)).1
  have hlast {l : List ℕ} (hsub : l ⊆ l₂ ++ l₁) : l.getLastD s.freep ∈ fl.map Extent.addr :=
    hperm.mem_iff.mpr (List.cons_subset_cons _ hsub List.getLastD_mem_cons)
  rcases first_or_none (fun a => decide (nunits ≤ s.size a)) (l₂ ++ l₁) with
    hnone | ⟨m₁, x, m₂, hm, hx, hfirst⟩
  · have hsmall : ∀ a ∈ l₂ ++ l₁, s.size a < nunits := by simpa using hnone
    refine ⟨l₂ ++ l₁, s.freep, hlinks, ?_, hlast (List.Subset.refl _),
      fun a ha => ⟨hsmall a ha, fun he => hnot (he ▸ ha)⟩, ?_⟩
    · rw [hperm.length_eq, List.length_cons]
      exact Nat.lt_succ_self _
    · rcases Nat.lt_or_ge (s.size s.freep) nunits with hf | hf
      · refine Or.inr ⟨rfl, fun e he => ?_⟩
        have hsize := h.list.holds.size e he
        rcases List.mem_cons.mp (hperm.mem_iff.mp (List.mem_map_of_mem he)) with ha | ha
        · rw [ha] at hsize
          omega
        · have := hsmall _ ha
          omega
      · exact Or.inl hf
  · have hsub : m₁ ⊆ l₂ ++ l₁ := by simp [hm]
    have hsmall : ∀ a ∈ m₁, s.size a < nunits := by simpa using hfirst
    rw [hm, ← List.cons_append] at hlinks
    refine ⟨m₁, x, (links_append.mp hlinks).1, ?_, hlast hsub,
      fun a ha => ⟨hsmall a ha, fun he => hnot (he ▸ hsub ha)⟩, Or.inl (of_decide_eq_true hx)⟩
    rw [hperm.length_eq, hm]
    simp only [List.length_cons, List.length_append]
    omega

theorem FreeList.pos_of_append (h : FreeList base s (k ++ e :: l)) : ∀ f ∈ l, 0 < f.size := by
  intro f hf
  apply h.pos
  cases k with
  | nil => exact hf
  | cons a k => simp [hf]

theorem FreeList.first_pos_replace (h : FreeList base s (k ++ e :: l))
    (hm : ∀ f ∈ m, 0 < f.size) :
    (k ++ e :: m).head? = some ⟨base, 0⟩ ∧ ∀ f ∈ (k ++ e :: m).tail, 0 < f.size := by
  have hfirst := h.first
  have hpos := h.pos
  cases k with
  | nil => exact ⟨hfirst, hm⟩
  | cons a k =>
    refine ⟨hfirst, ?_⟩
    simp only [List.cons_append, List.tail_cons, List.forall_mem_append, List.forall_mem_cons]
      at hpos ⊢
    exact ⟨hpos.1, hpos.2.1, hm⟩

theorem Good.exists_next (h : Good base s fl loose) {prev : ℕ} (hprev : prev ∈ fl.map Extent.addr)
    (hbig : 0 < s.size (s.ptr prev)) :
    ∃ k e q k₂, fl = k ++ e :: q :: k₂ ∧ e.addr = prev ∧ q.addr = s.ptr prev := by
  obtain ⟨e, he, rfl⟩ := List.mem_map.mp hprev
  obtain ⟨k, l, hfl⟩ := List.append_of_mem he
  have hholds := h.list.holds
  rw [hfl, holds_append, holds_cons] at hholds
  cases l with
  | nil =>
    have hbase : s.ptr e.addr = base := hholds.2.1.1
    obtain ⟨rest, hrest⟩ := h.exists_tail
    have hzero := h.list.holds.size ⟨base, 0⟩ (by rw [hrest]; exact List.mem_cons_self)
    rw [hbase] at hbig
    simp only at hzero
    omega
  | cons q k₂ => exact ⟨k, e, q, k₂, hfl, rfl, hholds.2.1.1.symm⟩

theorem Good.next_fits (h : Good base s fl loose) {prev : ℕ} (hprev : prev ∈ fl.map Extent.addr)
    (hn : 0 < nunits) (hbig : nunits ≤ s.size (s.ptr prev)) : ∃ e ∈ fl, 8*nunits ≤ e.size := by
  obtain ⟨k, e, q, k₂, rfl, -, hq⟩ := h.exists_next hprev (by omega)
  have hqm : q ∈ k ++ e :: q :: k₂ := by simp
  have hqsize := h.list.holds.size q hqm
  rw [hq] at hqsize
  exact ⟨q, hqm, by omega⟩

theorem Good.take (h : Good base s (k ++ e :: q :: k₂) loose) :
    Good base { s.setPtr e.addr (s.ptr q.addr) with freep := e.addr } (k ++ e :: k₂) (q :: loose) := by
  have hem : e ∈ k ++ e :: q :: k₂ := by simp
  have hqpos := (List.forall_mem_cons.mp h.list.pos_of_append).1
  have hsep := h.list.sep
  have hadj := List.pairwise_append.mp hsep
  have heq := (List.pairwise_cons.mp hadj.2.1).1
  have hholds := h.list.holds
  simp only [holds_append, holds_cons] at hholds
  obtain ⟨hk, ⟨hptr, hsize⟩, ⟨hqptr, hqsize⟩, hk₂⟩ := hholds
  have hhdr : ∀ a ≠ e.addr, (s.setPtr e.addr (s.ptr q.addr)).hdr a = s.hdr a :=
    fun a ha => Function.update_of_ne ha _ _
  have hself : (s.setPtr e.addr (s.ptr q.addr)).hdr e.addr = ⟨s.ptr q.addr, s.size e.addr⟩ :=
    Function.update_self _ _ _
  have hfirst := h.list.first_pos_replace (m := k₂)
    (List.forall_mem_cons.mp h.list.pos_of_append).2
  refine ⟨⟨?_, hfirst.1, ?_, hfirst.2, ?_⟩, ?_, ?_, ?_, h.once, h.above, h.base_pos, h.base_brk,
    h.brk_lt⟩
  · simp only [holds_append, holds_cons]
    refine ⟨?_, ⟨?_, ?_⟩, ?_⟩
    · apply hk.congr
      intro f hf
      exact hhdr _ (Nat.ne_of_lt (addr_lt_of_fin_lt (hadj.2.2 f hf e List.mem_cons_self)))
    · rw [Heap.ptr, hself, ← hqptr]
    · rw [Heap.size, hself]
      exact hsize
    · apply hk₂.congr
      intro f hf
      exact hhdr _ (Nat.ne_of_gt (addr_lt_of_fin_lt (heq f (List.mem_cons_of_mem _ hf))))
  · exact hsep.sublist (by simp)
  · show e.addr ∈ _
    simp
  · refine List.forall_mem_cons.mpr ⟨?_, fun c hc => ?_⟩
    · rw [Heap.size, hhdr _ (Nat.ne_of_gt (addr_lt_of_fin_lt (heq q List.mem_cons_self)))]
      exact hqsize
    · rw [Heap.size, hhdr _ (h.ne_addr hem hc).symm]
      exact h.size c hc
  · exact List.forall_mem_cons.mpr ⟨hqpos, h.pos⟩
  · intro x
    have hpart := h.part x
    simp only [cover_append, cover_cons] at hpart ⊢
    show _ = cover s.regions x
    omega

theorem Good.cut (h : Good base s (k ++ e :: q :: k₂) loose) {n n' : ℕ} (hn : 0 < n) (hn' : 0 < n')
    (hsum : s.size q.addr = n'+n) :
    Good base { (s.setSize q.addr n').setSize (q.addr+8*n') n with freep := e.addr }
      (k ++ e :: ⟨q.addr, 8*n'⟩ :: k₂) (⟨q.addr+8*n', 8*n⟩ :: loose) := by
  have hqm : q ∈ k ++ e :: q :: k₂ := by simp
  have hqsize := h.list.holds.size q hqm
  have hin : q.Has (q.addr+8*n') := by
    simp only [Extent.Has, Extent.fin]
    omega
  have hsep := h.list.sep
  have hadj := List.pairwise_append.mp hsep
  have heq := List.pairwise_cons.mp hadj.2.1
  have hqk := (List.pairwise_cons.mp heq.2).1
  have hptr : ∀ a, ((s.setSize q.addr n').setSize (q.addr+8*n') n).ptr a = s.ptr a := by
    intro a
    simp only [Heap.ptr, Heap.setSize, Function.update_apply]
    split_ifs <;> simp_all
  have hhdr : ∀ a ≠ q.addr, a ≠ q.addr+8*n' →
      ((s.setSize q.addr n').setSize (q.addr+8*n') n).size a = s.size a := by
    intro a ha ha'
    simp only [Heap.size, Heap.setSize, Function.update_of_ne ha', Function.update_of_ne ha]
  have hfirst := h.list.first_pos_replace (m := ⟨q.addr, 8*n'⟩ :: k₂) (List.forall_mem_cons.mpr
    ⟨by simp only; omega, (List.forall_mem_cons.mp h.list.pos_of_append).2⟩)
  refine ⟨⟨⟨?_, ?_⟩, hfirst.1, ?_, hfirst.2, ?_⟩, ?_, ?_, ?_, h.once, h.above, h.base_pos, h.base_brk,
    h.brk_lt⟩
  · refine (links_congr fun a _ => hptr a).mpr ?_
    have hlinks := h.list.holds.links
    simpa only [List.map_append, List.map_cons] using hlinks
  · -- below q, q itself and above q
    have hsize := h.list.holds.size
    simp only [List.forall_mem_append, List.forall_mem_cons] at hsize ⊢
    have hbelow {f : Extent} (hf : f.fin < q.addr) (hfs : 8*s.size f.addr = f.size) :
        8*((s.setSize q.addr n').setSize (q.addr+8*n') n).size f.addr = f.size := by
      have := addr_lt_of_fin_lt hf
      rw [hhdr _ (by omega) (by omega)]
      exact hfs
    refine ⟨fun f hf => ?_, ?_, ?_, fun f hf => ?_⟩
    · exact hbelow (hadj.2.2 f hf q (by simp)) (hsize.1 f hf)
    · exact hbelow (heq.1 q List.mem_cons_self) hsize.2.1
    · have hne : q.addr ≠ q.addr+8*n' := by omega
      show 8*((s.setSize q.addr n').setSize (q.addr+8*n') n).size q.addr = _
      simp [Heap.size, Heap.setSize, Function.update_of_ne hne]
    · have := hqk f hf
      simp only [Extent.fin] at this
      show 8*((s.setSize q.addr n').setSize (q.addr+8*n') n).size f.addr = _
      rw [hhdr _ (by omega) (by omega)]
      exact hsize.2.2.2 f hf
  · -- q only gets shorter
    have hfin : (⟨q.addr, 8*n'⟩ : Extent).fin ≤ q.fin := by
      simp only [Extent.fin]
      omega
    refine List.pairwise_append.mpr ⟨hadj.1, List.pairwise_cons.mpr ⟨?_, List.pairwise_cons.mpr
      ⟨fun f hf => Nat.lt_of_le_of_lt hfin (hqk f hf), (List.pairwise_cons.mp heq.2).2⟩⟩, ?_⟩
    · exact List.forall_mem_cons.mpr (List.forall_mem_cons.mp heq.1)
    · intro f hf
      have := hadj.2.2 f hf
      simp only [List.forall_mem_cons] at this ⊢
      exact this
  · show e.addr ∈ _
    simp
  · refine List.forall_mem_cons.mpr ⟨?_, fun c hc => ?_⟩
    · simp [Heap.size, Heap.setSize]
    · have hne : c.addr ≠ q.addr+8*n' := by
        intro hc'
        exact h.disjoint hqm hc _ ⟨hin, hc' ▸ has_addr (h.pos c hc)⟩
      show 8*((s.setSize q.addr n').setSize (q.addr+8*n') n).size c.addr = _
      rw [hhdr _ (h.ne_addr hqm hc).symm hne]
      exact h.size c hc
  · exact List.forall_mem_cons.mpr ⟨by simp only; omega, h.pos⟩
  · intro x
    have hpart := h.part x
    have hcut : (if q.Has x then 1 else 0) = (if Extent.Has ⟨q.addr, q.size-8*n⟩ x then 1 else 0)+
        if Extent.Has ⟨q.addr+(q.size-8*n), 8*n⟩ x then 1 else 0 := has_split (by omega)
    have hrest : q.size-8*n = 8*n' := by omega
    rw [hrest] at hcut
    simp only [cover_append, cover_cons] at hpart ⊢
    show _ = cover s.regions x
    omega

theorem Good.carve_spec (h : Good base s fl loose) {prev : ℕ} (hprev : prev ∈ fl.map Extent.addr)
    (hn : 0 < nunits) (hbig : nunits ≤ s.size (s.ptr prev)) :
    ∃ fl' b, (carve nunits prev (s.ptr prev) s).2 = b.addr+8 ∧ b.size = 8*nunits ∧
      Good base (carve nunits prev (s.ptr prev) s).1 fl' (b :: loose) := by
  obtain ⟨k, e, q, k₂, rfl, rfl, hq⟩ := h.exists_next hprev (by omega)
  have hqm : q ∈ k ++ e :: q :: k₂ := by simp
  have hqsize := h.list.holds.size q hqm
  have hqfin := (h.free_bounds hqm).2.2
  have hbrk := h.brk_lt
  simp only [Extent.fin] at hqfin
  rw [← hq] at hbig ⊢
  unfold carve
  split_ifs with hfit
  · refine ⟨_, q, plus_eq (by omega), ?_, h.take⟩
    omega
  · have hsize : (s.setSize q.addr (s.size q.addr-nunits)).size q.addr = s.size q.addr-nunits := by
      simp [Heap.size, Heap.setSize]
    have hplus : plus q.addr (s.size q.addr-nunits) = q.addr+8*(s.size q.addr-nunits) :=
      plus_eq (by omega)
    simp only [hsize, hplus]
    exact ⟨_, ⟨q.addr+8*(s.size q.addr-nunits), 8*nunits⟩, plus_eq (by omega), rfl,
      h.cut hn (by omega) (by omega)⟩

theorem Good.mallocLoop_round (h : Good base s fl loose) (nunits : ℕ) {n : ℕ} (hrounds : s.brk ≤ n) :
    ∃ prev m, n ≤ m+s.brk ∧ prev ∈ fl.map Extent.addr ∧
      mallocLoop nunits n s.freep (s.ptr s.freep) s = mallocLoop nunits (m+1) prev (s.ptr prev) s ∧
      (nunits ≤ s.size (s.ptr prev) ∨ s.ptr prev = s.freep ∧ ∀ e ∈ fl, e.size < 8*nunits) := by
  obtain ⟨l, x, hl, hd, hprev, hskip, hx⟩ := h.search nunits
  obtain rfl := links_getLastD hl
  have hlen := h.length_le
  obtain ⟨m, rfl⟩ : ∃ m, n = l.length+(m+1) := ⟨n-l.length-1, by omega⟩
  refine ⟨l.getLastD s.freep, m, by omega, hprev, ?_, hx⟩
  rw [hl.1, mallocLoop_skip hl.2 hskip]

theorem Good.mallocLoop_found (h : Good base s fl loose) (hn : 0 < nunits)
    (hbig : ∃ e ∈ fl, 8*nunits ≤ e.size) {n : ℕ} (hrounds : s.brk ≤ n) :
    ∃ t fl' b, mallocLoop nunits n s.freep (s.ptr s.freep) s = some (t, b.addr+8) ∧
      b.size = 8*nunits ∧ Good base t fl' (b :: loose) := by
  obtain ⟨prev, m, -, hprev, hloop, hx | ⟨-, hsmall⟩⟩ := h.mallocLoop_round nunits hrounds
  · obtain ⟨fl', b, hres, hsize, hgood⟩ := h.carve_spec hprev hn hx
    refine ⟨_, fl', b, ?_, hsize, hgood⟩
    rw [hloop, mallocLoop, if_pos hx, ← hres]
  · obtain ⟨e, he, hbig⟩ := hbig
    exact absurd hbig (Nat.not_le.mpr (hsmall e he))

theorem Good.mallocLoop_spec (h : Good base s fl loose) (hn : 0 < nunits)
    (hmax : nunits ≤ 0x8000001) :
    ∃ t p fl', mallocLoop nunits rounds s.freep (s.ptr s.freep) s = some (t, p) ∧
      (p = 0 ∧ Good base t fl' loose ∨
        ∃ b, p = b.addr+8 ∧ b.size = 8*nunits ∧ Good base t fl' (b :: loose)) := by
  have hbrk := h.brk_lt
  obtain ⟨prev, m, hm, hprev, hloop, hx⟩ := h.mallocLoop_round nunits (n := rounds)
    (by rw [rounds]; omega)
  rw [rounds] at hm
  rw [hloop, mallocLoop]
  split_ifs with hbig hf
  · obtain ⟨fl', b, hres, hsize, hgood⟩ := h.carve_spec hprev hn hbig
    exact ⟨_, _, fl', rfl, Or.inr ⟨b, hres, hsize, hgood⟩⟩
  · obtain ⟨t, p, hmore, ⟨rfl, hgood⟩ | ⟨rfl, fl', hgood, hlarge⟩⟩ := h.morecore_spec hmax
    · refine ⟨t, 0, fl, ?_, Or.inl ⟨rfl, hgood⟩⟩
      rw [hmore]
      rfl
    · -- the second round finds the block that sbrk gave
      have hrounds : t.brk ≤ m := by
        have := hgood.brk_lt
        omega
      obtain ⟨u, fl'', b, hfound, hsize, hgood'⟩ := hgood.mallocLoop_found hn hlarge hrounds
      refine ⟨u, _, fl'', ?_, Or.inr ⟨b, rfl, hsize, hgood'⟩⟩
      rw [hmore]
      show (if t.freep = 0 then _ else _) = _
      rw [if_neg hgood.freep_ne, hfound]
  · rcases hx with hx | hx
    · exact absurd hx hbig
    · exact absurd hx.1 hf

theorem good_first {s : Heap} (hbase : 0 < base) (hb : base+8 ≤ s.brk) (hmax : s.brk < 0x100000000)
    (hreg : s.regions = []) :
    Good base { s with hdr := Function.update s.hdr base ⟨base, 0⟩, freep := base } [⟨base, 0⟩] [] := by
  refine ⟨⟨?_, rfl, List.pairwise_singleton _ _, by simp, by simp⟩, by simp, by simp, ?_, ?_, ?_,
    hbase, hb, hmax⟩
  · refine holds_cons.mpr ⟨?_, holds_nil⟩
    simp [Heap.ptr, Heap.size]
  · intro x
    show _ = cover s.regions x
    have hno : ¬Extent.Has ⟨base, 0⟩ x := by
      simp only [Extent.Has, Extent.fin]
      omega
    rw [hreg, cover_cons, if_neg hno]
    rfl
  · intro x
    show cover s.regions x ≤ 1
    simp [hreg, cover_nil]
  · intro r hr
    change r ∈ s.regions at hr
    simp [hreg] at hr

/-- What holds between two calls: nothing was called yet, or the free list and the live blocks
share what sbrk has given, and each live block has the bytes that were asked for. -/
def Inv (base : ℕ) (s : Sys) : Prop :=
  (0 < base ∧ base+8 ≤ s.heap.brk ∧ s.heap.brk < 0x100000000 ∧ s.heap.freep = 0 ∧ s.live = [] ∧
      s.heap.regions = []) ∨
    ∃ fl, Good base s.heap fl (s.live.map Live.block) ∧ ∀ l ∈ s.live, l.n+8 ≤ l.block.size

theorem Good.perm {loose' : List Extent} (h : Good base s fl loose) (hp : loose.Perm loose') :
    Good base s fl loose' :=
  ⟨h.list, fun b hb => h.size b (hp.mem_iff.mpr hb), fun b hb => h.pos b (hp.mem_iff.mpr hb),
    fun x => by rw [← cover_perm hp]; exact h.part x, h.once, h.above, h.base_pos, h.base_brk,
    h.brk_lt⟩

theorem Good.malloc_step {s : Sys} {n : ℕ} (hn : n < 0x40000000) {heap : Heap}
    (h : Good base heap fl (s.live.map Live.block)) (hlive : ∀ l ∈ s.live, l.n+8 ≤ l.block.size)
    (hm : malloc base n s.heap = mallocLoop (units n) rounds heap.freep (heap.ptr heap.freep) heap) :
    ∃ t, step base s (.malloc n) = some t ∧ Inv base t := by
  have hu := units_bounds hn
  obtain ⟨t, p, fl', hloop, ⟨rfl, hgood⟩ | ⟨b, rfl, hsize, hgood⟩⟩ :=
    h.mallocLoop_spec hu.1 hu.2.1
  · refine ⟨{ s with heap := t }, ?_, Or.inr ⟨fl', hgood, hlive⟩⟩
    rw [step, hm, hloop]
    rfl
  · have hb : b = ⟨b.addr, 8*t.size b.addr⟩ := by rw [hgood.size b List.mem_cons_self]
    refine ⟨⟨t, ⟨b, n⟩ :: s.live⟩, ?_, Or.inr ⟨fl', hgood, List.forall_mem_cons.mpr ⟨?_, hlive⟩⟩⟩
    · rw [step, hm, hloop]
      show (if b.addr+8 = 0 then some { s with heap := t } else
        some ⟨t, ⟨⟨b.addr+8-8, 8*t.size (b.addr+8-8)⟩, n⟩ :: s.live⟩) = _
      rw [if_neg (by omega), Nat.add_sub_cancel, ← hb]
    · show n+8 ≤ b.size
      omega

theorem Good.free_step {s : Sys} {p : ℕ} (hp : ∃ l ∈ s.live, l.block.addr+8 = p)
    (h : Good base s.heap fl (s.live.map Live.block)) (hlive : ∀ l ∈ s.live, l.n+8 ≤ l.block.size) :
    ∃ t, step base s (.free p) = some t ∧ Inv base t := by
  obtain ⟨l, hl, hlp⟩ := hp
  obtain ⟨c, l₁, l₂, -, hc, hlist, herase⟩ :=
    List.exists_of_eraseP (p := fun l => decide (l.block.addr+8 = p)) hl (decide_eq_true hlp)
  obtain rfl : c.block.addr+8 = p := of_decide_eq_true hc
  have hperm : (s.live.map Live.block).Perm (c.block :: (l₁ ++ l₂).map Live.block) := by
    rw [hlist, ← List.map_cons]
    exact List.perm_middle.map _
  obtain ⟨t, fl', hfree, hgood, -⟩ := (h.perm hperm).free_block
  refine ⟨⟨t, l₁ ++ l₂⟩, ?_, Or.inr ⟨fl', hgood, ?_⟩⟩
  · rw [step, hfree, ← herase]
    rfl
  · intro m hm
    apply hlive
    rw [hlist]
    simp only [List.mem_append, List.mem_cons] at hm ⊢
    tauto

theorem Good.write_step {s : Sys} {a : ℕ} {hd : Header}
    (ha : ∃ l ∈ s.live, l.block.addr < a ∧ a < l.block.addr+8+l.n)
    (h : Good base s.heap fl (s.live.map Live.block)) (hlive : ∀ l ∈ s.live, l.n+8 ≤ l.block.size) :
    ∃ t, step base s (.write a hd) = some t ∧ Inv base t := by
  obtain ⟨l, hl, hlow, hhigh⟩ := ha
  have hlb : l.block ∈ s.live.map Live.block := List.mem_map_of_mem hl
  have hin : l.block.Has a := by
    have := hlive l hl
    simp only [Extent.Has, Extent.fin]
    omega
  have hfree : ∀ e ∈ fl, e.addr ≠ a := by
    rintro e he rfl
    have := (h.loose_bounds hlb).1
    rcases h.mem_cases he with rfl | hpos
    · simp only at hlow
      omega
    · exact h.disjoint he hlb _ ⟨has_addr hpos, hin⟩
  have hother : ∀ c ∈ s.live.map Live.block, c.addr ≠ a := by
    rintro c hc rfl
    obtain ⟨r₁, r₂, hr⟩ := List.append_of_mem hlb
    have hg := h.perm (hr ▸ List.perm_middle)
    have hne : c ≠ l.block := fun he => Nat.lt_irrefl _ (he ▸ hlow)
    have hcr : c ∈ r₁ ++ r₂ := by
      rw [hr] at hc
      simp only [List.mem_append, List.mem_cons] at hc ⊢
      tauto
    have h1 := cover_pos hcr (has_addr (h.pos c hc))
    have h2 := hg.part c.addr
    have h3 := hg.once c.addr
    rw [cover_cons, if_pos hin] at h2
    omega
  have hkeep : ∀ x ≠ a, Function.update s.heap.hdr a hd x = s.heap.hdr x :=
    fun x hx => Function.update_of_ne hx _ _
  refine ⟨_, rfl, Or.inr ⟨fl, ⟨⟨?_, h.list.first, h.list.sep, h.list.pos, h.list.freep⟩, ?_, h.pos, h.part,
    h.once, h.above, h.base_pos, h.base_brk, h.brk_lt⟩, hlive⟩⟩
  · exact h.list.holds.congr fun e he => hkeep _ (hfree e he)
  · intro c hc
    show 8*(Function.update s.heap.hdr a hd c.addr).size = c.size
    rw [hkeep _ (hother c hc)]
    exact h.size c hc

/-- Every allowed call ends, and keeps the heap in order. -/
theorem Inv.step_spec {s : Sys} {e : Event} (h : Inv base s) (he : Allowed s e) :
    ∃ t, step base s e = some t ∧ Inv base t := by
  rcases h with ⟨hbase, hb, hmax, hfreep, hlive, hreg⟩ | ⟨fl, hgood, hlive⟩
  · cases e with
    | malloc n =>
      have hgood := good_first hbase hb hmax hreg
      rw [← List.map_nil (f := Live.block), ← hlive] at hgood
      refine hgood.malloc_step he (by simp [hlive]) ?_
      simp only [malloc, if_pos hfreep]
    | free p =>
      obtain ⟨l, hl, -⟩ := he
      simp [hlive] at hl
    | write a hd =>
      obtain ⟨l, hl, -⟩ := he
      simp [hlive] at hl
  · cases e with
    | malloc n =>
      refine hgood.malloc_step he hlive ?_
      simp only [malloc, if_neg hgood.freep_ne]
    | free p => exact hgood.free_step he hlive
    | write a hd => exact hgood.write_step he hlive

/-- In every run: the free list leads around in address order through separate blocks that do not
touch; the free and the live blocks hold each byte that sbrk has given once and no other; each
live block has the bytes asked for behind its header; and every call ends. -/
theorem malloc_free_invariant (base brk : ℕ) (hbase : 0 < base) (hbrk : base+8 ≤ brk)
    (hmax : brk < 0x100000000) (hdr : ℕ → Header) (answers : List (Option ℕ)) (es : List Event)
    (s : Sys) (h : Run (step base) (fun s e _ => Allowed s e) (start hdr brk answers) es s) :
    (s.heap.freep = 0 ∧ s.live = [] ∧ s.heap.regions = [] ∨
      ∃ fl, FreeList base s.heap fl ∧ Cycle s.heap.ptr (fl.map Extent.addr) ∧
        (∀ x, cover (fl ++ s.live.map Live.block) x = cover s.heap.regions x ∧
          cover s.heap.regions x ≤ 1) ∧
        ∀ l ∈ s.live, 8*s.heap.size l.block.addr = l.block.size ∧
          l.block.addr+8+l.n ≤ l.block.fin) ∧
      ∀ e, Allowed s e → ∃ t, step base s e = some t := by
  have hinv : Inv base s := by
    refine h.invariant (Or.inl ⟨hbase, hbrk, hmax, rfl, rfl, rfl⟩) ?_
    intro s e t hs hst he
    obtain ⟨t', ht', hinv⟩ := hs.step_spec he
    rw [hst, Option.some.injEq] at ht'
    exact ht' ▸ hinv
  refine ⟨?_, fun e he => ?_⟩
  · rcases hinv with ⟨-, -, -, hrest⟩ | ⟨fl, hgood, hlive⟩
    · exact Or.inl hrest
    · refine Or.inr ⟨fl, hgood.list, hgood.cycle, fun x => ⟨?_, hgood.once x⟩, fun l hl => ⟨?_, ?_⟩⟩
      · rw [cover_append, hgood.part]
      · exact hgood.size _ (List.mem_map_of_mem hl)
      · have := hlive l hl
        simp only [Extent.fin]
        omega
  · obtain ⟨t, ht, -⟩ := hinv.step_spec he
    exact ⟨t, ht⟩

/-- The first call gets a region of 4096 units and returns its last three. -/
theorem malloc_free_invariant_first : ∃ s : Sys,
    step 64 (start (fun _ => ⟨0, 0⟩) 4096 [some 0]) (.malloc 10) = some s ∧
      s.live = [⟨⟨36840, 24⟩, 10⟩] ∧ s.heap.regions = [⟨4096, 32768⟩] ∧
      ∃ fl, FreeList 64 s.heap fl ∧
        ∀ x, cover (fl ++ s.live.map Live.block) x = cover s.heap.regions x := by
  have hstep : ∃ s ∈ step 64 (start (fun _ => ⟨0, 0⟩) 4096 [some 0]) (.malloc 10),
      s.live = [⟨⟨36840, 24⟩, 10⟩] ∧ s.heap.regions = [⟨4096, 32768⟩] := by
    decide +kernel
  obtain ⟨s, hs, hlive, hreg⟩ := hstep
  refine ⟨s, hs, hlive, hreg, ?_⟩
  have hrun := malloc_free_invariant 64 4096 (by decide) (by decide) (by decide) _ _ [.malloc 10] s
    (.cons hs (by decide : 10 < 0x40000000) (.nil s))
  rcases hrun.1 with ⟨-, hnil, -⟩ | ⟨fl, hfl, -, hpart, -⟩
  · rw [hlive] at hnil
    exact absurd hnil (by decide)
  · exact ⟨fl, hfl, fun x => (hpart x).1⟩

end ProvenXv6.Malloc
