import ProvenXv6.MallocModel

namespace ProvenXv6.Malloc
open Chains Extents

/-- The headers of the blocks l hold their sizes, and the blocks are linked; the last one leads
to z. -/
structure Holds (s : Heap) (l : List Extent) (z : ℕ) : Prop where
  links : Links s.ptr (l.map Extent.addr) z
  size : ∀ e ∈ l, 8*s.size e.addr = e.size

/-- The free list: it starts with the empty block base and leads back to it. -/
structure FreeList (base : ℕ) (s : Heap) (fl : List Extent) : Prop where
  holds : Holds s fl base
  first : fl.head? = some ⟨base, 0⟩
  sep : Separated fl
  pos : ∀ e ∈ fl.tail, 0 < e.size
  freep : s.freep ∈ fl.map Extent.addr

/-- The blocks of the free list and the blocks `loose` outside it are what sbrk has given. -/
structure Good (base : ℕ) (s : Heap) (fl loose : List Extent) : Prop where
  list : FreeList base s fl
  size : ∀ b ∈ loose, 8*s.size b.addr = b.size
  pos : ∀ b ∈ loose, 0 < b.size
  part : ∀ x, cover fl x+cover loose x = cover s.regions x
  once : ∀ x, cover s.regions x ≤ 1
  above : ∀ r ∈ s.regions, base+8 ≤ r.addr ∧ r.fin ≤ s.brk
  base_pos : 0 < base
  base_brk : base+8 ≤ s.brk
  brk_lt : s.brk < 0x100000000

variable {base : ℕ} {s t : Heap} {fl loose l m l₁ l₂ : List Extent} {e f p b : Extent} {z : ℕ}

theorem wrap_eq {x : ℕ} (h : x < 0x100000000) : wrap x = x := Nat.mod_eq_of_lt h

theorem plus_eq {x n : ℕ} (h : x+8*n < 0x100000000) : plus x n = x+8*n := wrap_eq h

theorem holds_nil : Holds s [] z := ⟨trivial, by simp⟩

theorem holds_cons : Holds s (e :: l) z ↔ (s.ptr e.addr = (l.map Extent.addr).headD z ∧
    8*s.size e.addr = e.size) ∧ Holds s l z := by
  constructor
  · intro h
    have hs := List.forall_mem_cons.mp h.size
    exact ⟨⟨h.links.1, hs.1⟩, h.links.2, hs.2⟩
  · intro h
    exact ⟨⟨h.1.1, h.2.links⟩, List.forall_mem_cons.mpr ⟨h.1.2, h.2.size⟩⟩

theorem holds_append :
    Holds s (l ++ m) z ↔ Holds s l ((m.map Extent.addr).headD z) ∧ Holds s m z := by
  constructor
  · intro h
    have hl := h.links
    rw [List.map_append, links_append] at hl
    have hs := List.forall_mem_append.mp h.size
    exact ⟨⟨hl.1, hs.1⟩, hl.2, hs.2⟩
  · intro h
    refine ⟨?_, List.forall_mem_append.mpr ⟨h.1.size, h.2.size⟩⟩
    rw [List.map_append, links_append]
    exact ⟨h.1.links, h.2.links⟩

theorem Holds.congr (h : Holds s l z) (ht : ∀ e ∈ l, t.hdr e.addr = s.hdr e.addr) :
    Holds t l z := by
  refine ⟨(links_congr ?_).mpr h.links, ?_⟩
  · intro a ha
    obtain ⟨e, he, rfl⟩ := List.mem_map.mp ha
    rw [Heap.ptr, ht e he, Heap.ptr]
  · intro e he
    rw [Heap.size, ht e he]
    exact h.size e he

theorem attach_hdr (s : Heap) (x q : ℕ) : (s.attach x q).hdr = Function.update s.hdr x
    (if plus x (s.size x) = q then
      ⟨if x = q then s.ptr x else s.ptr q, wrap (s.size x+s.size q)⟩ else ⟨q, s.size x⟩) := by
  unfold Heap.attach
  split_ifs with h hq
  · subst hq
    simp [Heap.setPtr, Heap.setSize, Heap.ptr, Heap.size]
  · simp [Heap.setPtr, Heap.setSize, Heap.ptr, Heap.size, Function.update_of_ne (Ne.symm hq)]
  · rfl

theorem attach_eq (s : Heap) (x q : ℕ) : s.attach x q = { s with hdr := (s.attach x q).hdr } := by
  unfold Heap.attach
  split_ifs <;> rfl

theorem attach_hdr_of_ne {x q a : ℕ} (h : a ≠ x) : (s.attach x q).hdr a = s.hdr a := by
  rw [attach_hdr, Function.update_of_ne h]

theorem attach_holds (h : Holds s m z) (he : 8*s.size e.addr = e.size)
    (hm : e.addr ∉ m.map Extent.addr) (hz : m = [] → e.fin ≠ z) (hfin : e.fin < 0x100000000)
    (hfins : ∀ f ∈ m, f.fin < 0x100000000) :
    Holds (s.attach e.addr ((m.map Extent.addr).headD z)) (join e m) z := by
  have hplus : plus e.addr (s.size e.addr) = e.fin := by
    rw [plus, he]
    exact wrap_eq hfin
  have hframe {l : List Extent} {q : ℕ} (hl : Holds s l z) (hel : e.addr ∉ l.map Extent.addr) :
      Holds (s.attach e.addr q) l z := by
    apply hl.congr
    intro g hg
    apply attach_hdr_of_ne
    intro hge
    exact hel (hge ▸ List.mem_map_of_mem hg)
  cases m with
  | nil =>
    refine holds_cons.mpr ⟨?_, holds_nil⟩
    have hne : ¬plus e.addr (s.size e.addr) = z := by
      rw [hplus]
      exact hz rfl
    rw [Heap.ptr, Heap.size, attach_hdr, Function.update_self, List.map_nil, List.headD_nil,
      if_neg hne]
    exact ⟨rfl, he⟩
  | cons f m =>
    rw [List.map_cons, List.mem_cons, not_or] at hm
    have hf := holds_cons.mp h
    rw [List.map_cons, List.headD_cons, join]
    split_ifs with htouch
    · refine holds_cons.mpr ⟨?_, hframe hf.2 hm.2⟩
      have hw : s.size e.addr+s.size f.addr < 0x100000000 := by
        have h1 := hfins f List.mem_cons_self
        have h2 := hf.1.2
        simp only [Extent.fin] at h1 htouch
        omega
      rw [Heap.ptr, Heap.size, attach_hdr, Function.update_self, if_pos (hplus.trans htouch),
        if_neg hm.1, wrap_eq hw]
      refine ⟨hf.1.1, ?_⟩
      rw [Nat.mul_add, he, hf.1.2]
    · refine holds_cons.mpr ⟨?_, hframe h (by simp [hm])⟩
      have hne : ¬plus e.addr (s.size e.addr) = f.addr := by rwa [hplus]
      rw [Heap.ptr, Heap.size, attach_hdr, Function.update_self, if_neg hne]
      exact ⟨rfl, he⟩

section Good
variable (h : Good base s fl loose)
include h

theorem Good.exists_tail : ∃ rest, fl = ⟨base, 0⟩ :: rest := by
  have hf := h.list.first
  cases hfl : fl with
  | nil => simp [hfl] at hf
  | cons a rest =>
    rw [hfl, List.head?_cons, Option.some.injEq] at hf
    exact ⟨rest, by rw [hf]⟩

theorem Good.mem_cases (he : e ∈ fl) : e = ⟨base, 0⟩ ∨ 0 < e.size := by
  obtain ⟨rest, rfl⟩ := h.exists_tail
  rcases List.mem_cons.mp he with rfl | he
  · exact Or.inl rfl
  · exact Or.inr (h.list.pos e he)

theorem Good.bounds (hx : 0 < cover fl z+cover loose z) : base+8 ≤ z ∧ z < s.brk := by
  rw [h.part] at hx
  obtain ⟨r, hr, hz⟩ := exists_of_cover_pos hx
  have hb := h.above r hr
  simp only [Extent.Has] at hz
  omega

theorem Good.mem_bounds (hcov : ∀ x, b.Has x → 0 < cover fl x+cover loose x) (hpos : 0 < b.size) :
    base+8 ≤ b.addr ∧ b.fin ≤ s.brk := by
  have hlow := h.bounds (hcov b.addr (has_addr hpos))
  have hlast : b.Has (b.fin-1) := by
    simp only [Extent.Has, Extent.fin]
    omega
  have hhigh := h.bounds (hcov _ hlast)
  simp only [Extent.fin] at hhigh ⊢
  omega

theorem Good.loose_bounds (hb : b ∈ loose) : base+8 ≤ b.addr ∧ b.fin ≤ s.brk :=
  h.mem_bounds (fun _ hx => Nat.add_pos_right _ (cover_pos hb hx)) (h.pos b hb)

theorem Good.free_bounds (he : e ∈ fl) : base ≤ e.addr ∧ e.addr < s.brk ∧ e.fin ≤ s.brk := by
  rcases h.mem_cases he with rfl | hpos
  · have := h.base_brk
    simp only [Extent.fin]
    omega
  · have hb := h.mem_bounds (fun _ hx => Nat.add_pos_left (cover_pos he hx) _) hpos
    simp only [Extent.fin] at hb ⊢
    omega

theorem Good.disjoint (he : e ∈ fl) (hb : b ∈ loose) (x : ℕ) : ¬(e.Has x ∧ b.Has x) := by
  intro hx
  have h1 := cover_pos he hx.1
  have h2 := cover_pos hb hx.2
  have h3 := h.part x
  have h4 := h.once x
  omega

theorem Good.ne_addr (he : e ∈ fl) (hb : b ∈ loose) : e.addr ≠ b.addr := by
  intro heq
  have hlow := (h.loose_bounds hb).1
  rcases h.mem_cases he with rfl | hpos
  · simp only at heq
    omega
  · exact h.disjoint he hb b.addr ⟨heq ▸ has_addr hpos, has_addr (h.pos b hb)⟩

theorem Good.below (he : e ∈ fl) (hb : b ∈ loose) (hlt : e.addr < b.addr) : e.fin ≤ b.addr :=
  fin_le_of_disjoint (h.disjoint he hb) (h.pos b hb) hlt

theorem Good.over (he : e ∈ fl) (hb : b ∈ loose) (hlt : b.addr < e.addr) : b.fin ≤ e.addr := by
  have hlow := (h.loose_bounds hb).1
  rcases h.mem_cases he with rfl | hpos
  · simp only at hlt
    omega
  · exact fin_le_of_disjoint (fun x hx => h.disjoint he hb x hx.symm) hpos hlt

theorem Good.cycle : Cycle s.ptr (fl.map Extent.addr) := by
  obtain ⟨rest, rfl⟩ := h.exists_tail
  exact h.list.holds.links

theorem Good.length_le : (fl.map Extent.addr).length ≤ s.brk := by
  apply length_le_of_nodup h.list.sep.nodup
  intro a ha
  obtain ⟨e, he, rfl⟩ := List.mem_map.mp ha
  exact (h.free_bounds he).2.1

theorem Good.place_iff (hb : b ∈ loose) (hfl : fl = l₁ ++ p :: l₂) :
    s.place b.addr p.addr = true ↔ p.addr < b.addr ∧ ∀ f ∈ l₂, b.addr < f.addr := by
  have hlow := (h.loose_bounds hb).1
  have hmem : p ∈ fl := by simp [hfl]
  have hholds := h.list.holds
  rw [hfl, holds_append, holds_cons] at hholds
  have hsep := h.list.sep
  rw [hfl] at hsep
  have hsep := List.pairwise_cons.mp (List.pairwise_append.mp hsep).2.1
  have hbase := (h.free_bounds hmem).1
  simp only [Heap.place, hholds.2.1.1, decide_eq_true_eq]
  cases hl₂ : l₂ with
  | nil =>
    -- p is the last block: its successor is base, below b
    simp only [List.map_nil, List.headD_nil, List.not_mem_nil, IsEmpty.forall_iff, implies_true,
      and_true]
    omega
  | cons q l₃ =>
    rw [hl₂] at hsep
    have hq : p.addr < q.addr := addr_lt_of_fin_lt (hsep.1 q List.mem_cons_self)
    have hrest : ∀ f ∈ l₃, q.addr < f.addr := fun f hf =>
      addr_lt_of_fin_lt ((List.pairwise_cons.mp hsep.2).1 f hf)
    simp only [List.map_cons, List.headD_cons, List.forall_mem_cons]
    constructor
    · intro hstop
      have hstop : p.addr < b.addr ∧ b.addr < q.addr := by omega
      exact ⟨hstop.1, hstop.2, fun f hf => Nat.lt_trans hstop.2 (hrest f hf)⟩
    · intro hstop
      omega

theorem Good.exists_stop (hb : b ∈ loose) :
    ∃ x ∈ fl.map Extent.addr, s.place b.addr x = true := by
  obtain ⟨rest, hrest⟩ := h.exists_tail
  have hlow := (h.loose_bounds hb).1
  have hsep := h.list.sep
  rw [hrest] at hsep
  have hne : ∀ f ∈ rest, f.addr ≠ b.addr := by
    intro f hf
    exact h.ne_addr (by rw [hrest]; exact List.mem_cons_of_mem _ hf) hb
  have hbase : (⟨base, 0⟩ : Extent).addr < b.addr := by
    simp only
    omega
  obtain ⟨l₁, p, l₂, hfl, hp⟩ := exists_place hsep hbase hne
  rw [← hrest] at hfl
  exact ⟨p.addr, List.mem_map_of_mem (by simp [hfl]), (h.place_iff hb hfl).mpr hp⟩

theorem Good.walk_place (hb : b ∈ loose) :
    ∃ l₁ p l₂, fl = l₁ ++ p :: l₂ ∧ p.addr < b.addr ∧ (∀ f ∈ l₂, b.addr < f.addr) ∧
      walk s.ptr (s.place b.addr) rounds s.freep = some p.addr := by
  have hlen : (fl.map Extent.addr).length ≤ rounds := by
    have h1 := h.length_le
    have h2 := h.brk_lt
    simp only [rounds]
    omega
  obtain ⟨x, hx, hstop, hw⟩ := walk_cycle h.cycle h.list.freep (h.exists_stop hb) hlen
  obtain ⟨p, hp, rfl⟩ := List.mem_map.mp hx
  obtain ⟨l₁, l₂, hfl⟩ := List.append_of_mem hp
  have hplace := (h.place_iff hb hfl).mp hstop
  exact ⟨l₁, p, l₂, hfl, hplace.1, hplace.2, hw⟩

end Good

theorem Good.loose_ne {c : Extent} (h : Good base s fl (b :: loose)) (hc : c ∈ loose) :
    c.addr ≠ b.addr := by
  intro heq
  have hb : b.Has b.addr := has_addr (h.pos b List.mem_cons_self)
  have hcov := cover_pos hc (heq ▸ has_addr (h.pos c (List.mem_cons_of_mem _ hc)))
  have hpart := h.part b.addr
  have honce := h.once b.addr
  rw [cover_cons, if_pos hb] at hpart
  omega

theorem Good.insert_holds (h : Good base s (l₁ ++ p :: l₂) (b :: loose)) (hp : p.addr < b.addr)
    (hl₂ : ∀ f ∈ l₂, b.addr < f.addr) :
    Holds ((s.attach b.addr (s.ptr p.addr)).attach p.addr b.addr) (l₁ ++ join p (join b l₂)) base := by
  have hb : b ∈ b :: loose := List.mem_cons_self
  have hbb := h.loose_bounds hb
  have hbrk := h.brk_lt
  have hfin : ∀ e ∈ l₁ ++ p :: l₂, e.fin ≤ s.brk := fun e he => (h.free_bounds he).2.2
  have hnodup := h.list.sep.nodup
  have hholds := h.list.holds
  simp only [holds_append, holds_cons] at hholds
  obtain ⟨hh₁, ⟨hptr, hsize⟩, hh₂⟩ := hholds
  simp only [List.forall_mem_append, List.forall_mem_cons] at hfin
  -- b in front of the blocks above it
  have hb₂ : b.addr ∉ l₂.map Extent.addr := by
    intro hm
    obtain ⟨f, hf, heq⟩ := List.mem_map.mp hm
    have := hl₂ f hf
    omega
  have hup : Holds (s.attach b.addr (s.ptr p.addr)) (join b l₂) base := by
    rw [hptr]
    refine attach_holds hh₂ (h.size b hb) hb₂ ?_ ?_ fun f hf => ?_
    · simp only [Extent.fin]
      omega
    · omega
    · exact Nat.lt_of_le_of_lt (hfin.2.2 f hf) hbrk
  obtain ⟨size, rest, hjoin, -⟩ := exists_join b l₂
  have hhead : ((join b l₂).map Extent.addr).headD base = b.addr := by rw [hjoin]; rfl
  -- p in front of b
  have hpj : p.addr ∉ (join b l₂).map Extent.addr := by
    intro hm
    obtain ⟨f, hf, heq⟩ := List.mem_map.mp hm
    have := addr_ge_of_mem_join (fun g hg => Nat.le_of_lt (hl₂ g hg)) (Nat.le_refl _) f hf
    omega
  have hpsize : 8*(s.attach b.addr (s.ptr p.addr)).size p.addr = p.size := by
    rw [Heap.size, attach_hdr_of_ne (Nat.ne_of_lt hp)]
    exact hsize
  have hlow := attach_holds hup hpsize hpj (by simp [hjoin]) (by omega) fun f hf =>
    Nat.lt_of_le_of_lt (fin_le_of_mem_join hfin.2.2 hbb.2 f hf) hbrk
  rw [hhead] at hlow
  refine holds_append.mpr ⟨?_, hlow⟩
  -- the headers before p are as they were
  obtain ⟨size', rest', hjoin', -⟩ := exists_join p (join b l₂)
  have hhead' : ((join p (join b l₂)).map Extent.addr).headD base = p.addr := by rw [hjoin']; rfl
  rw [hhead']
  apply hh₁.congr
  intro e he
  have hep : e.addr < p.addr := addr_lt_of_fin_lt
    ((List.pairwise_append.mp h.list.sep).2.2 e he p List.mem_cons_self)
  rw [attach_hdr_of_ne (Nat.ne_of_lt hep), attach_hdr_of_ne (by omega)]

theorem Good.insert_first (h : Good base s (l₁ ++ p :: l₂) (b :: loose)) :
    (l₁ ++ join p (join b l₂)).head? = some ⟨base, 0⟩ ∧
      ∀ e ∈ (l₁ ++ join p (join b l₂)).tail, 0 < e.size := by
  have hb := h.loose_bounds List.mem_cons_self
  have hfirst := h.list.first
  have hpos := h.list.pos
  have hbpos := h.pos b List.mem_cons_self
  cases l₁ with
  | nil =>
    -- p is base, which touches nothing
    rw [List.nil_append, List.head?_cons, Option.some.injEq] at hfirst
    subst hfirst
    obtain ⟨size, rest, hjoin, -⟩ := exists_join b l₂
    have hne : ¬(⟨base, 0⟩ : Extent).fin = b.addr := by
      simp only [Extent.fin]
      omega
    have hj : join ⟨base, 0⟩ (join b l₂) = ⟨base, 0⟩ :: join b l₂ := by
      rw [hjoin, join, if_neg hne]
    rw [List.nil_append, hj]
    exact ⟨rfl, size_pos_of_mem_join hpos hbpos⟩
  | cons a l₁ =>
    refine ⟨hfirst, ?_⟩
    simp only [List.cons_append, List.tail_cons, List.forall_mem_append, List.forall_mem_cons]
      at hpos ⊢
    exact ⟨hpos.1, size_pos_of_mem_join (size_pos_of_mem_join hpos.2.2 hbpos) hpos.2.1⟩

theorem Good.free_block (h : Good base s fl (b :: loose)) :
    ∃ t fl', free (b.addr+8) s = some t ∧ Good base t fl' loose ∧ ∃ e ∈ fl', b.size ≤ e.size := by
  obtain ⟨l₁, p, l₂, rfl, hp, hl₂, hwalk⟩ := h.walk_place List.mem_cons_self
  have hb : b ∈ b :: loose := List.mem_cons_self
  have hpm : p ∈ l₁ ++ p :: l₂ := by simp
  let t : Heap := { (s.attach b.addr (s.ptr p.addr)).attach p.addr b.addr with freep := p.addr }
  have hfree : free (b.addr+8) s = some t := by
    rw [free, Nat.add_sub_cancel, hwalk]
    rfl
  have hhdr : ∀ a, a ≠ b.addr → a ≠ p.addr → t.hdr a = s.hdr a := by
    intro a hab hap
    show ((s.attach b.addr (s.ptr p.addr)).attach p.addr b.addr).hdr a = s.hdr a
    rw [attach_hdr_of_ne hap, attach_hdr_of_ne hab]
  have henv : t.regions = s.regions ∧ t.brk = s.brk := by
    show ((s.attach b.addr (s.ptr p.addr)).attach p.addr b.addr).regions = _ ∧
      ((s.attach b.addr (s.ptr p.addr)).attach p.addr b.addr).brk = _
    rw [attach_eq, attach_eq s]
    exact ⟨rfl, rfl⟩
  have hfirst := h.insert_first
  refine ⟨t, l₁ ++ join p (join b l₂), hfree, ⟨⟨?_, hfirst.1, ?_, hfirst.2, ?_⟩, ?_, ?_, ?_, ?_, ?_,
    h.base_pos, ?_, ?_⟩, ?_⟩
  · exact (h.insert_holds hp hl₂).congr fun _ _ => rfl
  · exact separated_insert h.list.sep (h.below hpm hb hp)
      fun f hf => h.over (by simp [hf]) hb (hl₂ f hf)
  · obtain ⟨size, rest, hjoin, -⟩ := exists_join p (join b l₂)
    show p.addr ∈ _
    simp [hjoin]
  · intro c hc
    rw [Heap.size, hhdr c.addr (h.loose_ne hc) (h.ne_addr hpm (List.mem_cons_of_mem _ hc)).symm]
    exact h.size c (List.mem_cons_of_mem _ hc)
  · exact fun c hc => h.pos c (List.mem_cons_of_mem _ hc)
  · intro x
    have hpart := h.part x
    rw [henv.1, cover_insert, ← hpart, cover_cons (l := loose), cover_cons, cover_nil]
    omega
  · rw [henv.1]
    exact h.once
  · rw [henv.1, henv.2]
    exact h.above
  · rw [henv.2]
    exact h.base_brk
  · rw [henv.2]
    exact h.brk_lt
  · -- b is the start of a block, or was taken into p
    obtain ⟨size, rest, hjoin, hsize, -⟩ := exists_join b l₂
    rw [hjoin, join]
    split_ifs
    · refine ⟨⟨p.addr, p.size+size⟩, by simp, ?_⟩
      exact Nat.le_trans hsize (Nat.le_add_left _ _)
    · exact ⟨⟨b.addr, size⟩, by simp, hsize⟩

end ProvenXv6.Malloc
