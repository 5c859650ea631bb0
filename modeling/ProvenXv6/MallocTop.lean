import ProvenXv6.MallocMore

namespace ProvenXv6.Malloc.OnKernel
open Chains Extents StepSystem
open Vm (KERNBASE PGROUNDUP)

variable {base : ℕ} {s t : Process} {fl loose : List Extent} {nunits : ℕ}

section Top
variable {h : Heap} {bp nu : ℕ}

theorem setSize_hdr (hbp : h.brk ≤ bp) {a : ℕ} (ha : a < h.brk) : (h.setSize bp nu).hdr a = h.hdr a :=
  Function.update_of_ne (by omega) _ _

theorem ptr_eq {l₁ l₂ : List Extent} {e : Extent} (hg : Good base h (l₁ ++ e :: l₂) loose) :
    h.ptr e.addr = (l₂.map Extent.addr).headD base := by
  have hholds := hg.list.holds
  rw [holds_append, holds_cons] at hholds
  exact hholds.2.1.1

theorem addr_lt_brk (hg : Good base h fl loose) {a : ℕ} (ha : a ∈ fl.map Extent.addr) : a < h.brk := by
  obtain ⟨e, he, rfl⟩ := List.mem_map.mp ha
  exact (hg.free_bounds he).2.1

theorem ptr_lt_brk (hg : Good base h fl loose) {a : ℕ} (ha : a ∈ fl.map Extent.addr) :
    h.ptr a < h.brk := by
  obtain ⟨e, he, rfl⟩ := List.mem_map.mp ha
  obtain ⟨l₁, l₂, rfl⟩ := List.append_of_mem he
  rw [ptr_eq hg]
  cases l₂ with
  | nil => exact Nat.lt_of_lt_of_le (Nat.lt_add_of_pos_right (by decide)) hg.base_brk
  | cons q l₂ => exact addr_lt_brk hg (List.mem_map_of_mem (by simp))

theorem ptr_le_iff {l₁ l₂ : List Extent} {e : Extent} (hg : Good base h (l₁ ++ e :: l₂) loose) :
    h.ptr e.addr ≤ e.addr ↔ l₂ = [] := by
  rw [ptr_eq hg]
  cases l₂ with
  | nil => exact iff_of_true (hg.free_bounds (by simp)).1 rfl
  | cons q l₂ =>
    have hsep := List.pairwise_cons.mp (List.pairwise_append.mp hg.list.sep).2.1
    have hlt := addr_lt_of_fin_lt (hsep.1 q List.mem_cons_self)
    exact iff_of_false (Nat.not_le.mpr hlt) (List.cons_ne_nil q l₂)

theorem top_hdr (hbp : h.brk ≤ bp) {x : ℕ} (hx : x < h.brk) :
    (((h.setSize bp nu).setPtr bp base).attach x bp).hdr = Function.update
      (Function.update h.hdr bp ⟨base, nu⟩) x
      (if plus x (h.size x) = bp then ⟨base, wrap (h.size x+nu)⟩ else ⟨bp, h.size x⟩) := by
  have hne : x ≠ bp := by omega
  have hself : (h.setSize bp nu).size bp = nu := by simp [Heap.size, Heap.setSize]
  have hu : ((h.setSize bp nu).setPtr bp base).hdr = Function.update h.hdr bp ⟨base, nu⟩ := by
    rw [Heap.setPtr, hself, Heap.setSize]
    exact Function.update_idem _ _ _
  have hbpu : ((h.setSize bp nu).setPtr bp base).hdr bp = ⟨base, nu⟩ := by
    rw [hu, Function.update_self]
  have hxu : ((h.setSize bp nu).setPtr bp base).hdr x = h.hdr x := by
    rw [hu, Function.update_of_ne hne]
  rw [attach_hdr, if_neg hne, Heap.ptr, Heap.size, Heap.size, hbpu, hxu, hu]
  rfl

theorem free_top (hg : Good base h fl loose) (hbp : h.brk ≤ bp) (hend : plus bp nu ≠ base) :
    ∃ l z heap, fl = l ++ [z] ∧ free (bp+8) (h.setSize bp nu) = some heap ∧ heap.freep = z.addr ∧
      heap.regions = h.regions ∧ heap.hdr = Function.update (Function.update h.hdr bp ⟨base, nu⟩) z.addr
        (if plus z.addr (h.size z.addr) = bp then ⟨base, wrap (h.size z.addr+nu)⟩
          else ⟨bp, h.size z.addr⟩) := by
  have hptr : ∀ a ∈ fl.map Extent.addr, (h.setSize bp nu).ptr a = h.ptr a := by
    intro a ha
    rw [Heap.ptr, setSize_hdr hbp (addr_lt_brk hg ha)]
    rfl
  -- the search stops where the list goes back to its start
  have hplace : ∀ a ∈ fl.map Extent.addr, (h.setSize bp nu).place bp a = true ↔ h.ptr a ≤ a := by
    intro a ha
    have hlow := addr_lt_brk hg ha
    have hnext := ptr_lt_brk hg ha
    rw [Heap.place, decide_eq_true_eq, hptr a ha]
    omega
  have hcycle : Cycle (h.setSize bp nu).ptr (fl.map Extent.addr) := by
    have hc := hg.cycle
    obtain ⟨rest, rfl⟩ := hg.exists_tail
    exact (links_congr hptr).mpr hc
  have hlast : ∃ a ∈ fl.map Extent.addr, (h.setSize bp nu).place bp a = true := by
    obtain ⟨rest, hrest⟩ := hg.exists_tail
    obtain ⟨m, hm⟩ := cons_eq_snoc ⟨base, 0⟩ rest
    rw [hm] at hrest
    subst hrest
    have hmem : (rest.getLastD ⟨base, 0⟩).addr ∈ (m ++ [rest.getLastD ⟨base, 0⟩]).map Extent.addr := by simp
    exact ⟨_, hmem, (hplace _ hmem).mpr ((ptr_le_iff hg).mpr rfl)⟩
  have hlen : (fl.map Extent.addr).length ≤ rounds := by
    have h1 := hg.length_le
    have h2 := hg.brk_lt
    rw [rounds]
    omega
  obtain ⟨a, ha, hstop, hwalk⟩ := walk_cycle hcycle hg.list.freep hlast hlen
  obtain ⟨z, hz, rfl⟩ := List.mem_map.mp ha
  obtain ⟨l, l₂, rfl⟩ := List.append_of_mem hz
  obtain rfl := (ptr_le_iff hg).mp ((hplace _ ha).mp hstop)
  have hback : (h.setSize bp nu).ptr z.addr = base := (hptr _ ha).trans (ptr_eq hg)
  have hsize : (h.setSize bp nu).size bp = nu := by simp [Heap.size, Heap.setSize]
  have hattach : (h.setSize bp nu).attach bp base = (h.setSize bp nu).setPtr bp base := by
    rw [Heap.attach, hsize, if_neg hend]
  have hwalk' : walk (h.setSize bp nu).ptr ((h.setSize bp nu).place bp) rounds (h.setSize bp nu).freep =
    some z.addr := hwalk
  refine ⟨l, z, { ((h.setSize bp nu).setPtr bp base).attach z.addr bp with freep := z.addr }, rfl, ?_,
    rfl, ?_, top_hdr hbp (addr_lt_brk hg ha)⟩
  · rw [free, Nat.add_sub_cancel, hwalk']
    show some _ = _
    rw [hback, hattach]
  · show (((h.setSize bp nu).setPtr bp base).attach z.addr bp).regions = h.regions
    rw [attach_eq]
    rfl

section Joined
variable {l : List Extent} {z : Extent} {heap : Heap}

theorem addr_lt_last (hg : Good base h (l ++ [z]) loose) {e : Extent} (he : e ∈ l) : e.addr < z.addr :=
  addr_lt_of_fin_lt ((List.pairwise_append.mp hg.list.sep).2.2 e he z List.mem_cons_self)

theorem links_to_last (hg : Good base h (l ++ [z]) loose) (hsame : ∀ e ∈ l, heap.hdr e.addr = h.hdr e.addr) :
    Links heap.ptr (l.map Extent.addr) z.addr := by
  have hl := hg.list.holds.links
  rw [List.map_append, links_append] at hl
  refine (links_congr fun a ha => ?_).mpr hl.1
  obtain ⟨e, he, rfl⟩ := List.mem_map.mp ha
  rw [Heap.ptr, hsame e he]
  rfl

theorem small_to_last (hg : Good base h (l ++ [z]) loose) (hsame : ∀ e ∈ l, heap.hdr e.addr = h.hdr e.addr)
    (hsmall : ∀ e ∈ l ++ [z], e.size < 8*nu) : ∀ a ∈ l.map Extent.addr, heap.size a < nu ∧ a ≠ z.addr := by
  intro a ha
  obtain ⟨e, he, rfl⟩ := List.mem_map.mp ha
  have hmem : e ∈ l ++ [z] := List.mem_append_left _ he
  have h1 := hg.list.holds.size e hmem
  have h2 := hsmall e hmem
  have h3 := addr_lt_last hg he
  rw [Heap.size, hsame e he]
  simp only [Heap.size] at h1
  omega

theorem first_or_last (hg : Good base h (l ++ [z]) loose) : base = (l.map Extent.addr).headD z.addr := by
  have hfirst := hg.list.first
  cases l with
  | nil =>
    obtain rfl := Option.some.inj hfirst
    rfl
  | cons a l =>
    obtain rfl := Option.some.inj hfirst
    rfl

/-- The block has been joined with the last one of the list: the search goes once around. -/
theorem mallocLoop_joined (hg : Good base h (l ++ [z]) loose) (hbp : h.brk ≤ bp) (hnu : nu < 0x40000000)
    (hsmall : ∀ e ∈ l ++ [z], e.size < 8*nu) {n : ℕ} (hrounds : h.brk < n) (shrunk : Bool) (hfreep : heap.freep = z.addr)
    (hjoin : plus z.addr (h.size z.addr) = bp) (hhdr : heap.hdr = Function.update (Function.update h.hdr bp ⟨base, nu⟩)
      z.addr ⟨base, wrap (h.size z.addr+nu)⟩) :
    ∃ prev, mallocLoop nu n z.addr (heap.ptr z.addr) ⟨heap, shrunk⟩ =
      some (⟨(carve nu prev z.addr heap).1, shrunk⟩, (carve nu prev z.addr heap).2) ∧
      (carve nu prev z.addr heap).2 = plus bp 1 := by
  have hz : z ∈ l ++ [z] := by simp
  have hzb := hg.free_bounds hz
  have hzsize := hg.list.holds.size z hz
  have hznu := hsmall z hz
  have hlen := hg.length_le
  rw [wrap_eq (by omega)] at hhdr
  have hself : heap.hdr z.addr = ⟨base, h.size z.addr+nu⟩ := by rw [hhdr, Function.update_self]
  have hsame : ∀ e ∈ l, heap.hdr e.addr = h.hdr e.addr := by
    intro e he
    have := addr_lt_last hg he
    rw [hhdr, Function.update_of_ne (by omega), Function.update_of_ne (by omega)]
  -- the empty block does not reach to the end of the heap
  have hpos : 0 < h.size z.addr := by
    rcases hg.mem_cases hz with rfl | hpos
    · have hzero : h.size base = 0 := by
        simp only at hzsize
        omega
      rw [hzero, plus_eq (by have := hg.brk_lt; omega)] at hjoin
      omega
    · omega
  obtain ⟨m, hm⟩ : ∃ m, n = (l.map Extent.addr).length+(m+1) := by
    rw [List.map_append, List.length_append] at hlen
    exact ⟨n-(l.map Extent.addr).length-1, by omega⟩
  have hhead : heap.ptr z.addr = (l.map Extent.addr).headD z.addr := by
    rw [Heap.ptr, hself]
    exact first_or_last hg
  have hsize : heap.size z.addr = h.size z.addr+nu := by rw [Heap.size, hself]
  refine ⟨(l.map Extent.addr).getLastD z.addr, ?_, ?_⟩
  · rw [hhead, hm, mallocLoop_skip (s := ⟨heap, shrunk⟩) (links_to_last hg hsame)
      (by rw [hfreep]; exact small_to_last hg hsame hsmall)]
    exact mallocLoop_here (show nu ≤ heap.size z.addr by omega)
  · have hcut : (heap.setSize z.addr (h.size z.addr+nu-nu)).size z.addr = h.size z.addr := by
      simp [Heap.size, Heap.setSize]
    rw [carve, hsize, if_neg (by omega)]
    show plus (plus z.addr ((heap.setSize z.addr (h.size z.addr+nu-nu)).size z.addr)) 1 = _
    rw [hcut, hjoin]

end Joined

/-- The search then ends at the block behind the heap, whether it has been joined with the last
block of the list or not. -/
theorem mallocLoop_top (hg : Good base h fl loose) (hbp : h.brk ≤ bp) (hmax : bp+8 < 0x100000000)
    (hend : plus bp nu ≠ base) (hnu : nu < 0x40000000) (hsmall : ∀ e ∈ fl, e.size < 8*nu)
    {n : ℕ} (hrounds : h.brk < n) (shrunk : Bool) :
    ∃ heap t, free (bp+8) (h.setSize bp nu) = some heap ∧ heap.freep ≠ 0 ∧
      mallocLoop nu n heap.freep (heap.ptr heap.freep) ⟨heap, shrunk⟩ = some (t, bp+8) ∧
      t.heap.regions = h.regions := by
  obtain ⟨l, z, heap, rfl, hfree, hfreep, hreg, hhdr⟩ := free_top hg hbp hend
  have hzb := hg.free_bounds (show z ∈ l ++ [z] by simp)
  have hbase := hg.base_pos
  suffices hcarve : ∃ prev x, mallocLoop nu n heap.freep (heap.ptr heap.freep) ⟨heap, shrunk⟩ =
      some (⟨(carve nu prev x heap).1, shrunk⟩, (carve nu prev x heap).2) ∧
      (carve nu prev x heap).2 = plus bp 1 by
    obtain ⟨prev, x, hloop, hres⟩ := hcarve
    rw [hres, plus_eq (by omega)] at hloop
    exact ⟨heap, _, hfree, by omega, hloop, (carve_brk nu prev x heap).2.trans hreg⟩
  rw [hfreep]
  by_cases hjoin : plus z.addr (h.size z.addr) = bp
  · rw [if_pos hjoin] at hhdr
    obtain ⟨prev, hloop⟩ := mallocLoop_joined hg hbp hnu hsmall hrounds shrunk hfreep hjoin hhdr
    exact ⟨prev, z.addr, hloop⟩
  · rw [if_neg hjoin] at hhdr
    have hzbp : bp ≠ z.addr := by omega
    have hptr : heap.ptr z.addr = bp := by rw [Heap.ptr, hhdr, Function.update_self]
    have hsize : heap.size bp = nu := by
      rw [Heap.size, hhdr, Function.update_of_ne hzbp, Function.update_self]
    obtain ⟨n, rfl⟩ : ∃ m, n = m+1 := ⟨n-1, by omega⟩
    refine ⟨z.addr, bp, ?_, ?_⟩
    · rw [hptr]
      exact mallocLoop_here (Nat.le_of_eq hsize.symm)
    · rw [carve, if_pos hsize]

end Top

theorem free_size_lt (h : Good base s.heap fl loose) {e : Extent} (he : e ∈ fl) :
    e.size ≤ s.heap.brk := by
  have := (h.free_bounds he).2.2
  simp only [Extent.fin] at this
  omega

/-- What morecore does with a number of bytes that is no positive `int`. -/
theorem morecore_big (h : Good base s.heap fl loose) (hk : s.heap.brk < KERNBASE)
    (h1 : 0x10000000 ≤ nunits) (h2 : nunits ≤ 0x20000000) {p : ℕ}
    (hm : morecore nunits s = some (t, p)) :
    t.shrunk = true ∨ p ≠ 0 ∧ p = t.heap.freep ∧ ∀ n, s.heap.brk < n →
      ∃ u, mallocLoop nunits n p (t.heap.ptr p) t = some (u, s.heap.brk+8) ∧
        u.heap.regions = s.heap.regions := by
  have hkern : KERNBASE = 0x80000000 := rfl
  have hbase := h.base_pos
  have hbb := h.base_brk
  have hnu : (if nunits < 4096 then 4096 else nunits) = nunits := if_neg (by omega)
  by_cases hshr : 0x100000000 ≤ s.heap.brk+8*nunits ∧ nunits < 0x20000000
  · left
    apply morecore_shrunk _ hm
    rw [hnu, wrap_eq (by omega)]
    exact sbrk_shrinks (by omega) (by omega) hk (by omega)
  · right
    have hstill : wrap (nunits*8) = 0 ∨
        0x80000000 ≤ wrap (nunits*8) ∧ s.heap.brk+wrap (nunits*8) < 0x100000000 := by
      rw [wrap]
      omega
    have hend : plus s.heap.brk nunits ≠ base := by
      rw [plus, wrap]
      omega
    have hplus : plus s.heap.brk 1 = s.heap.brk+8 := plus_eq (by omega)
    unfold morecore at hm
    rw [hnu] at hm
    dsimp only at hm
    rw [sbrk_still hstill (by omega)] at hm
    dsimp only at hm
    split_ifs at hm
    obtain ⟨heap, hfree, he⟩ := Option.bind_eq_some_iff.mp hm
    simp only [Option.some.injEq, Prod.mk.injEq] at he
    obtain ⟨rfl, rfl⟩ := he
    have hsmall : ∀ e ∈ fl, e.size < 8*nunits := by
      intro e he
      have := free_size_lt h he
      omega
    have htop {n : ℕ} (hn : s.heap.brk < n) : heap.freep ≠ 0 ∧
        ∃ u, mallocLoop nunits n heap.freep (heap.ptr heap.freep) ⟨heap, s.shrunk⟩ =
          some (u, s.heap.brk+8) ∧ u.heap.regions = s.heap.regions := by
      obtain ⟨heap', u, hfree', hfreep, hloop, hreg⟩ := mallocLoop_top
        (h.with_answers s.heap.answers.tail) (Nat.le_refl _) (show s.heap.brk+8 < 0x100000000 by omega)
        hend (by omega) hsmall hn s.shrunk
      rw [hplus] at hfree
      obtain rfl := Option.some.inj (hfree'.symm.trans hfree)
      exact ⟨hfreep, u, hloop, hreg⟩
    exact ⟨(htop (Nat.lt_succ_self _)).1, rfl, fun n hn => (htop hn).2⟩

/-- With so many units no block is large enough and sbrk adds nothing: memory is taken away, or
the result is a block behind the heap. -/
theorem mallocLoop_big (h : Good base s.heap fl loose) (hk : s.heap.brk < KERNBASE)
    (h1 : 0x10000000 ≤ nunits) (h2 : nunits ≤ 0x20000000) {p : ℕ}
    (hm : mallocLoop nunits rounds s.heap.freep (s.heap.ptr s.heap.freep) s = some (t, p)) :
    t.shrunk = true ∨ p = s.heap.brk+8 ∧ t.heap.regions = s.heap.regions := by
  have hkern : KERNBASE = 0x80000000 := rfl
  obtain ⟨prev, m, hrounds, hprev, hround, hx⟩ := mallocLoop_round h nunits (n := rounds)
    (by rw [rounds]; omega)
  rw [rounds] at hrounds
  have hsmall : ¬nunits ≤ s.heap.size (s.heap.ptr prev) := by
    intro hbig
    obtain ⟨e, he, hfits⟩ := h.next_fits hprev (by omega) hbig
    have := free_size_lt h he
    omega
  obtain ⟨hf, -⟩ := hx.resolve_left hsmall
  rw [hround, mallocLoop, if_neg hsmall, if_pos hf] at hm
  obtain ⟨⟨u, q⟩, hmore, hrest⟩ := Option.bind_eq_some_iff.mp hm
  dsimp only at hrest
  rcases morecore_big h hk h1 h2 hmore with hshr | ⟨hq, -, hloop⟩
  · left
    split_ifs at hrest
    · simp only [Option.some.injEq, Prod.mk.injEq] at hrest
      rw [← hrest.1]
      exact hshr
    · exact mallocLoop_shrunk hshr hrest
  · right
    obtain ⟨v, hv, hreg⟩ := hloop m (by omega)
    rw [if_neg hq, hv] at hrest
    simp only [Option.some.injEq, Prod.mk.injEq] at hrest
    obtain ⟨rfl, rfl⟩ := hrest
    exact ⟨rfl, hreg⟩

end ProvenXv6.Malloc.OnKernel
