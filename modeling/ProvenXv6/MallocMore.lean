import ProvenXv6.MallocKernel
import ProvenXv6.VmMap

namespace ProvenXv6.Malloc.OnKernel
open Chains Extents StepSystem WeakestPre
open Vm (KERNBASE PGROUNDUP)

variable {base : ℕ} {s t : Process} {fl loose : List Extent} {nunits z : ℕ}

def toInt (n : ℕ) : ℤ := if n < 0x80000000 then n else n-0x100000000

/-- `Malloc.growproc` is what the `growproc` of the kernel does to the size, in every memory whose
pages are accounted for. -/
theorem growproc_kernel {img : Vm.BootImage} {d sz n : ℕ} {D L : List ℕ} {F : Fs.Fault → Prop} {m : Vm.Mem}
    (hF : F (.panic "remap")) (hsz : sz < KERNBASE) (hn : n < 0x100000000)
    (h : Vm.Balanced img (d :: D) L m) :
    wp F (Vm.growproc img d sz (toInt n))
      (fun r _ => ∃ ok, r = (if (growproc ok sz n).1 then 0 else -1, (growproc ok sz n).2)) m := by
  have hkern : KERNBASE = 0x80000000 := rfl
  have hnew : (((sz : ℤ)+toInt n)%0x100000000).toNat = wrap (sz+n) := by
    rw [toInt, wrap]
    split_ifs <;> omega
  unfold Vm.growproc
  rw [hnew]
  dsimp only
  rcases Nat.eq_zero_or_pos n with rfl | h0
  · exact ⟨true, rfl⟩
  rcases Nat.lt_or_ge n 0x80000000 with h1 | h1
  · -- allocuvm, which finds its pages or not
    have hpos : toInt n > 0 := by
      rw [toInt, if_pos h1]
      omega
    have hwrap : wrap (sz+n) = sz+n := wrap_eq (by omega)
    have hle : ¬sz+n < sz := by omega
    rw [if_pos hpos, wp_bind, hwrap]
    simp only [growproc, hwrap, if_neg (Nat.ne_of_gt h0), if_pos h1, if_neg hle]
    by_cases hroom : sz+n ≥ KERNBASE
    · rw [Vm.allocuvm, if_pos hroom]
      exact ⟨true, by rw [if_pos hroom]; rfl⟩
    · simp only [if_neg hroom]
      apply wp_mono (Vm.allocuvm_spec (by omega) (by omega) h fun _ _ _ => Or.inr hF)
      rintro r t ⟨-, ⟨rfl, -⟩ | ⟨rfl, -⟩⟩
      · rw [if_neg (by omega)]
        exact ⟨true, rfl⟩
      · exact ⟨false, rfl⟩
  · have hneg : toInt n < 0 := by
      rw [toInt, if_neg (by omega)]
      omega
    rw [if_neg (by omega), if_pos hneg, wp_bind]
    simp only [growproc, if_neg (Nat.ne_of_gt h0), if_neg (show ¬n < 0x80000000 by omega)]
    apply wp_mono (Vm.deallocuvm_spec _ (Nat.le_of_lt hsz) h)
    rintro r t ⟨rfl, -⟩
    by_cases hzero : min sz (wrap (sz+n)) = 0
    · rw [if_pos hzero, if_pos hzero]
      exact ⟨true, rfl⟩
    · rw [if_neg hzero, if_neg hzero]
      exact ⟨true, rfl⟩

theorem growproc_positive {sz n : ℕ} (ok : Bool) (h0 : 0 < n) (h1 : n < 0x80000000)
    (hk : sz < KERNBASE) :
    growproc ok sz n = (false, sz) ∨ sz+n < KERNBASE ∧ growproc ok sz n = (true, sz+n) := by
  have hkern : KERNBASE = 0x80000000 := rfl
  have hnew : wrap (sz+n) = sz+n := wrap_eq (by omega)
  simp only [growproc, hnew, if_neg (Nat.ne_of_gt h0), if_pos h1]
  by_cases hroom : sz+n ≥ KERNBASE
  · exact Or.inl (if_pos hroom)
  · have hle : ¬sz+n < sz := by omega
    rw [if_neg hroom, if_neg hle]
    cases ok with
    | false => exact Or.inl rfl
    | true => exact Or.inr ⟨Nat.lt_of_not_le hroom, rfl⟩

theorem sbrk_positive {n : ℕ} (h0 : 0 < n) (h1 : n < 0x80000000) (hk : s.heap.brk < KERNBASE) :
    s.grows n = false ∧ sbrk n s = (⟨{ s.heap with answers := s.heap.answers.tail }, s.shrunk⟩, none) ∨
      s.grows n = true ∧ s.heap.brk+n < KERNBASE ∧
        sbrk n s = (⟨s.heap.grow s.heap.brk n s.heap.answers.tail, s.shrunk⟩, some s.heap.brk) := by
  have hshr : shrinks s.heap.brk n = false := decide_eq_false (by omega)
  rcases growproc_positive (s.heap.answers.headD none).isSome h0 h1 hk with hg | ⟨hroom, hg⟩
  · refine Or.inl ⟨congrArg Prod.fst hg, ?_⟩
    simp only [sbrk, hg, hshr, Bool.or_false, Nat.lt_irrefl, ↓reduceIte, Bool.false_eq_true]
  · have hlt : s.heap.brk < s.heap.brk+n := by omega
    refine Or.inr ⟨congrArg Prod.fst hg, hroom, ?_⟩
    simp only [sbrk, hg, hshr, Bool.or_false, if_pos hlt, Nat.add_sub_cancel_left, ↓reduceIte]

/-- Zero bytes, or a negative number that takes the size around below zero: the call succeeds
and changes nothing. -/
theorem sbrk_still {n : ℕ} (hn : n = 0 ∨ 0x80000000 ≤ n ∧ s.heap.brk+n < 0x100000000)
    (h0 : 0 < s.heap.brk) :
    sbrk n s = (⟨{ s.heap with answers := s.heap.answers.tail }, s.shrunk⟩, some s.heap.brk) := by
  have hnew : wrap (s.heap.brk+n) = s.heap.brk+n ∨ n = 0 := by
    rcases hn with rfl | ⟨-, h2⟩
    · exact Or.inr rfl
    · exact Or.inl (wrap_eq h2)
  have hshr : shrinks s.heap.brk n = false := decide_eq_false (by omega)
  have hg : growproc (s.heap.answers.headD none).isSome s.heap.brk n = (true, s.heap.brk) := by
    unfold growproc
    rcases hn with rfl | ⟨h1, h2⟩
    · rfl
    · have hmin : min s.heap.brk (s.heap.brk+n) = s.heap.brk :=
        Nat.min_eq_left (Nat.le_add_right _ _)
      simp only [wrap_eq h2, hmin]
      rw [if_neg (by omega), if_neg (by omega), if_neg (by omega)]
  simp only [sbrk, hg, hshr, Bool.or_false, Nat.lt_irrefl, ↓reduceIte]

theorem sbrk_shrinks {n : ℕ} (h1 : 0x80000000 ≤ n) (h2 : n < 0x100000000)
    (hk : s.heap.brk < KERNBASE) (hn : 0x100000000 ≤ s.heap.brk+n) : (sbrk n s).1.shrunk = true := by
  have hkern : KERNBASE = 0x80000000 := rfl
  have hshr : shrinks s.heap.brk n = true := by
    apply decide_eq_true
    rw [wrap, Nat.mod_eq_sub_mod hn, Nat.mod_eq_of_lt (by omega)]
    omega
  simp [sbrk, hshr]

theorem sbrk_shrunk (n : ℕ) (h : s.shrunk = true) : (sbrk n s).1.shrunk = true := by
  simp [sbrk, h]

theorem morecore_shrunk {p : ℕ} (h : (sbrk (wrap ((if nunits < 4096 then 4096 else nunits)*8)) s).1.shrunk = true)
    (hm : morecore nunits s = some (t, p)) : t.shrunk = true := by
  unfold morecore at hm
  generalize (if nunits < 4096 then 4096 else nunits) = nu at h hm
  dsimp only at hm
  generalize sbrk (wrap (nu*8)) s = r at h hm
  obtain ⟨u, _ | hp⟩ := r
  · simp only [Option.some.injEq, Prod.mk.injEq] at hm
    rw [← hm.1]
    exact h
  · dsimp only at hm
    split_ifs at hm
    obtain ⟨heap, -, he⟩ := Option.bind_eq_some_iff.mp hm
    simp only [Option.some.injEq, Prod.mk.injEq] at he
    rw [← he.1]
    exact h

theorem mallocLoop_shrunk {n prev x p : ℕ} (h : s.shrunk = true)
    (hm : mallocLoop nunits n prev x s = some (t, p)) : t.shrunk = true := by
  induction n generalizing prev x s with
  | zero => exact absurd hm (by simp [mallocLoop])
  | succ n ih =>
    rw [mallocLoop] at hm
    split_ifs at hm with hbig hf
    · simp only [Option.some.injEq, Prod.mk.injEq] at hm
      rw [← hm.1]
      exact h
    · obtain ⟨⟨u, q⟩, hmore, hrest⟩ := Option.bind_eq_some_iff.mp hm
      have hu := morecore_shrunk (sbrk_shrunk _ h) hmore
      dsimp only at hrest
      split_ifs at hrest
      · simp only [Option.some.injEq, Prod.mk.injEq] at hrest
        rw [← hrest.1]
        exact hu
      · exact ih hu hrest
    · exact ih h hm

theorem mallocLoop_skip {l : List ℕ} {prev n : ℕ} (h : Links s.heap.ptr l z)
    (hl : ∀ a ∈ l, s.heap.size a < nunits ∧ a ≠ s.heap.freep) :
    mallocLoop nunits (l.length+n) prev (l.headD z) s =
      mallocLoop nunits n (l.getLastD prev) z s := by
  induction l generalizing prev with
  | nil =>
    rw [List.length_nil, Nat.zero_add]
    rfl
  | cons a l ih =>
    have ha := hl a List.mem_cons_self
    rw [List.length_cons, Nat.add_right_comm, List.headD_cons, mallocLoop,
      if_neg (Nat.not_le.mpr ha.1), if_neg ha.2, h.1, List.getLastD_cons]
    exact ih h.2 fun b hb => hl b (List.mem_cons_of_mem _ hb)

theorem mallocLoop_round (h : Good base s.heap fl loose) (nunits : ℕ) {n : ℕ} (hrounds : s.heap.brk ≤ n) :
    ∃ prev m, n ≤ m+s.heap.brk ∧ prev ∈ fl.map Extent.addr ∧
      mallocLoop nunits n s.heap.freep (s.heap.ptr s.heap.freep) s =
        mallocLoop nunits (m+1) prev (s.heap.ptr prev) s ∧
      (nunits ≤ s.heap.size (s.heap.ptr prev) ∨
        s.heap.ptr prev = s.heap.freep ∧ ∀ e ∈ fl, e.size < 8*nunits) := by
  obtain ⟨l, x, hl, hd, hprev, hskip, hx⟩ := h.search nunits
  obtain rfl := links_getLastD hl
  have hlen := h.length_le
  obtain ⟨m, rfl⟩ : ∃ m, n = l.length+(m+1) := ⟨n-l.length-1, by omega⟩
  refine ⟨l.getLastD s.heap.freep, m, by omega, hprev, ?_, hx⟩
  rw [hl.1, mallocLoop_skip hl.2 hskip]

theorem mallocLoop_here {prev x n : ℕ} (h : nunits ≤ s.heap.size x) :
    mallocLoop nunits (n+1) prev x s =
      some (⟨(carve nunits prev x s.heap).1, s.shrunk⟩, (carve nunits prev x s.heap).2) := by
  rw [mallocLoop, if_pos h]

theorem carve_brk (nunits prev p : ℕ) (h : Heap) :
    (carve nunits prev p h).1.brk = h.brk ∧ (carve nunits prev p h).1.regions = h.regions := by
  unfold carve
  split_ifs
  · exact ⟨rfl, rfl⟩
  · exact ⟨rfl, rfl⟩

theorem mallocLoop_found (h : Good base s.heap fl loose) (hn : 0 < nunits)
    (hbig : ∃ e ∈ fl, 8*nunits ≤ e.size) {n : ℕ} (hrounds : s.heap.brk ≤ n) :
    ∃ t fl' b, mallocLoop nunits n s.heap.freep (s.heap.ptr s.heap.freep) s = some (t, b.addr+8) ∧
      t.shrunk = s.shrunk ∧ t.heap.brk = s.heap.brk ∧ b.size = 8*nunits ∧
      Good base t.heap fl' (b :: loose) := by
  obtain ⟨prev, m, -, hprev, hloop, hx | ⟨-, hsmall⟩⟩ := mallocLoop_round h nunits hrounds
  · obtain ⟨fl', b, hres, hsize, hgood⟩ := h.carve_spec hprev hn hx
    refine ⟨⟨(carve nunits prev _ s.heap).1, s.shrunk⟩, fl', b, ?_, rfl,
      (carve_brk _ _ _ s.heap).1, hsize, hgood⟩
    rw [hloop, mallocLoop_here hx, ← hres]
  · obtain ⟨e, he, hbig⟩ := hbig
    exact absurd hbig (Nat.not_le.mpr (hsmall e he))

theorem free_brk {ap : ℕ} {h h' : Heap} (hf : free ap h = some h') : h'.brk = h.brk := by
  obtain ⟨p, -, he⟩ := Option.bind_eq_some_iff.mp hf
  obtain rfl := Option.some.inj he
  show ((h.attach (ap-8) (h.ptr p)).attach p (ap-8)).brk = h.brk
  rw [attach_eq, attach_eq h]

theorem morecore_spec (h : Good base s.heap fl loose) (hk : s.heap.brk < KERNBASE)
    (hmax : nunits < 0x10000000) :
    ∃ t p, morecore nunits s = some (t, p) ∧ t.shrunk = s.shrunk ∧ s.heap.brk ≤ t.heap.brk ∧
      t.heap.brk < KERNBASE ∧ ((s.grows (8*max 4096 nunits) = false ∧ p = 0 ∧ Good base t.heap fl loose) ∨
        (s.grows (8*max 4096 nunits) = true ∧ p = t.heap.freep ∧
          ∃ fl', Good base t.heap fl' loose ∧ ∃ e ∈ fl', 8*nunits ≤ e.size)) := by
  have hkern : KERNBASE = 0x80000000 := rfl
  unfold morecore
  generalize hn : (if nunits < 4096 then 4096 else nunits) = nu
  have hnu : max 4096 nunits = nu := by
    split_ifs at hn <;> omega
  have hbound : nunits ≤ nu ∧ 0 < nu ∧ nu < 0x10000000 := by
    split_ifs at hn <;> omega
  have hwrap : wrap (nu*8) = 8*nu := by
    rw [wrap_eq (by omega)]
    omega
  dsimp only
  rw [hwrap, hnu]
  rcases sbrk_positive (n := 8*nu) (by omega) (by omega) hk with ⟨hno, hs⟩ | ⟨hyes, hroom, hs⟩
  · rw [hs]
    exact ⟨_, 0, rfl, rfl, Nat.le_refl _, hk, Or.inl ⟨hno, rfl, h.with_answers _⟩⟩
  · rw [hs]
    have hsum : s.heap.brk+0+8*nu < 0x100000000 := by omega
    have hext := h.extend hbound.2.1 hsum s.heap.answers.tail
    obtain ⟨t, fl', hfree, hgood, e, he, hbig⟩ := hext.free_block
    have hplus : plus s.heap.brk 1 = s.heap.brk+8 := plus_eq (by omega)
    have hpage : ¬PGROUNDUP (s.heap.brk+8*nu) < s.heap.brk+8 := by
      rw [Vm.PGROUNDUP_eq (Nat.le_of_lt hroom), Vm.pages, Vm.PGSIZE]
      omega
    simp only [Nat.add_zero] at hfree hbig
    have hbrk : t.brk = s.heap.brk+8*nu := free_brk hfree
    refine ⟨⟨t, s.shrunk⟩, t.freep, ?_, rfl, ?_, ?_, Or.inr ⟨hyes, rfl, fl', hgood, e, he, by omega⟩⟩
    · show (if PGROUNDUP (s.heap.brk+8*nu) < s.heap.brk+8 then _ else _) = _
      rw [if_neg hpage, hplus, hfree]
      rfl
    · show s.heap.brk ≤ t.brk
      omega
    · show t.brk < KERNBASE
      omega

theorem mallocLoop_spec (h : Good base s.heap fl loose) (hk : s.heap.brk < KERNBASE)
    (hn : 0 < nunits) (hmax : nunits < 0x10000000) :
    ∃ t p fl', mallocLoop nunits rounds s.heap.freep (s.heap.ptr s.heap.freep) s = some (t, p) ∧
      t.shrunk = s.shrunk ∧ s.heap.brk ≤ t.heap.brk ∧ t.heap.brk < KERNBASE ∧
      (p = 0 ∧ Good base t.heap fl' loose ∧ (∀ e ∈ fl, e.size < 8*nunits) ∧
          s.grows (8*max 4096 nunits) = false ∨
        ∃ b, p = b.addr+8 ∧ b.size = 8*nunits ∧ Good base t.heap fl' (b :: loose) ∧
          ((∃ e ∈ fl, 8*nunits ≤ e.size) ∨ s.grows (8*max 4096 nunits) = true)) := by
  have hbrk := h.brk_lt
  obtain ⟨prev, m, hm, hprev, hloop, hx⟩ := mallocLoop_round h nunits (n := rounds)
    (by rw [rounds]; omega)
  rw [rounds] at hm
  rw [hloop]
  by_cases hbig : nunits ≤ s.heap.size (s.heap.ptr prev)
  · obtain ⟨fl', b, hres, hsize, hgood⟩ := h.carve_spec hprev hn hbig
    have hsame := (carve_brk nunits prev (s.heap.ptr prev) s.heap).1
    exact ⟨_, _, fl', mallocLoop_here hbig, rfl, Nat.le_of_eq hsame.symm, hsame ▸ hk,
      Or.inr ⟨b, hres, hsize, hgood, Or.inl (h.next_fits hprev hn hbig)⟩⟩
  · obtain ⟨hf, hnone⟩ := hx.resolve_left hbig
    obtain ⟨t, p, hmore, hshr, hle, hlt, ⟨hno, rfl, hgood⟩ | ⟨hyes, rfl, fl', hgood, hlarge⟩⟩ :=
      morecore_spec h hk hmax
    · refine ⟨t, 0, fl, ?_, hshr, hle, hlt, Or.inl ⟨rfl, hgood, hnone, hno⟩⟩
      rw [mallocLoop, if_neg hbig, if_pos hf, hmore]
      rfl
    · -- the second round finds the block that sbrk gave
      have hrounds : t.heap.brk ≤ m := by
        have := hgood.brk_lt
        omega
      obtain ⟨u, fl'', b, hfound, hshr', hsame, hsize, hgood'⟩ := mallocLoop_found hgood hn hlarge hrounds
      refine ⟨u, _, fl'', ?_, hshr'.trans hshr, by omega, by omega, Or.inr ⟨b, rfl, hsize, hgood', Or.inr hyes⟩⟩
      rw [mallocLoop, if_neg hbig, if_pos hf, hmore]
      show (if t.heap.freep = 0 then _ else _) = _
      rw [if_neg hgood.freep_ne, hfound]

end ProvenXv6.Malloc.OnKernel
