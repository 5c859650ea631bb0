import ProvenXv6.MallocTop

namespace ProvenXv6.Malloc.OnKernel
open Extents StepSystem
open Vm (KERNBASE)

variable {base : ℕ}

structure Inv (base : ℕ) (s : Program) : Prop where
  heap : Malloc.Inv base s.sys
  brk_lt : s.sys.heap.brk < KERNBASE
  kept : s.shrunk = false

theorem ptr_base_iff {s : Heap} {fl loose : List Extent} (h : Good base s fl loose) :
    s.ptr base = base ↔ fl = [⟨base, 0⟩] := by
  obtain ⟨rest, rfl⟩ := h.exists_tail
  have hnext : s.ptr base = (rest.map Extent.addr).headD base := (holds_cons.mp h.list.holds).1.1
  cases rest with
  | nil => exact iff_of_true hnext rfl
  | cons e rest =>
    have hne : e.addr ≠ base := by
      intro he
      simpa [he] using h.list.sep.nodup
    refine iff_of_false ?_ (by simp)
    rw [hnext]
    exact hne

theorem Inv.ready {s : Program} (h : Inv base s) :
    ∃ fl, Good base (ready base s.sys.heap) fl (s.sys.live.map Live.block) ∧
      (ready base s.sys.heap).brk = s.sys.heap.brk ∧
      (ready base s.sys.heap).answers = s.sys.heap.answers ∧
      (s.sys.heap.freep = 0 ∨ s.sys.heap.ptr base = base ↔ fl = [⟨base, 0⟩]) := by
  rcases h.heap with ⟨hbase, hb, hmax, hfreep, hlive, hreg⟩ | ⟨fl, hgood, -⟩
  · rw [OnKernel.ready, if_pos hfreep, hlive]
    exact ⟨[⟨base, 0⟩], good_first hbase hb hmax hreg, rfl, rfl, iff_of_true (Or.inl hfreep) rfl⟩
  · rw [OnKernel.ready, if_neg hgood.freep_ne]
    exact ⟨fl, hgood, rfl, rfl, by rw [or_iff_right hgood.freep_ne, ptr_base_iff hgood]⟩

theorem units_positive {n : ℕ} (h : n ≤ 0x7ffffff0) : units n < 0x10000000 ∧ n+8 ≤ 8*units n := by
  rw [units, wrap]
  omega

theorem units_negative {n : ℕ} (h : 0x7ffffff0 < n) (h' : n < 0xfffffff9) :
    0x10000000 ≤ units n ∧ units n ≤ 0x20000000 := by
  rw [units, wrap]
  omega

theorem units_wrapped {n : ℕ} (h : 0xfffffff9 ≤ n) (h' : n < 0x100000000) : units n = 1 := by
  rw [units, wrap]
  omega

theorem units_pos (n : ℕ) : 0 < units n := Nat.succ_pos _

theorem Inv.malloc_spec {s : Program} {n : ℕ} (h : Inv base s) (hmax : units n < 0x10000000) :
    ∃ t p fl', malloc base n s.process = some (t, p) ∧ t.shrunk = false ∧
      s.sys.heap.brk ≤ t.heap.brk ∧ t.heap.brk < KERNBASE ∧
      (p = 0 ∧ Good base t.heap fl' (s.sys.live.map Live.block) ∧ (units n = 1 → Exhausted base s) ∨
        ∃ b, p = b.addr+8 ∧ b.size = 8*units n ∧ Good base t.heap fl' (b :: s.sys.live.map Live.block) ∧
          (units n = 1 → ¬Exhausted base s)) := by
  obtain ⟨fl, hgood, hbrk, hans, hlist⟩ := h.ready
  obtain ⟨t, p, fl', hm, hshr, hle, hlt, hres⟩ := mallocLoop_spec
    (s := ⟨OnKernel.ready base s.sys.heap, s.shrunk⟩) hgood (by rw [hbrk]; exact h.brk_lt) (units_pos n) hmax
  have hgrows (k : ℕ) : Process.grows ⟨OnKernel.ready base s.sys.heap, s.shrunk⟩ k = s.process.grows k := by
    simp only [Process.grows, hbrk, hans, Program.process]
  rw [hgrows] at hres
  refine ⟨t, p, fl', hm, hshr.trans h.kept, hbrk ▸ hle, hlt, ?_⟩
  rcases hres with ⟨hp, hg, hsmall, hno⟩ | ⟨b, hp, hsize, hg, hroom⟩
  · refine Or.inl ⟨hp, hg, fun hu => ⟨hlist.mpr ?_, by rw [← hno, hu]; rfl⟩⟩
    -- every block but base has a unit or more
    obtain ⟨rest, rfl⟩ := hgood.exists_tail
    cases rest with
    | nil => rfl
    | cons e rest =>
      have hmem : e ∈ (⟨base, 0⟩ :: e :: rest : List Extent) := by simp
      have h1 := hsmall e hmem
      have h2 := hgood.list.holds.size e hmem
      have h3 : 0 < e.size := hgood.list.pos e List.mem_cons_self
      omega
  · refine Or.inr ⟨b, hp, hsize, hg, fun hu hex => ?_⟩
    rcases hroom with ⟨e, he, hbig⟩ | hyes
    · rw [hlist.mp hex.1, List.mem_singleton] at he
      subst he
      exact absurd hbig (by simp only; omega)
    · rw [hu] at hyes
      exact Bool.false_ne_true (hex.2.symm.trans hyes)

theorem Inv.not_honours {s : Program} {n : ℕ} (h : Inv base s) (h1 : 0x7ffffff0 < n)
    (h2 : n < 0xfffffff9) : ¬Honours base n s := by
  rintro ⟨t, p, hm, hshr, -, hp⟩
  obtain ⟨fl, hgood, hbrk, -⟩ := h.ready
  have hu := units_negative h1 h2
  have hk : (OnKernel.ready base s.sys.heap).brk < KERNBASE := by rw [hbrk]; exact h.brk_lt
  rcases mallocLoop_big (s := ⟨OnKernel.ready base s.sys.heap, s.shrunk⟩) hgood hk hu.1 hu.2 hm with
    hs | ⟨rfl, hreg⟩
  · rw [hs] at hshr
    exact absurd hshr (by decide)
  · -- the first byte of the block lies behind everything that sbrk has added
    rcases hp with hp | ⟨b, -, -, hb⟩
    · omega
    · have hcov := (hb _ (Nat.le_refl _) (by omega)).2
      rw [hreg] at hcov
      obtain ⟨r, hr, hx⟩ := exists_of_cover_pos hcov
      have habove := (hgood.above r hr).2
      simp only [Extent.Has] at hx
      omega

/-- A block of one unit has no room, and only where there is none is 0 returned. -/
theorem Inv.honours_wrapped {s : Program} {n : ℕ} (h : Inv base s) (h1 : 0xfffffff9 ≤ n)
    (h2 : n < 0x100000000) :
    Honours base n s ↔ Exhausted base s := by
  have hu := units_wrapped h1 h2
  obtain ⟨t, p, fl', hm, hshr, hle, -, hres⟩ := h.malloc_spec (n := n) (by omega)
  constructor
  · rintro ⟨t', p', hm', -, -, hp⟩
    obtain ⟨rfl, rfl⟩ := Prod.mk.inj (Option.some.inj (hm.symm.trans hm'))
    rcases hres with ⟨rfl, -, hex⟩ | ⟨b, rfl, hsize, hgood, -⟩
    · exact hex hu
    · exfalso
      rcases hp with hp | ⟨c, hc, hcsize, hx⟩
      · omega
      · have haddr : c.addr = b.addr := by omega
        have hb := hgood.size b List.mem_cons_self
        have hhas := (hx _ (Nat.le_refl _) (by omega)).1
        rw [haddr] at hcsize
        simp only [Extent.Has, Extent.fin] at hhas
        omega
  · intro hex
    rcases hres with ⟨rfl, -⟩ | ⟨b, -, -, -, hnot⟩
    · exact ⟨t, 0, hm, hshr, hle, Or.inl rfl⟩
    · exact absurd hex (hnot hu)

theorem Inv.honours {s : Program} {n : ℕ} (h : Inv base s) (hn : n ≤ 0x7ffffff0) :
    Honours base n s := by
  have hu := units_positive hn
  obtain ⟨t, p, fl', hm, hshr, hle, -, ⟨rfl, -⟩ | ⟨b, rfl, hsize, hgood, -⟩⟩ := h.malloc_spec hu.1
  · exact ⟨t, 0, hm, hshr, hle, Or.inl rfl⟩
  · refine ⟨t, _, hm, hshr, hle, Or.inr ⟨b, rfl, (hgood.size b List.mem_cons_self).symm, ?_⟩⟩
    intro x h1 h2
    have hx : b.Has x := by
      simp only [Extent.Has, Extent.fin]
      omega
    refine ⟨hx, ?_⟩
    rw [← hgood.part x, cover_cons, if_pos hx]
    omega

theorem Inv.honours_iff {s : Program} {n : ℕ} (h : Inv base s) (hn : n < 0x100000000) :
    Honours base n s ↔ Fits base n s := by
  unfold Fits
  rcases Nat.lt_or_ge 0x7ffffff0 n with h1 | h1
  · rcases Nat.lt_or_ge n 0xfffffff9 with h2 | h2
    · exact iff_of_false (h.not_honours h1 h2) (by omega)
    · rw [h.honours_wrapped h2 hn]
      constructor
      · exact fun ht => Or.inr ⟨h2, ht⟩
      · rintro (hle | ht)
        · omega
        · exact ht.2
  · exact iff_of_true (h.honours h1) (Or.inl h1)

/-- Calls of malloc with sizes that fit, frees of live blocks, and writes into them. -/
def Fitting (base : ℕ) (s : Program) : Event → Prop
  | .malloc n => n < 0x100000000 ∧ Fits base n s
  | e => Allowed s.sys e

theorem step_brk {s t : Sys} {e : Event} (he : ∀ n, e ≠ .malloc n) (h : Malloc.step base s e = some t) :
    t.heap.brk = s.heap.brk := by
  cases e with
  | malloc n => exact absurd rfl (he n)
  | free p =>
    obtain ⟨heap, hf, hrest⟩ := Option.bind_eq_some_iff.mp h
    obtain rfl := Option.some.inj hrest
    exact free_brk hf
  | write a hd =>
    obtain rfl := Option.some.inj h
    rfl

theorem Inv.live {s : Program} (h : Inv base s) : ∀ l ∈ s.sys.live, l.n+8 ≤ l.block.size := by
  rcases h.heap with ⟨-, -, -, -, hlive, -⟩ | ⟨-, -, hlive⟩
  · rw [hlive]
    exact fun l hl => absurd hl List.not_mem_nil
  · exact hlive

theorem Inv.step_malloc {s t : Program} {n : ℕ} (h : Inv base s) (hn : n < 0x100000000)
    (hsize : Fits base n s) (hst : step base s (.malloc n) = some t) : Inv base t := by
  have hu : units n < 0x10000000 := by
    rcases hsize with hle | ⟨hge, -⟩
    · exact (units_positive hle).1
    · rw [units_wrapped hge hn]
      decide
  obtain ⟨u, p, fl', hm, hshr, -, hlt, hres⟩ := h.malloc_spec hu
  rw [OnKernel.step, hm] at hst
  change (if p = 0 then _ else _) = _ at hst
  rcases hres with ⟨rfl, hgood, -⟩ | ⟨b, rfl, hb, hgood, hnot⟩
  · rw [if_pos rfl] at hst
    obtain rfl := Option.some.inj hst
    exact ⟨Or.inr ⟨fl', hgood, h.live⟩, hlt, hshr⟩
  · have hroom : n+8 ≤ b.size := by
      rcases hsize with hle | ⟨hge, hex⟩
      · have := (units_positive hle).2
        omega
      · exact absurd hex (hnot (units_wrapped hge hn))
    have hblock : (⟨b.addr, 8*u.heap.size b.addr⟩ : Extent) = b := by
      rw [hgood.size b List.mem_cons_self]
    rw [if_neg (by omega), Nat.add_sub_cancel, hblock] at hst
    obtain rfl := Option.some.inj hst
    exact ⟨Or.inr ⟨fl', hgood, List.forall_mem_cons.mpr ⟨hroom, h.live⟩⟩, hlt, hshr⟩

theorem Inv.step {s t : Program} {e : Event} (h : Inv base s) (he : Fitting base s e)
    (hst : step base s e = some t) : Inv base t := by
  have hother (hne : ∀ n, e ≠ .malloc n) (ha : Allowed s.sys e)
      (hs : (Malloc.step base s.sys e).bind (fun sys => some { s with sys := sys }) = some t) :
      Inv base t := by
    obtain ⟨sys, hsys, hrest⟩ := Option.bind_eq_some_iff.mp hs
    obtain rfl := Option.some.inj hrest
    obtain ⟨sys', hsys', hinv⟩ := h.heap.step_spec ha
    obtain rfl := Option.some.inj (hsys.symm.trans hsys')
    refine ⟨hinv, ?_, h.kept⟩
    show sys.heap.brk < KERNBASE
    rw [step_brk hne hsys]
    exact h.brk_lt
  cases e with
  | malloc n => exact h.step_malloc he.1 he.2 hst
  | free p => exact hother (fun n => by simp) he hst
  | write a hd => exact hother (fun n => by simp) he hst

/-- In every state that calls with fitting sizes lead to, malloc honours a size if and only if it
fits: the bytes of its units are a positive `int`, or the size is so large that the number of units
wraps around to one and there is neither a free block nor more memory. -/
theorem malloc_honours_iff (base brk : ℕ) (hbase : 0 < base) (hbrk : base+8 ≤ brk)
    (hmax : brk < KERNBASE) (hdr : ℕ → Header) (answers : List (Option ℕ)) (es : List Event)
    (s : Program) (h : Run (step base) (fun s e _ => Fitting base s e) (start hdr brk answers) es s)
    (n : ℕ) (hn : n < 0x100000000) :
    Honours base n s ↔
      n ≤ 0x7ffffff0 ∨ 0xfffffff9 ≤ n ∧ Exhausted base s := by
  have hkern : KERNBASE = 0x80000000 := rfl
  have hinv : Inv base s := by
    refine h.invariant ⟨Or.inl ⟨hbase, hbrk, ?_, rfl, rfl, rfl⟩, hmax, rfl⟩ fun s e t hs hst he => hs.step he hst
    show brk < 0x100000000
    omega
  exact hinv.honours_iff hn

/-- After a block of ten bytes, one of twenty is honoured, and one of 2^32-1 bytes is not. -/
theorem malloc_honours_ten :
    ∃ s, step 64 (start (fun _ => ⟨0, 0⟩) 4096 [some 0]) (.malloc 10) = some s ∧
      Honours 64 20 s ∧ ¬Honours 64 0xffffffff s := by
  obtain ⟨s, hs, hblock⟩ : ∃ s ∈ step 64 (start (fun _ => ⟨0, 0⟩) 4096 [some 0]) (.malloc 10),
      s.sys.heap.freep ≠ 0 ∧ s.sys.heap.ptr 64 ≠ 64 := by
    decide +kernel
  have hiff := malloc_honours_iff 64 4096 (by decide) (by decide) (by decide) _ _ [.malloc 10] s
    (.cons hs ⟨by decide, Or.inl (by decide)⟩ (.nil s))
  refine ⟨s, hs, (hiff 20 (by decide)).mpr (Or.inl (by decide)), fun h => ?_⟩
  rcases (hiff 0xffffffff (by decide)).mp h with hle | ⟨-, hfree | hbase, -⟩
  · exact absurd hle (by decide)
  · exact hblock.1 hfree
  · exact hblock.2 hbase

/-- malloc of 2^32-1 bytes returns a block of one unit, its header. malloc of 2^32-32776 bytes
gives back 32768 bytes of the process, and then faults. -/
theorem malloc_too_many :
    (∃ r ∈ malloc 64 0xffffffff (start (fun _ => ⟨0, 0⟩) 4096 [some 0]).process,
      r.2 = 36864 ∧ r.1.heap.size 36856 = 1 ∧ r.1.heap.regions = [⟨4096, 32768⟩]) ∧
    (sbrk (wrap (units 0xffff7ff8*8)) (start (fun _ => ⟨0, 0⟩) 65536 []).process).1.heap.brk = 32768 ∧
    (malloc 64 0xffff7ff8 (start (fun _ => ⟨0, 0⟩) 65536 []).process).isNone := by
  decide +kernel

end ProvenXv6.Malloc.OnKernel
