import ProvenXv6.BcacheInvariant

namespace ProvenXv6.Bcache
open RefCount StepSystem

variable {ι δ : Type} [Fintype ι] [DecidableEq ι] {s t : Sys ι δ} {p : ι} {b : Id} {k : Pc}

theorem Inv.bread {dev blockno : ℕ} (h : Inv s) (hdev : dev ≠ 0)
    (hs : step s (.bread p dev blockno) = some t) : Inv t := by
  obtain ⟨l, hl⟩ := h.list
  simp only [step] at hs
  split_ifs at hs with hp
  rcases hl.bget_spec dev blockno with ⟨b, hb, rfl, rfl⟩ | ⟨hnone, ⟨b, hb, hr, hd⟩ | hb⟩
  · rw [hb] at hs
    cases hs
    have hok := h.ok b
    refine h.update_same rfl ⟨l, hl⟩ rfl (fun x _ => run_on hp x) (fun x => on_ne rfl) (fun _ _ => rfl)
      rfl rfl rfl rfl rfl ⟨?_, ?_, fun q hq => ?_, hok.dirty, hok.saved, hok.dev, hok.data⟩
    · have hcount := hok.count
      simp only [Sys.goto, Sys.setBuf]
      rw [waits_gain (waits_ne (run_on hp b)) rfl]
      omega
    · exact pcs_update (fun _ => ⟨hdev, rfl, rfl⟩) fun q _ =>
        At.congr (hok.pcs q) rfl rfl fun hl => ⟨hl, rfl, rfl, rfl⟩
    · refine ⟨hdev, ?_⟩
      by_cases hqp : q = p
      · subst hqp
        exact Or.inl (hok.running_valid hq hp)
      · simp only [Sys.goto, Sys.setBuf, Function.update_of_ne hqp]
        exact (hok.holder q hq).2
  · rw [hb] at hs
    cases hs
    have hok := h.ok b
    obtain ⟨hlock, hoff⟩ := hok.unused hr
    refine h.update rfl ⟨l, hl⟩ rfl (fun x _ => run_on hp x) (fun x => on_ne rfl) (fun _ _ => rfl)
      (fun _ _ _ => rfl) (fun x _ _ he => hnone x ⟨he.1.symm, he.2.symm⟩) ⟨?_, ?_, fun q hq => ?_, ?_,
        hok.saved, ?_, ?_⟩ (fun _ _ _ => ?_)
    · simp only [Sys.goto, Sys.setBuf, Buf.recycle, hlock]
      rw [waits_gain (waits_ne (hoff p)) rfl, refs_eq_zero.mpr fun q => waits_ne (hoff q)]
      rfl
    · exact pcs_update (fun _ => ⟨hdev, rfl, rfl⟩) fun q _ => At.of_on_ne (hoff q)
    · exact absurd (hlock.symm.trans hq) (Option.some_ne_none q).symm
    · exact fun hd => (Bool.false_ne_true hd).elim
    · exact fun hd => (Bool.false_ne_true hd).elim
    · exact fun hd => (Bool.false_ne_true hd).elim
    · exact Or.inr (Or.inr ⟨rfl, rfl, fun hx => Bool.false_ne_true (hd.symm.trans hx.1)⟩)
  · rw [hb] at hs
    cases hs

theorem Inv.acquiresleep (h : Inv s) (hs : step s (.acquiresleep p) = some t) : Inv t := by
  simp only [step] at hs
  cases hp : s.pc p with
  | acquire b dev blockno =>
    rw [hp] at hs
    simp only at hs
    have hlock : (s.cache.buf b).lock = none := by
      by_contra hlock
      rw [if_neg hlock] at hs
      cases hs
    rw [if_pos hlock] at hs
    cases hs
    have hok := h.ok b
    have hat := hok.pcs p
    rw [hp] at hat
    obtain ⟨hdev, rfl, rfl⟩ := hat rfl
    have hwait : (s.pc p).waits = some b := by rw [hp]; rfl
    refine h.update_same rfl h.list rfl (fun x => on_ne (by rw [hp]; rfl)) (fun x hx => ?_) (fun _ _ => rfl)
      rfl rfl rfl rfl rfl ⟨?_, ?_, fun q hq => ?_, hok.dirty, fun _ => hok.saved hlock, hok.dev, hok.data⟩
    · split_ifs
      · exact (Option.some_ne_none x).symm
      · exact on_ne rfl hx
    · have hcount := hok.count
      have hloss : refs (fun q => (Function.update s.pc p (if (s.cache.buf b).valid = true then Pc.run
          else Pc.read b (s.cache.buf b).dev (s.cache.buf b).blockno) q).waits) b+1 =
          refs (fun q => (s.pc q).waits) b := by
        refine waits_loss hwait ?_
        split_ifs <;> exact (Option.some_ne_none b).symm
      rw [hlock] at hcount
      exact hcount.trans hloss.symm
    · refine pcs_update ?_ fun q _ => At.congr (hok.pcs q) rfl rfl fun hl => ?_
      · split_ifs with hv
        · trivial
        · exact fun _ => ⟨rfl, rfl, rfl, Bool.eq_false_iff.mpr hv, hok.saved hlock⟩
      · exact absurd (hlock.symm.trans hl) (Option.some_ne_none q).symm
    · refine ⟨hdev, ?_⟩
      cases Option.some.inj hq
      by_cases hv : (s.cache.buf b).valid = true
      · exact Or.inl hv
      · simp only [Sys.goto, Sys.setBuf, Function.update_self, if_neg hv]
        exact Or.inr ⟨_, _, rfl⟩
  | _ =>
    rw [hp] at hs
    cases hs

theorem Inv.ideintr (h : Inv s) (hs : step s (.ideintr p) = some t) : Inv t := by
  simp only [step] at hs
  cases hp : s.pc p with
  | read b dev blockno =>
    rw [hp] at hs
    cases hs
    have hok := h.ok b
    have hat := hok.pcs p
    rw [hp] at hat
    obtain ⟨rfl, rfl, hlock, hvalid, hsaved⟩ := hat rfl
    have hdev := (hok.holder p hlock).1
    have hclean : (s.cache.buf b).dirty = false := by
      rw [Bool.eq_false_iff]
      exact fun hd => Bool.false_ne_true (hvalid.symm.trans (hok.dirty hd))
    -- no other buffer has the block, so what the disk has is the last data
    have hlast : s.disk (s.cache.buf b).dev (s.cache.buf b).blockno =
        s.last (s.cache.buf b).dev (s.cache.buf b).blockno := by
      rcases h.disk _ (s.cache.buf b).blockno hdev with heq | ⟨x, hx, hd, hn⟩
      · exact heq
      · rw [h.unique b x hdev hd.symm hn.symm, hx] at hclean
        cases hclean
    refine h.update_same rfl h.list rfl (fun x => on_ne (by rw [hp]; rfl)) (fun x _ => (Option.some_ne_none x).symm)
      (fun _ _ => rfl) rfl rfl rfl rfl hclean.symm ⟨?_, ?_, fun q hq => ⟨hdev, Or.inl rfl⟩,
        fun _ => rfl, hok.saved, fun _ => hdev, fun _ _ => ?_⟩
    · have hkeep : refs (fun q => (Function.update s.pc p Pc.run q).waits) b = refs (fun q => (s.pc q).waits) b :=
        waits_keep (by rw [hp]; exact (Option.some_ne_none b).symm) (Option.some_ne_none b).symm
      exact hok.count.trans (congrArg (·+_) hkeep.symm)
    · exact pcs_update trivial (hok.held hlock rfl rfl)
    · simp only [hclean]
      exact hlast
  | write b =>
    rw [hp] at hs
    cases hs
    have hok := h.ok b
    have hat := hok.pcs p
    rw [hp] at hat
    obtain ⟨hlock, hdirty, hsaved⟩ := hat rfl
    have hdev := (hok.holder p hlock).1
    have hdata := hok.data (hok.dirty hdirty) hsaved
    refine h.update rfl h.list rfl (fun x => on_ne (by rw [hp]; rfl)) (fun x _ => (Option.some_ne_none x).symm)
      (fun _ _ => rfl) (fun _ _ _ => rfl) (fun x => h.other) ⟨?_, ?_, fun q hq => ⟨hdev, Or.inl rfl⟩,
        fun _ => rfl, hok.saved, fun _ => hdev, fun _ _ => hdata⟩ (fun dev blockno _ => ?_)
    · have hkeep : refs (fun q => (Function.update s.pc p Pc.run q).waits) b = refs (fun q => (s.pc q).waits) b :=
        waits_keep (by rw [hp]; exact (Option.some_ne_none b).symm) (Option.some_ne_none b).symm
      exact hok.count.trans (congrArg (·+_) hkeep.symm)
    · exact pcs_update trivial (hok.held hlock rfl rfl)
    · by_cases hk : (s.cache.buf b).dev = dev ∧ (s.cache.buf b).blockno = blockno
      · obtain ⟨rfl, rfl⟩ := hk
        exact Or.inl ((set2_self _ _ _ _).trans hdata)
      · exact Or.inr (Or.inr ⟨set2_of_ne _ _ hk, rfl, fun hd => hk hd.2⟩)
  | _ =>
    rw [hp] at hs
    cases hs

theorem Inv.store {d : δ} (h : Inv s) (hs : step s (.store p b d) = some t) : Inv t := by
  simp only [step] at hs
  split_ifs at hs with hp
  cases hs
  obtain ⟨hp, hlock⟩ := hp
  have hok := h.ok b
  have hself : s.pc = Function.update s.pc p .run := by rw [← hp, Function.update_eq_self]
  refine h.update_same rfl h.list hself (fun x _ => run_on hp x) (fun x _ => (Option.some_ne_none x).symm)
    (fun x hx => Function.update_of_ne hx _ _) rfl rfl rfl rfl rfl ⟨hok.count, fun q => ?_, hok.holder,
      hok.dirty, fun hl => ?_, hok.dev, fun _ hu => ?_⟩
  · by_cases hq : q = p
    · subst hq
      simp only [Sys.setBuf, hp]
      trivial
    · exact hok.held hlock rfl rfl q hq
  · exact absurd (hlock.symm.trans hl) (Option.some_ne_none p)
  · simp only [Function.update_self, Bool.true_eq_false] at hu

theorem Inv.save (h : Inv s) (hp : s.pc p = .run) (hlock : (s.cache.buf b).lock = some p)
    (hk : k = .run ∨ k = .write b) :
    Inv (((s.save b).setBuf b { s.cache.buf b with dirty := true }).goto p k) := by
  have hok := h.ok b
  have hvalid := hok.running_valid hlock hp
  refine h.update rfl h.list rfl (fun x _ => run_on hp x) (fun x hx => ?_)
    (fun x hx => Function.update_of_ne hx _ _) (fun x hx hx0 => set2_of_ne _ _ (h.other hx hx0))
    (fun x => h.other) ⟨?_, ?_, fun q hq => ⟨(hok.holder q hq).1, Or.inl hvalid⟩, fun _ => hvalid, fun hl => ?_,
      hok.dev, fun _ _ => ?_⟩ (fun dev blockno _ => ?_)
  · rcases hk with rfl | rfl
    · exact (Option.some_ne_none x).symm
    · exact on_ne rfl hx
  · have hkeep : refs (fun q => (Function.update s.pc p k q).waits) b = refs (fun q => (s.pc q).waits) b := by
      refine waits_keep (waits_ne (run_on hp b)) ?_
      rcases hk with rfl | rfl <;> exact (Option.some_ne_none b).symm
    exact hok.count.trans (congrArg (·+_) hkeep.symm)
  · refine pcs_update ?_ (hok.held hlock rfl rfl)
    rcases hk with rfl | rfl
    · trivial
    · exact fun _ => ⟨hlock, rfl, Function.update_self _ _ _⟩
  · exact absurd (hlock.symm.trans hl) (Option.some_ne_none p)
  · exact (set2_self _ _ _ _).symm
  · by_cases hk : (s.cache.buf b).dev = dev ∧ (s.cache.buf b).blockno = blockno
    · exact Or.inr (Or.inl ⟨rfl, hk⟩)
    · exact Or.inr (Or.inr ⟨rfl, set2_of_ne _ _ hk, fun hd => hk hd.2⟩)

theorem Inv.bwrite (h : Inv s) (hs : step s (.bwrite p b) = some t) : Inv t := by
  simp only [step] at hs
  split_ifs at hs with hp
  cases hs
  exact h.save hp.1 hp.2 (Or.inr rfl)

theorem Inv.log_write (h : Inv s) (hs : step s (.log_write p b) = some t) : Inv t := by
  simp only [step] at hs
  split_ifs at hs with hp
  cases hs
  have hsave := h.save hp.1 hp.2 (k := .run) (Or.inl rfl)
  rwa [Sys.goto, ← hp.1, show ((s.save b).setBuf b { s.cache.buf b with dirty := true }).pc = s.pc from rfl,
    Function.update_eq_self] at hsave

theorem Inv.brelse (h : Inv s) (hu : s.unsaved b = false) (hs : step s (.brelse p b) = some t) : Inv t := by
  simp only [step] at hs
  split_ifs at hs with hp
  cases hs
  obtain ⟨hp, hlock⟩ := hp
  have hok := h.ok b
  refine h.update_same rfl h.list rfl (fun x _ => run_on hp x) (fun x => on_ne rfl)
    (fun _ _ => rfl) rfl rfl rfl rfl rfl ⟨?_, ?_, fun q hq => (Option.some_ne_none q hq.symm).elim,
      hok.dirty, fun _ => hu, hok.dev, hok.data⟩
  · have hcount := hok.count
    have hgain : refs (fun q => (Function.update s.pc p (Pc.release b) q).waits) b =
        refs (fun q => (s.pc q).waits) b+1 := waits_gain (waits_ne (run_on hp b)) rfl
    rw [hlock] at hcount
    exact hcount.trans hgain.symm
  · exact pcs_update trivial (hok.held hlock rfl rfl)

omit [Fintype ι] [DecidableEq ι] in
theorem release_buf (c : Cache ι δ) (b : Id) : (c.release b).buf =
    Function.update c.buf b { c.buf b with refcnt := (c.buf b).refcnt-1 } := by
  simp only [Cache.release]
  split_ifs <;> rfl

theorem Inv.release (h : Inv s) (hs : step s (.release p) = some t) : Inv t := by
  simp only [step] at hs
  cases hp : s.pc p with
  | release b =>
    rw [hp] at hs
    cases hs
    have hok := h.ok b
    obtain ⟨l, hl⟩ := h.list
    have hloss : refs (fun q => (Function.update s.pc p Pc.run q).waits) b+1 = refs (fun q => (s.pc q).waits) b :=
      waits_loss (by rw [hp]; rfl) (Option.some_ne_none b).symm
    refine h.update_same (release_buf _ _) (hl.release b) rfl (fun x => on_ne (by rw [hp]; rfl))
      (fun x _ => (Option.some_ne_none x).symm) (fun _ _ => rfl) rfl rfl rfl rfl rfl
      ⟨?_, ?_, fun q hq => ⟨(hok.holder q hq).1, (hok.holder q hq).2.imp_right ?_⟩, hok.dirty, hok.saved,
        hok.dev, hok.data⟩
    · have hcount := hok.count
      simp only [Sys.goto]
      omega
    · exact pcs_update trivial fun q _ => At.congr (hok.pcs q) rfl rfl fun hl => ⟨hl, rfl, rfl, rfl⟩
    · rintro ⟨dev, blockno, hr⟩
      refine ⟨dev, blockno, ?_⟩
      have hq : q ≠ p := by
        rintro rfl
        rw [hp] at hr
        cases hr
      simp only [Sys.goto, Function.update_of_ne hq, hr]
  | _ =>
    rw [hp] at hs
    cases hs

theorem Inv.step {e : Event ι δ} (h : Inv s) (ha : Allowed s e) (hs : step s e = some t) : Inv t := by
  cases e with
  | bread p dev blockno => exact h.bread ha hs
  | acquiresleep p => exact h.acquiresleep hs
  | ideintr p => exact h.ideintr hs
  | store p b d => exact h.store hs
  | bwrite p b => exact h.bwrite hs
  | log_write p b => exact h.log_write hs
  | brelse p b => exact h.brelse ha hs
  | release p => exact h.release hs

theorem run_inv {data : Id → δ} {disk : ℕ → ℕ → δ} {es : List (Event ι δ)}
    (hr : Run step (fun s e _ => Allowed s e) (start data disk) es s) : Inv s :=
  hr.invariant (start_inv data disk) fun _ _ _ hi hs ha => hi.step ha hs

end ProvenXv6.Bcache
