import ProvenXv6.BcacheModel

namespace ProvenXv6.Bcache
open Chains

variable {ι δ : Type}

/-- Every buffer is in the list once, and the list is linked both ways. -/
def Listed (c : Cache ι δ) (l : List Id) : Prop :=
  Circle c.next c.prev none (l.map some) ∧ l.Perm (List.finRange NBUF)

theorem Listed.mem {c : Cache ι δ} {l : List Id} (h : Listed c l) (b : Id) : b ∈ l :=
  h.2.mem_iff.mpr (List.mem_finRange b)

theorem Listed.length {c : Cache ι δ} {l : List Id} (h : Listed c l) : l.length = NBUF := by
  rw [h.2.length_eq, List.length_finRange]

theorem some_notMem_cons {b : Id} {l : List Id} (h : b ∉ l) : some b ∉ none :: l.map some := by
  simpa using h

theorem pushFront_circle {c : Cache ι δ} {l : List Id} (h : Circle c.next c.prev none (l.map some))
    {b : Id} (hb : b ∉ l) :
    Circle (c.pushFront b).next (c.pushFront b).prev none ((b :: l).map some) := by
  have hp := h.push (some_notMem_cons hb)
  have hnext : Function.update c.next (some b) (c.next none) none = c.next none :=
    Function.update_of_ne (Option.some_ne_none b).symm _ _
  simp only [Cache.pushFront, hnext]
  exact hp

theorem foldl_pushFront {bs : List Id} {c : Cache ι δ} {l : List Id}
    (h : Circle c.next c.prev none (l.map some)) (hn : (bs.reverse ++ l).Nodup) :
    Circle (bs.foldl Cache.pushFront c).next (bs.foldl Cache.pushFront c).prev none
      ((bs.reverse ++ l).map some) := by
  induction bs generalizing c l with
  | nil => exact h
  | cons b bs ih =>
    rw [List.reverse_cons, List.append_assoc, List.singleton_append] at hn ⊢
    have hb : b ∉ l := (List.nodup_cons.mp (List.nodup_append.mp hn).2.1).1
    exact ih (pushFront_circle h hb) hn

theorem foldl_pushFront_buf (bs : List Id) (c : Cache ι δ) :
    (bs.foldl Cache.pushFront c).buf = c.buf := by
  induction bs generalizing c with
  | nil => rfl
  | cons b bs ih => exact ih (c.pushFront b)

theorem binit_listed (data : Id → δ) :
    Listed (binit data : Cache ι δ) (List.finRange NBUF).reverse := by
  refine ⟨?_, List.reverse_perm _⟩
  have hempty : Circle (fun _ : Node => none) (fun _ : Node => none) none (([] : List Id).map some) :=
    ⟨⟨rfl, trivial⟩, ⟨rfl, trivial⟩, List.nodup_singleton _⟩
  have hn : ((List.finRange NBUF).reverse ++ []).Nodup := by
    rw [List.append_nil]
    exact List.nodup_reverse.mpr (List.nodup_finRange _)
  have hc := foldl_pushFront (c := (⟨fun b => ⟨0, 0, false, false, 0, none, data b⟩, fun _ => none,
    fun _ => none⟩ : Cache ι δ)) hempty hn
  rwa [List.append_nil] at hc

theorem unlink_circle {c : Cache ι δ} {b : Id} {l₁ l₂ : List Id}
    (h : Circle c.next c.prev none ((l₁ ++ b :: l₂).map some)) :
    Circle (c.unlink b).next (c.unlink b).prev none ((l₁ ++ l₂).map some) := by
  rw [List.map_append, List.map_cons] at h
  -- the neighbours of b are other nodes
  have hne : c.next (some b) ≠ some b := by
    rw [h.next_eq]
    intro he
    cases l₂ with
    | nil => exact Option.some_ne_none b he.symm
    | cons d l₂ =>
      have hn := (List.nodup_append.mp (List.nodup_cons.mp h.nodup).2).2.1
      rw [List.map_cons, List.headD_cons] at he
      exact (List.nodup_cons.mp hn).1 (by rw [List.map_cons, he]; exact List.mem_cons_self)
  have hprev : Function.update c.prev (c.next (some b)) (c.prev (some b)) (some b) =
      c.prev (some b) := Function.update_of_ne hne.symm _ _
  have hu := h.unlink
  rw [← List.map_append] at hu
  simp only [Cache.unlink, hprev]
  exact hu

theorem Listed.release {c : Cache ι δ} {l : List Id} (h : Listed c l) (b : Id) :
    ∃ l', Listed (c.release b) l' := by
  simp only [Cache.release]
  split_ifs with hr
  · obtain ⟨l₁, l₂, rfl⟩ := List.append_of_mem (h.mem b)
    have hnodup : (l₁ ++ b :: l₂).Nodup := h.2.nodup_iff.mpr (List.nodup_finRange _)
    have hnot : b ∉ l₁ ++ l₂ := (List.nodup_cons.mp (List.nodup_middle.mp hnodup)).1
    exact ⟨b :: (l₁ ++ l₂), pushFront_circle (unlink_circle h.1) hnot,
      List.perm_middle.symm.trans h.2⟩
  · exact ⟨l, h⟩

theorem find?_map_some (p : Node → Bool) (l : List Id) :
    (l.map some).find? p = (l.find? fun b => p (some b)).map some := by
  rw [List.find?_map]
  rfl

/-- What `bget` finds: the buffer of the block, or else no buffer has the block. -/
theorem Listed.bget_spec {c : Cache ι δ} {l : List Id} (h : Listed c l) (dev blockno : ℕ) :
    (∃ b, c.bget dev blockno = .cached b ∧ (c.buf b).dev = dev ∧ (c.buf b).blockno = blockno) ∨
      (∀ b, ¬((c.buf b).dev = dev ∧ (c.buf b).blockno = blockno)) ∧
        ((∃ b, c.bget dev blockno = .recycle b ∧ (c.buf b).refcnt = 0 ∧ (c.buf b).dirty = false) ∨
          c.bget dev blockno = .noBuffers) := by
  have hlen : (l.map some).length < NBUF+1 := by
    rw [List.length_map, h.length]
    exact Nat.lt_succ_self _
  have hlen' : (l.map some).reverse.length < NBUF+1 := by rwa [List.length_reverse]
  have hfwd : walk c.next (c.isCached dev blockno) (NBUF+1) (c.next none) =
      some (((l.map some).find? (c.isCached dev blockno)).getD none) := by
    rw [h.1.forward.1]
    exact walk_find h.1.forward.2 rfl hlen
  have hbwd : walk c.prev c.isUnused (NBUF+1) (c.prev none) =
      some (((l.map some).reverse.find? c.isUnused).getD none) := by
    rw [h.1.backward.1]
    exact walk_find h.1.backward.2 rfl hlen'
  rw [find?_map_some] at hfwd
  rw [← List.map_reverse, find?_map_some] at hbwd
  cases hf : l.find? fun b => c.isCached dev blockno (some b) with
  | some b =>
    left
    have hb := List.find?_some hf
    rw [hf] at hfwd
    refine ⟨b, ?_, of_decide_eq_true hb⟩
    rw [Cache.bget, hfwd]
    rfl
  | none =>
    right
    rw [hf] at hfwd
    have hbget : c.bget dev blockno = c.findUnused := by
      rw [Cache.bget, hfwd]
      rfl
    refine ⟨fun b hb => ?_, ?_⟩
    · exact List.find?_eq_none.mp hf b (h.mem b) (decide_eq_true hb)
    · rw [hbget, Cache.findUnused, hbwd]
      cases hu : l.reverse.find? fun b => c.isUnused (some b) with
      | some b =>
        have hb := List.find?_some hu
        exact Or.inl ⟨b, rfl, of_decide_eq_true hb⟩
      | none => exact Or.inr rfl

end ProvenXv6.Bcache
