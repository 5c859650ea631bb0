import ProvenXv6.FsDirs

namespace ProvenXv6.Fs
open SlotMap WeakestPre

/-- The allocated inodes by number. -/
abbrev Table := ℕ → Option Node

/-- The table of inodes is N, the references are those of L, each an entry of the cache
with the number of its inode, and the entries of W are locked. An allocated inode
without links is loaded and referred to by one of the references B, unless O allows it. -/
structure Ledger (sb : Superblock) (O : ℕ → Prop) (N : Table) (B L : List (Ip × ℕ)) (W : List Ip) (s : FS) :
    Prop where
  sound : Sound sb s
  nodes : node sb s.disk = N
  refs : ∀ e, (s.inode e).ref = (L.map Prod.fst).count e
  inum : ∀ p ∈ L, (s.inode p.1).inum = p.2
  sub : ∀ p ∈ B, p ∈ L
  nodup : W.Nodup
  locked : ∀ e, (s.inode e).locked = true ↔ e ∈ W
  loaded : ∀ e ∈ W, (s.inode e).valid = true ∧ e ∈ L.map Prod.fst
  orphans : ∀ i nd, N i = some nd → nd.nlink = 0 → O i ∨ ∃ e, (e, i) ∈ B ∧ (s.inode e).valid = true

/-- From N to N' inode i is freed: it has no links and none of the references L. -/
structure Frees (N : Table) (L : List (Ip × ℕ)) (i : ℕ) (N' : Table) : Prop where
  eq : N' = Function.update N i none
  node : ∃ nd, N i = some nd ∧ nd.nlink = 0
  unused : ∀ e, (e, i) ∉ L

variable {sb : Superblock} {dev : Devsw} {O : ℕ → Prop} {N N' : Table} {B B' L L' : List (Ip × ℕ)} {W W' : List Ip}
variable {s t u : FS} {F : Fault → Prop} {ip dp : Ip} {i d : ℕ} {nd : Node}

theorem mem_fst (h : (ip, i) ∈ L) : ip ∈ L.map Prod.fst := List.mem_map.mpr ⟨_, h, rfl⟩

theorem exists_mem_of_fst (h : ip ∈ L.map Prod.fst) : ∃ i, (ip, i) ∈ L := by
  obtain ⟨⟨e, i⟩, hp, rfl⟩ := List.mem_map.mp h
  exact ⟨i, hp⟩

namespace Ledger

theorem ref_pos (h : Ledger sb O N B L W s) (hip : ip ∈ L.map Prod.fst) : 0 < (s.inode ip).ref := by
  have := List.count_pos_iff.mpr hip
  rw [h.refs]
  omega

theorem ref_pos_of_locked (h : Ledger sb O N B L W s) (hip : ip ∈ W) : 0 < (s.inode ip).ref :=
  h.ref_pos (h.loaded ip hip).2

theorem range (h : Ledger sb O N B L W s) (hip : (ip, i) ∈ L) : 1 ≤ i ∧ i < sb.ninodes := by
  have hr := h.sound.cached.range ip (h.ref_pos (mem_fst hip))
  rwa [h.inum _ hip] at hr

theorem entry_eq {e : Ip} (h : Ledger sb O N B L W s) (hip : (ip, i) ∈ L) (he : (e, i) ∈ L) : e = ip := by
  apply h.sound.cached.unique e ip (h.ref_pos (mem_fst he)) (h.ref_pos (mem_fst hip))
  rw [h.inum _ he, h.inum _ hip]

theorem node_self (h : Ledger sb O N B L W s) (hip : (ip, i) ∈ L) (hv : (s.inode ip).valid = true) :
    N i = some ((s.inode ip).din.node (content sb s.disk i)) := by
  have hn := h.sound.node_self (h.ref_pos (mem_fst hip)) hv
  rwa [h.inum _ hip, h.nodes] at hn

theorem perm (h : Ledger sb O N B L W s) (hL : L.Perm L') (hW : W.Perm W') : Ledger sb O N B L' W' s where
  sound := h.sound
  nodes := h.nodes
  refs e := by rw [h.refs, (hL.map Prod.fst).count_eq]
  inum p hp := h.inum p (hL.mem_iff.mpr hp)
  sub p hp := hL.mem_iff.mp (h.sub p hp)
  nodup := hW.nodup_iff.mp h.nodup
  locked e := by rw [h.locked, hW.mem_iff]
  loaded e he := by
    obtain ⟨hv, hmem⟩ := h.loaded e (hW.mem_iff.mpr he)
    exact ⟨hv, (hL.map Prod.fst).mem_iff.mp hmem⟩
  orphans := h.orphans

theorem promote (B' : List (Ip × ℕ)) (h : Ledger sb O N B L W s) (hB : ∀ p ∈ B, p ∈ B') (hsub : ∀ p ∈ B', p ∈ L) :
    Ledger sb O N B' L W s where
  sound := h.sound
  nodes := h.nodes
  refs := h.refs
  inum := h.inum
  sub := hsub
  nodup := h.nodup
  locked := h.locked
  loaded := h.loaded
  orphans j nd hnd hlink := by
    rcases h.orphans j nd hnd hlink with hO | ⟨e, he, hv⟩
    · exact Or.inl hO
    · exact Or.inr ⟨e, hB _ he, hv⟩

theorem got (h : Ledger sb O N B L W s) (hg : Got sb i ip s t) : Ledger sb O N B ((ip, i) :: L) W t := by
  -- an entry that was in use before is as it was, but for the count
  have hsame (e : Ip) (he : e ∈ L.map Prod.fst) :
      (t.inode e).inum = (s.inode e).inum ∧ (t.inode e).valid = (s.inode e).valid := by
    by_cases hei : e = ip
    · rw [hei] at he ⊢
      rw [hg.hit (h.ref_pos he)]
      exact ⟨rfl, rfl⟩
    · rw [hg.other e hei]
      exact ⟨rfl, rfl⟩
  refine ⟨hg.sound, by rw [hg.disk, h.nodes], ?_, ?_, ?_, h.nodup, ?_, ?_, ?_⟩
  · intro e
    rw [List.map_cons]
    by_cases hei : e = ip
    · rw [hei, hg.ref, h.refs, List.count_cons_self]
      rfl
    · rw [hg.other e hei, h.refs, List.count_cons_of_ne (Ne.symm hei)]
  · intro p hp
    rcases List.mem_cons.mp hp with rfl | hp
    · exact hg.inum
    · rw [(hsame p.1 (mem_fst hp)).1, h.inum p hp]
  · exact fun p hp => List.mem_cons_of_mem _ (h.sub p hp)
  · intro e
    by_cases hei : e = ip
    · rw [hei, hg.locked, h.locked]
    · rw [hg.other e hei, h.locked]
  · intro e he
    obtain ⟨hv, hmem⟩ := h.loaded e he
    rw [(hsame e hmem).2]
    exact ⟨hv, List.mem_cons_of_mem _ hmem⟩
  · intro j nd hnd hlink
    rcases h.orphans j nd hnd hlink with hO | ⟨e, he, hv⟩
    · exact Or.inl hO
    · refine Or.inr ⟨e, he, ?_⟩
      rw [(hsame e (mem_fst (h.sub _ he))).2, hv]

theorem lock (h : Ledger sb O N B L W s) (hip : ip ∈ L.map Prod.fst) (hl : Locked sb ip s t) :
    Ledger sb O N B L (ip :: W) t := by
  have hsame (e : Ip) : (t.inode e).ref = (s.inode e).ref ∧ (t.inode e).inum = (s.inode e).inum ∧
      ((s.inode e).valid = true → (t.inode e).valid = true) := by
    by_cases hei : e = ip
    · rw [hei, hl.self]
      exact ⟨rfl, rfl, fun _ => rfl⟩
    · rw [hl.other e hei]
      exact ⟨rfl, rfl, id⟩
  have hfree : ip ∉ W := by
    intro hW
    rw [← h.locked, hl.free] at hW
    cases hW
  refine ⟨hl.sound, by rw [hl.disk, h.nodes], fun e => by rw [(hsame e).1, h.refs],
    fun p hp => by rw [(hsame p.1).2.1, h.inum p hp], h.sub, List.nodup_cons.mpr ⟨hfree, h.nodup⟩, ?_, ?_, ?_⟩
  · intro e
    rw [List.mem_cons]
    by_cases hei : e = ip
    · rw [hei, hl.self]
      exact iff_of_true rfl (Or.inl rfl)
    · rw [hl.other e hei, h.locked]
      exact (or_iff_right hei).symm
  · intro e he
    rcases List.mem_cons.mp he with rfl | he
    · exact ⟨by rw [hl.self], hip⟩
    · exact ⟨(hsame e).2.2 (h.loaded e he).1, (h.loaded e he).2⟩
  · intro j nd hnd hlink
    rcases h.orphans j nd hnd hlink with hO | ⟨e, he, hv⟩
    · exact Or.inl hO
    · exact Or.inr ⟨e, he, (hsame e).2.2 hv⟩

theorem unlock (h : Ledger sb O N B L (ip :: W) s) :
    Ledger sb O N B L W (s.mapInode ip fun e => { e with locked := false }) := by
  have hr := h.ref_pos_of_locked List.mem_cons_self
  have hsound := h.sound.mapInode_same (f := fun e => { e with locked := false }) hr rfl rfl rfl
    (h.sound.cached.nonneg ip)
  generalize hu : (s.mapInode ip fun e => { e with locked := false }) = u
  rw [hu] at hsound
  have hself : u.inode ip = { s.inode ip with locked := false } := by rw [← hu, FS.mapInode_same]
  have hother (e : Ip) (he : e ≠ ip) : u.inode e = s.inode e := by rw [← hu, FS.mapInode_of_ne s he]
  have hsame (e : Ip) : (u.inode e).ref = (s.inode e).ref ∧ (u.inode e).inum = (s.inode e).inum ∧
      (u.inode e).valid = (s.inode e).valid := by
    by_cases hei : e = ip
    · rw [hei, hself]
      exact ⟨rfl, rfl, rfl⟩
    · rw [hother e hei]
      exact ⟨rfl, rfl, rfl⟩
  obtain ⟨hnot, hnodup⟩ := List.nodup_cons.mp h.nodup
  refine ⟨hsound, by rw [← hu, FS.mapInode_disk, h.nodes], fun e => by rw [(hsame e).1, h.refs],
    fun p hp => by rw [(hsame p.1).2.1, h.inum p hp], h.sub, hnodup, ?_, ?_, ?_⟩
  · intro e
    by_cases hei : e = ip
    · rw [hei, hself]
      exact iff_of_false Bool.false_ne_true hnot
    · rw [hother e hei, h.locked, List.mem_cons]
      exact or_iff_right hei
  · intro e he
    rw [(hsame e).2.2]
    exact h.loaded e (List.mem_cons_of_mem _ he)
  · intro j nd hnd hlink
    rcases h.orphans j nd hnd hlink with hO | ⟨e, he, hv⟩
    · exact Or.inl hO
    · exact Or.inr ⟨e, he, by rw [(hsame e).2.2, hv]⟩

/-- A reference is given back. The inode is freed with its last reference, which then
was one of B or O allows it. -/
theorem drop (h : Ledger sb O N B ((ip, i) :: L) W s) (hd : Dropped sb ip s t) (hsub : ∀ p ∈ B', p ∈ L)
    (hB : ∀ p ∈ B, p = (ip, i) ∨ p ∈ B') (hself : (ip, i) ∈ B → (ip, i) ∈ L → (ip, i) ∈ B') :
    ∃ N', Ledger sb O N' B' L W t ∧ (N' = N ∨ Frees N L i N' ∧ ((∀ p ∈ B, p ∈ L) → O i)) := by
  have hinum := h.inum _ List.mem_cons_self
  have hcount : (s.inode ip).ref = (L.map Prod.fst).count ip+1 := by
    rw [h.refs, List.map_cons, List.count_cons_self]
    rfl
  have hfree : ip ∉ W := by
    intro hW
    rw [← h.locked, hd.free] at hW
    cases hW
  have hrefs (e : Ip) : (t.inode e).ref = (L.map Prod.fst).count e := by
    by_cases hei : e = ip
    · rw [hei, hd.ref, hcount]
      omega
    · rw [hd.other e hei, h.refs, List.map_cons, List.count_cons_of_ne (Ne.symm hei)]
  have hinums (p : Ip × ℕ) (hp : p ∈ L) : (t.inode p.1).inum = p.2 := by
    have hold := h.inum p (List.mem_cons_of_mem _ hp)
    by_cases hei : p.1 = ip
    · rw [hei] at hold ⊢
      rw [hd.inum, hold]
    · rw [hd.other _ hei, hold]
  have hlocked (e : Ip) : (t.inode e).locked = true ↔ e ∈ W := by
    rw [← h.locked]
    by_cases hei : e = ip
    · rw [hei, hd.locked]
    · rw [hd.other e hei]
  have hloaded (e : Ip) (he : e ∈ W) : (t.inode e).valid = true ∧ e ∈ L.map Prod.fst := by
    obtain ⟨hv, hmem⟩ := h.loaded e he
    have hei : e ≠ ip := fun hei => hfree (hei ▸ he)
    rw [hd.other e hei]
    exact ⟨hv, (List.mem_cons.mp hmem).resolve_left hei⟩
  -- the references B' for the other inodes without links
  have horphans (j : ℕ) (nd : Node) (hj : j ≠ i) (hnd : N j = some nd) (hlink : nd.nlink = 0) :
      O j ∨ ∃ e, (e, j) ∈ B' ∧ (t.inode e).valid = true := by
    rcases h.orphans j nd hnd hlink with hO | ⟨e, he, hv⟩
    · exact Or.inl hO
    · have hne : (e, j) ≠ (ip, i) := fun heq => hj (Prod.mk.inj heq).2
      have hei : e ≠ ip := by
        rintro rfl
        exact hj ((h.inum _ (h.sub _ he)).symm.trans hinum)
      exact Or.inr ⟨e, (hB _ he).resolve_left hne, by rw [hd.other e hei, hv]⟩
  by_cases hlast : Last s ip
  · obtain ⟨hv, hlink, hone⟩ := hlast
    have hnode := h.node_self List.mem_cons_self hv
    have hunused (e : Ip) : (e, i) ∉ L := by
      intro he
      have heq := h.entry_eq List.mem_cons_self (List.mem_cons_of_mem _ he)
      have hpos := List.count_pos_iff.mpr (mem_fst (heq ▸ he : (ip, i) ∈ L))
      omega
    refine ⟨Function.update N i none, ⟨hd.sound, ?_, hrefs, hinums, hsub, h.nodup, hlocked, hloaded, ?_⟩,
      Or.inr ⟨⟨rfl, ⟨_, hnode, hlink⟩, hunused⟩, ?_⟩⟩
    · rw [hd.last ⟨hv, hlink, hone⟩, h.nodes, hinum]
    · intro j nd hnd hlink
      by_cases hj : j = i
      · rw [hj, Function.update_self] at hnd
        cases hnd
      · rw [Function.update_of_ne hj] at hnd
        exact horphans j nd hj hnd hlink
    · intro hBL
      rcases h.orphans i _ hnode hlink with hO | ⟨e, he, -⟩
      · exact hO
      · exact absurd (hBL _ he) (hunused e)
  · obtain ⟨hdisk, hkept⟩ := hd.kept hlast
    refine ⟨N, ⟨hd.sound, by rw [hdisk, h.nodes], hrefs, hinums, hsub, h.nodup, hlocked, hloaded, ?_⟩, Or.inl rfl⟩
    intro j nd hnd hlink
    by_cases hj : j = i
    · subst hj
      rcases h.orphans j nd hnd hlink with hO | ⟨e, he, hv⟩
      · exact Or.inl hO
      · -- it was not the last reference, so there is another one
        obtain rfl : e = ip := h.entry_eq List.mem_cons_self (h.sub _ he)
        have hnode := h.node_self List.mem_cons_self hv
        rw [hnd, Option.some.injEq] at hnode
        have hlink' : (s.inode e).din.nlink = 0 := by
          rw [hnode] at hlink
          exact hlink
        have hmore : (s.inode e).ref ≠ 1 := fun hone => hlast ⟨hv, hlink', hone⟩
        have hpos : 0 < (L.map Prod.fst).count e := by omega
        obtain ⟨k, hp⟩ := exists_mem_of_fst (List.count_pos_iff.mp hpos)
        have hk : k = j := (h.inum _ (List.mem_cons_of_mem _ hp)).symm.trans hinum
        rw [hk] at hp
        exact Or.inr ⟨e, hself he hp, by rw [hkept, hv]⟩
    · exact horphans j nd hj hnd hlink

theorem drop_temp (h : Ledger sb O N B ((ip, i) :: L) W s) (hd : Dropped sb ip s t) (hsub : ∀ p ∈ B, p ∈ L) :
    ∃ N', Ledger sb O N' B L W t ∧ (N' = N ∨ O i ∧ Frees N L i N') := by
  obtain ⟨N', ht, hN⟩ := h.drop hd hsub (fun _ hp => Or.inr hp) fun hp _ => hp
  exact ⟨N', ht, hN.imp_right fun hf => ⟨hf.2 hsub, hf.1⟩⟩

theorem drop_base (h : Ledger sb O N ((ip, i) :: L) ((ip, i) :: L) W s) (hd : Dropped sb ip s t) :
    ∃ N', Ledger sb O N' L L W t ∧ (N' = N ∨ Frees N L i N') := by
  obtain ⟨N', ht, hN⟩ := h.drop hd (fun _ hp => hp) (fun _ hp => List.mem_cons.mp hp) fun _ hp => hp
  exact ⟨N', ht, hN.imp_right And.left⟩

theorem orphan_mem (h : Ledger sb O N B L W s) (hip : (ip, i) ∈ L) (hnd : N i = some nd) (hlink : nd.nlink = 0) :
    O i ∨ (ip, i) ∈ B := by
  rcases h.orphans i nd hnd hlink with hO | ⟨e, he, -⟩
  · exact Or.inl hO
  · rw [h.entry_eq hip (h.sub _ he)] at he
    exact Or.inr he

theorem stored (h : Ledger sb O N B L W s) (hst : Stored sb ip nd s t) (hip : (ip, i) ∈ L)
    (hv : (s.inode ip).valid = true) (hlink : nd.nlink = 0 → O i ∨ (ip, i) ∈ B) :
    Ledger sb O (Function.update N i (some nd)) B L W t := by
  have hsame (e : Ip) : (t.inode e).ref = (s.inode e).ref ∧ (t.inode e).inum = (s.inode e).inum ∧
      (t.inode e).valid = (s.inode e).valid ∧ (t.inode e).locked = (s.inode e).locked := by
    by_cases hei : e = ip
    · rw [hei, hst.self]
      exact ⟨rfl, rfl, rfl, rfl⟩
    · rw [hst.other e hei]
      exact ⟨rfl, rfl, rfl, rfl⟩
  refine ⟨hst.sound, by rw [hst.nodes, h.nodes, h.inum _ hip], fun e => by rw [(hsame e).1, h.refs],
    fun p hp => by rw [(hsame p.1).2.1, h.inum p hp], h.sub, h.nodup, fun e => by rw [(hsame e).2.2.2, h.locked],
    fun e he => by rw [(hsame e).2.2.1]; exact h.loaded e he, ?_⟩
  intro j nd' hnd hlink'
  by_cases hj : j = i
  · subst hj
    rw [Function.update_self, Option.some.injEq] at hnd
    subst hnd
    exact (hlink hlink').imp_right fun hB => ⟨ip, hB, by rw [(hsame ip).2.2.1, hv]⟩
  · rw [Function.update_of_ne hj] at hnd
    rcases h.orphans j nd' hnd hlink' with hO | ⟨e, he, hv'⟩
    · exact Or.inl hO
    · exact Or.inr ⟨e, he, by rw [(hsame e).2.2.1, hv']⟩

theorem same (h : Ledger sb O N B L W s) (hs : Same sb s t) : Ledger sb O N B L W t := by
  have hused (e : Ip) (he : e ∈ L.map Prod.fst) : t.inode e = s.inode e := hs.used e (h.ref_pos he)
  have hunused (e : Ip) (he : e ∉ L.map Prod.fst) : (s.inode e).ref = 0 := by
    rw [h.refs, List.count_eq_zero_of_not_mem he]
    rfl
  refine ⟨hs.sound, by rw [hs.disk, h.nodes], ?_, ?_, h.sub, h.nodup, ?_, ?_, ?_⟩
  · intro e
    by_cases he : e ∈ L.map Prod.fst
    · rw [hused e he, h.refs]
    · rw [(hs.unused e (hunused e he)).1, ← hunused e he, h.refs]
  · intro p hp
    rw [hused _ (mem_fst hp), h.inum p hp]
  · intro e
    by_cases he : e ∈ L.map Prod.fst
    · rw [hused e he, h.locked]
    · rw [(hs.unused e (hunused e he)).2, h.locked]
  · intro e he
    rw [hused e (h.loaded e he).2]
    exact h.loaded e he
  · intro j nd hnd hlink
    rcases h.orphans j nd hnd hlink with hO | ⟨e, he, hv⟩
    · exact Or.inl hO
    · exact Or.inr ⟨e, he, by rw [hused e (mem_fst (h.sub _ he)), hv]⟩

end Ledger

end ProvenXv6.Fs
