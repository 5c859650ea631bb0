import ProvenXv6.LittleEndian

namespace ProvenXv6.ArgFrame
open LittleEndian

/-- The bytes are in the memory at va. -/
def Holds (m : ℕ → Option (BitVec 8)) (va : ℕ) (bytes : List (BitVec 8)) : Prop :=
  ∀ j < bytes.length, m (va+j) = bytes[j]?

variable {m : ℕ → Option (BitVec 8)} {va : ℕ} {xs ys : List (BitVec 8)}

theorem Holds.left (h : Holds m va (xs ++ ys)) : Holds m va xs := by
  intro j hj
  rw [h j (by rw [List.length_append]; omega), List.getElem?_append_left hj]

theorem Holds.right (h : Holds m va (xs ++ ys)) : Holds m (va+xs.length) ys := by
  intro j hj
  rw [Nat.add_assoc, h _ (by rw [List.length_append]; omega), List.getElem?_append_right (Nat.le_add_right _ _),
    Nat.add_sub_cancel_left]

def wordAt (m : ℕ → Option (BitVec 8)) (va : ℕ) : Option ℕ := do
  let a ← m va
  let b ← m (va+1)
  let c ← m (va+2)
  let d ← m (va+3)
  pure (a.toNat+256*(b.toNat+256*(c.toNat+256*d.toNat)))

def wordsAt (m : ℕ → Option (BitVec 8)) : ℕ → ℕ → Option (List ℕ)
  | 0, _ => some []
  | n+1, va => do
    let w ← wordAt m va
    let ws ← wordsAt m n (va+4)
    pure (w :: ws)

/-- The string at va, as far as the fuel goes. -/
def stringAt (m : ℕ → Option (BitVec 8)) : ℕ → ℕ → Option (List (BitVec 8))
  | 0, _ => none
  | fuel+1, va => do
    let b ← m va
    if b = 0 then pure []
    else do
      let rest ← stringAt m fuel (va+1)
      pure (b :: rest)

def stringsAt (m : ℕ → Option (BitVec 8)) (fuel : ℕ) : List ℕ → Option (List (List (BitVec 8)))
  | [] => some []
  | q :: qs => do
    let a ← stringAt m fuel q
    let as ← stringsAt m fuel qs
    pure (a :: as)

/-- What `main` finds at its stack pointer: the return address, argc and argv, the
pointers of argv with the word behind them, and the strings. -/
structure Frame where
  ret : ℕ
  argc : ℕ
  argv : ℕ
  pointers : List ℕ
  last : ℕ
  strings : List (List (BitVec 8))

def decode (m : ℕ → Option (BitVec 8)) (fuel sp : ℕ) : Option Frame := do
  let ret ← wordAt m sp
  let argc ← wordAt m (sp+4)
  let argv ← wordAt m (sp+8)
  let pointers ← wordsAt m argc argv
  let last ← wordAt m (argv+4*argc)
  let strings ← stringsAt m fuel pointers
  pure ⟨ret, argc, argv, pointers, last, strings⟩

def wordLE (w : ℕ) : List (BitVec 8) := (List.range 4).map (byteLE w)

theorem length_wordLE (w : ℕ) : (wordLE w).length = 4 := by
  rw [wordLE, List.length_map, List.length_range]

theorem wordAt_holds {w : ℕ} (hw : w < 0x100000000) (h : Holds m va (wordLE w)) : wordAt m va = some w := by
  have hlen := length_wordLE w
  have h0 : m va = some (byteLE w 0) := h 0 (by omega)
  have h1 : m (va+1) = some (byteLE w 1) := h 1 (by omega)
  have h2 : m (va+2) = some (byteLE w 2) := h 2 (by omega)
  have h3 : m (va+3) = some (byteLE w 3) := h 3 (by omega)
  unfold wordAt
  rw [h0, h1, h2, h3]
  refine congrArg some ?_
  simp only [byteLE, BitVec.toNat_ofNat]
  omega

theorem wordsAt_holds {ws : List ℕ} (hws : ∀ w ∈ ws, w < 0x100000000) (h : Holds m va (ws.flatMap wordLE)) :
    wordsAt m ws.length va = some ws := by
  induction ws generalizing va with
  | nil => rfl
  | cons w ws ih =>
    rw [List.flatMap_cons] at h
    have hword := wordAt_holds (hws w List.mem_cons_self) h.left
    have hrest := ih (fun w hw => hws w (List.mem_cons_of_mem _ hw)) h.right
    rw [length_wordLE] at hrest
    rw [List.length_cons, wordsAt, hword, hrest]
    rfl

theorem stringAt_holds {arg : List (BitVec 8)} {fuel : ℕ} (hnul : 0 ∉ arg) (hfuel : arg.length < fuel)
    (h : Holds m va (arg ++ [0])) : stringAt m fuel va = some arg := by
  obtain ⟨fuel, rfl⟩ := Nat.exists_eq_add_one.mpr (Nat.zero_lt_of_lt hfuel)
  induction arg generalizing va fuel with
  | nil =>
    have h0 : m va = some 0 := h 0 Nat.one_pos
    rw [stringAt, h0]
    rfl
  | cons b arg ih =>
    have hb : b ≠ 0 := fun he => hnul (he ▸ List.mem_cons_self)
    have h0 : m va = some b := h 0 (Nat.succ_pos _)
    have hall : Holds m va ([b] ++ (arg ++ [0])) := h
    have htail : Holds m (va+1) (arg ++ [0]) := hall.right
    obtain ⟨fuel, rfl⟩ := Nat.exists_eq_add_one.mpr (Nat.zero_lt_of_lt (Nat.lt_of_succ_lt_succ hfuel))
    have hrest := ih (fun h0 => hnul (List.mem_cons_of_mem _ h0)) htail fuel (Nat.lt_of_succ_lt_succ hfuel)
    rw [stringAt, h0]
    change (if b = 0 then pure [] else _) = _
    rw [if_neg hb, hrest]
    rfl

theorem stringsAt_holds {fuel : ℕ} (qs : List ℕ) (args : List (List (BitVec 8))) (hlen : qs.length = args.length)
    (hargs : ∀ arg ∈ args, 0 ∉ arg ∧ arg.length < fuel)
    (h : ∀ x ∈ qs.zip args, Holds m x.1 (x.2 ++ [0])) : stringsAt m fuel qs = some args := by
  induction qs generalizing args with
  | nil =>
    rw [List.length_eq_zero_iff.mp hlen.symm]
    rfl
  | cons q qs ih =>
    cases args with
    | nil => exact absurd hlen (Nat.succ_ne_zero _)
    | cons arg args =>
      obtain ⟨hnul, hfuel⟩ := hargs arg List.mem_cons_self
      have hhead := stringAt_holds hnul hfuel (h (q, arg) List.mem_cons_self)
      have htail := ih args (Nat.succ.inj hlen) (fun a ha => hargs a (List.mem_cons_of_mem _ ha))
        fun x hx => h x (List.mem_cons_of_mem _ hx)
      rw [stringsAt, hhead, htail]
      rfl

theorem decode_holds {fuel ret sp argv : ℕ} {qs : List ℕ} {args : List (List (BitVec 8))}
    (hret : Holds m sp (wordLE ret)) (hargc : Holds m (sp+4) (wordLE args.length))
    (hargv : Holds m (sp+8) (wordLE argv)) (hqs : Holds m argv (qs.flatMap wordLE))
    (hlast : Holds m (argv+4*args.length) (wordLE 0)) (hlen : qs.length = args.length)
    (hbound : ret < 0x100000000 ∧ args.length < 0x100000000 ∧ argv < 0x100000000)
    (hqbound : ∀ q ∈ qs, q < 0x100000000) (hargs : ∀ arg ∈ args, 0 ∉ arg ∧ arg.length < fuel)
    (h : ∀ x ∈ qs.zip args, Holds m x.1 (x.2 ++ [0])) :
    decode m fuel sp = some ⟨ret, args.length, argv, qs, 0, args⟩ := by
  have hwords := wordsAt_holds hqbound hqs
  rw [hlen] at hwords
  unfold decode
  rw [wordAt_holds hbound.1 hret, wordAt_holds hbound.2.1 hargc, wordAt_holds hbound.2.2 hargv]
  change (do
    let pointers ← wordsAt m args.length argv
    let last ← wordAt m (argv+4*args.length)
    let strings ← stringsAt m fuel pointers
    pure (⟨ret, args.length, argv, pointers, last, strings⟩ : Frame)) = _
  rw [hwords, wordAt_holds (by decide) hlast]
  change (do
    let strings ← stringsAt m fuel qs
    pure (⟨ret, args.length, argv, qs, 0, strings⟩ : Frame)) = _
  rw [stringsAt_holds qs args hlen hargs h]
  rfl

end ProvenXv6.ArgFrame
