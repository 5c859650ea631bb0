import ProvenXv6.ArgFrame
import ProvenXv6.KernExecWalks

namespace ProvenXv6.Kern
open WeakestPre Lockstep ArgFrame
open Fs (Byte Block Fault copyIn Superblock Devsw)
open Vm (Mem VmM BootImage Balanced KERNBASE PGSIZE pages copyoutBy uva2ka content)
open Ptable (Slot)

variable {img : BootImage} {B D L : List ℕ} {k k' k₁ : Kernel} {p : Slot} {s t : Mem} {d n sz sp base j : ℕ}
  {argv : List (List Byte)} {path : List Byte} {b : Block}

def byteAt (s : Mem) (d va : ℕ) : Option Byte := (content s d (va/PGSIZE)).map fun b => b (va%PGSIZE)

theorem byteAt_page {v : ℕ} (h : content s d v = some b) (hj : j < PGSIZE) :
    byteAt s d (v*PGSIZE+j) = some (b j) := by
  have hdiv : (v*PGSIZE+j)/PGSIZE = v := by
    simp only [PGSIZE] at hj ⊢
    omega
  have hmod : (v*PGSIZE+j)%PGSIZE = j := by
    simp only [PGSIZE] at hj ⊢
    omega
  rw [byteAt, hdiv, hmod, h, Option.map_some]

theorem holds_page {v off : ℕ} {bytes : List Byte} (h : content s d v = some b) (hlen : off+bytes.length ≤ PGSIZE)
    (hb : ∀ j < bytes.length, b (off+j) = bytes.getD j 0) : Holds (byteAt s d) (v*PGSIZE+off) bytes := by
  intro j hj
  rw [Nat.add_assoc, byteAt_page h (by omega), hb j hj, List.getD_eq_getElem?_getD, List.getElem?_eq_getElem hj,
    Option.getD_some]

theorem copyIn_inside {m : ℕ} {src : ℕ → Byte} (hj : j < m) : copyIn b n m src (n+j) = src j := by
  rw [copyIn, if_pos (by omega), Nat.add_sub_cancel_left]

theorem copyIn_outside {m : ℕ} {src : ℕ → Byte} (hj : n+m ≤ j) : copyIn b n m src j = b j := by
  rw [copyIn, if_neg (by omega)]

theorem pushedPage_above (argv : List (List Byte)) (sp : ℕ) (b : Block) (hroom : used argv ≤ sp-base)
    (hj : sp-base ≤ j) : pushedPage base argv sp b j = b j := by
  induction argv generalizing sp b with
  | nil => rfl
  | cons arg argv ih =>
    have hpad := length_le_padded arg
    rw [used] at hroom
    rw [pushedPage, ih _ _ (by omega) (by omega), copyIn_outside]
    rw [List.length_append, List.length_singleton]
    omega

theorem pushedPage_holds (argv : List (List Byte)) (sp : ℕ) (b : Block) (hroom : used argv ≤ sp-base)
    (x : ℕ × List Byte) (hx : x ∈ (places argv sp).zip argv) :
    ∀ j < (x.2 ++ [0]).length, pushedPage base argv sp b (x.1-base+j) = (x.2 ++ [0]).getD j 0 := by
  induction argv generalizing sp b with
  | nil => cases hx
  | cons arg argv ih =>
    rw [used] at hroom
    rw [places, List.zip_cons_cons, List.mem_cons] at hx
    intro j hj
    rcases hx with rfl | hx
    · rw [pushedPage, pushedPage_above argv _ _ (by omega) (Nat.le_add_right _ _), copyIn_inside hj]
    · exact ih _ _ (by omega) hx j hj

theorem mem_zip_places (argv : List (List Byte)) (sp : ℕ) (hroom : used argv ≤ sp) (x : ℕ × List Byte)
    (hx : x ∈ (places argv sp).zip argv) : sp-used argv ≤ x.1 ∧ x.1+(x.2.length+1) ≤ sp := by
  induction argv generalizing sp with
  | nil => cases hx
  | cons arg argv ih =>
    have hpad := length_le_padded arg
    rw [used] at hroom ⊢
    rw [places, List.zip_cons_cons, List.mem_cons] at hx
    rcases hx with rfl | hx
    · dsimp only
      exact ⟨by omega, by omega⟩
    · obtain ⟨h1, h2⟩ := ih _ (by omega) hx
      exact ⟨by omega, by omega⟩

theorem mem_places (argv : List (List Byte)) (sp : ℕ) (hsp : sp%4 = 0) (q : ℕ) (hq : q ∈ places argv sp) :
    q ≤ sp ∧ q%4 = 0 := by
  induction argv generalizing sp with
  | nil => cases hq
  | cons arg argv ih =>
    have hmod := mod_sub_padded arg hsp
    rw [places, List.mem_cons] at hq
    rcases hq with rfl | hq
    · exact ⟨Nat.sub_le _ _, hmod⟩
    · obtain ⟨h1, h2⟩ := ih _ hmod hq
      exact ⟨h1.trans (Nat.sub_le _ _), h2⟩

theorem padded_le_used {arg : List Byte} (h : arg ∈ argv) : padded arg ≤ used argv := by
  induction argv with
  | nil => cases h
  | cons a argv ih =>
    rw [used]
    rcases List.mem_cons.mp h with rfl | h
    · exact Nat.le_add_right _ _
    · exact (ih h).trans (Nat.le_add_left _ _)

theorem places_disjoint (argv : List (List Byte)) (sp : ℕ) (hroom : used argv ≤ sp) :
    ((places argv sp).zip argv).Pairwise fun x y => y.1+(y.2.length+1) ≤ x.1 := by
  induction argv generalizing sp with
  | nil => exact List.Pairwise.nil
  | cons arg argv ih =>
    rw [used] at hroom
    rw [places, List.zip_cons_cons, List.pairwise_cons]
    exact ⟨fun y hy => (mem_zip_places argv _ (by omega) y hy).2, ih _ (by omega)⟩

theorem top_mod (n : ℕ) : (n+2)*PGSIZE%4 = 0 := by
  simp only [PGSIZE]
  omega

theorem wordBytes_eq (words : List ℕ) : wordBytes words = words.flatMap wordLE := rfl

section Frame
variable (hfit : StackFits argv) (hpage : content s d (n+1) = some (stackPage ((n+2)*PGSIZE) argv b))

include hfit hpage in
theorem holds_stackWords : Holds (byteAt s d) (startSp ((n+2)*PGSIZE) argv) (wordBytes (stackWords ((n+2)*PGSIZE) argv)) := by
  have hlen := length_stackWords ((n+2)*PGSIZE) argv
  unfold StackFits at hfit
  have hbase : (n+2)*PGSIZE-PGSIZE = (n+1)*PGSIZE := by
    simp only [PGSIZE]
    omega
  have hsp : startSp ((n+2)*PGSIZE) argv =
      (n+1)*PGSIZE+(startSp ((n+2)*PGSIZE) argv-((n+2)*PGSIZE-PGSIZE)) := by
    simp only [startSp, PGSIZE] at hfit ⊢
    omega
  rw [hsp]
  apply holds_page hpage
  · rw [hlen]
    simp only [startSp, PGSIZE] at hfit ⊢
    omega
  · intro j hj
    rw [stackPage, copyIn_inside hj]

include hfit hpage in
theorem holds_strings (x : ℕ × List Byte) (hx : x ∈ (places argv ((n+2)*PGSIZE)).zip argv) :
    Holds (byteAt s d) x.1 (x.2 ++ [0]) := by
  have hlen := length_stackWords ((n+2)*PGSIZE) argv
  unfold StackFits at hfit
  have hle : PGSIZE ≤ (n+2)*PGSIZE := Nat.le_mul_of_pos_left _ (by omega)
  have hbase : (n+2)*PGSIZE-PGSIZE = (n+1)*PGSIZE := by
    simp only [PGSIZE]
    omega
  obtain ⟨hlo, hhi⟩ := mem_zip_places argv _ (by omega) x hx
  have hplace : x.1 = (n+1)*PGSIZE+(x.1-((n+2)*PGSIZE-PGSIZE)) := by omega
  rw [hplace]
  apply holds_page hpage
  · rw [List.length_append, List.length_singleton]
    omega
  · intro j hj
    -- ustack lies below the strings
    rw [stackPage, copyIn_outside (by rw [hlen, startSp]; omega)]
    exact pushedPage_holds argv _ _ (by omega) x hx j hj

include hfit hpage in
/-- `main` finds the arguments that `exec` was given. -/
theorem decode_stackPage (hnul : ∀ arg ∈ argv, 0 ∉ arg) (hsize : (n+2)*PGSIZE ≤ KERNBASE) :
    decode (byteAt s d) PGSIZE (startSp ((n+2)*PGSIZE) argv) =
      some ⟨0xFFFFFFFF, argv.length, startSp ((n+2)*PGSIZE) argv+12, places argv ((n+2)*PGSIZE), 0, argv⟩ := by
  have hwords := holds_stackWords hfit hpage
  have hstrings := holds_strings hfit hpage
  unfold StackFits at hfit
  have hle : PGSIZE ≤ (n+2)*PGSIZE := Nat.le_mul_of_pos_left _ (by omega)
  have hargv : (n+2)*PGSIZE-used argv-(argv.length+1)*4 = startSp ((n+2)*PGSIZE) argv+12 := by
    unfold startSp
    omega
  rw [wordBytes_eq, stackWords, hargv, List.append_assoc, List.flatMap_append, List.flatMap_append,
    List.flatMap_cons, List.flatMap_cons, List.flatMap_cons, List.flatMap_nil, List.append_nil, List.append_assoc,
    List.append_assoc] at hwords
  have hlen : ((places argv ((n+2)*PGSIZE)).flatMap wordLE).length = 4*argv.length := by
    rw [← wordBytes_eq, length_wordBytes, length_places]
  -- ustack word by word
  have h1 := hwords.right
  have h2 := h1.right
  have h3 := h2.right
  have h4 := h3.right
  simp only [length_wordLE, hlen, Nat.add_assoc, Nat.reduceAdd] at h1 h2 h3 h4
  rw [← Nat.add_assoc] at h4
  refine decode_holds hwords.left h1.left h2.left h3.left h4.left (length_places _ _) ?_ ?_ ?_ hstrings
  · simp only [startSp, PGSIZE, KERNBASE] at hfit hsize ⊢
    omega
  · intro q hq
    have hle := (mem_places _ _ (top_mod n) q hq).1
    simp only [KERNBASE] at hsize
    omega
  · intro arg harg
    have h1 := padded_le_used harg
    have h2 := length_le_padded arg
    exact ⟨hnul arg harg, by omega⟩

end Frame

theorem userStackBy_size (copy : ℕ → ℕ → List Byte → VmM Bool) (h : Balanced img (d :: D) L s) (hl : Loaded s d sz) :
    wp (fun _ => True) (userStackBy img copy d sz argv) (fun r _ => ∀ x, r = some x →
      x.1 = (pages sz+2)*PGSIZE ∧ (pages sz+2)*PGSIZE < KERNBASE) s := by
  unfold userStackBy
  dsimp only
  rw [Vm.PGROUNDUP_eq hl.size, uint_stack hl.size, wp_bind]
  apply wp_mono (stackPages_spec (F := fun _ => True) trivial h hl)
  rintro r t ⟨-, rfl | ⟨rfl, hclear⟩⟩
  · rw [if_pos rfl]
    rintro x ⟨⟩
  · rw [if_neg (by simp only [PGSIZE]; omega), wp_bind]
    apply wp_mono (hclear _)
    rintro _ u ⟨-, y, hst⟩
    rw [wp_bind]
    apply wp_mono (wp_self _ u)
    rintro (_ | ⟨sp, ustack⟩) u' _
    · rintro x ⟨⟩
    · dsimp only
      rw [wp_bind]
      apply wp_mono (wp_self _ u')
      intro r _ _
      split_ifs
      · rintro x ⟨⟩
        exact ⟨rfl, hst.below⟩
      · rintro x ⟨⟩

def extents (sp : ℕ) (pointers : List ℕ) (argv : List (List Byte)) : List (ℕ × ℕ) :=
  (sp, (3+argv.length+1)*4) :: (pointers.zip argv).map fun x => (x.1, x.2.length+1)

/-- The parts of the frame lie in the last page below sz, apart from each other, with
aligned pointers. -/
structure InLastPage (sz sp : ℕ) (pointers : List ℕ) (argv : List (List Byte)) : Prop where
  inside : ∀ e ∈ extents sp pointers argv, sz-PGSIZE ≤ e.1 ∧ e.1+e.2 ≤ sz
  apart : (extents sp pointers argv).Pairwise fun e f => e.1+e.2 ≤ f.1 ∨ f.1+f.2 ≤ e.1
  aligned : sp%4 = 0 ∧ ∀ q ∈ pointers, q%4 = 0

theorem inLastPage_places (hfit : StackFits argv) :
    InLastPage ((n+2)*PGSIZE) (startSp ((n+2)*PGSIZE) argv) (places argv ((n+2)*PGSIZE)) argv := by
  have hmod := top_mod n
  have hused := used_mod argv
  unfold StackFits at hfit
  have hle : PGSIZE ≤ (n+2)*PGSIZE := Nat.le_mul_of_pos_left _ (by omega)
  have hend : startSp ((n+2)*PGSIZE) argv+(3+argv.length+1)*4 = (n+2)*PGSIZE-used argv := by
    unfold startSp
    omega
  have hstrings : ∀ e ∈ ((places argv ((n+2)*PGSIZE)).zip argv).map fun x => (x.1, x.2.length+1),
      (n+2)*PGSIZE-used argv ≤ e.1 ∧ e.1+e.2 ≤ (n+2)*PGSIZE := by
    intro e he
    obtain ⟨x, hx, rfl⟩ := List.mem_map.mp he
    exact mem_zip_places argv _ (by omega) x hx
  refine ⟨fun e he => ?_, ?_, ?_, fun q hq => (mem_places argv _ hmod q hq).2⟩
  · rcases List.mem_cons.mp he with rfl | he
    · dsimp only
      omega
    · have := hstrings e he
      omega
  · refine List.pairwise_cons.mpr ⟨fun f hf => Or.inl ?_, ?_⟩
    · have := hstrings f hf
      dsimp only
      omega
    · rw [List.pairwise_map]
      exact (places_disjoint argv _ (by omega)).imp fun h => Or.inr h
  · unfold startSp
    omega

/-- What `userStack` leaves for the new program, if the strings do not wrap around. -/
structure Framed (argv : List (List Byte)) (d n sp : ℕ) (s : Mem) : Prop where
  fits : StackFits argv
  sp_eq : sp = startSp ((n+2)*PGSIZE) argv
  page : ∃ b, content s d (n+1) = some (stackPage ((n+2)*PGSIZE) argv b)

theorem userStackBy_frame {cr3 : ℕ} (hargc : argv.length < MAXARG) (h : Balanced img (d :: D) L s)
    (hl : Loaded s d sz) : wp (fun _ => True) (userStackBy img (copyoutBy (uva2ka cr3 d)) d sz argv)
      (fun r t => ∀ x, r = some x → x.1 = (pages sz+2)*PGSIZE ∧ (pages sz+2)*PGSIZE < KERNBASE ∧
        (used argv ≤ x.1 → Balanced img (d :: D) L t ∧ Framed argv d (pages sz) x.2 t)) s := by
  have hsize : wp _ (userStackBy img (copyoutBy (uva2ka cr3 d)) d sz argv) _ s := userStackBy_size _ h hl
  by_cases hok : used argv ≤ (pages sz+2)*PGSIZE ∧ (pages sz+2)*PGSIZE < KERNBASE
  · have hlen : ∀ arg ∈ argv, arg.length < KERNBASE := by
      intro arg harg
      have h1 := padded_le_used harg
      have h2 := length_le_padded arg
      omega
    have hspec := userStackBy_spec (F := fun _ => True) hlen hargc (Vm.uva2ka_translates cr3 d) trivial h hl
      fun _ _ => not_hitsGap argv _ _ hok.1
    refine wp_mono (wp_and (H := fun _ => True) hsize hspec fun _ _ _ => trivial) ?_
    rintro r t ⟨hr, hbt, hstack⟩ x rfl
    obtain ⟨hfit, hx, -, hpage⟩ := hstack.resolve_left (Option.some_ne_none x)
    cases hx
    exact ⟨rfl, hok.2, fun _ => ⟨hbt, hfit, rfl, hpage⟩⟩
  · apply wp_mono hsize
    intro r t hr x hx
    obtain ⟨h1, h2⟩ := hr x hx
    exact ⟨h1, h2, fun hused => absurd ⟨h1 ▸ hused, h2⟩ hok⟩

section Exec
variable (sb : Superblock) (dev : Devsw) (h : Inv img B k) (hp : (k.proc p).state = .runnable)

include h hp in
theorem execBy_frame (hargc : argv.length < MAXARG) (hnul : ∀ arg ∈ argv, 0 ∉ arg) :
    wp (fun _ => True) (execBy sb dev img uva2ka p path argv) (fun r k' => ∀ sp, r = some sp →
      used argv ≤ (k'.proc p).sz → ∃ pointers,
        decode (byteAt k'.mem (k'.proc p).pgdir) PGSIZE sp = some ⟨0xFFFFFFFF, argv.length, sp+12, pointers, 0, argv⟩ ∧
        InLastPage (k'.proc p).sz sp pointers argv) k := by
  obtain ⟨R, hproc₀, -⟩ := spaces_split (space_runnable hp)
  unfold execBy
  rw [wp_bind]
  apply wp_mono (wp_weaken (openImage_spec sb dev h) fun _ _ => trivial)
  rintro (_ | ⟨d, sz⟩) k₁ hk₁
  · rintro sp ⟨⟩
  obtain ⟨hproc, hmid, hl⟩ := hk₁
  obtain ⟨P, -, -, hb⟩ := hmid.pages
  dsimp only
  rw [wp_bind, wp_getProc, wp_bind, wp_onMem, hproc]
  apply wp_mono (userStackBy_frame hargc hb hl)
  rintro (_ | ⟨sz', sp⟩) t hr
  · dsimp only
    rw [wp_bind]
    apply wp_anyMem fun _ => trivial
    rintro _ _ sp ⟨⟩
  obtain ⟨rfl, hsize, hframe⟩ := hr _ rfl
  dsimp only at hframe ⊢
  rw [wp_bind, wp_setProc, wp_bind]
  by_cases hused : used argv ≤ (pages sz+2)*PGSIZE
  · obtain ⟨hbt, hfit, rfl, b, hpage⟩ := hframe hused
    -- freeing the old directory leaves the pages of the new one
    have hR := (hproc₀.map Space.pgdir).cons d
    have hbt' : Balanced img ((k.proc p).pgdir :: d :: R.map Space.pgdir)
        ((spaces k).map Space.kstack ++ B ++ P) t :=
      hbt.perm (hR.trans (List.Perm.swap _ _ _)) (List.Perm.refl _)
    rw [wp_onMem]
    apply wp_mono (Vm.freevm_spec hbt')
    rintro _ t' ⟨-, hkept⟩
    rintro sp ⟨⟩ -
    dsimp only
    rw [Kernel.mapProc_same]
    dsimp only
    have hlt : pages sz+1 < Vm.UPAGES := by
      simp only [Vm.UPAGES, KERNBASE, PGSIZE] at hsize ⊢
      omega
    rw [← hkept.content List.mem_cons_self hlt] at hpage
    exact ⟨_, decode_stackPage hfit hpage hnul hsize.le, inLastPage_places hfit⟩
  · apply wp_anyMem fun _ => trivial
    rintro _ t' sp ⟨⟩ hle
    dsimp only at hle
    rw [Kernel.mapProc_same] at hle
    exact absurd hle hused

include h hp in
/-- The new program decodes the arguments of `exec` from its stack pointer, and they
lie in its last page. -/
theorem exec_args_decode (hargc : argv.length < MAXARG) (hnul : ∀ arg ∈ argv, 0 ∉ arg)
    (hrun : exec sb dev img p path argv k = .ok (0, k')) (hused : used argv ≤ (k'.proc p).sz) :
    ∃ sp pointers, execBy sb dev img uva2ka p path argv k = .ok (some sp, k') ∧
      decode (byteAt k'.mem (k'.proc p).pgdir) PGSIZE sp = some ⟨0xFFFFFFFF, argv.length, sp+12, pointers, 0, argv⟩ ∧
      InLastPage (k'.proc p).sz sp pointers argv := by
  obtain ⟨esp, hesp, hr⟩ := exec_eq_ok hrun
  cases esp with
  | none => exact absurd hr (by decide)
  | some sp =>
    obtain ⟨pointers, hdecode, hpage⟩ := wp_ok (execBy_frame sb dev h hp hargc hnul) hesp sp rfl hused
    exact ⟨sp, pointers, hesp, hdecode, hpage⟩

include h hp in
theorem exec_succeeds (hargv : Admitted (k.proc p) argv)
    (hload : openImage sb dev img p path k = .ok (some (d, sz), k₁)) (hstack : HasStack img d sz k₁.mem)
    (hfit : StackFits argv) :
    ∃ k', exec sb dev img p path argv k = .ok (0, k') ∧ (k'.proc p).sz = stackTop sz := by
  obtain ⟨hproc, hmid, hl⟩ := filling_of_openImage h hload
  obtain ⟨P, -, -, hb⟩ := hmid.pages
  obtain ⟨R, hR, -⟩ := spaces_split (space_runnable hp)
  have htotal : wp (fun _ => False) (exec sb dev img p path argv)
      (fun r k' => r = 0 ∧ (k'.proc p).sz = stackTop sz) k := by
    rw [exec_eq, map_eq_pure_bind, wp_bind]
    unfold execBy
    rw [wp_bind]
    apply wp_of_ok hload
    dsimp only
    rw [wp_bind, wp_getProc, wp_bind, wp_onMem, hproc]
    have hlen : ∀ arg ∈ argv, arg.length < KERNBASE := hargv.small h hp
    apply wp_mono (userStackBy_done hlen hargv.1 (Vm.uva2ka_translates _ d) hb hl hstack hfit)
    rintro _ t ⟨rfl, hbt⟩
    dsimp only
    rw [wp_bind, wp_setProc, wp_bind, wp_onMem]
    have hbt' : Balanced img ((k.proc p).pgdir :: d :: R.map Space.pgdir)
        ((spaces k).map Space.kstack ++ B ++ P) t :=
      hbt.perm (((hR.map Space.pgdir).cons d).trans (List.Perm.swap _ _ _)) (List.Perm.refl _)
    apply wp_mono (Vm.freevm_spec hbt')
    rintro _ t' -
    refine ⟨rfl, ?_⟩
    dsimp only
    rw [Kernel.mapProc_same]
  obtain ⟨r, k', hrun, rfl, hsz⟩ := wp_total htotal
  exact ⟨k', hrun, hsz⟩

end Exec

/-- The program "a" after a boot, with the arguments "a" and "b". -/
theorem exec_args_decode_two : ∃ k p k' sp pointers,
    exec Fs.tinySuperblock Fs.noDevices Vm.smallImage p programPath [[97], [98]] k = .ok (0, k') ∧
    decode (byteAt k'.mem (k'.proc p).pgdir) PGSIZE sp = some ⟨0xFFFFFFFF, 2, sp+12, pointers, 0, [[97], [98]]⟩ := by
  obtain ⟨k₀, p, k, tab, q, cwd, hboot, hstep, hsolo, hcwd, hfs⟩ :=
    boot_and_grow (m := 0x2003000) (by decide) (by decide) (by decide)
  obtain ⟨d, k₁, hload, hstack⟩ := openImage_solo hsolo (by decide) hcwd hfs
  have hadm : Admitted (k.proc p) [[97], [98]] := by
    refine ⟨by decide, ?_⟩
    rw [hsolo.size]
    decide
  have hfit : StackFits [[97], [98]] := by
    unfold StackFits
    decide
  obtain ⟨k', hrun, hsz⟩ := exec_succeeds _ _ hsolo.inv hsolo.state hadm hload hstack hfit
  have hused : used [[97], [98]] ≤ (k'.proc p).sz := by
    rw [hsz, stackTop_eq (Nat.zero_le _)]
    decide
  obtain ⟨sp, pointers, -, hdecode, -⟩ :=
    exec_args_decode _ _ hsolo.inv hsolo.state (by decide) (by decide) hrun hused
  exact ⟨k, p, k', sp, pointers, hrun, hdecode⟩

end ProvenXv6.Kern
