import ProvenXv6.KernTable

/-! The arguments of system calls (syscall.c): words, pointers and strings that the kernel fetches
from the memory of the calling process, with the checks in `uint` arithmetic. -/
namespace ProvenXv6.Kern
open LittleEndian StepSystem
open Fs (Byte Superblock Devsw tinySuperblock noDevices)
open Vm (Image KERNBASE uint)
open Ptable (Slot)

/-- What the fetches use of the calling process: its size, the saved user stack pointer and the
bytes at its addresses. -/
structure Caller where
  sz : ℕ
  esp : ℕ
  mem : ℕ → Byte

section
variable (c : Caller)

/-- The word at addr; none is the result -1. -/
def fetchint (addr : ℕ) : Option ℕ :=
  if addr ≥ c.sz ∨ uint (addr+4) > c.sz then none else some (readLE c.mem addr 4)

/-- The loop of `fetchstr` with n more bytes to the end of the memory. -/
def fetchLoop : ℕ → ℕ → Option ℕ
  | 0, _ => none
  | n+1, s => if c.mem s = 0 then some s else fetchLoop n (s+1)

/-- The length of the string at addr, which *pp is set to. -/
def fetchstr (addr : ℕ) : Option ℕ :=
  if addr ≥ c.sz then none else (fetchLoop c (c.sz-addr) addr).map fun s => s-addr

def argint (n : ℕ) : Option ℕ := fetchint c (uint (c.esp+4+4*n))

/-- The pointer; size is an `int`, and the sum with it a `uint`. -/
def argptr (n : ℕ) (size : ℤ) : Option ℕ := do
  let i ← argint c n
  if size < 0 ∨ i ≥ c.sz ∨ ((i : ℤ)+size)%0x100000000 > c.sz then none else some i

def argstr (n : ℕ) : Option (ℕ × ℕ) := do
  let addr ← argint c n
  let l ← fetchstr c addr
  some (addr, l)

end

variable {c : Caller}

/-- With a size below KERNBASE the sum with 4 does not wrap behind the first test. -/
theorem fetchint_inside {addr w : ℕ} (hsz : c.sz < KERNBASE) (h : fetchint c addr = some w) :
    addr+4 ≤ c.sz ∧ w = readLE c.mem addr 4 := by
  unfold fetchint at h
  split_ifs at h with hbad
  obtain ⟨hlow, hend⟩ := not_or.mp hbad
  refine ⟨?_, (Option.some.inj h).symm⟩
  simp only [uint, KERNBASE] at hsz hend
  omega

theorem argptr_inside {n p : ℕ} {size : ℤ} (hsz : c.sz < KERNBASE) (hint : size < 0x80000000)
    (h : argptr c n size = some p) : 0 ≤ size ∧ p < c.sz ∧ (p : ℤ)+size ≤ c.sz := by
  obtain ⟨i, -, hi⟩ := Option.bind_eq_some_iff.mp h
  split_ifs at hi with hbad
  obtain rfl := Option.some.inj hi
  simp only [not_or] at hbad
  simp only [KERNBASE] at hsz
  omega

theorem fetchLoop_some {n s e : ℕ} (h : fetchLoop c n s = some e) :
    s ≤ e ∧ e < s+n ∧ c.mem e = 0 ∧ ∀ x, s ≤ x → x < e → c.mem x ≠ 0 := by
  induction n generalizing s with
  | zero => cases h
  | succ n ih =>
    unfold fetchLoop at h
    split_ifs at h with hnul
    · obtain rfl := Option.some.inj h
      exact ⟨le_rfl, by omega, hnul, fun x h1 h2 => by omega⟩
    · obtain ⟨h1, h2, h3, h4⟩ := ih h
      refine ⟨by omega, by omega, h3, fun x hx hxe => ?_⟩
      rcases Nat.eq_or_lt_of_le hx with rfl | hlt
      · exact hnul
      · exact h4 x hlt hxe

theorem fetchstr_inside {addr l : ℕ} (h : fetchstr c addr = some l) :
    addr+l < c.sz ∧ c.mem (addr+l) = 0 ∧ ∀ j, j < l → c.mem (addr+j) ≠ 0 := by
  unfold fetchstr at h
  split_ifs at h with hlow
  obtain ⟨e, he, rfl⟩ := Option.map_eq_some_iff.mp h
  obtain ⟨h1, h2, h3, h4⟩ := fetchLoop_some he
  have hsum : addr+(e-addr) = e := Nat.add_sub_cancel' h1
  refine ⟨by omega, by rw [hsum]; exact h3, fun j hj => h4 _ (by omega) (by omega)⟩

/-- In every run from the boot with short arguments of exec the sizes are below KERNBASE, and what
the fetches accept lies in the memory of the process. -/
theorem syscall_args_inside {sb : Superblock} {dev : Devsw} {img : Image} {lay : Layout img} {B : List ℕ}
    {k₀ k : Kernel} {es : List (Slot × Call)} (hboot : lay.Booted sb dev B k₀)
    (hrun : Run (lay.step sb dev) (fun _ e _ => e.2.short) k₀ es k) {q : Slot} (hq : (k.proc q).state ≠ .unused) :
    (k.proc q).sz < KERNBASE ∧ ∀ c : Caller, c.sz = (k.proc q).sz →
      (∀ addr w, fetchint c addr = some w → addr+4 ≤ c.sz) ∧
      (∀ n w, argint c n = some w → uint (c.esp+4+4*n)+4 ≤ c.sz) ∧
      (∀ n (size : ℤ) p, size < 0x80000000 → argptr c n size = some p →
        0 ≤ size ∧ (p : ℤ)+size ≤ c.sz) ∧
      (∀ addr l, fetchstr c addr = some l →
        addr+l < c.sz ∧ c.mem (addr+l) = 0 ∧ ∀ j, j < l → c.mem (addr+j) ≠ 0) ∧
      ∀ n p l, argstr c n = some (p, l) →
        p+l < c.sz ∧ c.mem (p+l) = 0 ∧ ∀ j, j < l → c.mem (p+j) ≠ 0 := by
  have hgood : lay.Good B k := hrun.invariant hboot.good fun _ _ _ h hs hshort => h.step hs hshort
  have hsz : (k.proc q).sz < KERNBASE := hgood.inv.size _ (mem_spaces (Proc.space_used hq))
  refine ⟨hsz, fun c hc => ?_⟩
  rw [← hc] at hsz
  refine ⟨fun addr w h => (fetchint_inside hsz h).1, fun n w h => (fetchint_inside hsz h).1, ?_,
    fun addr l h => fetchstr_inside h, ?_⟩
  · intro n size p hint h
    obtain ⟨h0, -, hend⟩ := argptr_inside hsz hint h
    exact ⟨h0, hend⟩
  · intro n p l h
    obtain ⟨addr, -, hrest⟩ := Option.bind_eq_some_iff.mp h
    obtain ⟨l', hl, he⟩ := Option.bind_eq_some_iff.mp hrest
    obtain ⟨rfl, rfl⟩ := Prod.mk.inj (Option.some.inj he)
    exact fetchstr_inside hl

/-- The first process grows, and a pointer that it passes is checked. -/
theorem syscall_args_inside_sbrk : ∃ k₀ p k, kernelLayout.Booted tinySuperblock noDevices [] k₀ ∧
    Run (kernelLayout.step tinySuperblock noDevices) (fun _ e _ => e.2.short) k₀ [(p, .sbrk (4096 : ℕ))] k ∧
      (k.proc p).sz = 8192 ∧ argptr ⟨(k.proc p).sz, 4096, fun _ => 0⟩ 0 512 = some 0 ∧
      (0 : ℤ)+512 ≤ (k.proc p).sz := by
  obtain ⟨k₀, p, k, tab, q, cwd, hboot, hs, hsolo, -⟩ :=
    kernelLayout.boot_and_grow (m := 4096) (by decide) (by decide) (by decide)
  have hrun : Run (kernelLayout.step tinySuperblock noDevices) (fun _ e _ => e.2.short) k₀ [(p, .sbrk (4096 : ℕ))] k :=
    .cons hs trivial (.nil _)
  have hsz : (k.proc p).sz = 8192 := hsolo.size
  have harg : argptr ⟨(k.proc p).sz, 4096, fun _ => 0⟩ 0 512 = some 0 := by
    rw [hsz]
    decide
  have h := syscall_args_inside hboot hrun (q := p) (by rw [hsolo.state]; decide)
  exact ⟨k₀, p, k, hboot, hrun, hsz, harg, ((h.2 ⟨_, 4096, fun _ => 0⟩ rfl).2.2.1 0 512 0 (by decide) harg).2⟩

/-- The first process asks for memory, puts an entry for its page table at address 0, calls exec with
an argument of 0x2002003 bytes and stores to its own size: a pointer to the kernel passes the check. -/
theorem exec_enlarges_process : ∃ k₀ es k p, kernelLayout.Booted tinySuperblock noDevices [] k₀ ∧
    Run (kernelLayout.step tinySuperblock noDevices) (fun _ e _ => e.2.strings) k₀ es k ∧
      (k.proc p).state = .runnable ∧ KERNBASE ≤ (k.proc p).sz ∧
      argptr ⟨(k.proc p).sz, 0, fun a => if a = 7 then 0x80 else 0⟩ 0 512 = some KERNBASE := by
  obtain ⟨k₀, p, k₁, tab, q, cwd, hboot, hs, hsolo, hsync, hlow, hcwd, hread⟩ :=
    kernelLayout.boot_and_grow (m := 0x2003000) (by decide) (by decide) (by decide)
  obtain ⟨es, k, hrun, hp, hsz⟩ := size_by_stores hsolo hsync (by decide) (by decide) hlow hcwd hread
  have hint : argint ⟨(k.proc p).sz, 0, fun a => if a = 7 then 0x80 else 0⟩ 0 = some KERNBASE := by
    rw [argint, fetchint, if_neg]
    · simp [readLE, uint, KERNBASE]
    · simp only [uint]
      omega
  refine ⟨k₀, _, k, p, hboot, .cons hs trivial hrun, hp, le_trans (by decide) hsz, ?_⟩
  rw [argptr, hint]
  simp only [KERNBASE, Option.bind_eq_bind, Option.bind_some]
  rw [if_neg (by omega)]

end ProvenXv6.Kern
