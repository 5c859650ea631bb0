import ProvenXv6.KernModel

namespace ProvenXv6.Kern
open WeakestPre
open Fs (FS FsM Fault Ip)
open Vm (Mem VmM)
open Ptable (NPROC Slot ProcState)

namespace Kernel

def mapProc (k : Kernel) (p : Slot) (g : Proc → Proc) : Kernel :=
  { k with proc := Function.update k.proc p (g (k.proc p)) }

def mapFile (k : Kernel) (f : FilePtr) (g : File → File) : Kernel :=
  { k with file := Function.update k.file f (g (k.file f)) }

def putPipe (k : Kernel) (q : ℕ) (e : Option Pipe) : Kernel :=
  { k with pipe := Function.update k.pipe q e }

def txn (k : Kernel) (e : Txn) : Kernel := { k with ops := k.ops ++ [e] }

section
variable (k : Kernel) (p : Slot) (f : FilePtr)

@[simp] theorem mapProc_same (g : Proc → Proc) : (k.mapProc p g).proc p = g (k.proc p) :=
  Function.update_self ..

@[simp] theorem mapFile_same (g : File → File) : (k.mapFile f g).file f = g (k.file f) :=
  Function.update_self ..

@[simp] theorem putPipe_same (q : ℕ) (e : Option Pipe) : (k.putPipe q e).pipe q = e :=
  Function.update_self ..

variable {p f}

@[simp] theorem mapProc_of_ne {r : Slot} (h : r ≠ p) (g : Proc → Proc) :
    (k.mapProc p g).proc r = k.proc r := Function.update_of_ne h ..

@[simp] theorem mapFile_of_ne {r : FilePtr} (h : r ≠ f) (g : File → File) :
    (k.mapFile f g).file r = k.file r := Function.update_of_ne h ..

@[simp] theorem putPipe_of_ne {q r : ℕ} (h : r ≠ q) (e : Option Pipe) :
    (k.putPipe q e).pipe r = k.pipe r := Function.update_of_ne h ..

end

end Kernel

def Proc.withFd (fd : Fd) (v : Option FilePtr) (e : Proc) : Proc :=
  { e with ofile := Function.update e.ofile fd v }

section Rules
variable {α : Type} {F : Stop → Prop} {k : Kernel} {p : Slot} {f : FilePtr}

@[simp] theorem wp_onFs (m : FsM α) (Q : α → Kernel → Prop) :
    wp F (onFs m) Q k ↔ wp (fun e => F (.fs e)) m (fun a fs => Q a { k with fs := fs }) k.fs := by
  unfold wp onFs
  cases m k.fs <;> rfl

@[simp] theorem wp_onMem (m : VmM α) (Q : α → Kernel → Prop) :
    wp F (onMem m) Q k ↔ wp (fun e => F (.mem e)) m (fun a mem => Q a { k with mem := mem }) k.mem := by
  unfold wp onMem
  cases m k.mem <;> rfl

theorem wp_anyFs {m : FsM α} {Q : α → Kernel → Prop} (hF : ∀ e, F (.fs e))
    (h : ∀ a fs, Q a { k with fs := fs }) : wp F (onFs m) Q k := by
  rw [wp_onFs]
  unfold wp
  split
  · exact h _ _
  · exact hF _

theorem wp_idup {ip : Ip} {Q : Ip → Kernel → Prop} (h : ∀ fs, Q ip { k with fs := fs }) :
    wp F (onFs (Fs.idup ip)) Q k := by
  rw [wp_onFs]
  exact h _

theorem wp_anyMem {m : VmM α} {Q : α → Kernel → Prop} (hF : ∀ e, F (.mem e))
    (h : ∀ a mem, Q a { k with mem := mem }) : wp F (onMem m) Q k := by
  rw [wp_onMem]
  unfold wp
  split
  · exact h _ _
  · exact hF _

@[simp] theorem wp_panic (msg : String) (Q : α → Kernel → Prop) :
    wp F (panic msg) Q k ↔ F (.panic msg) := Iff.rfl

@[simp] theorem wp_begin_op (Q : Unit → Kernel → Prop) :
    wp F begin_op Q k ↔ Q () (k.txn .begin_op) := Iff.rfl

@[simp] theorem wp_end_op (Q : Unit → Kernel → Prop) :
    wp F end_op Q k ↔ Q () (k.txn .end_op) := Iff.rfl

@[simp] theorem wp_getProc (Q : Proc → Kernel → Prop) :
    wp F (getProc p) Q k ↔ Q (k.proc p) k := Iff.rfl

@[simp] theorem wp_setProc (g : Proc → Proc) (Q : Unit → Kernel → Prop) :
    wp F (setProc p g) Q k ↔ Q () (k.mapProc p g) := Iff.rfl

@[simp] theorem wp_getFile (Q : File → Kernel → Prop) :
    wp F (getFile f) Q k ↔ Q (k.file f) k := Iff.rfl

@[simp] theorem wp_setFile (g : File → File) (Q : Unit → Kernel → Prop) :
    wp F (setFile f g) Q k ↔ Q () (k.mapFile f g) := Iff.rfl

@[simp] theorem wp_setFd (fd : Fd) (v : Option FilePtr) (Q : Unit → Kernel → Prop) :
    wp F (setFd p fd v) Q k ↔ Q () (k.mapProc p (Proc.withFd fd v)) := Iff.rfl

theorem wp_discard {m : KernM α} {P : Kernel → Prop} (h : wp F m (fun _ => P) k) :
    wp F (discard m) (fun _ => P) k := by
  change wp F (m >>= fun _ => pure ()) (fun _ => P) k
  rw [wp_bind]
  exact h

theorem wp_getCwd {Q : Ip → Kernel → Prop} (hF : F (.panic "trap"))
    (h : ∀ ip, (k.proc p).cwd = some ip → Q ip k) : wp F (getCwd p) Q k := by
  unfold getCwd
  rw [wp_bind, wp_getProc]
  split
  · exact hF
  · exact h _ ‹_›

end Rules

end ProvenXv6.Kern
