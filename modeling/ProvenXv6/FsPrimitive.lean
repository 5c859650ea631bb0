import ProvenXv6.FsModel

namespace ProvenXv6.Fs
open WeakestPre

namespace FS
variable (s : FS) (ip : Ip)

def put (b : ℕ) (x : Block) : FS := { s with disk := Function.update s.disk b x }

def mapInode (f : Inode → Inode) : FS :=
  { s with inode := Function.update s.inode ip (f (s.inode ip)) }

def mapDin (f : Dinode → Dinode) : FS := s.mapInode ip fun e => { e with din := f e.din }

@[simp] theorem put_inode (b : ℕ) (x : Block) : (s.put b x).inode = s.inode := rfl

theorem put_disk (b : ℕ) (x : Block) : (s.put b x).disk = Function.update s.disk b x := rfl

@[simp] theorem put_same (b : ℕ) (x : Block) : (s.put b x).disk b = x := Function.update_self ..

theorem put_put (b : ℕ) (x y : Block) : (s.put b x).put b y = s.put b y := by
  unfold put
  rw [Function.update_idem]

@[simp] theorem mapInode_disk (f : Inode → Inode) : (s.mapInode ip f).disk = s.disk := rfl

@[simp] theorem mapInode_same (f : Inode → Inode) : (s.mapInode ip f).inode ip = f (s.inode ip) :=
  Function.update_self ..

@[simp] theorem mapDin_disk (f : Dinode → Dinode) : (s.mapDin ip f).disk = s.disk := rfl

@[simp] theorem mapDin_same (f : Dinode → Dinode) :
    (s.mapDin ip f).inode ip = { s.inode ip with din := f (s.inode ip).din } :=
  Function.update_self ..

variable {ip}

@[simp] theorem mapInode_of_ne {e : Ip} (h : e ≠ ip) (f : Inode → Inode) :
    (s.mapInode ip f).inode e = s.inode e := Function.update_of_ne h ..

@[simp] theorem mapDin_of_ne {e : Ip} (h : e ≠ ip) (f : Dinode → Dinode) :
    (s.mapDin ip f).inode e = s.inode e := Function.update_of_ne h ..

end FS

section Rules
variable {F : Fault → Prop} {s : FS} {ip : Ip}

@[simp] theorem wp_panic {α : Type} (msg : String) (Q : α → FS → Prop) :
    wp F (panic msg) Q s ↔ F (.panic msg) := Iff.rfl

@[simp] theorem wp_bread (b : ℕ) (Q : Block → FS → Prop) :
    wp F (bread b) Q s ↔ Q (s.disk b) s := Iff.rfl

@[simp] theorem wp_logWrite (b : ℕ) (x : Block) (Q : Unit → FS → Prop) :
    wp F (logWrite b x) Q s ↔ Q () (s.put b x) := Iff.rfl

@[simp] theorem wp_getInode (Q : Inode → FS → Prop) :
    wp F (getInode ip) Q s ↔ Q (s.inode ip) s := Iff.rfl

@[simp] theorem wp_setInode (f : Inode → Inode) (Q : Unit → FS → Prop) :
    wp F (setInode ip f) Q s ↔ Q () (s.mapInode ip f) := Iff.rfl

@[simp] theorem wp_setDin (f : Dinode → Dinode) (Q : Unit → FS → Prop) :
    wp F (setDin ip f) Q s ↔ Q () (s.mapDin ip f) := Iff.rfl

end Rules

end ProvenXv6.Fs
