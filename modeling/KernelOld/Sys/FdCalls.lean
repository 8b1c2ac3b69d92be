import KernelOld.Mem.Space.Agreement
import KernelOld.Sys.FileDescs
import KernelOld.Sys.Mmap

/-!
# The system calls on a descriptor

`sys_read`, `sys_write`, `sys_close`, `sys_mmap`, `sys_ioctl` and `sys_lseek` of
`sys/syscall/syscall.c` on the whole state: the process, its address space, and whatever else a file
system may change. `vfs_read`, `vfs_write` and `vfs_ioctl` are the same function for three of the
pointers of a node.
-/

namespace KernelOld.FdCalls
open FileDescs MachineWord Function

structure World (σ : Type) where
  proc : Proc
  space : Space.Machine × Space.PageMap
  rest : σ

/-- `none` stands for a pointer that is not one of a live object. -/
abbrev Effect (σ : Type) := World σ → Option (World σ × ℕ)

/-- The hooks of a node, which may be null. -/
structure VfsNode (σ : Type) where
  read : Option (ℕ → ℕ → ℕ → Effect σ)
  write : Option (ℕ → ℕ → ℕ → Effect σ)
  ioctl : Option (ℕ → ℕ → Effect σ)
  mmap : Option (ℕ → ℕ → ℤ → ℤ → ℕ → Effect σ)
  size : ℕ

variable {σ : Type} (nodes : ℕ → VfsNode σ)

def viaHook (hook : Option (Effect σ)) : Effect σ := fun w =>
  match hook with
  | some f => f w
  | none => some (w, 0)

def vfsRead (node ptr off size : ℕ) : Effect σ :=
  viaHook ((nodes node).read.map fun f => f ptr off size)

def vfsWrite (node ptr off size : ℕ) : Effect σ :=
  viaHook ((nodes node).write.map fun f => f ptr off size)

def vfsIoctl (node request argp : ℕ) : Effect σ :=
  viaHook ((nodes node).ioctl.map fun f => f request argp)

def withFd (fdno : ℤ) (body : FsFd → Effect σ) : Effect σ := fun w => do
  let fd ← procgetfd w.proc.fileDescs fdno
  if fd = 0 then some (w, minusOne)
  else do
    let file ← w.proc.objs fd
    body file w

def sysRead (fdno : ℤ) (ptr len : ℕ) : Effect σ :=
  withFd fdno fun file => vfsRead nodes file.node ptr 0 len

def sysWrite (fdno : ℤ) (ptr len : ℕ) : Effect σ :=
  withFd fdno fun file => vfsWrite nodes file.node ptr 0 len

def sysClose (fdno : ℤ) : Effect σ := fun w => do
  let (proc, ret) ← FileDescs.sysClose w.proc fdno
  some ({ w with proc }, ret)

/-- A node without an `mmap` function gives `NULL`. -/
def sysMmap (addr len : ℕ) (prot flags fdno : ℤ) (off back new : ℕ) : Effect σ := fun w =>
  if fdno ≠ 0 then
    withFd fdno (fun file =>
      viaHook ((nodes file.node).mmap.map fun f => f addr len prot flags off)) w
  else do
    let (space, mem) ← Mmap.anonMmap len back new w.space
    some ({ w with space }, mem)

def sysIoctl (fdno : ℤ) (cmd argp : ℕ) : Effect σ :=
  withFd fdno fun file => vfsIoctl nodes file.node cmd argp

def deref (p : Proc) (fd : ℕ) : Option FsFd := if fd = 0 then none else p.objs fd

def setPos (fd : ℕ) (pos : FsFd → ℕ) : Effect σ := fun w => do
  let file ← deref w.proc fd
  let objs := update w.proc.objs fd (some { file with pos := pos file })
  some ({ w with proc := { w.proc with objs } }, 0)

def toSizeT (x : ℤ) : ℕ := (x % 2 ^ 64).toNat

def seekSet : ℤ := 1

def seekCur : ℤ := 2

def seekEnd : ℤ := 3

/-- `sys_lseek`. The number is an `unsigned int`, which `procgetfd` takes as an `int`. -/
def sysLseek (fdno : ℕ) (off whence : ℤ) : Effect σ := fun w => do
  let fd ← procgetfd w.proc.fileDescs (toInt32 fdno)
  if whence = seekSet then setPos fd (fun _ => toSizeT off) w
  else if whence = seekCur then setPos fd (fun file => toSizeT (file.pos + off)) w
  else if whence = seekEnd then setPos fd (fun file => toSizeT ((nodes file.node).size + off)) w
  else some (w, 0)

inductive FdCall
  | read (fdno : ℤ) (ptr len : ℕ)
  | write (fdno : ℤ) (ptr len : ℕ)
  | close (fdno : ℤ)
  | mmap (addr len : ℕ) (prot flags fdno : ℤ) (off back new : ℕ)
  | ioctl (fdno : ℤ) (cmd argp : ℕ)
  | lseek (fdno : ℕ) (off whence : ℤ)

namespace FdCall

def exec : FdCall → Effect σ
  | read fdno ptr len => sysRead nodes fdno ptr len
  | write fdno ptr len => sysWrite nodes fdno ptr len
  | close fdno => sysClose fdno
  | mmap addr len prot flags fdno off back new =>
    sysMmap nodes addr len prot flags fdno off back new
  | ioctl fdno cmd argp => sysIoctl nodes fdno cmd argp
  | lseek fdno off whence => sysLseek nodes fdno off whence

def number : FdCall → ℤ
  | read fdno .. | write fdno .. | close fdno | ioctl fdno .. => fdno
  | mmap _ _ _ _ fdno .. => fdno
  | lseek fdno .. => toInt32 fdno

/-- The call that also changes the address space. -/
def IsMmap : FdCall → Prop
  | mmap .. => True
  | _ => False

/-- The call that writes to the object without asking a file system. -/
def IsLseek : FdCall → Prop
  | lseek .. => True
  | _ => False

/-- The call returns -1 and changes nothing. -/
def Rejects (w : World σ) (call : FdCall) : Prop := call.exec nodes w = some (w, minusOne)

end FdCall

/-- The number of no open descriptor. -/
def NotOpen (p : Proc) (k : ℤ) : Prop := k < 0 ∨ (p.fileDescs.cnt : ℤ) ≤ k

/-! ## The same calls where only a part of the state is looked at -/

variable {nodes} {w : World σ} {k : ℤ}

theorem withFd_eq_onNode (fdno : ℤ) (hook : ℕ → ℕ) (w : World σ) :
    withFd fdno (fun file w => some (w, hook file.node)) w =
      (onNode w.proc fdno hook).map fun ret => (w, ret) := by
  rw [withFd, onNode]
  cases procgetfd w.proc.fileDescs fdno with
  | none => rfl
  | some fd =>
    dsimp only [Option.bind_eq_bind, Option.bind_some]
    split_ifs
    · rfl
    · cases w.proc.objs fd <;> rfl

def fbHook (vidmode : Mmap.VidMode) :
    Mmap.FdNode → Option (ℕ → ℕ → ℤ → ℤ → ℕ → Effect σ)
  | .framebuffer => some fun _ _ _ _ _ w =>
    let (space, ret) := Mmap.fbMmap vidmode w.space
    some ({ w with space }, ret)
  | .other => none

/-- The list says what kind of file is open under each number. -/
def Opens (kind : ℕ → Mmap.FdNode) (p : Proc) (fds : List Mmap.FdNode) : Prop :=
  ∀ k, match Mmap.procgetfd fds k with
    | none => procgetfd p.fileDescs k = some 0
    | some fd => ∃ a file, procgetfd p.fileDescs k = some a ∧ a ≠ 0 ∧ p.objs a = some file ∧
      kind file.node = fd

theorem sysMmap_eq (vidmode : Mmap.VidMode) (kind : ℕ → Mmap.FdNode) {fds : List Mmap.FdNode}
    (hnodes : ∀ node, (nodes node).mmap = fbHook vidmode (kind node))
    (hfds : Opens kind w.proc fds) (addr len : ℕ) (prot flags fdno : ℤ) (off back new : ℕ) :
    sysMmap nodes addr len prot flags fdno off back new w =
      (Mmap.sysMmap vidmode fds len fdno back new w.space).map fun r =>
        ({ w with space := r.1 }, r.2) := by
  rw [sysMmap, Mmap.sysMmap]
  split_ifs with hfd
  · have hopen := hfds fdno
    rw [withFd]
    cases hget : Mmap.procgetfd fds fdno with
    | none =>
      rw [hget] at hopen
      dsimp only at hopen
      rw [hopen]
      rfl
    | some fd =>
      rw [hget] at hopen
      obtain ⟨a, file, hfdno, ha, hobj, hkind⟩ := hopen
      rw [hfdno]
      dsimp only [Option.bind_eq_bind, Option.bind_some]
      rw [if_neg ha, hobj, Option.bind_some, hnodes, hkind]
      cases fd <;> rfl
  · cases Mmap.anonMmap len back new w.space <;> rfl

/-! ## Numbers that are not open -/

theorem NotOpen.procgetfd_eq {p : Proc} (h : NotOpen p k) : procgetfd p.fileDescs k = some 0 :=
  if_pos h

theorem withFd_of_notOpen (h : NotOpen w.proc k) (body : FsFd → Effect σ) :
    withFd k body w = some (w, minusOne) := by
  rw [withFd, h.procgetfd_eq]
  rfl

theorem sysClose_of_notOpen (h : NotOpen w.proc k) : sysClose k w = some (w, minusOne) := by
  rw [sysClose, FileDescs.sysClose, h.procgetfd_eq]
  rfl

theorem setPos_null (pos : FsFd → ℕ) (w : World σ) : setPos 0 pos w = none := rfl

/-- `sys_lseek` goes on with `NULL`, and returns 0 if it does not use it. -/
theorem sysLseek_of_notOpen (nodes : ℕ → VfsNode σ) {fdno : ℕ}
    (h : NotOpen w.proc (toInt32 fdno)) (off whence : ℤ) :
    sysLseek nodes fdno off whence w =
      if whence = seekSet ∨ whence = seekCur ∨ whence = seekEnd then none else some (w, 0) := by
  rw [sysLseek, h.procgetfd_eq]
  dsimp only [Option.bind_eq_bind, Option.bind_some]
  simp only [setPos_null]
  by_cases huses : whence = seekSet ∨ whence = seekCur ∨ whence = seekEnd
  · rw [if_pos huses]
    rcases huses with rfl | rfl | rfl <;> rfl
  · rw [if_neg huses]
    obtain ⟨hset, hcur, hend⟩ := by rwa [not_or, not_or] at huses
    rw [if_neg hset, if_neg hcur, if_neg hend]

/-- A call on a number that is not open is rejected if and only if it is not `sys_lseek`. -/
theorem rejects_iff (nodes : ℕ → VfsNode σ) (w : World σ) (call : FdCall)
    (hopen : NotOpen w.proc call.number) (hmmap : call.IsMmap → call.number ≠ 0) :
    call.Rejects nodes w ↔ ¬call.IsLseek := by
  cases call with
  | read | write | ioctl =>
    exact iff_of_true (withFd_of_notOpen hopen _) not_false
  | close => exact iff_of_true (sysClose_of_notOpen hopen) not_false
  | mmap addr len prot flags fdno off back new =>
    refine iff_of_true ?_ not_false
    have hne : fdno ≠ 0 := hmmap trivial
    show sysMmap nodes addr len prot flags fdno off back new w = _
    rw [sysMmap, if_pos hne]
    exact withFd_of_notOpen hopen _
  | lseek fdno off whence =>
    refine iff_of_false (fun hrejects => ?_) (not_not_intro trivial)
    have hcall : some (w, minusOne) = _ :=
      hrejects.symm.trans (sysLseek_of_notOpen nodes hopen off whence)
    split_ifs at hcall
    cases hcall

def newWorld : World Unit := ⟨newProc.proc, Space.pageMkMap (Space.startMachine 0), ()⟩

def bareNodes : ℕ → VfsNode Unit := fun _ => ⟨none, none, none, none, 0⟩

theorem rejects_read : NotOpen newWorld.proc 3 ∧
    (FdCall.read 3 4096 16).Rejects bareNodes newWorld := by
  have hopen : NotOpen newWorld.proc 3 := Or.inr (by decide)
  have hiff := rejects_iff bareNodes newWorld (.read 3 4096 16) hopen False.elim
  exact ⟨hopen, hiff.mpr not_false⟩

/-- `lseek(3, 0, SEEK_SET)` writes through a null pointer, and with an unknown `whence` the call
returns 0. -/
theorem lseek_not_rejected : NotOpen newWorld.proc (FdCall.lseek 3 0 1).number ∧
    (FdCall.lseek 3 0 1).exec bareNodes newWorld = none ∧
    (FdCall.lseek 3 0 0).exec bareNodes newWorld = some (newWorld, 0) ∧
    ¬(FdCall.lseek 3 0 1).Rejects bareNodes newWorld ∧
    ¬(FdCall.lseek 3 0 0).Rejects bareNodes newWorld := by
  have hopen : NotOpen newWorld.proc (toInt32 3) := Or.inr (by decide)
  have hset : (FdCall.lseek 3 0 1).exec bareNodes newWorld = none :=
    (sysLseek_of_notOpen bareNodes hopen 0 1).trans (if_pos (Or.inl rfl))
  have hother : (FdCall.lseek 3 0 0).exec bareNodes newWorld = some (newWorld, 0) :=
    (sysLseek_of_notOpen bareNodes hopen 0 0).trans (if_neg (by decide))
  refine ⟨hopen, hset, hother, fun h => ?_, fun h => ?_⟩
  · rw [FdCall.Rejects, hset] at h
    cases h
  · rw [FdCall.Rejects, hother] at h
    cases h

end KernelOld.FdCalls
