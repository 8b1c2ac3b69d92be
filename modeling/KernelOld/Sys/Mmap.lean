import KernelOld.Mem.Space.DataPages
import KernelOld.Mem.Space.RegionWalk

/-!
# `sys_mmap` and the other users of a process's address space

`sys_mmap` of `sys/syscall/syscall.c` and `fb_mmap` of `drivers/gfx/fb/fb.c`, with the segments of
`elf_load`, the stack of `sched_mkelfproc` and those of `thread_creat`. A region is reserved to the
byte but mapped by whole pages, `sys_mmap` rounds its length down where `elf_load` rounds up, and
`fb_mmap` maps a fixed range without reserving it.
-/

namespace KernelOld.Mmap
open Space MachineWord Paging LinkedList CountedLoop

structure VidMode where
  width : ℕ
  height : ℕ
  depth : ℕ
  fbphys : ℕ

inductive FdNode
  | framebuffer
  | other
deriving DecidableEq

def procgetfd (fileDescs : List FdNode) (fdnum : ℤ) : Option FdNode :=
  if fdnum < 0 ∨ (fileDescs.length : ℤ) ≤ fdnum then none else fileDescs[fdnum.toNat]?

def fbPages (vidmode : VidMode) : ℕ :=
  u32 (vidmode.width * vidmode.height * (vidmode.depth / 8)) / 4096 + 1

def fbMmap (vidmode : VidMode) (st : Machine × PageMap) : (Machine × PageMap) × ℕ :=
  (pageMapMemory (fbPages vidmode) 0x30000 vidmode.fbphys st, 0x30000)

def setRegions (st : Machine × PageMap) (regions : ListT Region) : Machine × PageMap :=
  (st.1, { st.2 with regions })

/-- The counter and the offset have 32 bits: from `2 ^ 32` pages on the loop does not end. -/
def anonMmap (len back new : ℕ) (st : Machine × PageMap) : Option ((Machine × PageMap) × ℕ) := do
  let (regions, mem) ← spaceAllocRegion len st.2.regions back new
  if len / 4096 < 2 ^ 32 then
    let round := fun i => mapNew (u64 (mem + u32 (i * 4096)))
    some (loop round (len / 4096) (setRegions st regions), mem)
  else none

def sysMmap (vidmode : VidMode) (fileDescs : List FdNode) (len : ℕ) (fdno : ℤ) (back new : ℕ)
    (st : Machine × PageMap) : Option ((Machine × PageMap) × ℕ) :=
  if fdno ≠ 0 then
    match procgetfd fileDescs fdno with
    | none => some (st, 2 ^ 64 - 1)
    | some .framebuffer => some (fbMmap vidmode st)
    | some .other => some (st, 0)
  else anonMmap len back new st

def segmentSize (memSz : ℕ) : ℕ :=
  if memSz % 4096 ≠ 0 then u64 (memSz - memSz % 4096 + 4096) else memSz

/-- `tmp` is a kernel page, and `image` the file from `phdr.offset` on. The counter has 32 bits. -/
def loadSegment (vaddr memSz tmp : ℕ) (image : ℕ → UInt8) (back new : ℕ)
    (st : Machine × PageMap) : Option (Machine × PageMap) := do
  let size := segmentSize memSz
  let regions ← spaceAllocRegionAt vaddr size st.2.regions back new
  if size < 2 ^ 32 then
    let round := fun i =>
      loadPage tmp (u64 (vaddr + i * 4096)) fun n => image (i * 4096 + n)
    some (loop round (size / 4096) (setRegions st regions))
  else none

def threadStack (back new : ℕ) (st : Machine × PageMap) :
    Option ((Machine × PageMap) × ℕ) := do
  let (regions, stack) ← spaceAllocRegion 0x4000 st.2.regions back new
  some (loop (fun i => mapNew (u64 (stack + i * 4096))) 4 (setRegions st regions), stack)

/-- The loop of `sched_mkelfproc` counts addresses in 32 bits, and need not end when the end of the
stack is above 4 GiB. -/
def stackPages (stack : ℕ) : Option ℕ :=
  if stack + 0x4000 < 2 ^ 32 then some 4
  else if 2 ^ 64 ≤ stack + 0x4000 then some 0
  else none

def firstStack (back new : ℕ) (st : Machine × PageMap) : Option ((Machine × PageMap) × ℕ) := do
  let (regions, stack) ← spaceAllocRegion 0x4000 st.2.regions back new
  let pages ← stackPages stack
  some (loop (fun i => mapNew (u64 (stack + i * 4096))) pages (setRegions st regions), stack)

theorem firstStack_eq {back new stack : ℕ} {st : Machine × PageMap} {regions : ListT Region}
    (halloc : spaceAllocRegion 0x4000 st.2.regions back new = some (regions, stack)) :
    firstStack back new st = (stackPages stack).bind fun pages =>
      some (loop (fun i => mapNew (u64 (stack + i * 4096))) pages (setRegions st regions),
        stack) := by
  unfold firstStack
  rw [halloc, Option.bind_eq_bind, Option.bind_some]
  rfl

theorem stackPages_low {stack : ℕ} (hlow : stack + 0x4000 < 2 ^ 32) : stackPages stack = some 4 :=
  if_pos hlow

/-- An address space, and if the framebuffer is in it. -/
structure Process where
  st : Machine × PageMap
  fbMapped : Bool

/-- The callers of the two region functions. -/
inductive ProcCall
  | segment (vaddr memSz tmp : ℕ) (image : ℕ → UInt8)
  | firstStack
  | threadStack
  | mmap (fileDescs : List FdNode) (len : ℕ) (fdno : ℤ)

def ProcCall.onFb : ProcCall → Bool
  | .mmap fileDescs _ fdno => decide (fdno ≠ 0 ∧ procgetfd fileDescs fdno = some .framebuffer)
  | _ => false

def ProcCall.exec (vidmode : VidMode) (p : Process) (back new : ℕ) :
    ProcCall → Option ((Machine × PageMap) × ℕ)
  | .segment vaddr memSz tmp image =>
    (loadSegment vaddr memSz tmp image back new p.st).map fun st => (st, 0)
  | .firstStack => Mmap.firstStack back new p.st
  | .threadStack => Mmap.threadStack back new p.st
  | .mmap fileDescs len fdno => sysMmap vidmode fileDescs len fdno back new p.st

end KernelOld.Mmap
