import KernelOld.Lib.MachineWord
import KernelOld.Util.Stdlib

/-!
# The kernel heap

A model of `mem/kheap.c`. The heap is one list of blocks, each a 32-byte header (`len`, `free`,
`prev`, `next`) followed by its payload; the headers lie in the memory that the clients use. `bool`
is `int`, so `free` is the four bytes at offset 8. The model is sequential: taking a lock that is
already held is a call that does not return.
-/

namespace KernelOld.Kheap
open ByteMemory MachineWord Stdlib

def headerSize : ℕ := 32

/-- The variables of `mem/kheap.c` and the memory with the blocks. -/
structure Heap where
  mem : Mem
  heapStart : ℕ
  heapEnd : ℕ
  lastBlock : ℕ
  kheapLock : Bool

/-! ## Header fields -/

def len (m : Mem) (block : ℕ) : ℕ := load m block 8
def free (m : Mem) (block : ℕ) : Bool := load m (block + 8) 4 != 0
def prev (m : Mem) (block : ℕ) : ℕ := load m (block + 16) 8
def next (m : Mem) (block : ℕ) : ℕ := load m (block + 24) 8

def setLen (m : Mem) (block v : ℕ) : Mem := store m block 8 v
def setFree (m : Mem) (block : ℕ) (v : Bool) : Mem := store m (block + 8) 4 v.toNat
def setPrev (m : Mem) (block v : ℕ) : Mem := store m (block + 16) 8 v
def setNext (m : Mem) (block v : ℕ) : Mem := store m (block + 24) 8 v

/-! ## Merging and splitting -/

def heapCombineForward (h : Heap) (block : ℕ) : Heap :=
  let nxt := next h.mem block
  if nxt = 0 then h
  else if !free h.mem nxt then h
  else
    let last := if nxt = h.lastBlock then block else h.lastBlock
    let m := h.mem
    let m := if next m nxt ≠ 0 then setPrev m (next m nxt) block else m
    let m := setLen m block (u64 (len m block + (len m nxt + headerSize)))
    let m := setNext m block (next m nxt)
    { h with mem := m, lastBlock := last }

def heapCombineBack (h : Heap) (block : ℕ) : Heap :=
  if prev h.mem block ≠ 0 ∧ free h.mem (prev h.mem block) then
    heapCombineForward h (prev h.mem block)
  else h

/-- Null when there is no room for a new block; the rest is compared as a signed number. -/
def heapSplitBlock (h : Heap) (block n : ℕ) : Heap × ℕ :=
  if n < 16 then (h, 0)
  else
    let splitBlockLen := sub64 (sub64 (len h.mem block) n) headerSize
    if toInt64 splitBlockLen < 16 then (h, 0)
    else
      let new := u64 (block + n + headerSize)
      let m := h.mem
      let m := if next m block ≠ 0 then setPrev m (next m block) new else m
      let m := setNext m new (next m block)
      let m := setNext m block new
      let m := setPrev m new block
      let m := setLen m new splitBlockLen
      let m := setFree m new (free m block)
      let m := setLen m block n
      let last := if h.lastBlock = block then new else h.lastBlock
      ({ h with mem := m, lastBlock := last }, new)

/-! ## Initialisation and expansion -/

def heapLen : ℕ := 10000 * 4096

def kheapInit (m : Mem) (addr : ℕ) : Heap :=
  let m := setLen m addr 0
  let m := setNext m addr 0
  let m := setPrev m addr 0
  let m := setFree m addr true
  { mem := m, heapStart := addr, heapEnd := u64 (addr + heapLen), lastBlock := addr,
    kheapLock := false }

/-- `heap_end` is not consulted. `none` when the lock is held. -/
def kheapExpand (h : Heap) (n : ℕ) : Option Heap :=
  if h.kheapLock then none
  else
    let new := u64 (h.lastBlock + len h.mem h.lastBlock + headerSize)
    let m := h.mem
    let m := setFree m new true
    let m := setPrev m new h.lastBlock
    let m := setNext m h.lastBlock new
    let m := setNext m new 0
    let m := setLen m new n
    some (heapCombineBack { h with mem := m, lastBlock := new } new)

/-! ## Allocation -/

def roundUp16 (n : ℕ) : ℕ := if n % 16 ≠ 0 then u64 (n - n % 16 + 16) else n

/-- Longer than the request and a header together, or exactly as long as the request. -/
def accepts (m : Mem) (n curr : ℕ) : Bool :=
  free m curr && (decide (len m curr > u64 (n + headerSize)) || len m curr == n)

/-- `some none` when the last block has been passed, and `none` when the list has not ended after
`fuel` blocks. -/
def findBlock (m : Mem) (n : ℕ) : ℕ → ℕ → Option (Option ℕ)
  | 0, _ => none
  | fuel + 1, curr =>
    if accepts m n curr then some (some curr)
    else if next m curr = 0 then some none
    else findBlock m n fuel (next m curr)

def takeBlock (h : Heap) (n curr : ℕ) : Heap :=
  let h := if len h.mem curr > u64 (n + headerSize) then (heapSplitBlock h curr n).1 else h
  let m := setFree h.mem curr false
  { h with mem := memset m (u64 (curr + headerSize)) 0 n, kheapLock := false }

/-- A walk of more than `2 ^ 64` blocks has met a block twice and never ends. A null `heap_start`
makes `kheap_expand` wait for the lock that `kmalloc` holds. -/
def kmalloc : ℕ → Heap → ℕ → Option (Heap × ℕ)
  | 0, _, _ => none
  | rounds + 1, h, size =>
    let n := roundUp16 size
    if h.kheapLock then none
    else if h.heapStart = 0 then
      (kheapExpand { h with kheapLock := true } n).bind fun h' => kmalloc rounds h' n
    else
      match findBlock h.mem n (2 ^ 64) h.heapStart with
      | none => none
      | some (some curr) => some (takeBlock h n curr, u64 (curr + headerSize))
      | some none => (kheapExpand h n).bind fun h' => kmalloc rounds h' n

/-- `kfree`. `none` when the lock is held. -/
def kfree (h : Heap) (ptr : ℕ) : Option Heap :=
  if h.kheapLock then none
  else
    let block := sub64 ptr headerSize
    let h := { h with mem := setFree h.mem block true }
    some (heapCombineBack (heapCombineForward h block) block)

end KernelOld.Kheap
