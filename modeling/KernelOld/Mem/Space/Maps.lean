import KernelOld.Lib.CountedLoop
import KernelOld.Mem.Paging.Tables
import KernelOld.Mem.Space.Regions

/-!
# Page maps

`page_mk_table`, `page_mk_map`, `page_clone_map`, `page_map_memory` and `page_getphys` of
`mem/paging.c`, over physical memory. The kernel reaches a paging structure through a page of its
own: `kmap` gives the frame behind it. `page_kernel_alloc4k(1)` and `pmm_request()` are the two
supplies `pageAt` and `frameAt`, taken from in order. The arrays of pointers are kept as functions.
-/

namespace KernelOld.Space
open ByteMemory MachineWord Stdlib Paging LinkedList CountedLoop

/-- Physical memory, and what has been taken from the two supplies. -/
structure Machine where
  mem : Mem
  kmap : ℕ → ℕ
  kpml4Phys : ℕ
  pageAt : ℕ → ℕ
  frameAt : ℕ → ℕ
  pages : ℕ
  frames : ℕ

structure PageMap where
  pml4 : ℕ
  pml4Phys : ℕ
  pdp : ℕ
  pdpPhys : ℕ
  pageDirs : ℕ → ℕ
  pageDirsPhys : ℕ → ℕ
  pageTables : ℕ → ℕ → ℕ
  regions : ListT Region

namespace Machine

variable (s : Machine)

def nextPage : ℕ := s.pageAt s.pages

def nextFrame : ℕ := s.frameAt s.frames

def newPage : Machine :=
  { s with
    kmap := Function.update s.kmap s.nextPage s.nextFrame
    pages := s.pages + 1
    frames := s.frames + 1 }

def entry (ptr j : ℕ) : Entry := word s.mem (s.kmap ptr) j

def setEntry (ptr j : ℕ) (e : Entry) : Machine :=
  { s with mem := setWord s.mem (s.kmap ptr) j e }

def link (ptr j phys : ℕ) : Machine :=
  s.setEntry ptr j (setPageFrame (s.entry ptr j) (BitVec.ofNat 64 phys) ||| userFlags)

def clearPage (ptr : ℕ) : Machine :=
  { s with mem := memset s.mem (s.kmap ptr) 0 4096 }

def copyPage (ptr phys : ℕ) : Machine :=
  { s with mem := memcpy s.mem (s.kmap ptr) phys 4096 }

end Machine

def setTable (tables : ℕ → ℕ → ℕ) (i j table : ℕ) : ℕ → ℕ → ℕ :=
  Function.update tables i (Function.update (tables i) j table)

def pageMkTable (pdpidx pdidx : ℕ) : Machine × PageMap → Machine × PageMap
  | (s, map) =>
    let table := s.nextPage
    let tablePhys := s.nextFrame
    let s := s.newPage
    let s := s.clearPage table
    let s := s.link (map.pageDirs pdpidx) pdidx tablePhys
    (s, { map with pageTables := setTable map.pageTables pdpidx pdidx table })

/-- What `page_mk_map` and `page_clone_map` begin with: the top two levels, and a page for each
array. -/
def newRoot (s : Machine) : Machine × PageMap :=
  let pml4 := s.nextPage
  let pml4Phys := s.nextFrame
  let s := s.newPage
  let s := s.copyPage pml4 s.kpml4Phys
  let pdp := s.nextPage
  let pdpPhys := s.nextFrame
  let s := s.newPage
  let s := s.clearPage pdp
  let s := s.link pml4 0 pdpPhys
  let s := s.newPage.newPage.newPage
  (s,
    { pml4, pml4Phys, pdp, pdpPhys
      pageDirs := fun _ => 0
      pageDirsPhys := fun _ => 0
      pageTables := fun _ _ => 0
      regions := listCreate })

def mkDir (i : ℕ) : Machine × PageMap → Machine × PageMap
  | (s, map) =>
    let dir := s.nextPage
    let dirPhys := s.nextFrame
    let s := s.newPage
    let s := s.clearPage dir
    let s := s.link map.pdp i dirPhys
    (s,
      { map with
        pageDirs := Function.update map.pageDirs i dir
        pageDirsPhys := Function.update map.pageDirsPhys i dirPhys
        pageTables := Function.update map.pageTables i fun _ => 0 })

def pageMkMap (s : Machine) : Machine × PageMap := loop mkDir 512 (newRoot s)

/-- Unlike in `page_mk_map`, the new directory is not cleared. -/
def cloneDirStart (i : ℕ) : Machine × PageMap → Machine × PageMap
  | (s, map) =>
    let dir := s.nextPage
    let dirPhys := s.nextFrame
    let s := s.newPage
    let s := s.link map.pdp i dirPhys
    (s,
      { map with
        pageDirs := Function.update map.pageDirs i dir
        pageDirsPhys := Function.update map.pageDirsPhys i dirPhys })

def cloneTable (src : PageMap) (i j : ℕ) (st : Machine × PageMap) : Machine × PageMap :=
  let srcpage := src.pageTables i j
  if srcpage ≠ 0 then
    let (s, map) := pageMkTable i j st
    (s.copyPage (map.pageTables i j) (s.kmap srcpage), map)
  else
    let (s, map) := st
    (s.setEntry (map.pageDirs i) j 0, { map with pageTables := setTable map.pageTables i j 0 })

def cloneDir (src : PageMap) (i : ℕ) (st : Machine × PageMap) : Machine × PageMap :=
  loop (cloneTable src i) 512 (cloneDirStart i st)

def pageCloneMap (s : Machine) (src : PageMap) : Machine × PageMap :=
  loop (cloneDir src) 512 (newRoot s)

def mapPage (virt phys : ℕ) (st : Machine × PageMap) : Machine × PageMap :=
  let pdpidx := pdpIdx virt
  let pdidx := pdIdx virt
  let ptidx := ptIdx virt
  let (s, map) :=
    if present (st.1.entry (st.2.pageDirs pdpidx) pdidx) then st
    else pageMkTable pdpidx pdidx st
  (s.link (map.pageTables pdpidx pdidx) ptidx phys, map)

def pageMapMemory : ℕ → ℕ → ℕ → Machine × PageMap → Machine × PageMap
  | 0, _, _, st => st
  | cnt + 1, virt, phys, st =>
    pageMapMemory cnt (u64 (virt + 4096)) (u64 (phys + 4096)) (mapPage virt phys st)

def pageGetphys (s : Machine) (virt : ℕ) (map : PageMap) : ℕ :=
  let i := pdpIdx virt
  let j := pdIdx virt
  if pml4Idx virt = 0 then
    if !present (s.entry (map.pageDirs i) j) || map.pageTables i j = 0 then 0
    else frameOf (s.entry (map.pageTables i j) (ptIdx virt))
  else 0

end KernelOld.Space
