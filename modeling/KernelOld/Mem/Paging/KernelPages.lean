import Mathlib.Logic.Function.Basic
import KernelOld.Mem.Paging.Entry

/-!
# Virtual pages of the kernel

A model of `page_kernel_alloc4k`, `page_kernel_free4k` and `page_kernel_map_memory` of
`mem/paging.c`. The top gigabyte of the address space is described by the directory `kheapdir` and
its 512 tables `kheap_tables`; a page is taken when its entry is present.
-/

namespace KernelOld.Paging
open MachineWord

/-- The tables that the pages of the kernel are taken from. -/
structure KernelPages where
  kheapdir : ℕ → Entry
  kheapTables : ℕ → ℕ → Entry
  tablesPhys : Entry

def KernelPages.setPage (s : KernelPages) (i j : ℕ) (e : Entry) : KernelPages :=
  { s with kheapTables :=
      Function.update s.kheapTables i (Function.update (s.kheapTables i) j e) }

def KernelPages.mkPresent (s : KernelPages) (i : ℕ) : KernelPages :=
  let phys := s.tablesPhys + BitVec.ofNat 64 (i * 4096)
  let entry := setPageFrame (s.kheapdir i) phys ||| (pagePresent ||| pageWritable)
  { s with kheapdir := Function.update s.kheapdir i entry }

structure Search where
  counter : ℕ
  offset : ℕ
  pdoff : ℕ

inductive Outcome where
  | found (v : Search)
  | next (v : Search)

def scanTable (table : ℕ → Entry) (cnt i : ℕ) : ℕ → ℕ → Search → Outcome
  | 0, _, v => .next v
  | left + 1, j, v =>
    if present (table j) then
      scanTable table cnt i left (j + 1) { pdoff := i, offset := j + 1, counter := 0 }
    else
      let v := { v with counter := u32 (v.counter + 1) }
      if v.counter ≥ cnt then .found v else scanTable table cnt i left (j + 1) v

/-- The first pass: a run of free pages in tables that are in the directory. -/
def scanPresent (s : KernelPages) (cnt : ℕ) : ℕ → ℕ → Search → Option Search
  | 0, _, _ => none
  | left + 1, i, v =>
    if !present (s.kheapdir i) || large (s.kheapdir i) then
      scanPresent s cnt left (i + 1) { pdoff := i + 1, offset := 0, counter := 0 }
    else
      match scanTable (s.kheapTables i) cnt i 512 0 v with
      | .found v => some v
      | .next v => scanPresent s cnt left (i + 1) v

/-- The second pass: enough tables in a row that are not in the directory. -/
def scanAbsent (s : KernelPages) (cnt : ℕ) : ℕ → ℕ → Search → Option Search
  | 0, _, _ => none
  | left + 1, i, v =>
    if present (s.kheapdir i) then
      scanAbsent s cnt left (i + 1) { pdoff := i + 1, offset := 0, counter := 0 }
    else
      let v := { v with counter := u32 (v.counter + 512) }
      if v.counter ≥ cnt then some v else scanAbsent s cnt left (i + 1) v

/-- The loop that takes the pages of a run. `enter` is what it does when it moves on
to the next table. -/
def takePages (enter : KernelPages → ℕ → KernelPages) (s : KernelPages) :
    ℕ → ℕ → ℕ → KernelPages
  | 0, _, _ => s
  | n + 1, pdoff, offset =>
    if offset ≥ 512 then
      takePages enter ((enter s (pdoff + 1)).setPage (pdoff + 1) 0 (pagePresent ||| pageWritable))
        n (pdoff + 1) 1
    else
      takePages enter (s.setPage pdoff offset (pagePresent ||| pageWritable)) n pdoff (offset + 1)

def kheapAddr (pdoff offset : ℕ) : ℕ :=
  u64 (0x8000000000 * 511 + 511 * 0x40000000 + pdoff * 0x200000 + offset * 4096) |||
    0xffff000000000000

/-- `page_kernel_alloc4k`; `none` is the exit at its end, which returns no value. -/
def pageKernelAlloc4k (s : KernelPages) (cnt : ℕ) : Option (KernelPages × ℕ) :=
  match scanPresent s cnt 512 0 ⟨0, 0, 0⟩ with
  | some v =>
    some (takePages (fun s _ => s) s v.counter v.pdoff v.offset, kheapAddr v.pdoff v.offset)
  | none =>
    match scanAbsent s cnt 512 0 ⟨0, 0, 0⟩ with
    | some v =>
      some (takePages KernelPages.mkPresent (s.mkPresent v.pdoff) cnt v.pdoff v.offset,
        kheapAddr v.pdoff v.offset)
    | none => none

def pageKernelFree4k (s : KernelPages) : ℕ → ℕ → KernelPages
  | _, 0 => s
  | virt, cnt + 1 =>
    pageKernelFree4k (s.setPage (pdIdx virt) (ptIdx virt) 0) (u64 (virt + 4096)) cnt

def pageKernelMapMemory (s : KernelPages) : ℕ → Entry → ℕ → KernelPages
  | _, _, 0 => s
  | virt, phys, cnt + 1 =>
    let page := s.kheapTables (pdIdx virt) (ptIdx virt)
    let page := setPageFrame page phys ||| (pagePresent ||| pageWritable)
    pageKernelMapMemory (s.setPage (pdIdx virt) (ptIdx virt) page) (u64 (virt + 4096))
      (phys + 4096) cnt

end KernelOld.Paging
