import KernelOld.Acpi.FindTbl
import KernelOld.Lib.CountedLoop
import KernelOld.Mem.Paging.KernelRuns
import KernelOld.Mem.Paging.Tables

/-!
# The kernel half of the address space

`paging_init` of `mem/paging.c`, and what the processor makes of the tables that it fills: right
after it, and after any run of the calls that change the tables of the kernel heap.
-/

namespace KernelOld.Paging
open ByteMemory MachineWord CountedLoop Function

/-! ## The tables of the kernel -/

/-- The paging structures of `mem/paging.c`. -/
structure KernelTables extends KernelPages where
  kpml4 : ℕ → Entry
  kpdp : ℕ → Entry
  kpd : ℕ → Entry
  iodirs : ℕ → ℕ → Entry

inductive Symbol
  | kpml4
  | kpdp
  | kpd
  | kheapdir
  | iodir (i : ℕ)
  | kheapTable (i : ℕ)

def Symbol.Valid : Symbol → Prop
  | .kpml4 | .kpdp | .kpd | .kheapdir => True
  | .iodir i => i < 4
  | .kheapTable i => i < 512

/-- Their physical addresses: those of the symbols, less `KERNEL_VIRTUAL_ADDR`. -/
structure Image where
  frame : Symbol → ℕ
  aligned : ∀ t, 4096 ∣ frame t
  lt : ∀ t, t.Valid → frame t < 2 ^ 52
  tables_eq : ∀ i, frame (.kheapTable i) = frame (.kheapTable 0) + i * 4096

def pdCacheDisabled : Entry := 0x10

def link (img : Image) (t : Symbol) : Entry :=
  .ofNat 64 (img.frame t) ||| (pagePresent ||| pageWritable)

def lowEntry (i : ℕ) : Entry :=
  .ofNat 64 (0x200000 * i) ||| (pagePresent ||| pageWritable ||| pd2M)

def ioEntry (i j : ℕ) : Entry :=
  .ofNat 64 (0x40000000 * i + 0x200000 * j) |||
    (pd2M ||| pageWritable ||| pagePresent ||| pdCacheDisabled)

def KernelTables.setKpml4 (s : KernelTables) (j : ℕ) (e : Entry) : KernelTables :=
  { s with kpml4 := update s.kpml4 j e }

def KernelTables.setKpdp (s : KernelTables) (j : ℕ) (e : Entry) : KernelTables :=
  { s with kpdp := update s.kpdp j e }

/-- `paging_init`, up to the load of `cr3`. It does not clear `kheapdir`. -/
def pagingInit (img : Image) (s : KernelTables) : KernelTables :=
  let s := { s with kpml4 := fun _ => 0, kpdp := fun _ => 0 }
  let s := s.setKpml4 511 (setPageFrame (s.kpml4 511) (.ofNat 64 (img.frame .kpdp)))
  let s := s.setKpml4 511 (s.kpml4 511 ||| (pagePresent ||| pageWritable))
  let s := s.setKpml4 0 (s.kpml4 511)
  let s := s.setKpdp 510 (link img .kpd)
  let s := { s with kpd := loop (fun i kpd => update kpd i (lowEntry i)) 512 s.kpd }
  let s := s.setKpdp 511 (pagePresent ||| pageWritable)
  let s := s.setKpdp 511 (setPageFrame (s.kpdp 511) (.ofNat 64 (img.frame .kheapdir)))
  let s := loop (fun i s =>
    let s := s.setKpdp (506 + i) (link img (.iodir i))
    let dir := loop (fun j dir => update dir j (ioEntry i j)) 512 (s.iodirs i)
    { s with iodirs := update s.iodirs i dir }) 4 s
  let s := s.setKpdp 0 (s.kpdp 510)
  { s with kheapTables := loop (fun i tables => update tables i fun _ => 0) 512 s.kheapTables }

/-- The tables after `paging_init`. Before it they are zero, as the loader leaves them. -/
def boot (img : Image) : KernelTables :=
  let zero : ℕ → Entry := fun _ => 0
  let phys := .ofNat 64 (img.frame (.kheapTable 0))
  pagingInit img ⟨⟨zero, fun _ => zero, phys⟩, zero, zero, zero, fun _ => zero⟩

/-- Physical memory holds the tables where the image has them. -/
structure Loads (img : Image) (s : KernelTables) (m : Mem) : Prop where
  kpml4 : ∀ j < 512, word m (img.frame .kpml4) j = s.kpml4 j
  kpdp : ∀ j < 512, word m (img.frame .kpdp) j = s.kpdp j
  kpd : ∀ j < 512, word m (img.frame .kpd) j = s.kpd j
  iodirs : ∀ i < 4, ∀ j < 512, word m (img.frame (.iodir i)) j = s.iodirs i j
  kheapdir : ∀ j < 512, word m (img.frame .kheapdir) j = s.kheapdir j
  kheapTables : ∀ i < 512, ∀ j < 512, word m (img.frame (.kheapTable i)) j = s.kheapTables i j

/-- What the tables are for: low memory at 0 and at `KERNEL_VIRTUAL_ADDR`, the first four gigabytes
at `IO_VIRTUAL_ADDR`, and the heap in the last gigabyte. The lowest 512 GiB are the same. -/
def kernelMap (s : KernelPages) (v : ℕ) : Option ℕ :=
  let o := v % 2 ^ 39
  if v / 2 ^ 39 % 512 ≠ 0 ∧ v / 2 ^ 39 % 512 ≠ 511 then none
  else if o < 2 ^ 30 then some (o / 4096 * 4096)
  else if o < 506 * 2 ^ 30 then none
  else if o < 510 * 2 ^ 30 then some ((o - 506 * 2 ^ 30) / 4096 * 4096)
  else if o < 511 * 2 ^ 30 then some ((o - 510 * 2 ^ 30) / 4096 * 4096)
  else
    let e := page s ((o - 511 * 2 ^ 30) / 4096)
    if present e then some (frameOf e) else none

variable {img : Image} {m : Mem} {t : Symbol} {e e' flags : Entry} {i j n p v : ℕ}
  {s s' : KernelPages} {c c' : KernelClient}

/-! ## What `paging_init` leaves -/

theorem loop_update {α : Type*} (f g : ℕ → α) (n j : ℕ) :
    loop (fun i g => update g i (f i)) n g j = if j < n then f j else g j := by
  let I : ℕ → (ℕ → α) → Prop := fun n g' => g' j = if j < n then f j else g j
  refine loop_induction (I := I) n (by simp [I]) fun i g' _ hg => ?_
  show update g' i (f i) j = _
  rw [update_apply, hg]
  grind

theorem setPageFrame_link (img : Image) (ht : t.Valid) :
    setPageFrame 0 (.ofNat 64 (img.frame t)) ||| (pagePresent ||| pageWritable) = link img t ∧
      setPageFrame (pagePresent ||| pageWritable) (.ofNat 64 (img.frame t)) = link img t := by
  have hlt := img.lt t ht
  have hframe : BitVec.ofNat 64 (img.frame t) &&& pageFrame = .ofNat 64 (img.frame t) := by
    refine BitVec.eq_of_toNat_eq ?_
    rw [← frameOf, frameOf_ofNat (img.aligned t), Nat.mod_eq_of_lt hlt, BitVec.toNat_ofNat,
      Nat.mod_eq_of_lt (by omega)]
  have hflags : ((pagePresent ||| pageWritable) &&& ~~~pageFrame) =
    pagePresent ||| pageWritable := by decide
  rw [setPageFrame, setPageFrame, hframe, hflags, link]
  exact ⟨by simp, BitVec.or_comm _ _⟩

structure Boots (img : Image) (s : KernelTables) : Prop where
  kpml4 : ∀ j, s.kpml4 j = if j = 0 ∨ j = 511 then link img .kpdp else 0
  kpdp : ∀ j < 512, s.kpdp j =
    if j = 0 ∨ j = 510 then link img .kpd
    else if j = 511 then link img .kheapdir
    else if 506 ≤ j then link img (.iodir (j - 506))
    else 0
  kpd : ∀ j < 512, s.kpd j = lowEntry j
  iodirs : ∀ i < 4, ∀ j < 512, s.iodirs i j = ioEntry i j
  kheapdir : ∀ j, s.kheapdir j = 0
  kheapTables : ∀ i < 512, ∀ j, s.kheapTables i j = 0
  tablesPhys : s.tablesPhys = .ofNat 64 (img.frame (.kheapTable 0))

theorem boots_boot (img : Image) : Boots img (boot img) := by
  have hroot := (setPageFrame_link img (t := .kpdp) trivial).1
  have hheap := (setPageFrame_link img (t := .kheapdir) trivial).2
  rw [boot, pagingInit, loop_succ, loop_succ, loop_succ, loop_succ, loop_zero]
  simp only [KernelTables.setKpml4, KernelTables.setKpdp]
  refine ⟨fun j => ?_, fun j hj => ?_, fun j hj => ?_, fun i hi j hj => ?_, fun _ => rfl,
    fun i hi j => ?_, rfl⟩
  · simp only [update_apply, if_true, hroot]
    grind
  · simp only [update_apply, if_true, hheap]
    grind
  · exact (loop_update lowEntry _ 512 j).trans (if_pos hj)
  · have hdir : ∀ k dir, loop (fun j dir => update dir j (ioEntry k j)) 512 dir j = ioEntry k j :=
      fun k dir => (loop_update (ioEntry k) dir 512 j).trans (if_pos hj)
    rcases (by omega : i = 0 ∨ i = 1 ∨ i = 2 ∨ i = 3) with rfl | rfl | rfl | rfl <;> exact hdir _ _
  · have hzero := loop_update (fun _ (_ : ℕ) => (0 : Entry)) (fun _ _ => 0) 512 i
    rw [if_pos hi] at hzero
    exact congrFun hzero j

/-! ## The walk -/

theorem entry_spec (hp : 4096 ∣ p) (hlt : p < 2 ^ 52) (hflags : flags &&& pageFrame = 0) :
    present (.ofNat 64 p ||| flags) = flags.getLsbD 0 ∧
      large (.ofNat 64 p ||| flags) = flags.getLsbD 7 ∧ frameOf (.ofNat 64 p ||| flags) = p := by
  have hlow : ∀ i < 12, (BitVec.ofNat 64 p ||| flags).getLsbD i = flags.getLsbD i := by
    intro i hi
    obtain ⟨q, rfl⟩ := hp
    rw [BitVec.getLsbD_or, BitVec.getLsbD_ofNat, Nat.mul_comm, show 4096 = 2 ^ 12 from rfl,
      Nat.testBit_mul_two_pow]
    simp [Nat.not_le.mpr hi]
  have hand : (BitVec.ofNat 64 p ||| flags) &&& pageFrame = BitVec.ofNat 64 p &&& pageFrame := by
    rw [BitVec.and_or_distrib_right, hflags]
    exact BitVec.or_zero
  refine ⟨?_, ?_, ?_⟩
  · rw [present_eq, hlow 0 (by decide)]
  · rw [large_eq, hlow 7 (by decide)]
  · rw [frameOf, hand, ← frameOf, frameOf_ofNat hp, Nat.mod_eq_of_lt hlt]

theorem link_spec (img : Image) (ht : t.Valid) :
    present (link img t) = true ∧ large (link img t) = false ∧
      frameOf (link img t) = img.frame t :=
  entry_spec (img.aligned t) (img.lt t ht) (by decide)

/-- The directory of the heap names its own tables. -/
structure Linked (img : Image) (s : KernelPages) : Prop where
  phys_eq : s.tablesPhys = .ofNat 64 (img.frame (.kheapTable 0))
  frame_eq : ∀ i < 512, present (s.kheapdir i) = true →
    frameOf (s.kheapdir i) = frameOf (s.tablesPhys + .ofNat 64 (i * 4096))

theorem walk_link {cr3 : ℕ} (ht : t.Valid) (h4 : word m cr3 (pml4Idx v) = link img .kpdp)
    (h3 : word m (img.frame .kpdp) (pdpIdx v) = link img t) :
    walk m cr3 v =
      let e2 := word m (img.frame t) (pdIdx v)
      if !present e2 then none
      else if large e2 then some (frameOf e2 / 2 ^ 21 * 2 ^ 21 + v % 2 ^ 21 / 4096 * 4096)
      else
        let e1 := word m (frameOf e2) (ptIdx v)
        if !present e1 then none else some (frameOf e1) := by
  obtain ⟨hp, -, hf⟩ := link_spec img (t := .kpdp) trivial
  obtain ⟨hp', hl', hf'⟩ := link_spec img ht
  rw [walk]
  simp only [h4, hp, hf, h3, hp', hl', hf', Bool.not_true, Bool.false_eq_true, if_false]

theorem walk_eq_kernelMap (hm : Loads img { boot img with toKernelPages := s } m) (hinv : s.Inv)
    (hlinked : Linked img s) (v : ℕ) : walk m (img.frame .kpml4) v = kernelMap s v := by
  have hboots := boots_boot img
  have hpdp := pdpIdx_eq v
  have hpd := pdIdx_eq v
  have hpt := ptIdx_eq v
  have hpdp_lt : pdpIdx v < 512 := by omega
  have hpd_lt : pdIdx v < 512 := by omega
  have hpt_lt : ptIdx v < 512 := by omega
  have h4 := (hm.kpml4 (pml4Idx v) (by rw [pml4Idx_eq]; omega)).trans (hboots.kpml4 _)
  have h3 := (hm.kpdp _ hpdp_lt).trans (hboots.kpdp _ hpdp_lt)
  have hzero : present 0 = false := by decide
  rw [kernelMap, ← pml4Idx_eq]
  dsimp only
  by_cases hroot : pml4Idx v = 0 ∨ pml4Idx v = 511
  swap
  · rw [if_neg hroot] at h4
    rw [if_pos (not_or.mp hroot), walk, h4]
    simp only [hzero, Bool.not_false, if_true]
  rw [if_pos hroot] at h4
  rw [if_neg (by omega)]
  by_cases hlow : pdpIdx v = 0 ∨ pdpIdx v = 510
  · -- low memory, in pages of 2 MiB
    rw [if_pos hlow] at h3
    have h2 := (hm.kpd _ hpd_lt).trans (hboots.kpd _ hpd_lt)
    have hentry : present (lowEntry (pdIdx v)) = true ∧ large (lowEntry (pdIdx v)) = true ∧
        frameOf (lowEntry (pdIdx v)) = 0x200000 * pdIdx v :=
      entry_spec (by omega) (by omega) (by decide)
    rw [walk_link (t := .kpd) trivial h4 h3]
    simp only [h2, hentry, Bool.not_true, Bool.false_eq_true, if_true, if_false]
    rcases hlow with hlow | hlow
    · rw [if_pos (by omega)]
      exact congrArg some (by omega)
    · rw [if_neg (by omega), if_neg (by omega), if_neg (by omega), if_pos (by omega)]
      exact congrArg some (by omega)
  rw [if_neg hlow] at h3
  by_cases hheap : pdpIdx v = 511
  · rw [if_pos hheap] at h3
    have h2 := hm.kheapdir _ hpd_lt
    have hdiv : (v % 2 ^ 39 - 511 * 2 ^ 30) / 4096 / 512 = pdIdx v := by omega
    have hpage : page s ((v % 2 ^ 39 - 511 * 2 ^ 30) / 4096) =
        s.kheapTables (pdIdx v) (ptIdx v) := by
      rw [page, hdiv, show (v % 2 ^ 39 - 511 * 2 ^ 30) / 4096 % 512 = ptIdx v by omega]
    rw [if_neg (by omega), if_neg (by omega), if_neg (by omega), if_neg (by omega), hpage,
      walk_link (t := .kheapdir) trivial h4 h3]
    simp only [h2]
    by_cases hdir : present (s.kheapdir (pdIdx v)) = true
    · have hlt := img.lt (.kheapTable (pdIdx v)) hpd_lt
      have hframe : frameOf (s.kheapdir (pdIdx v)) = img.frame (.kheapTable (pdIdx v)) := by
        rw [hlinked.frame_eq _ hpd_lt hdir, hlinked.phys_eq, ← BitVec.ofNat_add, ← img.tables_eq,
          frameOf_ofNat (img.aligned _), Nat.mod_eq_of_lt hlt]
      simp only [hdir, hinv.small _ hpd_lt, hframe, hm.kheapTables _ hpd_lt _ hpt_lt,
        Bool.not_true, Bool.false_eq_true, if_false]
      cases present (s.kheapTables (pdIdx v) (ptIdx v)) <;> rfl
    · -- a page whose table is not there is not there either
      have hout := mt (hinv.in_dir ((v % 2 ^ 39 - 511 * 2 ^ 30) / 4096) (by rw [pageCount]; omega))
      rw [hpage, hdiv] at hout
      rw [if_neg (hout hdir), if_pos (by simpa using hdir)]
  rw [if_neg hheap] at h3
  by_cases hio : 506 ≤ pdpIdx v
  · rw [if_pos hio] at h3
    have hi : pdpIdx v - 506 < 4 := by omega
    have h2 := (hm.iodirs _ hi _ hpd_lt).trans (hboots.iodirs _ hi _ hpd_lt)
    have hentry : present (ioEntry (pdpIdx v - 506) (pdIdx v)) = true ∧
        large (ioEntry (pdpIdx v - 506) (pdIdx v)) = true ∧
        frameOf (ioEntry (pdpIdx v - 506) (pdIdx v)) =
          0x40000000 * (pdpIdx v - 506) + 0x200000 * pdIdx v :=
      entry_spec (by omega) (by omega) (by decide)
    rw [walk_link (t := .iodir (pdpIdx v - 506)) hi h4 h3]
    simp only [h2, hentry, Bool.not_true, Bool.false_eq_true, if_true, if_false]
    rw [if_neg (by omega), if_neg (by omega), if_pos (by omega)]
    exact congrArg some (by omega)
  · rw [if_neg hio] at h3
    obtain ⟨hp, -, hf⟩ := link_spec img (t := .kpdp) trivial
    rw [if_neg (by omega), if_pos (by omega), walk, h4]
    simp only [hp, hf, h3, hzero, Bool.not_true, Bool.not_false, Bool.false_eq_true, if_true,
      if_false]

/-! ## Runs -/

theorem frameOf_setPageFrame (hflags : flags &&& pageFrame = 0) :
    frameOf (setPageFrame e e' ||| flags) = frameOf e' := by
  have hand : (setPageFrame e e' ||| flags) &&& pageFrame = e' &&& pageFrame := by
    rw [setPageFrame, BitVec.and_or_distrib_right, BitVec.and_or_distrib_right, hflags,
      BitVec.and_assoc, BitVec.and_assoc, BitVec.and_self]
    simp
  rw [frameOf, hand, frameOf]

theorem Linked.mkPresent (h : Linked img s) (i : ℕ) : Linked img (s.mkPresent i) := by
  refine ⟨h.phys_eq, fun j hj hp => ?_⟩
  rw [kheapdir_mkPresent] at hp ⊢
  by_cases hji : j = i
  · rw [hji, update_self, frameOf_setPageFrame (by decide)]
    rfl
  · rw [update_of_ne hji] at hp ⊢
    exact h.frame_eq j hj hp

theorem Linked.takePages {enter : KernelPages → ℕ → KernelPages} {pdoff offset : ℕ}
    (h : Linked img s) (henter : ∀ s i, Linked img s → Linked img (enter s i)) :
    Linked img (takePages enter s n pdoff offset) := by
  induction n generalizing s pdoff offset with
  | zero => exact h
  | succ n ih =>
    rw [Paging.takePages]
    split
    · have hnext := henter s (pdoff + 1) h
      exact ih ⟨hnext.phys_eq, hnext.frame_eq⟩
    · exact ih ⟨h.phys_eq, h.frame_eq⟩

theorem Linked.alloc {addr : ℕ} (h : Linked img s)
    (hrun : pageKernelAlloc4k s n = some (s', addr)) : Linked img s' := by
  rw [pageKernelAlloc4k] at hrun
  split at hrun
  · cases hrun
    exact h.takePages fun _ _ h => h
  · split at hrun
    · cases hrun
      exact (h.mkPresent _).takePages fun _ i h => h.mkPresent i
    · cases hrun

theorem Linked.map {phys : Entry} (h : Linked img s) :
    Linked img (pageKernelMapMemory s v phys n) := by
  induction n generalizing s v phys with
  | zero => exact h
  | succ n ih => exact ih ⟨h.phys_eq, h.frame_eq⟩

theorem Linked.free (h : Linked img s) : Linked img (pageKernelFree4k s v n) := by
  induction n generalizing s v with
  | zero => exact h
  | succ n ih => exact ih ⟨h.phys_eq, h.frame_eq⟩

theorem Linked.run (h : Linked img c.pages) (hrun : Relation.ReflTransGen KernelStep c c') :
    Linked img c'.pages := by
  induction hrun with
  | refl => exact h
  | tail _ hstep ih =>
    cases hstep with
    | alloc _ hcall => exact ih.alloc hcall
    | map => exact ih.map
    | free => exact ih.free

theorem linked_boot (img : Image) : Linked img (boot img).toKernelPages := by
  refine ⟨(boots_boot img).tablesPhys, fun i _ hp => ?_⟩
  rw [(boots_boot img).kheapdir] at hp
  exact absurd hp (by decide)

theorem holds_boot (img : Image) : KernelClient.Holds ⟨(boot img).toKernelPages, []⟩ [] := by
  refine KernelClient.holds_init (fun i _ => ?_) fun i hi j _ => (boots_boot img).kheapTables i hi j
  rw [(boots_boot img).kheapdir]
  decide

/-- The tables one behind the other from 0 on, and nothing else in memory. -/
def firstFrames : Image where
  frame
    | .kpml4 => 0
    | .kpdp => 4096
    | .kpd => 2 * 4096
    | .kheapdir => 3 * 4096
    | .iodir i => (4 + i) * 4096
    | .kheapTable i => 8 * 4096 + i * 4096
  aligned t := by cases t <;> simp; omega
  lt t ht := by cases t <;> simp [Symbol.Valid] at ht ⊢ <;> omega
  tables_eq i := by simp

def firstTables (f j : ℕ) : Entry :=
  let s := boot firstFrames
  if f < 4 then [s.kpml4 j, s.kpdp j, s.kpd j, s.kheapdir j].getD f 0
  else if f < 8 then s.iodirs (f - 4) j
  else s.kheapTables (f - 8) j

def firstMem : Mem := fun a =>
  store (fun _ => 0) (a / 8 * 8) 8 (firstTables (a / 4096) (a % 4096 / 8)).toNat a

theorem loads_firstMem : Loads firstFrames (boot firstFrames) firstMem := by
  have hword : ∀ f, ∀ j < 512, word firstMem (f * 4096) j = firstTables f j := by
    intro f j hj
    have hload : load firstMem (f * 4096 + 8 * j) 8 =
        load (store (fun _ => 0) (f * 4096 + 8 * j) 8 (firstTables f j).toNat)
          (f * 4096 + 8 * j) 8 := by
      refine load_eq_of_bytes fun i hi => ?_
      rw [firstMem, show (f * 4096 + 8 * j + i) / 8 * 8 = f * 4096 + 8 * j by omega,
        show (f * 4096 + 8 * j + i) / 4096 = f by omega,
        show (f * 4096 + 8 * j + i) % 4096 / 8 = j by omega]
    rw [word, hload, load_store_of_lt (firstTables f j).isLt, BitVec.ofNat_toNat,
      BitVec.setWidth_eq]
  refine ⟨hword 0, hword 1, hword 2, fun i hi j hj => ?_, hword 3, fun i _ j hj => ?_⟩
  · rw [show firstFrames.frame (.iodir i) = (4 + i) * 4096 from rfl, hword _ j hj, firstTables,
      if_neg (by omega), if_pos (by omega), Nat.add_sub_cancel_left]
  · rw [show firstFrames.frame (.kheapTable i) = (8 + i) * 4096 from (Nat.add_mul 8 i 4096).symm,
      hword _ j hj, firstTables, if_neg (by omega), if_neg (by omega), Nat.add_sub_cancel_left]

/-- Whatever has been allocated, mapped and freed since `paging_init`: the processor translates
every address as the kernel means it to. -/
theorem kernel_walk (img : Image)
    (hrun : Relation.ReflTransGen KernelStep ⟨(boot img).toKernelPages, []⟩ c)
    (hm : Loads img { boot img with toKernelPages := c.pages } m) (v : ℕ) :
    walk m (img.frame .kpml4) v = kernelMap c.pages v := by
  obtain ⟨rs, hholds⟩ := (holds_boot img).run hrun
  exact walk_eq_kernelMap hm hholds.inv ((linked_boot img).run hrun) v

theorem kernel_walk_low :
    Loads firstFrames (boot firstFrames) firstMem ∧
      walk firstMem 0 0xffffffff80123456 = some 0x123000 :=
  ⟨loads_firstMem, (kernel_walk firstFrames .refl loads_firstMem _).trans (by decide +kernel)⟩

/-- `page_map_mmio` returns an address at which the processor finds the physical one exactly if that
is below 4 GiB. -/
theorem pageMapMmio_walk_iff (img : Image) (hm : Loads img (boot img) m) (p : ℕ)
    (hp : p < 2 ^ 64) :
    walk m (img.frame .kpml4) (Acpi.pageMapMmio p) = some (p / 4096 * 4096) ↔ p < 2 ^ 32 := by
  have hwalk : walk m (img.frame .kpml4) (Acpi.pageMapMmio p) =
      kernelMap (boot img).toKernelPages (Acpi.pageMapMmio p) :=
    walk_eq_kernelMap hm (holds_boot img).inv (linked_boot img) _
  have hempty : ∀ k < 512 * 512, present (page (boot img).toKernelPages k) = false := by
    intro k hk
    rw [page, (boots_boot img).kheapTables _ (by omega)]
    decide
  rw [hwalk, kernelMap, Acpi.pageMapMmio, Acpi.ioVirtualAddr, u64]
  dsimp only
  constructor
  · -- low memory and devices lie below 4 GiB, and the heap has no pages yet
    intro h
    rw [hempty _ (by omega), if_neg Bool.false_ne_true] at h
    split_ifs at h <;> (have hsome := Option.some.inj h; omega)
  · intro hlt
    rw [if_neg (by omega), if_neg (by omega), if_neg (by omega), if_pos (by omega)]
    exact congrArg some (by omega)

/-- The registers of a local APIC. -/
theorem pageMapMmio_walk_apic :
    walk firstMem 0 (Acpi.pageMapMmio 0xfee00020) = some (0xfee00020 / 4096 * 4096) :=
  (pageMapMmio_walk_iff firstFrames loads_firstMem 0xfee00020 (by decide)).mpr (by decide)

end KernelOld.Paging
