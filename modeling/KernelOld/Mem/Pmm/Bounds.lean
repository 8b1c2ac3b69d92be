import KernelOld.Mem.Pmm.Boot

/-!
# Accesses to the frame bitmap

`bitmap_get` and `bitmap_set` index `mapbuffer` with whatever frame number they are given. The
functions of this module are those of `pmm.c` and the boot code once more, in a version that
fails at an access behind the end of the array.
-/

namespace KernelOld.Pmm
open MachineWord Stdlib

/-- A request passes only addresses that it has found in the bitmap itself. -/
def Op.addrs : Op → List ℕ
  | alloc addr | free addr | reserve addr | release addr => [addr]
  | allocM addr cnt | freeM addr cnt | reserveM addr cnt | releaseM addr cnt =>
    (List.range cnt).map fun i => u64 (addr + i * pageSize)
  | request => []

namespace Checked

def bitmapGet (s : Bitmap) (idx : ℕ) : Option Bool :=
  if idx / 8 < bufferSize then some (Pmm.bitmapGet s idx) else none

def bitmapSet (s : Bitmap) (idx : ℕ) (v : Bool) : Option Bitmap :=
  if idx / 8 < bufferSize then some (Pmm.bitmapSet s idx v) else none

def pmmAlloc (s : Bitmap) (addr : ℕ) : Option Bitmap := bitmapSet s (addr / pageSize) true
def pmmFree (s : Bitmap) (addr : ℕ) : Option Bitmap := bitmapSet s (addr / pageSize) false
def pmmReserve (s : Bitmap) (addr : ℕ) : Option Bitmap := bitmapSet s (addr / pageSize) true
def pmmRelease (s : Bitmap) (addr : ℕ) : Option Bitmap := bitmapSet s (addr / pageSize) false

def forEachPage (op : Bitmap → ℕ → Option Bitmap) (s : Bitmap) (addr : ℕ) : ℕ → Option Bitmap
  | 0 => some s
  | cnt + 1 => do
    let s ← forEachPage op s addr cnt
    op s (u64 (addr + cnt * pageSize))

def pmmAllocM (s : Bitmap) (addr cnt : ℕ) : Option Bitmap := forEachPage pmmAlloc s addr cnt
def pmmFreeM (s : Bitmap) (addr cnt : ℕ) : Option Bitmap := forEachPage pmmFree s addr cnt
def pmmReserveM (s : Bitmap) (addr cnt : ℕ) : Option Bitmap := forEachPage pmmReserve s addr cnt
def pmmReleaseM (s : Bitmap) (addr cnt : ℕ) : Option Bitmap := forEachPage pmmRelease s addr cnt

def pmmRequestFrom (s : Bitmap) : ℕ → ℕ → Option (Bitmap × ℕ)
  | 0, _ => some (s, 0)
  | left + 1, i => do
    let used ← bitmapGet s i
    if used then pmmRequestFrom s left (i + 1)
    else
      let s ← pmmAlloc s (u64 (i * pageSize))
      return (s, u64 (i * pageSize))

def pmmRequest (s : Bitmap) : Option (Bitmap × ℕ) :=
  pmmRequestFrom s (u64 (s.bitmapsize * 8)) 0

def pmmInit (s : Bitmap) : Option Bitmap :=
  let s := { s with bitmapsize := bufferSize }
  let s := { s with mapbuffer := memset s.mapbuffer 0 0 s.bitmapsize }
  pmmReserveM s 0 (bufferSize / 8)

def releaseEnt (s : Bitmap) (ent : MmapEnt) : Option Bitmap :=
  if ent.IsRam then pmmReleaseM s ent.base (ent.length / pageSize) else some s

def memmapLoop (s : Bitmap) : List MmapEnt → Option Bitmap
  | [] => some s
  | ent :: ents => do
    let s ← releaseEnt s ent
    memmapLoop s ents

def initStivale2 (s : Bitmap) (mmap : List MmapEnt) : Option Bitmap := do
  let s ← pmmInit s
  let s ← memmapLoop s mmap
  pmmReserveM s 0 0x10

def exec : Op → Bitmap → Option Bitmap
  | .alloc addr, s => pmmAlloc s addr
  | .free addr, s => pmmFree s addr
  | .reserve addr, s => pmmReserve s addr
  | .release addr, s => pmmRelease s addr
  | .allocM addr cnt, s => pmmAllocM s addr cnt
  | .freeM addr cnt, s => pmmFreeM s addr cnt
  | .reserveM addr cnt, s => pmmReserveM s addr cnt
  | .releaseM addr cnt, s => pmmReleaseM s addr cnt
  | .request, s => (pmmRequest s).map Prod.fst

def execAll : List Op → Bitmap → Option Bitmap
  | [], s => some s
  | o :: ops, s => do
    let s ← exec o s
    execAll ops s

def bootAndRun (s : Bitmap) (mmap : List MmapEnt) (ops : List Op) : Option Bitmap := do
  let s ← initStivale2 s mmap
  execAll ops s

end Checked

variable {s s' : Bitmap} {i addr cnt : ℕ} {v : Bool} {mmap : List MmapEnt} {ops : List Op} {o : Op}

/-! ## Single frames and ranges -/

theorem div_lt_bufferSize_iff : i / 8 < bufferSize ↔ i < capacity :=
  Nat.div_lt_iff_lt_mul (by decide)

theorem checked_bitmapSet_eq (s : Bitmap) (i : ℕ) (v : Bool) :
    Checked.bitmapSet s i v = if i < capacity then some (bitmapSet s i v) else none :=
  if_congr div_lt_bufferSize_iff rfl rfl

def HasBit (addr : ℕ) : Prop := addr / pageSize < capacity

instance (addr : ℕ) : Decidable (HasBit addr) := inferInstanceAs (Decidable (_ < _))

def HaveBits (addr cnt : ℕ) : Prop := ∀ i < cnt, HasBit (u64 (addr + i * pageSize))

instance (addr cnt : ℕ) : Decidable (HaveBits addr cnt) :=
  inferInstanceAs (Decidable (∀ i < cnt, HasBit _))

theorem haveBits_succ :
    HaveBits addr (cnt + 1) ↔ HaveBits addr cnt ∧ HasBit (u64 (addr + cnt * pageSize)) :=
  Nat.forall_lt_succ_right

theorem checked_forEachPage_eq {opC : Bitmap → ℕ → Option Bitmap} {op : Bitmap → ℕ → Bitmap}
    (hop : ∀ s addr, opC s addr = if HasBit addr then some (op s addr) else none)
    (s : Bitmap) (addr cnt : ℕ) :
    Checked.forEachPage opC s addr cnt =
      if HaveBits addr cnt then some (forEachPage op s addr cnt) else none := by
  induction cnt with
  | zero => exact (if_pos fun i hi => absurd hi (Nat.not_lt_zero i)).symm
  | succ cnt ih =>
    rw [Checked.forEachPage, ih]
    by_cases hbits : HaveBits addr cnt
    · rw [if_pos hbits]
      refine (hop _ _).trans (if_congr ?_ rfl rfl)
      rw [haveBits_succ, and_iff_right hbits]
    · rw [if_neg hbits, if_neg fun h => hbits (haveBits_succ.mp h).1]
      rfl

theorem checked_pmmReserveM_eq (s : Bitmap) (addr cnt : ℕ) :
    Checked.pmmReserveM s addr cnt =
      if HaveBits addr cnt then some (pmmReserveM s addr cnt) else none :=
  checked_forEachPage_eq (fun s addr => checked_bitmapSet_eq s (addr / pageSize) true) s addr cnt

theorem checked_pmmReleaseM_eq (s : Bitmap) (addr cnt : ℕ) :
    Checked.pmmReleaseM s addr cnt =
      if HaveBits addr cnt then some (pmmReleaseM s addr cnt) else none :=
  checked_forEachPage_eq (fun s addr => checked_bitmapSet_eq s (addr / pageSize) false) s addr cnt

/-! ## Requests -/

theorem u64_mul_pageSize (hi : i < capacity) : u64 (i * pageSize) = i * pageSize := by
  refine u64_of_lt (lt_trans (Nat.mul_lt_mul_of_pos_right hi (by decide)) ?_)
  decide

theorem checked_pmmRequestFrom_eq {left : ℕ} (hleft : i + left ≤ capacity) :
    Checked.pmmRequestFrom s left i = some (pmmRequestFrom s left i) := by
  induction left generalizing i with
  | zero => rfl
  | succ left ih =>
    have hi : i < capacity := by omega
    have hget : Checked.bitmapGet s i = some (bitmapGet s i) :=
      if_pos (div_lt_bufferSize_iff.mpr hi)
    have halloc : Checked.pmmAlloc s (u64 (i * pageSize)) =
        some (pmmAlloc s (u64 (i * pageSize))) := by
      refine (checked_bitmapSet_eq s _ true).trans (if_pos ?_)
      rw [u64_mul_pageSize hi, Nat.mul_div_cancel _ (by decide)]
      exact hi
    rw [Checked.pmmRequestFrom, pmmRequestFrom, hget, halloc]
    by_cases hused : bitmapGet s i = true
    · rw [if_pos hused]
      simp only [Option.bind_eq_bind, Option.bind_some, if_pos hused]
      exact ih (by omega)
    · rw [if_neg hused]
      simp only [Option.bind_eq_bind, Option.bind_some, if_neg hused]
      rfl

theorem checked_pmmRequest_eq (hsize : s.bitmapsize = bufferSize) :
    Checked.pmmRequest s = some (pmmRequest s) := by
  rw [Checked.pmmRequest, pmmRequest, request_bound hsize]
  exact checked_pmmRequestFrom_eq (Nat.zero_add capacity).le

/-! ## Boot -/

def MmapEnt.Fits (e : MmapEnt) : Prop := e.IsRam → HaveBits e.base (e.length / pageSize)

theorem checked_pmmInit_eq (s : Bitmap) : Checked.pmmInit s = some (pmmInit s) := by
  refine (checked_pmmReserveM_eq _ _ _).trans (if_pos fun i hi => ?_)
  have hcap : i < capacity := hi.trans (by decide)
  rw [HasBit, Nat.zero_add, u64_mul_pageSize hcap, Nat.mul_div_cancel _ (by decide)]
  exact hcap

theorem haveBits_smp : HaveBits 0 0x10 := by
  decide

theorem checked_memmapLoop_eq (hfits : ∀ e ∈ mmap, e.Fits) :
    Checked.memmapLoop s mmap = some (memmapLoop s mmap) := by
  induction mmap generalizing s with
  | nil => rfl
  | cons e mmap ih =>
    obtain ⟨hfit, hrest⟩ := List.forall_mem_cons.mp hfits
    rw [Checked.memmapLoop, Checked.releaseEnt, memmapLoop]
    by_cases hram : e.IsRam
    · rw [if_pos hram, if_pos hram, checked_pmmReleaseM_eq, if_pos (hfit hram)]
      exact ih hrest
    · rw [if_neg hram, if_neg hram]
      exact ih hrest

theorem fits_of_memmapLoop (hloop : Checked.memmapLoop s mmap = some s') :
    ∀ e ∈ mmap, e.Fits := by
  induction mmap generalizing s with
  | nil => exact fun e he => absurd he List.not_mem_nil
  | cons e mmap ih =>
    rw [Checked.memmapLoop] at hloop
    obtain ⟨s₁, hent, hrest⟩ := Option.bind_eq_some_iff.mp hloop
    refine List.forall_mem_cons.mpr ⟨fun hram => ?_, ih hrest⟩
    rw [Checked.releaseEnt, if_pos hram, checked_pmmReleaseM_eq] at hent
    by_contra hbits
    rw [if_neg hbits] at hent
    cases hent

theorem checked_initStivale2_eq (hfits : ∀ e ∈ mmap, e.Fits) :
    Checked.initStivale2 s mmap = some (initStivale2 s mmap) := by
  rw [Checked.initStivale2, checked_pmmInit_eq]
  simp only [Option.bind_eq_bind, Option.bind_some, checked_memmapLoop_eq hfits]
  exact (checked_pmmReserveM_eq _ _ _).trans (if_pos haveBits_smp)

theorem fits_of_initStivale2 (hboot : Checked.initStivale2 s mmap = some s') :
    ∀ e ∈ mmap, e.Fits := by
  rw [Checked.initStivale2, checked_pmmInit_eq] at hboot
  simp only [Option.bind_eq_bind, Option.bind_some] at hboot
  obtain ⟨s₁, hloop, -⟩ := Option.bind_eq_some_iff.mp hboot
  exact fits_of_memmapLoop hloop

theorem memmapLoop_bitmapsize : (memmapLoop s mmap).bitmapsize = s.bitmapsize := by
  induction mmap generalizing s with
  | nil => rfl
  | cons e mmap ih =>
    rw [memmapLoop, ih]
    split
    · exact pmmReleaseM_bitmapsize
    · rfl

theorem initStivale2_bitmapsize (s : Bitmap) (mmap : List MmapEnt) :
    (initStivale2 s mmap).bitmapsize = bufferSize := by
  rw [initStivale2, pmmReserveM_bitmapsize, memmapLoop_bitmapsize]
  exact (pmmInit_spec s).1

/-! ## Calls -/

theorem haveBits_iff : HaveBits addr cnt ↔
    ∀ a ∈ (List.range cnt).map fun i => u64 (addr + i * pageSize), HasBit a := by
  simp [HaveBits]

theorem checked_exec_eq (hsize : s.bitmapsize = bufferSize) :
    ((∀ a ∈ o.addrs, HasBit a) → Checked.exec o s = some (o.exec s).1) ∧
      ((¬∀ a ∈ o.addrs, HasBit a) → Checked.exec o s = none) := by
  cases o with
  | alloc addr | free addr | reserve addr | release addr =>
    simp only [Op.addrs, List.forall_mem_singleton]
    exact ⟨fun h => (checked_bitmapSet_eq ..).trans (if_pos h),
      fun h => (checked_bitmapSet_eq ..).trans (if_neg h)⟩
  | allocM addr cnt | reserveM addr cnt =>
    simp only [Op.addrs, ← haveBits_iff]
    have heq := checked_pmmReserveM_eq s addr cnt
    exact ⟨fun h => heq.trans (if_pos h), fun h => heq.trans (if_neg h)⟩
  | freeM addr cnt | releaseM addr cnt =>
    simp only [Op.addrs, ← haveBits_iff]
    have heq := checked_pmmReleaseM_eq s addr cnt
    exact ⟨fun h => heq.trans (if_pos h), fun h => heq.trans (if_neg h)⟩
  | request =>
    refine ⟨fun _ => ?_, fun h => absurd (fun a ha => absurd ha List.not_mem_nil) h⟩
    rw [Checked.exec, checked_pmmRequest_eq hsize]
    rfl

theorem checked_execAll_eq (hsize : s.bitmapsize = bufferSize)
    (hops : ∀ o ∈ ops, ∀ a ∈ o.addrs, HasBit a) :
    Checked.execAll ops s = some (execAll ops s).1 := by
  induction ops generalizing s with
  | nil => rfl
  | cons o ops ih =>
    obtain ⟨ho, hops⟩ := List.forall_mem_cons.mp hops
    rw [Checked.execAll, (checked_exec_eq hsize).1 ho]
    exact ih (o.exec_bitmapsize hsize) hops

theorem hasBit_of_execAll (hsize : s.bitmapsize = bufferSize)
    (hrun : Checked.execAll ops s = some s') : ∀ o ∈ ops, ∀ a ∈ o.addrs, HasBit a := by
  induction ops generalizing s with
  | nil => exact fun o ho => absurd ho List.not_mem_nil
  | cons o ops ih =>
    obtain ⟨s₁, hexec, hrest⟩ := Option.bind_eq_some_iff.mp hrun
    have ho : ∀ a ∈ o.addrs, HasBit a := by
      by_contra hout
      rw [(checked_exec_eq hsize).2 hout] at hexec
      cases hexec
    rw [(checked_exec_eq hsize).1 ho] at hexec
    obtain rfl := Option.some.inj hexec
    exact List.forall_mem_cons.mpr ⟨ho, ih (o.exec_bitmapsize hsize) hrest⟩

/-! ## Which memory maps are safe -/

theorem MmapEnt.fits_iff {e : MmapEnt} (he : e.base + e.length < 2 ^ 52) :
    e.Fits ↔ (e.IsRam → pageSize ≤ e.length →
      e.base / pageSize + e.length / pageSize ≤ capacity) := by
  refine imp_congr_right fun _ => ?_
  have hframe : ∀ i < e.length / pageSize,
      u64 (e.base + i * pageSize) / pageSize = e.base / pageSize + i := by
    intro i hi
    have hlt : i * pageSize < e.length := by
      rw [Nat.lt_div_iff_mul_lt (by decide)] at hi
      omega
    rw [u64_of_lt (by omega), Nat.add_mul_div_right _ _ (by decide)]
  constructor
  · intro hbits hlen
    have hpos : 0 < e.length / pageSize := Nat.div_pos hlen (by decide)
    have hlast := hbits (e.length / pageSize - 1) (by omega)
    rw [HasBit, hframe _ (by omega)] at hlast
    omega
  · intro hend i hi
    have hlen : pageSize ≤ e.length := by
      by_contra hshort
      rw [Nat.div_eq_of_lt (Nat.lt_of_not_le hshort)] at hi
      exact Nat.not_lt_zero i hi
    have hle := hend hlen
    rw [HasBit, hframe i hi]
    omega

/-- Boot and later calls stay in `mapbuffer` exactly when the whole pages of every usable
entry end within the bitmap, and so do the addresses passed to later calls. The kernel itself
calls only `pmm_request` after boot, which passes none. -/
theorem pmm_accesses_in_range_iff (s : Bitmap) (hmap : ∀ e ∈ mmap, e.base + e.length < 2 ^ 52)
    (ops : List Op) :
    ((Checked.bootAndRun s mmap ops).isSome ↔
      (∀ e ∈ mmap, e.IsRam → pageSize ≤ e.length →
        e.base / pageSize + e.length / pageSize ≤ capacity) ∧
      ∀ o ∈ ops, ∀ addr ∈ o.addrs, addr / pageSize < capacity) ∧
    ∀ s', Checked.bootAndRun s mmap ops = some s' →
      s' = (execAll ops (initStivale2 s mmap)).1 := by
  have hfits : (∀ e ∈ mmap, e.Fits) ↔ ∀ e ∈ mmap, e.IsRam → pageSize ≤ e.length →
      e.base / pageSize + e.length / pageSize ≤ capacity :=
    forall₂_congr fun e he => e.fits_iff (hmap e he)
  have hsize : (initStivale2 s mmap).bitmapsize = bufferSize := initStivale2_bitmapsize s mmap
  have hruns : ∀ s', Checked.bootAndRun s mmap ops = some s' →
      (∀ e ∈ mmap, e.Fits) ∧ ∀ o ∈ ops, ∀ a ∈ o.addrs, HasBit a := by
    intro s' hrun
    rw [Checked.bootAndRun] at hrun
    obtain ⟨s₁, hboot, hcalls⟩ := Option.bind_eq_some_iff.mp hrun
    have hfit := fits_of_initStivale2 hboot
    rw [checked_initStivale2_eq hfit] at hboot
    obtain rfl := Option.some.inj hboot
    exact ⟨hfit, hasBit_of_execAll hsize hcalls⟩
  have hdefined : (∀ e ∈ mmap, e.Fits) → (∀ o ∈ ops, ∀ a ∈ o.addrs, HasBit a) →
      Checked.bootAndRun s mmap ops = some (execAll ops (initStivale2 s mmap)).1 := by
    intro hfit hops
    rw [Checked.bootAndRun, checked_initStivale2_eq hfit]
    exact checked_execAll_eq hsize hops
  rw [← hfits]
  refine ⟨⟨fun hsome => ?_, fun ⟨hfit, hops⟩ => ?_⟩, fun s' hrun => ?_⟩
  · obtain ⟨s', hrun⟩ := Option.isSome_iff_exists.mp hsome
    exact hruns s' hrun
  · rw [hdefined hfit hops]
    rfl
  · obtain ⟨hfit, hops⟩ := hruns s' hrun
    exact Option.some.inj (hrun.symm.trans (hdefined hfit hops))

/-- On a machine with 32 GiB. -/
theorem pmm_accesses_in_range_iff_small_machine :
    (Checked.bootAndRun ⟨0, fun _ => 0⟩
      [⟨0, 0xa0000, mmapUsable⟩, ⟨0x100000, 0x7fff00000, mmapUsable⟩]
      [.request, .request]).isSome :=
  ((pmm_accesses_in_range_iff _ (by decide) _).1).mpr ⟨by decide, by decide⟩

/-- On a machine with 80 GiB the boot code leaves the array, whatever is in it. -/
theorem pmm_boot_leaves_buffer :
    let mmap : List MmapEnt :=
      [⟨0, 0xa0000, mmapUsable⟩, ⟨0x100000000, 0x1300000000, mmapUsable⟩]
    (∀ e ∈ mmap, e.base + e.length < 2 ^ 52) ∧ ∀ s, Checked.initStivale2 s mmap = none := by
  refine ⟨by decide, fun s => ?_⟩
  rw [Option.eq_none_iff_forall_ne_some]
  intro s' hboot
  have hfit := fits_of_initStivale2 hboot
    ⟨0x100000000, 0x1300000000, mmapUsable⟩ (by simp)
  rw [MmapEnt.fits_iff (by decide)] at hfit
  exact absurd (hfit (Or.inl rfl) (by decide)) (by decide)

end KernelOld.Pmm
