import Mathlib.Data.Finset.Card
import KernelOld.Mem.Pmm.Frames

/-!
# The frames available after boot

`init_stivale2` runs `pmm_init`, releases the usable entries of the memory map and reserves the
first sixteen frames. `pmm_init` reserves `BUFFER_SIZE / 8` frames, while the bitmap has
`BUFFER_SIZE * 8`: those in between are free whatever the memory map says.
-/

namespace KernelOld.Pmm
open MachineWord

variable {s : Bitmap} {f : ℕ}

structure MmapEnt where
  base : ℕ
  length : ℕ
  type : ℕ
deriving DecidableEq

def mmapUsable : ℕ := 1

def mmapBootloaderReclaimable : ℕ := 0x1000

/-- The entries that the boot code releases. -/
def MmapEnt.IsRam (ent : MmapEnt) : Prop :=
  ent.type = mmapUsable ∨ ent.type = mmapBootloaderReclaimable

instance (ent : MmapEnt) : Decidable ent.IsRam := inferInstanceAs (Decidable (_ ∨ _))

def memmapLoop (s : Bitmap) : List MmapEnt → Bitmap
  | [] => s
  | ent :: ents =>
    memmapLoop (if ent.IsRam then pmmReleaseM s ent.base (ent.length / pageSize) else s) ents

def initStivale2 (s : Bitmap) (mmap : List MmapEnt) : Bitmap :=
  pmmReserveM (memmapLoop (pmmInit s) mmap) 0 0x10

def requests : ℕ → Bitmap → List ℕ
  | 0, _ => []
  | k + 1, s => (pmmRequest s).2 :: requests k (pmmRequest s).1

/-- A memory map of whole pages that do not overlap and have bits in the bitmap. -/
structure MapOk (mmap : List MmapEnt) : Prop where
  base_aligned : ∀ e ∈ mmap, pageSize ∣ e.base
  length_aligned : ∀ e ∈ mmap, pageSize ∣ e.length
  disjoint : mmap.Pairwise fun e e' => e.base + e.length ≤ e'.base ∨ e'.base + e'.length ≤ e.base
  covered : ∀ e ∈ mmap, e.base + e.length ≤ capacity * pageSize

/-- The frame at `addr` lies in memory that was released. -/
def InRam (mmap : List MmapEnt) (addr : ℕ) : Prop :=
  ∃ e ∈ mmap, e.IsRam ∧ e.base ≤ addr ∧ addr + pageSize ≤ e.base + e.length

/-- Every frame that a request returns after boot lies in such memory. -/
def OnlyRam (s : Bitmap) (mmap : List MmapEnt) : Prop :=
  ∀ k, ∀ addr ∈ requests k (initStivale2 s mmap), addr ≠ 0 → InRam mmap addr

/-! ## The set of used frames after boot -/

variable {e : MmapEnt} {mmap : List MmapEnt}

theorem covers_ent (he : e.base + e.length ≤ capacity * pageSize) :
    Covers e.base (e.length / pageSize) := by
  intro i hi
  have hlen := Nat.div_mul_le_self e.length pageSize
  have hi' : (i + 1) * pageSize ≤ e.length / pageSize * pageSize :=
    Nat.mul_le_mul_right _ hi
  rw [Nat.add_mul] at hi'
  have hpos : 0 < pageSize := by decide
  omega

theorem mem_frames_ent (hb : pageSize ∣ e.base) (hl : pageSize ∣ e.length) :
    f ∈ frames e.base (e.length / pageSize) ↔
      e.base ≤ f * pageSize ∧ f * pageSize + pageSize ≤ e.base + e.length := by
  obtain ⟨b, hb⟩ := hb
  obtain ⟨n, hn⟩ := hl
  simp only [frames, Set.mem_ofPred_eq, hb, hn, pageSize]
  omega

theorem inRam_cons {addr : ℕ} :
    InRam (e :: mmap) addr ↔ (e.IsRam ∧ e.base ≤ addr ∧ addr + pageSize ≤ e.base + e.length) ∨
      InRam mmap addr := by
  simp [InRam]

theorem memmapLoop_spec
    (hmap : ∀ e ∈ mmap, pageSize ∣ e.base ∧ pageSize ∣ e.length ∧
      e.base + e.length ≤ capacity * pageSize) :
    (memmapLoop s mmap).bitmapsize = s.bitmapsize ∧
      ∀ f, f ∈ usedFrames (memmapLoop s mmap) ↔ f ∈ usedFrames s ∧ ¬InRam mmap (f * pageSize) := by
  induction mmap generalizing s with
  | nil => simp [memmapLoop, InRam]
  | cons e mmap ih =>
    obtain ⟨hbase, hlength, hend⟩ := hmap e (by simp)
    have hrest : ∀ e ∈ mmap, pageSize ∣ e.base ∧ pageSize ∣ e.length ∧
        e.base + e.length ≤ capacity * pageSize := fun e he => hmap e (by simp [he])
    rw [memmapLoop]
    by_cases hram : e.IsRam
    · obtain ⟨hsize, hused⟩ := ih (s := pmmReleaseM s e.base (e.length / pageSize)) hrest
      rw [if_pos hram]
      refine ⟨hsize.trans pmmReleaseM_bitmapsize, fun f => ?_⟩
      rw [hused, usedFrames_pmmReleaseM (covers_ent hend), Set.mem_sdiff,
        mem_frames_ent hbase hlength, inRam_cons]
      tauto
    · obtain ⟨hsize, hused⟩ := ih (s := s) hrest
      rw [if_neg hram]
      refine ⟨hsize, fun f => ?_⟩
      rw [hused, inRam_cons]
      tauto

theorem mem_frames_zero {cnt : ℕ} : f ∈ frames 0 cnt ↔ f < cnt := by
  simp [frames]

theorem pmmInit_spec (s : Bitmap) :
    (pmmInit s).bitmapsize = bufferSize ∧
      ∀ f < capacity, f ∈ usedFrames (pmmInit s) ↔ f < bufferSize / 8 := by
  have hcovers : Covers 0 (bufferSize / 8) := by
    intro i hi
    simp only [bufferSize, capacity, pageSize] at hi ⊢
    omega
  refine ⟨pmmReserveM_bitmapsize, fun f hf => ?_⟩
  rw [pmmInit, usedFrames_pmmReserveM hcovers]
  have hclear : f ∉ usedFrames ⟨bufferSize, Stdlib.memset s.mapbuffer 0 0 bufferSize⟩ := by
    have hbyte : f / 8 < 0 + bufferSize := by
      rw [capacity] at hf
      omega
    have hzero := Stdlib.memset_apply_of_mem (m := s.mapbuffer) (c := 0) (Nat.zero_le (f / 8)) hbyte
    simp only [mem_usedFrames, bitmapGet, hzero]
    simp
  rw [Set.mem_union, mem_frames_zero, or_iff_right hclear]

/-- After boot a frame is used if it is one of the first sixteen, or if `pmm_init`
reserved it and no usable entry has released it. -/
theorem initStivale2_spec (hmap : MapOk mmap) :
    (initStivale2 s mmap).bitmapsize = bufferSize ∧
      ∀ f < capacity, f ∈ usedFrames (initStivale2 s mmap) ↔
        f < 16 ∨ f < bufferSize / 8 ∧ ¬InRam mmap (f * pageSize) := by
  obtain ⟨hsize₀, hinit⟩ := pmmInit_spec s
  obtain ⟨hsize₁, hloop⟩ := memmapLoop_spec (s := pmmInit s) fun e he =>
    ⟨hmap.base_aligned e he, hmap.length_aligned e he, hmap.covered e he⟩
  have hcovers : Covers 0 0x10 := by
    intro i hi
    simp only [bufferSize, capacity, pageSize]
    omega
  refine ⟨?_, fun f hf => ?_⟩
  · rw [initStivale2, pmmReserveM_bitmapsize, hsize₁, hsize₀]
  rw [initStivale2, usedFrames_pmmReserveM hcovers, Set.mem_union, hloop, hinit f hf,
    mem_frames_zero, or_comm]

/-! ## What requests return -/

theorem freeFrames_request (hsize : s.bitmapsize = bufferSize) :
    (pmmRequest s).1.bitmapsize = bufferSize ∧
      freeFrames (usedFrames (pmmRequest s).1) ⊆ freeFrames (usedFrames s) := by
  rcases pmmRequest_eq hsize with ⟨f, -, -, heq⟩ | ⟨-, heq⟩
  · rw [heq, usedFrames_set_true]
    exact ⟨hsize, fun g hg => ⟨hg.1, fun hu => hg.2 (Set.mem_insert_of_mem _ hu)⟩⟩
  · rw [heq]
    exact ⟨hsize, subset_rfl⟩

theorem free_of_mem_requests {k addr : ℕ} (hsize : s.bitmapsize = bufferSize)
    (haddr : addr ∈ requests k s) (hne : addr ≠ 0) :
    ∃ f ∈ freeFrames (usedFrames s), addr = f * pageSize := by
  induction k generalizing s with
  | zero => simp [requests] at haddr
  | succ k ih =>
    obtain ⟨hsize', hsub⟩ := freeFrames_request hsize
    rcases List.mem_cons.mp haddr with rfl | hrest
    · rcases pmmRequest_eq hsize with ⟨f, hf, -, heq⟩ | ⟨-, heq⟩
      · exact ⟨f, hf, congrArg Prod.snd heq⟩
      · exact absurd (congrArg Prod.snd heq) hne
    · obtain ⟨f, hf, rfl⟩ := ih hsize' hrest
      exact ⟨f, hsub hf, rfl⟩

theorem card_freeBelow_lt {g : ℕ} (hlt : g < f) (hg : bitmapGet s g = false) :
    ((Finset.range f).filter fun i => bitmapGet (bitmapSet s g true) i = false).card <
      ((Finset.range f).filter fun i => bitmapGet s i = false).card := by
  refine Finset.card_lt_card (Finset.ssubset_iff_of_subset ?_ |>.mpr ⟨g, ?_, ?_⟩)
  · intro i hi
    simp only [Finset.mem_filter, Finset.mem_range, bitmapGet_bitmapSet] at hi ⊢
    by_cases hig : i = g <;> simp_all
  · simpa [hlt] using hg
  · simp [bitmapGet_bitmapSet]

/-- Every free frame is returned in the end. The induction is on the number of free
frames before it, which each request lowers by one. -/
theorem mem_requests_of_free (hsize : s.bitmapsize = bufferSize)
    (hf : f ∈ freeFrames (usedFrames s)) : ∃ k, f * pageSize ∈ requests k s := by
  induction hn : ((Finset.range f).filter fun i => bitmapGet s i = false).card
    using Nat.strong_induction_on generalizing s with
  | _ n ih =>
    rcases pmmRequest_eq hsize with ⟨g, hg, hmin, heq⟩ | ⟨hnone, -⟩
    · by_cases hgf : g = f
      · subst hgf
        exact ⟨1, by simp [requests, heq]⟩
      · have hlt : g < f := by
          have hle : g ≤ f := hmin ▸ Nat.sInf_le hf
          omega
        have hf' : f ∈ freeFrames (usedFrames (bitmapSet s g true)) := by
          rw [usedFrames_set_true]
          refine ⟨hf.1, fun hu => ?_⟩
          rcases hu with hu | hu
          · exact hgf hu.symm
          · exact hf.2 hu
        have hcard := card_freeBelow_lt hlt (mem_freeFrames.mp hg).2
        rw [hn] at hcard
        obtain ⟨k, hk⟩ := ih _ hcard (s := bitmapSet s g true) hsize hf' rfl
        refine ⟨k + 1, ?_⟩
        rw [requests, heq]
        exact List.mem_cons_of_mem _ hk
    · simp [hnone] at hf

/-! ## Which memory maps are safe -/

theorem request_above_reserved (hmap : MapOk mmap) (hlo : bufferSize / 8 ≤ f) (hhi : f < capacity) :
    ∃ k, f * pageSize ∈ requests k (initStivale2 s mmap) := by
  obtain ⟨hsize, hused⟩ := initStivale2_spec (s := s) hmap
  refine mem_requests_of_free hsize ⟨hhi, ?_⟩
  rw [hused f hhi]
  have hsixteen : 16 ≤ bufferSize / 8 := by decide
  omega

theorem onlyRam_iff (hmap : MapOk mmap) :
    OnlyRam s mmap ↔ ∀ f, bufferSize / 8 ≤ f → f < capacity → InRam mmap (f * pageSize) := by
  obtain ⟨hsize, hused⟩ := initStivale2_spec (s := s) hmap
  constructor
  · intro honly f hlo hhi
    obtain ⟨k, hk⟩ := request_above_reserved (s := s) hmap hlo hhi
    have hpos : 0 < bufferSize / 8 * pageSize := by decide
    have hle := Nat.mul_le_mul_right pageSize hlo
    exact honly k _ hk (by omega)
  · intro habove k addr haddr hne
    obtain ⟨f, ⟨hhi, hfree⟩, rfl⟩ := free_of_mem_requests hsize haddr hne
    rw [hused f hhi] at hfree
    by_contra hout
    exact hout (habove f (not_lt.mp fun hlt => hfree (Or.inr ⟨hlt, hout⟩)) hhi)

theorem not_inRam_last (hbelow : ∀ e ∈ mmap, e.base + e.length ≤ 64 * 2 ^ 30) :
    ¬InRam mmap ((capacity - 1) * pageSize) := by
  rintro ⟨e, he, -, -, hend⟩
  have hle := hend.trans (hbelow e he)
  simp only [capacity, bufferSize, pageSize] at hle
  omega

/-- Only RAM is handed out exactly for the memory maps in which every frame above the
reserved ones is RAM; of the maps below 64 GiB this is none. -/
theorem pmm_only_ram_iff {s : Bitmap} {mmap : List MmapEnt} (hmap : MapOk mmap) :
    (OnlyRam s mmap ↔ ∀ f, bufferSize / 8 ≤ f → f < capacity → InRam mmap (f * pageSize)) ∧
      ((∀ e ∈ mmap, e.base + e.length ≤ 64 * 2 ^ 30) → ¬OnlyRam s mmap) := by
  refine ⟨onlyRam_iff hmap, fun hbelow honly => ?_⟩
  exact not_inRam_last hbelow ((onlyRam_iff hmap).mp honly _ (by decide) (by decide))

theorem pmm_only_ram_iff_full_map :
    OnlyRam ⟨0, fun _ => 0⟩ [⟨0, capacity * pageSize, mmapUsable⟩] := by
  have hmap : MapOk [⟨0, capacity * pageSize, mmapUsable⟩] :=
    ⟨by simp, by simp, by simp, by simp⟩
  refine (pmm_only_ram_iff hmap).1.mpr fun f _ hf => ?_
  refine ⟨_, List.mem_singleton_self _, Or.inl rfl, Nat.zero_le _, ?_⟩
  simp only [Nat.zero_add, ← Nat.succ_mul]
  exact Nat.mul_le_mul_right _ hf

/-- On a machine with 512 MiB of memory `pmm_request` comes to return frame 262244,
just above 1 GiB. -/
theorem pmm_request_beyond_memory :
    let mmap : List MmapEnt :=
      [⟨0, 0xa0000, mmapUsable⟩, ⟨0x100000, 0x1ff00000, mmapUsable⟩]
    MapOk mmap ∧ (∀ e ∈ mmap, e.base + e.length ≤ 64 * 2 ^ 30) ∧
      (∃ k, 0x40064000 ∈ requests k (initStivale2 ⟨0, fun _ => 0⟩ mmap)) ∧
        ¬InRam mmap 0x40064000 := by
  have hmap : MapOk [⟨0, 0xa0000, mmapUsable⟩, ⟨0x100000, 0x1ff00000, mmapUsable⟩] := by
    refine ⟨?_, ?_, ?_, ?_⟩ <;> simp [pageSize, capacity, bufferSize]
  refine ⟨hmap, by simp, request_above_reserved (f := 262244) hmap (by decide) (by decide), ?_⟩
  simp [InRam, pageSize]

end KernelOld.Pmm
