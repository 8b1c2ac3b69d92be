import Mathlib.Logic.Function.Basic
import KernelOld.Drivers.Storage.AhciDma
import KernelOld.Lib.CountedLoop

/-!
# Partitions

`gpt_partread` and `gpt_partwrite` of `drivers/storage/partmgr/gpt.c`, over the AHCI driver. The
requests of any number of file systems, in any order, act as if each partition were a disk of its
own, as long as they stay inside; the functions themselves do not look at the end.
-/

namespace KernelOld.Gpt
open ByteMemory MachineWord Trace CountedLoop Function Ahci

structure PartDev where
  startlba : ℕ
  endlba : ℕ

def gptPartread (part : PartDev) (port : Port) (reply : ℕ → Reply) (ptr off size : ℕ) (s : State) :
    Traced Command (ℕ × State) :=
  ahciRead port reply ptr (u64 (off + part.startlba)) (u32 size) s

def gptPartwrite (part : PartDev) (port : Port) (reply : ℕ → Reply) (ptr off size : ℕ)
    (s : State) : Traced Command (ℕ × State) :=
  ahciWrite port reply ptr (u64 (off + part.startlba)) (u32 size) s

/-- The last sector belongs to the partition. -/
def PartDev.sectors (part : PartDev) : ℕ := part.endlba + 1 - part.startlba

def PartDev.Outside (part : PartDev) (x : ℕ) : Prop :=
  x < 512 * part.startlba ∨ 512 * (part.endlba + 1) ≤ x

/-! ## Requests -/

/-- Partitions that do not overlap, on a disk whose sector numbers have 48 bits, as in the LBA of a
command. -/
structure Layout (ι : Type*) where
  part : ι → PartDev
  le : ∀ i, (part i).startlba ≤ (part i).endlba + 1
  le_lba : ∀ i, (part i).endlba + 1 ≤ 2 ^ 48
  separate : ∀ i j, i ≠ j →
    (part i).endlba < (part j).startlba ∨ (part j).endlba < (part i).startlba

/-- A call of the `read` or `write` of a partition. -/
structure Request (ι : Type*) where
  part : ι
  write : Bool
  ptr : ℕ
  off : ℕ
  size : ℕ

variable {ι : Type*}

def Request.exec (port : Port) (parts : Layout ι) (s : State) (r : Request ι × (ℕ → Reply)) :
    Option State :=
  let run := if r.1.write then gptPartwrite else gptPartread
  (run (parts.part r.1.part) port r.2 r.1.ptr r.1.off r.1.size s).result.map Prod.snd

/-- The memory, and a disk for each file system. -/
structure Disks (ι : Type*) where
  vol : ι → Mem
  mem : Mem

def Layout.disks (parts : Layout ι) (s : State) : Disks ι :=
  ⟨fun i x => s.disk (512 * (parts.part i).startlba + x), s.mem⟩

def Request.apply [DecidableEq ι] (a : Disks ι) (r : Request ι) : Disks ι :=
  if r.write then
    let vol := blit (a.vol r.part) (512 * r.off) a.mem r.ptr (512 * r.size)
    { a with vol := update a.vol r.part vol }
  else { a with mem := blit a.mem r.ptr (a.vol r.part) (512 * r.off) (512 * r.size) }

/-- The disk shows each of the disks in its partition, and is unchanged outside of them. -/
structure Shows (parts : Layout ι) (disk : Mem) (s : State) (a : Disks ι) : Prop where
  mem_eq : s.mem = a.mem
  vol_eq : ∀ i, ∀ x < 512 * (parts.part i).sectors,
    s.disk (512 * (parts.part i).startlba + x) = a.vol i x
  rest : ∀ x, (∀ i, (parts.part i).Outside x) → s.disk x = disk x

/-- The request ends in its partition, fits into the page of the port, and meets no error. -/
structure Request.Served (parts : Layout ι) (r : Request ι × (ℕ → Reply)) : Prop where
  inside : r.1.off + r.1.size ≤ (parts.part r.1.part).sectors
  size_le : r.1.size ≤ 8
  ok : ∀ i < r.1.size, (r.2 i).outcome = some true

variable {part : PartDev} {port : Port} {parts : Layout ι} {disk : Mem} {s : State} {a : Disks ι}
  {r : Request ι × (ℕ → Reply)} {reply : ℕ → Reply} {ptr off size : ℕ}

theorem gptPartread_eq_blit (port : Port) (ptr : ℕ) (s : State)
    (hlt : off + part.startlba + size < 2 ^ 64) (hsize : size ≤ 8)
    (hok : ∀ i < size, (reply i).outcome = some true) :
    ∃ s', (gptPartread part port reply ptr off size s).result = some (0, s') ∧ s'.disk = s.disk ∧
      s'.mem = blit s.mem ptr s.disk (512 * (off + part.startlba)) (512 * size) := by
  obtain ⟨s', hrun, hdisk, hfetched⟩ :=
    ahciRead_fetches port reply ptr (off + part.startlba) s hok
  rw [gptPartread, u64_of_lt (by omega), u32_of_lt (by omega)]
  exact ⟨s', hrun, hdisk, hfetched.eq_blit hlt.le⟩

theorem gptPartwrite_eq_blit (port : Port) (ptr : ℕ) (s : State)
    (hlt : off + part.startlba + size < 2 ^ 64) (hsize : size ≤ 8)
    (hok : ∀ i < size, (reply i).outcome = some true) :
    ∃ s', (gptPartwrite part port reply ptr off size s).result = some (0, s') ∧ s'.mem = s.mem ∧
      s'.disk = blit s.disk (512 * (off + part.startlba)) s.mem ptr (512 * size) := by
  obtain ⟨s', hrun, hmem, hstored⟩ :=
    ahciWrite_stores port reply ptr (off + part.startlba) s (hsize.trans (by decide)) hok
  rw [gptPartwrite, u64_of_lt (by omega), u32_of_lt (by omega)]
  exact ⟨s', hrun, hmem, hstored.eq_blit hlt.le⟩

variable [DecidableEq ι]

/-- A step of the driver is one of the disks. -/
theorem Shows.step (port : Port) (h : Shows parts disk s a) (hr : Request.Served parts r) :
    ∃ s', Request.exec port parts s r = some s' ∧ Shows parts disk s' (r.1.apply a) := by
  obtain ⟨⟨i, write, ptr, off, size⟩, reply⟩ := r
  have hin : off + size ≤ (parts.part i).endlba + 1 - (parts.part i).startlba := hr.inside
  have hok : ∀ k < size, (reply k).outcome = some true := hr.ok
  have hle := parts.le i
  have hlt : off + (parts.part i).startlba + size < 2 ^ 64 := by
    have := parts.le_lba i
    omega
  cases write with
  | false =>
    obtain ⟨s', hrun, hdisk, hmem⟩ := gptPartread_eq_blit port ptr s hlt hr.size_le hok
    refine ⟨s', congrArg (Option.map Prod.snd) hrun, ?_, fun j x hx => ?_, fun x hx => ?_⟩
    · rw [hmem, h.mem_eq]
      refine blit_congr fun k hk => ?_
      rw [← h.vol_eq i (512 * off + k) (by rw [PartDev.sectors]; omega)]
      exact congrArg _ (by omega)
    · rw [hdisk]
      exact h.vol_eq j x hx
    · rw [hdisk]
      exact h.rest x hx
  | true =>
    obtain ⟨s', hrun, hmem, hdisk⟩ := gptPartwrite_eq_blit port ptr s hlt hr.size_le hok
    refine ⟨s', congrArg (Option.map Prod.snd) hrun, hmem.trans h.mem_eq, fun j x hx => ?_,
      fun x hx => ?_⟩
    · show s'.disk _ = update a.vol i (blit (a.vol i) (512 * off) a.mem ptr (512 * size)) j x
      by_cases hj : j = i
      · subst hj
        rw [update_self, hdisk, h.mem_eq]
        by_cases hxin : 512 * off ≤ x ∧ x < 512 * off + 512 * size
        · rw [blit_apply_of_mem (by omega) (by omega), blit_apply_of_mem hxin.1 hxin.2]
          exact congrArg _ (by omega)
        · rw [blit_apply_of_notMem (by omega), blit_apply_of_notMem (by omega), h.vol_eq j x hx]
      · have hapart := parts.separate i j (Ne.symm hj)
        rw [PartDev.sectors] at hx
        rw [update_of_ne hj, hdisk, blit_apply_of_notMem (by omega)]
        exact h.vol_eq j x hx
    · have hout := hx i
      rw [PartDev.Outside] at hout
      rw [hdisk, blit_apply_of_notMem (by omega)]
      exact h.rest x hx

/-- Whatever the order in which file systems read and write their partitions, each of them finds
what a disk of its own would hold. -/
theorem partitions_refine (port : Port) (parts : Layout ι) (s : State)
    (rs : List (Request ι × (ℕ → Reply))) (hrs : ∀ r ∈ rs, Request.Served parts r) :
    ∃ s', rs.foldlM (Request.exec port parts) s = some s' ∧
      Shows parts s.disk s' (rs.foldl (fun a r => r.1.apply a) (parts.disks s)) :=
  foldlM_simulates (fun r hr _ _ h => h.step port (hrs r hr))
    ⟨rfl, fun _ _ _ => rfl, fun _ _ => rfl⟩

/-- Two partitions of four sectors. A sector of the first, full of fives, is read and written to the
second, full of sevens. -/
theorem partitions_refine_copy :
    ∃ parts : Layout Bool, ∃ s',
      [(⟨false, false, 0, 1, 1⟩, fun _ => .atOnce true),
        (⟨true, true, 0, 2, 1⟩, fun _ => .atOnce true)].foldlM
        (Request.exec ⟨0x100000, by decide⟩ parts)
        ⟨fun x => if x < 3072 then 5 else 7, fun _ => 0, fun _ => 0⟩ = some s' ∧
      s'.disk (512 * 6 + 512 * 2) = 5 ∧ s'.disk (512 * 6 + 512 * 3) = 7 := by
  let parts : Layout Bool :=
    { part := fun i => if i then ⟨6, 9⟩ else ⟨2, 5⟩
      le := by decide
      le_lba := by decide
      separate := by decide }
  have hok : ∀ i < 1, ((fun _ : ℕ => Reply.atOnce true) i).outcome = some true :=
    fun _ _ => Reply.outcome_atOnce true
  obtain ⟨s', hrun, hshows⟩ := partitions_refine ⟨0x100000, by decide⟩ parts
    ⟨fun x => if x < 3072 then 5 else 7, fun _ => 0, fun _ => 0⟩
    [(⟨false, false, 0, 1, 1⟩, fun _ => .atOnce true),
      (⟨true, true, 0, 2, 1⟩, fun _ => .atOnce true)]
    (List.forall_mem_cons.mpr ⟨⟨by decide, by decide, hok⟩,
      List.forall_mem_singleton.mpr ⟨by decide, by decide, hok⟩⟩)
  refine ⟨parts, s', hrun, ?_, ?_⟩
  · simpa [Request.apply, Layout.disks, blit, parts] using hshows.vol_eq true (512 * 2) (by decide)
  · simpa [Request.apply, Layout.disks, blit, parts] using hshows.vol_eq true (512 * 3) (by decide)

/-! ## The end of a partition -/

/-- Every write of that place and length that meets no error leaves what is outside of the partition
as it is. -/
def WritesInside (part : PartDev) (off size : ℕ) : Prop :=
  ∀ port reply ptr s, (∀ i < size, (reply i).outcome = some true) →
    ∃ s', (gptPartwrite part port reply ptr off size s).result = some (0, s') ∧
      ∀ x, part.Outside x → s'.disk x = s.disk x

/-- `endlba` is never looked at, so the caller has to stay in front of it. The request ends below
the sectors that the LBA of a command cannot name. -/
theorem gptPartwrite_inside_iff (part : PartDev) (off size : ℕ) (hpos : 0 < size) (hsize : size ≤ 8)
    (hle : part.startlba ≤ part.endlba + 1) (hlba : off + part.startlba + size ≤ 2 ^ 48) :
    WritesInside part off size ↔ off + size ≤ part.sectors := by
  have hlt : off + part.startlba + size < 2 ^ 64 := lt_of_le_of_lt hlba (by decide)
  constructor
  · intro h
    by_contra hout
    rw [PartDev.sectors] at hout
    -- the first byte of the last sector, with ones in memory and zeros on the disk
    let s : State := ⟨fun _ => 0, fun _ => 0, fun _ => 1⟩
    have hok : ∀ i < size, ((fun _ : ℕ => Reply.atOnce true) i).outcome = some true :=
      fun _ _ => Reply.outcome_atOnce true
    obtain ⟨s', hrun, hsame⟩ := h ⟨0, by decide⟩ (fun _ => .atOnce true) 0 s hok
    obtain ⟨s'', hrun', -, hdisk⟩ :=
      gptPartwrite_eq_blit ⟨0, by decide⟩ 0 s hlt hsize hok
    have hlast := hsame (512 * (off + part.startlba + size - 1)) (Or.inr (by omega))
    obtain rfl : s' = s'' := congrArg Prod.snd (Option.some.inj (hrun.symm.trans hrun'))
    rw [hdisk, blit_apply_of_mem (by omega) (by omega)] at hlast
    exact absurd (show (1 : UInt8) = 0 from hlast) (by decide)
  · intro hin port reply ptr s hok
    rw [PartDev.sectors] at hin
    obtain ⟨s', hrun, -, hdisk⟩ :=
      gptPartwrite_eq_blit port ptr s hlt hsize hok
    refine ⟨s', hrun, fun x hx => ?_⟩
    rw [PartDev.Outside] at hx
    rw [hdisk, blit_apply_of_notMem (by omega)]

/-- Sector 4 of a partition of four sectors. -/
theorem gptPartwrite_inside_iff_four : ¬WritesInside ⟨2, 5⟩ 4 1 :=
  fun h => absurd ((gptPartwrite_inside_iff ⟨2, 5⟩ 4 1 (by decide) (by decide) (by decide)
    (by decide)).mp h) (by decide)

end KernelOld.Gpt
