import Mathlib.Order.Nat
import KernelOld.Mem.Space.RegionWalk

/-!
# Sizes that `space_alloc_region` should refuse

`sys_mmap` passes on the length that a user asks for. The sums in the loop of `space_alloc_region`
wrap, and the test against the start of the kernel is made only when the range goes to the end of
the list.
-/

namespace KernelOld.Space
open LinkedList MachineWord

variable {list list' : ListT Region} {as : List ℕ} {rs : List Region} {c r : Region}
  {back new size base i : ℕ}

/-- The range lies below the kernel and apart from all regions. -/
structure Usable (rs : List Region) (size base : ℕ) : Prop where
  no_wrap : base + size < 2 ^ 64
  below : base + size ≤ kernelVirtualAddr
  apart : ∀ r ∈ rs, Region.Apart ⟨base, base + size⟩ r

theorem exists_firstFit (rs : List Region) (size : ℕ) : ∃ b, FirstFit rs size b := by
  -- behind all regions there is room
  have hroom : ∃ b, ∀ r ∈ rs, r.stop ≤ b := by
    induction rs with
    | nil => exact ⟨0, by simp⟩
    | cons r rs ih =>
      obtain ⟨b, hb⟩ := ih
      refine ⟨max r.stop b, List.forall_mem_cons.mpr ⟨le_max_left _ _, fun r' hr' => ?_⟩⟩
      exact (hb r' hr').trans (le_max_right _ _)
  obtain ⟨b, hb⟩ := hroom
  have hsome : ∃ b, 4096 ≤ b ∧ ∀ r ∈ rs, Region.Apart ⟨b, b + size⟩ r :=
    ⟨max 4096 b, le_max_left _ _, fun r hr => Or.inr ((hb r hr).trans (le_max_right _ _))⟩
  exact ⟨Nat.find hsome, Nat.isLeast_find hsome⟩

/-- The three tests leave the candidate where it is, or move it behind a region that it does not
lie above. -/
theorem skip_cases (size : ℕ) (hr : r.Proper) :
    skip size r c = c ∨
      skip size r c = ⟨r.stop, u64 (r.stop + size)⟩ ∧ (c.base ≤ r.stop ∨ c.stop ≤ r.stop) := by
  have hlt : r.base < r.stop := hr
  rw [skip]
  split_ifs
  all_goals first | exact Or.inl rfl | exact Or.inr ⟨rfl, by omega⟩

/-- The candidate stays above the first page: it moves behind regions that are not below it. A sum
that has wrapped is smaller than the next region, and ends the loop. -/
theorem place_base_le (hrs : Ordered rs) (hlow : 4096 ≤ c.base)
    (hstop : c.base ≤ c.stop ∨ ∀ r ∈ rs, c.base ≤ r.base) :
    4096 ≤ (place (skip size) i c rs).2.base := by
  induction rs generalizing i c with
  | nil => exact hlow
  | cons r rs ih =>
    have hproper : r.base < r.stop := hrs.proper r List.mem_cons_self
    obtain ⟨hfirst, hpairwise⟩ := List.pairwise_cons.mp hrs.pairwise
    have htail : Ordered rs := ⟨fun x hx => hrs.proper x (List.mem_cons_of_mem r hx), hpairwise⟩
    rw [place]
    by_cases hbefore : c.stop ≤ r.base
    · rw [if_pos hbefore]
      exact hlow
    · rw [if_neg hbefore]
      obtain hstay | ⟨hmove, hle'⟩ := skip_cases (c := c) size (hrs.proper r List.mem_cons_self)
      · rw [hstay]
        exact ih htail hlow (hstop.imp_right fun h x hx => h x (List.mem_cons_of_mem r hx))
      · rw [hmove]
        refine ih htail ?_ (Or.inr hfirst)
        obtain hle | hle := hstop
        · show 4096 ≤ r.stop
          omega
        · exact hlow.trans ((hle r List.mem_cons_self).trans hproper.le)

/-- What is returned, unless it is null, is the base of the last candidate. -/
theorem spaceAllocRegion_base (hvalues : listValues list = some rs)
    (hcall : spaceAllocRegion size list back new = some (list', base)) (hbase : base ≠ 0) :
    base = (place (skip size) 0 ⟨4096, u64 (4096 + size)⟩ rs).2.base := by
  rw [spaceAllocRegion, hvalues] at hcall
  simp only [Option.bind_eq_bind, Option.bind_some] at hcall
  split at hcall
  · cases hcall
    exact absurd rfl hbase
  · obtain ⟨l, -, heq⟩ := Option.map_eq_some_iff.mp hcall
    exact (Prod.mk.inj heq).2.symm

/-- A range that `space_alloc_region` returns is usable if and only if the lowest free range of
that size ends below the kernel. -/
theorem spaceAllocRegion_usable_iff (hholds : Holds list as rs) (hsmall : as.length < 2 ^ 32)
    (hproper : ∀ r ∈ rs, r.Proper) (hsorted : rs.Pairwise fun r r' => r.base ≤ r'.base)
    (hapart : rs.Pairwise Region.Apart)
    (hcall : spaceAllocRegion size list back new = some (list', base)) (hbase : base ≠ 0) :
    ∃ b, FirstFit rs size b ∧ (Usable rs size base ↔ b + size ≤ kernelVirtualAddr) := by
  have hordered : Ordered rs := ordered_of_sorted hproper hsorted hapart
  have hvalues : listValues list = some rs := hholds.listValues_eq (hsmall.trans (by decide))
  have hlast := spaceAllocRegion_base hvalues hcall hbase
  obtain ⟨b, hfit⟩ := exists_firstFit rs size
  refine ⟨b, hfit, fun husable => ?_, fun hbelow => ?_⟩
  · have hbelow := husable.below
    have hlow : 4096 ≤ base := by
      rw [hlast]
      refine place_base_le hordered (Nat.le_refl 4096) (Or.inl ?_)
      show 4096 ≤ u64 (4096 + size)
      rw [kernelVirtualAddr] at hbelow
      rw [u64_of_lt (by omega)]
      exact Nat.le_add_right 4096 size
    calc b + size ≤ base + size := Nat.add_le_add_right (hfit.2 ⟨hlow, husable.apart⟩) size
      _ ≤ kernelVirtualAddr := hbelow
  · have hlow : 4096 ≤ b := hfit.1.1
    have hwrap : b + size < 2 ^ 64 := by
      rw [kernelVirtualAddr] at hbelow
      omega
    have hlen : 0 + rs.length < 2 ^ 32 := by
      rw [Nat.zero_add, ← hholds.length_eq]
      exact hsmall
    obtain ⟨rs₁, rs₂, -, hplace, -, -⟩ := place_firstFit hordered hlen hfit hwrap
    rw [u64_of_lt (by omega), hplace] at hlast
    rw [hlast]
    exact ⟨hwrap, hbelow, hfit.1.2⟩

/-- One page in the gap between two regions. -/
theorem spaceAllocRegion_usable_iff_gap :
    ∃ list', spaceAllocRegion 0x1000 gapList 0x30 0x40 = some (list', 0x2000) ∧
      Usable [⟨0x1000, 0x2000⟩, ⟨0x5000, 0x6000⟩] 0x1000 0x2000 := by
  have hcall : (spaceAllocRegion 0x1000 gapList 0x30 0x40).map Prod.snd = some 0x2000 := by
    rw [spaceAllocRegion, holds_gapList.listValues_eq (by decide)]
    decide +kernel
  obtain ⟨⟨list', base⟩, hcall, rfl⟩ := Option.map_eq_some_iff.mp hcall
  obtain ⟨b, hfit, hiff⟩ := spaceAllocRegion_usable_iff holds_gapList (by decide)
    (by simp [Region.Proper]) (by decide) (by decide) hcall (by decide)
  obtain rfl : b = 0x2000 := hfit.unique firstFit_gap
  exact ⟨list', hcall, hiff.mpr (by decide)⟩

/-- With `2 ^ 64 - 0x1000` bytes the end of the first candidate is zero, and in an empty space it
passes for one below the kernel. In front of a region above that address no test is made. -/
theorem spaceAllocRegion_unusable :
    (∃ list', spaceAllocRegion (2 ^ 64 - 0x1000) listCreate 0x30 0x40 = some (list', 0x1000) ∧
      ¬Usable [] (2 ^ 64 - 0x1000) 0x1000) ∧
    ∃ list list', Holds list [0x10] [⟨0xffffffff90000000, 0xffffffff90001000⟩] ∧
      spaceAllocRegion 0xffffffff88000000 list 0x30 0x40 = some (list', 0x1000) ∧
      ¬Usable [⟨0xffffffff90000000, 0xffffffff90001000⟩] 0xffffffff88000000 0x1000 := by
  have hkernel : Holds (listPushBack listCreate
      (⟨0xffffffff90000000, 0xffffffff90001000⟩ : Region) 0x10) [0x10] _ :=
    holds_listCreate.listPushBack (by decide) (by decide)
  constructor
  · refine ⟨listPushBack listCreate ⟨0x1000, 0⟩ 0x30, ?_, fun h => absurd h.no_wrap (by decide)⟩
    rw [spaceAllocRegion, holds_listCreate.listValues_eq (by decide)]
    rfl
  · have hcall : (spaceAllocRegion 0xffffffff88000000 (listPushBack listCreate
        (⟨0xffffffff90000000, 0xffffffff90001000⟩ : Region) 0x10) 0x30 0x40).map Prod.snd =
          some 0x1000 := by
      rw [spaceAllocRegion, hkernel.listValues_eq (by decide)]
      rfl
    obtain ⟨⟨list', base⟩, hcall, rfl⟩ := Option.map_eq_some_iff.mp hcall
    exact ⟨_, list', hkernel, hcall, fun h => absurd h.below (by decide)⟩

end KernelOld.Space
