import Mathlib.Order.Bounds.Basic
import KernelOld.Mem.Space.Regions

/-!
# Region lists with repetitions

`list_insert` does not count its node, so that a later call can find its index equal to `cnt` and
enter its region twice. Every repetition comes after the region it repeats, and the walks have
passed that one by then. A walk that stops too far behind the counter goes through a null pointer;
that is `none`.
-/

namespace KernelOld.Space
open LinkedList MachineWord List

/-- After the regions `seen`, each region of the list repeats an earlier one or is not below
any earlier one. -/
def Walkable : List Region → List Region → Prop
  | _, [] => True
  | seen, x :: rs => (∀ y ∈ rs, y ∈ seen ∨ x.base ≤ y.base) ∧ Walkable (x :: seen) rs

variable {rs l r seen seen' : List Region} {c x : Region}

theorem Walkable.mono (h : Walkable seen rs) (hsub : seen ⊆ seen') : Walkable seen' rs := by
  induction rs generalizing seen seen' with
  | nil => trivial
  | cons x rs ih =>
    refine ⟨fun y hy => (h.1 y hy).imp_left fun hmem => hsub hmem, ih h.2 ?_⟩
    exact cons_subset_cons x hsub

/-- Behind the place `x`, a region repeats an earlier one or is not below `x`. -/
theorem Walkable.after (h : Walkable seen (l ++ x :: r)) {y : Region} (hy : y ∈ r) :
    y ∈ seen ∨ y ∈ l ∨ x.base ≤ y.base := by
  induction l generalizing seen with
  | nil => exact (h.1 y hy).imp_right Or.inr
  | cons a l ih =>
    obtain hseen | hl | hle := ih h.2
    · obtain rfl | hseen := mem_cons.mp hseen
      · exact Or.inr (Or.inl mem_cons_self)
      · exact Or.inl hseen
    · exact Or.inr (Or.inl (mem_cons_of_mem a hl))
    · exact Or.inr (Or.inr hle)

theorem Walkable.insert (h : Walkable seen (l ++ r)) (hbelow : ∀ y ∈ l, y.base ≤ c.base)
    (habove : ∀ y ∈ r.head?, c.base ≤ y.base) : Walkable seen (l ++ c :: r) := by
  induction l generalizing seen with
  | nil =>
    refine ⟨fun y hy => ?_, Walkable.mono h (subset_cons_self c seen)⟩
    cases r with
    | nil => exact absurd hy not_mem_nil
    | cons x r =>
      have hx : c.base ≤ x.base := habove x rfl
      obtain rfl | hy := mem_cons.mp hy
      · exact Or.inr hx
      · exact (h.1 y hy).imp_right hx.trans
  | cons a l ih =>
    refine ⟨fun y (hy : y ∈ l ++ c :: r) => ?_, ih h.2 fun y hy => hbelow y (.tail a hy)⟩
    rw [mem_append, mem_cons, or_left_comm, ← mem_append] at hy
    obtain rfl | hy := hy
    · exact Or.inr (hbelow a mem_cons_self)
    · exact h.1 y hy

theorem Walkable.append_seen (h : Walkable seen rs) (hc : c ∈ seen) :
    Walkable seen (rs ++ [c]) := by
  induction rs generalizing seen with
  | nil => exact ⟨by simp, trivial⟩
  | cons x rs ih =>
    refine ⟨fun y hy => ?_, ih h.2 (mem_cons_of_mem x hc)⟩
    obtain hy | hy := mem_append.mp hy
    · exact h.1 y hy
    · rw [mem_singleton.mp hy]
      exact Or.inl hc

theorem Walkable.repeated (h : Walkable seen (l ++ c :: r)) (hbelow : ∀ y ∈ l, y.base ≤ c.base) :
    Walkable seen (l ++ c :: (r ++ [c])) := by
  induction l generalizing seen with
  | nil =>
    refine ⟨fun y hy => ?_, h.2.append_seen mem_cons_self⟩
    obtain hy | hy := mem_append.mp hy
    · exact h.1 y hy
    · rw [mem_singleton.mp hy]
      exact Or.inr (Nat.le_refl _)
  | cons a l ih =>
    refine ⟨fun y hy => ?_, ih h.2 fun y hy => hbelow y (mem_cons_of_mem a hy)⟩
    have hy : y ∈ l ++ c :: r ∨ y = c := by
      simpa [or_assoc, or_comm, or_left_comm] using hy
    obtain hy | rfl := hy
    · exact h.1 y hy
    · exact Or.inr (hbelow a mem_cons_self)

structure Reserved (l : ListT Region) (as : List ℕ) (rs : List Region) : Prop where
  holds : Holds l as rs
  walkable : Walkable [] rs
  proper : ∀ r ∈ rs, r.base ≤ r.stop
  cnt_le : l.cnt ≤ as.length

structure Gained (l' : ListT Region) (as : List ℕ) (rs : List Region) (c : Region)
    (as' : List ℕ) (rs' : List Region) : Prop extends Reserved l' as' rs' where
  mem_iff : ∀ r, r ∈ rs' ↔ r = c ∨ r ∈ rs
  length_le : as'.length ≤ as.length + 2

variable {list list' : ListT Region} {as : List ℕ} {rs₁ rs₂ : List Region} {back new size : ℕ}

theorem reserved_listCreate : Reserved listCreate [] [] where
  holds := holds_listCreate
  walkable := trivial
  proper := by simp
  cnt_le := Nat.le_refl 0

structure Between (rs₁ rs₂ : List Region) (c : Region) : Prop where
  proper : c.base ≤ c.stop
  below : ∀ y ∈ rs₁, y.stop ≤ c.base
  above : ∀ y ∈ rs₂.head?, c.stop ≤ y.base

theorem Reserved.base_le (h : Reserved list as (rs₁ ++ rs₂)) (hc : Between rs₁ rs₂ c) :
    ∀ y ∈ rs₁, y.base ≤ c.base := fun y hy =>
  (h.proper y (mem_append_left _ hy)).trans (hc.below y hy)

theorem Reserved.insert_walkable (h : Reserved list as (rs₁ ++ rs₂)) (hc : Between rs₁ rs₂ c) :
    Walkable [] (rs₁ ++ c :: rs₂) :=
  h.walkable.insert (h.base_le hc) fun y hy => hc.proper.trans (hc.above y hy)

theorem mem_insert_iff (y : Region) : y ∈ rs₁ ++ c :: rs₂ ↔ y = c ∨ y ∈ rs₁ ++ rs₂ := by
  rw [mem_append, mem_cons, or_left_comm, ← mem_append]

theorem mem_insert_twice_iff (y : Region) :
    y ∈ rs₁ ++ c :: (rs₂ ++ [c]) ↔ y = c ∨ y ∈ rs₁ ++ rs₂ := by
  rw [mem_insert_iff, ← append_assoc, mem_append, mem_singleton, or_left_comm,
    or_self, or_comm]

theorem Reserved.proper_of_mem_iff {rs' : List Region} (h : Reserved list as rs)
    (hc : c.base ≤ c.stop) (hmem : ∀ y, y ∈ rs' ↔ y = c ∨ y ∈ rs) :
    ∀ y ∈ rs', y.base ≤ y.stop := by
  intro y hy
  obtain rfl | hy := (hmem y).mp hy
  · exact hc
  · exact h.proper y hy

theorem Reserved.pushBack (h : Reserved list as (rs₁ ++ [])) (hnew : NewNodes as back new)
    (hroom : as.length + 2 < 2 ^ 32) (hc : Between rs₁ [] c) :
    Gained (listPushBack list c back) as (rs₁ ++ []) c (as ++ [back]) (rs₁ ++ [c]) := by
  have hholds := h.holds
  have hcnt := h.cnt_le
  rw [append_nil] at hholds
  refine ⟨⟨hholds.listPushBack hnew.back_ne hnew.back_notMem, h.insert_walkable hc,
    h.proper_of_mem_iff hc.proper mem_insert_iff, ?_⟩, mem_insert_iff, ?_⟩
  · rw [listPushBack_cnt, u32_of_lt (by omega), length_append]
    exact Nat.succ_le_succ hcnt
  · simp

section
variable {as₁ as₂ : List ℕ} {a : ℕ}

theorem Reserved.insert_counted (h : Reserved list (as₁ ++ a :: as₂) (rs₁ ++ rs₂))
    (hnew : NewNodes (as₁ ++ a :: as₂) back new)
    (hroom : (as₁ ++ a :: as₂).length + 2 < 2 ^ 32) (hc : Between rs₁ rs₂ c)
    (hlen : rs₁.length = as₁.length) (hlt : as₁.length < list.cnt)
    (hinsert : listInsert list c as₁.length back new = some list') :
    Gained list' (as₁ ++ a :: as₂) (rs₁ ++ rs₂) c (as₁ ++ new :: a :: as₂) (rs₁ ++ c :: rs₂) := by
  have hcnt := h.cnt_le
  obtain ⟨l', hl', hholds, hcnt'⟩ := h.holds.listInsert c back hlen (by omega) hlt (by omega)
    hnew.new_ne hnew.new_notMem
  obtain rfl := Option.some.inj (hl'.symm.trans hinsert)
  refine ⟨⟨hholds, h.insert_walkable hc, h.proper_of_mem_iff hc.proper mem_insert_iff, ?_⟩,
    mem_insert_iff, ?_⟩
  · rw [hcnt']
    simp only [length_append, length_cons] at hcnt ⊢
    omega
  · simp only [length_append, length_cons]
    omega

theorem Reserved.insert_cnt (h : Reserved list (as₁ ++ a :: as₂) (rs₁ ++ rs₂))
    (hnew : NewNodes (as₁ ++ a :: as₂) back new) (hne : back ≠ new)
    (hroom : (as₁ ++ a :: as₂).length + 2 < 2 ^ 32) (hc : Between rs₁ rs₂ c)
    (hlen : rs₁.length = as₁.length) (heq : as₁.length = list.cnt)
    (hinsert : listInsert list c as₁.length back new = some list') :
    Gained list' (as₁ ++ a :: as₂) (rs₁ ++ rs₂) c (as₁ ++ new :: a :: (as₂ ++ [back]))
      (rs₁ ++ c :: (rs₂ ++ [c])) := by
  have hcnt := h.cnt_le
  have hpush := h.holds.listPushBack (v := c) hnew.back_ne hnew.back_notMem
  have hcnt' : (listPushBack list c back).cnt = list.cnt + 1 := by
    rw [listPushBack_cnt, u32_of_lt (by omega)]
  have hnotMem : new ∉ as₁ ++ a :: (as₂ ++ [back]) := by
    rw [← cons_append, ← append_assoc, mem_append, mem_singleton, not_or]
    exact ⟨hnew.new_notMem, hne.symm⟩
  rw [heq, listInsert_cnt (by omega), ← heq] at hinsert
  rw [append_assoc, cons_append, append_assoc] at hpush
  obtain ⟨l', hl', hholds, hcnt''⟩ := hpush.listInsert c back hlen
    (by simp only [length_append, length_cons, length_nil] at hroom ⊢; omega)
    (by omega) (by omega) hnew.new_ne hnotMem
  obtain rfl := Option.some.inj (hl'.symm.trans hinsert)
  refine ⟨⟨hholds, (h.insert_walkable hc).repeated (h.base_le hc),
    h.proper_of_mem_iff hc.proper mem_insert_twice_iff, ?_⟩, mem_insert_twice_iff, ?_⟩
  · rw [hcnt'', hcnt']
    simp only [length_append, length_cons] at hcnt ⊢
    omega
  · simp only [length_append, length_cons, length_nil]
    omega

end

/-- Whatever the counter says, a region that `enter` adds is at its place, and at most once
more at the end. -/
theorem Reserved.enter (h : Reserved list as (rs₁ ++ rs₂)) (hnew : NewNodes as back new)
    (hne : back ≠ new) (hroom : as.length + 2 < 2 ^ 32) (hc : Between rs₁ rs₂ c)
    (henter : enter list (if rs₂ = [] then none else some rs₁.length) c back new = some list') :
    ∃ as' rs', Gained list' as (rs₁ ++ rs₂) c as' rs' := by
  by_cases hend : rs₂ = []
  · subst hend
    rw [if_pos rfl] at henter
    obtain rfl := Option.some.inj henter
    exact ⟨_, _, h.pushBack hnew hroom hc⟩
  rw [if_neg hend] at henter
  have hlen := h.holds.length_eq
  rw [length_append] at hlen
  have hpos : 0 < rs₂.length := length_pos_iff.mpr hend
  obtain ⟨as₁, a, as₂, rfl, has₁⟩ :
      ∃ as₁ a as₂, as = as₁ ++ a :: as₂ ∧ as₁.length = rs₁.length :=
    ⟨as.take rs₁.length, as[rs₁.length], as.drop (rs₁.length + 1), by simp, by
      rw [length_take]
      omega⟩
  change listInsert list c rs₁.length back new = some list' at henter
  rw [← has₁] at henter
  -- The counter is past the place, at the place, or before it.
  obtain hlt | heq | hgt := Nat.lt_trichotomy as₁.length list.cnt
  · exact ⟨_, _, h.insert_counted hnew hroom hc has₁.symm hlt henter⟩
  · exact ⟨_, _, h.insert_cnt hnew hne hroom hc has₁.symm heq henter⟩
  · rw [listInsert_of_cnt_lt hgt] at henter
    cases henter

/-- The lowest range of `size` bytes from `0x1000` on that is apart from all regions starts
at `b`. -/
def FirstFit (rs : List Region) (size b : ℕ) : Prop :=
  IsLeast {b | 4096 ≤ b ∧ ∀ r ∈ rs, Region.Apart ⟨b, b + size⟩ r} b

/-- The place that a walk finds is apart from all regions, not only from those before it. -/
theorem Reserved.apart (h : Reserved list as (rs₁ ++ rs₂)) (hbelow : ∀ y ∈ rs₁, y.stop ≤ c.base)
    (habove : ∀ y ∈ rs₂.head?, c.stop ≤ y.base) : ∀ y ∈ rs₁ ++ rs₂, c.Apart y := by
  intro y hy
  obtain hy | hy := mem_append.mp hy
  · exact Or.inr (hbelow y hy)
  cases rs₂ with
  | nil => exact absurd hy not_mem_nil
  | cons x rs₂ =>
    have hx : c.stop ≤ x.base := habove x rfl
    obtain rfl | hy := mem_cons.mp hy
    · exact Or.inl hx
    · obtain hseen | hl | hle := h.walkable.after hy
      · exact absurd hseen not_mem_nil
      · exact Or.inr (hbelow y hl)
      · exact Or.inl (hx.trans hle)

theorem Reserved.length_lt (h : Reserved list as rs) (hroom : as.length + 2 < 2 ^ 32) :
    0 + rs.length < 2 ^ 32 := by
  have := h.holds.length_eq
  omega

theorem Reserved.listValues_eq (h : Reserved list as rs) (hroom : as.length + 2 < 2 ^ 32) :
    listValues list = some rs :=
  h.holds.listValues_eq (by omega)

theorem Reserved.spaceAllocRegionAt {base : ℕ} (h : Reserved list as rs)
    (hnew : NewNodes as back new) (hne : back ≠ new) (hroom : as.length + 2 < 2 ^ 32)
    (hwrap : base + size < 2 ^ 64) (hapart : ∀ r ∈ rs, Region.Apart ⟨base, base + size⟩ r)
    (hcall : spaceAllocRegionAt base size list back new = some list') :
    ∃ as' rs', Gained list' as rs ⟨base, base + size⟩ as' rs' := by
  obtain ⟨rs₁, rs₂, rfl, ⟨hc, hpast⟩, hpos, hhead⟩ :=
    place_spec (c := ⟨base, base + size⟩) (fun _ c => c)
      (fun pre c => c = ⟨base, base + size⟩ ∧ ∀ x ∈ pre, x.base < base + size) []
      ⟨rfl, by simp⟩ (fun pre r c _ hI hover => by
        obtain ⟨rfl, hpre⟩ := hI
        refine ⟨rfl, fun x hx => ?_⟩
        obtain hx | hx := mem_append.mp hx
        · exact hpre x hx
        · rw [mem_singleton.mp hx]
          exact Nat.lt_of_not_le hover) (h.length_lt hroom)
  have hbelow : ∀ r ∈ rs₁, r.stop ≤ base := fun r hr =>
    (hapart r (mem_append_left _ hr)).resolve_left (Nat.not_le.mpr (hpast r hr))
  rw [Nat.zero_add] at hpos
  rw [hc] at hhead
  rw [Space.spaceAllocRegionAt, h.listValues_eq hroom, u64_of_lt hwrap] at hcall
  simp only [Option.bind_eq_bind, Option.bind_some, hpos] at hcall
  exact h.enter hnew hne hroom ⟨Nat.le_add_right base size, hbelow, hhead⟩ hcall

/-- `space_alloc_region` returns null and leaves the list alone, or returns the lowest range
that is free. -/
theorem Reserved.spaceAllocRegion {base : ℕ} (h : Reserved list as rs)
    (hnew : NewNodes as back new) (hne : back ≠ new) (hroom : as.length + 2 < 2 ^ 32)
    (hwrap : 4096 + size < 2 ^ 64) (hwraps : ∀ r ∈ rs, r.stop + size < 2 ^ 64)
    (hcall : spaceAllocRegion size list back new = some (list', base)) :
    ∃ b, FirstFit rs size b ∧
      ((base = 0 ∧ list' = list ∧ kernelVirtualAddr ≤ b + size) ∨
        base = b ∧ ∃ as' rs', Gained list' as rs ⟨b, b + size⟩ as' rs') := by
  obtain ⟨rs₁, rs₂, rfl, hc, hpos, hhead⟩ :=
    place_spec (c := ⟨4096, 4096 + size⟩) (skip size) (Candidate size) []
      ⟨Nat.le_refl _, rfl, by simp, fun b hb _ => hb⟩
      (fun pre r c hr hc => hc.skip (h.proper r hr) (hwraps r hr)) (h.length_lt hroom)
  rw [Nat.zero_add] at hpos
  rw [nil_append] at hc
  rw [Space.spaceAllocRegion, h.listValues_eq hroom, u64_of_lt hwrap] at hcall
  simp only [Option.bind_eq_bind, Option.bind_some, hpos] at hcall
  generalize (place (skip size) 0 ⟨4096, 4096 + size⟩ (rs₁ ++ rs₂)).2 = c at hc hhead hcall
  obtain ⟨b, stop⟩ := c
  obtain rfl : stop = b + size := hc.stop_eq
  have hfit : FirstFit (rs₁ ++ rs₂) size b :=
    ⟨⟨hc.low, h.apart hc.past hhead⟩, fun b' hb' =>
      hc.least b' hb'.1 fun r hr => hb'.2 r (mem_append_left _ hr)⟩
  refine ⟨b, hfit, ?_⟩
  by_cases hfull : (if rs₂ = [] then none else some rs₁.length) = none ∧
      kernelVirtualAddr ≤ b + size
  · rw [if_pos hfull] at hcall
    cases hcall
    exact Or.inl ⟨rfl, rfl, hfull.2⟩
  · rw [if_neg hfull] at hcall
    obtain ⟨l', henter, heq⟩ := Option.map_eq_some_iff.mp hcall
    cases heq
    exact Or.inr ⟨rfl, h.enter hnew hne hroom ⟨Nat.le_add_right b size, hc.past, hhead⟩ henter⟩

/-! ## A sorted list with a right counter -/

theorem ordered_of_sorted (hproper : ∀ r ∈ rs, r.Proper)
    (hsorted : rs.Pairwise fun r r' => r.base ≤ r'.base) (hapart : rs.Pairwise Region.Apart) :
    Ordered rs := by
  refine ⟨hproper, (hsorted.and hapart).imp_of_mem fun {r r'} _ hr' h => ?_⟩
  have hlt : r'.base < r'.stop := hproper r' hr'
  obtain ⟨hle, hbelow | habove⟩ := h
  · exact hbelow
  · omega

/-- The place that the loop of `space_alloc_region` finds, as long as the sum for the lowest
free range does not wrap. The sums before it are smaller. -/
theorem place_firstFit {b : ℕ} (hrs : Ordered rs) (hlen : 0 + rs.length < 2 ^ 32)
    (hfit : FirstFit rs size b) (hwrap : b + size < 2 ^ 64) :
    ∃ rs₁ rs₂, rs = rs₁ ++ rs₂ ∧
      place (skip size) 0 ⟨4096, 4096 + size⟩ rs =
        (if rs₂ = [] then none else some rs₁.length, ⟨b, b + size⟩) ∧
      (∀ r ∈ rs₁, r.stop ≤ b) ∧ ∀ r ∈ rs₂, b + size ≤ r.base := by
  obtain ⟨rs₁, rs₂, rfl, ⟨hc, -⟩, hpos, hhead⟩ :=
    place_spec (c := ⟨4096, 4096 + size⟩) (skip size)
      (fun pre c => Candidate size pre c ∧ pre ⊆ rs) []
      ⟨⟨Nat.le_refl _, rfl, by simp, fun b hb _ => hb⟩, nil_subset _⟩ (by
        rintro pre r c hr ⟨hc, hsub⟩ hover
        have hle : c.base ≤ b := hc.least b hfit.1.1 fun x hx => hfit.1.2 x (hsub hx)
        have hstop : r.stop ≤ b := by
          refine (hfit.1.2 r hr).resolve_left fun habove => hover ?_
          calc c.stop = c.base + size := hc.stop_eq
            _ ≤ b + size := Nat.add_le_add_right hle size
            _ ≤ r.base := habove
        refine ⟨hc.skip (hrs.proper r hr).le (by omega) hover, ?_⟩
        exact append_subset.mpr ⟨hsub, cons_subset.mpr ⟨hr, nil_subset _⟩⟩) hlen
  rw [Nat.zero_add] at hpos
  rw [nil_append] at hc
  have habove := hrs.above hhead
  generalize place (skip size) 0 ⟨4096, 4096 + size⟩ (rs₁ ++ rs₂) = found at hc hpos habove
  obtain ⟨pos, base, stop⟩ := found
  obtain rfl : stop = base + size := hc.stop_eq
  have hfree : ∀ r ∈ rs₁ ++ rs₂, Region.Apart ⟨base, base + size⟩ r := by
    intro r hr
    obtain hr | hr := mem_append.mp hr
    · exact Or.inr (hc.past r hr)
    · exact Or.inl (habove r hr)
  obtain rfl : base = b := Nat.le_antisymm
    (hc.least b hfit.1.1 fun r hr => hfit.1.2 r (mem_append_left _ hr))
    (hfit.2 ⟨hc.low, hfree⟩)
  exact ⟨rs₁, rs₂, rfl, Prod.ext hpos rfl, hc.past, habove⟩

/-- `space_alloc_region` takes the lowest free range and puts it in front of the first region
above it, or at the end. It fails only when no region is above the range and the range reaches
the kernel. -/
theorem spaceAllocRegion_firstFit {b : ℕ} (hholds : Holds list as rs)
    (hcnt : list.cnt = as.length) (hsmall : list.cnt < 2 ^ 32) (hproper : ∀ r ∈ rs, r.Proper)
    (hsorted : rs.Pairwise fun r r' => r.base ≤ r'.base) (hapart : rs.Pairwise Region.Apart)
    (hnew : NewNodes as back new) (hsize : 0 < size) (hfit : FirstFit rs size b)
    (hwrap : b + size < 2 ^ 64) :
    ∃ rs₁ rs₂, rs = rs₁ ++ rs₂ ∧ (∀ r ∈ rs₁, r.base < b + size) ∧
      (∀ r ∈ rs₂, b + size ≤ r.base) ∧
      if rs₂ = [] ∧ kernelVirtualAddr ≤ b + size then
        spaceAllocRegion size list back new = some (list, 0)
      else
        ∃ list' as', spaceAllocRegion size list back new = some (list', b) ∧
          Holds list' as' (rs₁ ++ ⟨b, b + size⟩ :: rs₂) := by
  have h : Counted list as rs :=
    ⟨hholds, ordered_of_sorted hproper hsorted hapart, hcnt, hcnt ▸ hsmall⟩
  have hlow : 4096 ≤ b := hfit.1.1
  obtain ⟨rs₁, rs₂, rfl, hplace, hbelow, habove⟩ :=
    place_firstFit h.ordered h.length_lt hfit hwrap
  refine ⟨rs₁, rs₂, rfl, fun r hr => ?_, habove, ?_⟩
  · have hlt : r.base < r.stop := hproper r (mem_append_left _ hr)
    have hle := hbelow r hr
    omega
  rw [spaceAllocRegion, h.listValues_eq, u64_of_lt (by omega)]
  simp only [Option.bind_eq_bind, Option.bind_some, hplace]
  by_cases hfull : rs₂ = [] ∧ kernelVirtualAddr ≤ b + size
  · rw [if_pos hfull]
    exact if_pos ⟨if_pos hfull.1, hfull.2⟩
  · obtain ⟨list', henter, hplaced⟩ := enter_placed (c := ⟨b, b + size⟩) h hnew hbelow habove
    obtain ⟨as', hholds'⟩ := hplaced.holds
    have hno : ¬((if rs₂ = [] then none else some rs₁.length) = none ∧
        kernelVirtualAddr ≤ b + size) := by
      rintro ⟨hnone, hstop⟩
      refine hfull ⟨?_, hstop⟩
      by_contra hne
      rw [if_neg hne] at hnone
      cases hnone
    rw [if_neg hfull]
    refine ⟨list', as', ?_, hholds'⟩
    rw [if_neg hno, henter, Option.map_some]

def gapList : ListT Region :=
  listPushBack (listPushBack listCreate ⟨0x1000, 0x2000⟩ 0x10) ⟨0x5000, 0x6000⟩ 0x20

theorem holds_gapList : Holds gapList [0x10, 0x20] [⟨0x1000, 0x2000⟩, ⟨0x5000, 0x6000⟩] :=
  (holds_listCreate.listPushBack (by decide) (by decide)).listPushBack (by decide) (by decide)

theorem firstFit_gap : FirstFit [⟨0x1000, 0x2000⟩, ⟨0x5000, 0x6000⟩] 0x1000 0x2000 := by
  refine ⟨⟨by decide, by decide⟩, fun b hb => ?_⟩
  obtain ⟨hlow, hfree⟩ := hb
  have hfirst := hfree ⟨0x1000, 0x2000⟩ (by simp)
  simp only [Region.Apart] at hfirst
  omega

/-- Between two regions. -/
theorem spaceAllocRegion_firstFit_gap :
    ∃ list list' as', Holds list [0x10, 0x20] [⟨0x1000, 0x2000⟩, ⟨0x5000, 0x6000⟩] ∧
      spaceAllocRegion 0x1000 list 0x30 0x40 = some (list', 0x2000) ∧
        Holds list' as' [⟨0x1000, 0x2000⟩, ⟨0x2000, 0x3000⟩, ⟨0x5000, 0x6000⟩] := by
  have hnew : NewNodes [0x10, 0x20] 0x30 0x40 := ⟨by decide, by decide, by decide, by decide⟩
  obtain ⟨rs₁, rs₂, hrs, hbelow, habove, hresult⟩ :=
    spaceAllocRegion_firstFit holds_gapList rfl (by decide) (by simp [Region.Proper]) (by decide)
      (by decide) hnew (by decide) firstFit_gap (by decide)
  obtain ⟨rfl, rfl⟩ : rs₁ = [⟨0x1000, 0x2000⟩] ∧ rs₂ = [⟨0x5000, 0x6000⟩] := by
    -- The first region is below the range and the second is above it.
    clear hresult
    rcases rs₁ with _ | ⟨r, _ | ⟨r', rs₁⟩⟩
    · cases hrs
      exact absurd (habove ⟨0x1000, 0x2000⟩ mem_cons_self) (by decide)
    · cases hrs
      exact ⟨rfl, rfl⟩
    · obtain ⟨-, hrs⟩ := cons_eq_cons.mp hrs
      obtain ⟨rfl, -⟩ := cons_eq_cons.mp hrs
      exact absurd (hbelow ⟨0x5000, 0x6000⟩ (by simp)) (by decide)
  obtain ⟨list', as', hcall, hholds⟩ := hresult
  exact ⟨_, list', as', holds_gapList, hcall, hholds⟩

end KernelOld.Space
