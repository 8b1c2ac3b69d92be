import KernelOld.Util.List

/-!
# Reserved regions of an address space

`space_alloc_region` and `space_alloc_region_at` of `mem/paging.c`. Both walk over the list with a
candidate and stop before the first region above it; they differ only in how the candidate moves
(`place`). It goes in front of that region with `list_insert`, or at the end with `list_push_back`.
-/

namespace KernelOld.Space
open LinkedList MachineWord List

/-- `mregion_t`: the addresses from `base` to `stop`, `stop` excluded. -/
structure Region where
  base : ℕ
  stop : ℕ
deriving DecidableEq

def kernelVirtualAddr : ℕ := 0xffffffff80000000

def place (move : Region → Region → Region) : ℕ → Region → List Region → Option ℕ × Region
  | _, c, [] => (none, c)
  | i, c, region :: rest =>
    if c.stop ≤ region.base then (some i, c)
    else place move (u32 (i + 1)) (move region c) rest

def skip (size : ℕ) (region c : Region) : Region :=
  let past : Region := ⟨region.stop, u64 (region.stop + size)⟩
  let c := if region.base ≤ c.base ∧ c.base < region.stop then past else c
  let c := if region.base < c.stop ∧ c.stop ≤ region.stop then past else c
  if c.base < region.base ∧ region.stop < c.stop then past else c

def enter (regions : ListT Region) (pos : Option ℕ) (newreg : Region) (back new : ℕ) :
    Option (ListT Region) :=
  match pos with
  | some i => listInsert regions newreg i back new
  | none => some (listPushBack regions newreg back)

def spaceAllocRegionAt (base size : ℕ) (regions : ListT Region) (back new : ℕ) :
    Option (ListT Region) := do
  let newreg : Region := ⟨base, u64 (base + size)⟩
  let rs ← listValues regions
  enter regions (place (fun _ c => c) 0 newreg rs).1 newreg back new

def spaceAllocRegion (size : ℕ) (regions : ListT Region) (back new : ℕ) :
    Option (ListT Region × ℕ) := do
  let rs ← listValues regions
  let (pos, c) := place (skip size) 0 ⟨4096, u64 (4096 + size)⟩ rs
  if pos = none ∧ kernelVirtualAddr ≤ c.stop then some (regions, 0)
  else (enter regions pos c back new).map fun regions => (regions, c.base)

/-- The region is not empty. -/
def Region.Proper (r : Region) : Prop := r.base < r.stop

/-- One region ends before the other starts. -/
def Region.Apart (r r' : Region) : Prop := r.stop ≤ r'.base ∨ r'.stop ≤ r.base

instance (r r' : Region) : Decidable (r.Apart r') := inferInstanceAs (Decidable (_ ∨ _))

structure Ordered (rs : List Region) : Prop where
  proper : ∀ r ∈ rs, r.Proper
  pairwise : rs.Pairwise fun r r' => r.stop ≤ r'.base

variable {rs : List Region} {c : Region} {size : ℕ}

theorem place_spec {i : ℕ} (move : Region → Region → Region)
    (I : List Region → Region → Prop) (pre : List Region) (hI : I pre c)
    (hmove : ∀ pre r c, r ∈ rs → I pre c → ¬c.stop ≤ r.base → I (pre ++ [r]) (move r c))
    (hlen : i + rs.length < 2 ^ 32) :
    ∃ l r, rs = l ++ r ∧ I (pre ++ l) (place move i c rs).2 ∧
      (place move i c rs).1 = (if r = [] then none else some (i + l.length)) ∧
      ∀ x ∈ r.head?, (place move i c rs).2.stop ≤ x.base := by
  induction rs generalizing i c pre with
  | nil => exact ⟨[], [], rfl, by simpa [place] using hI, rfl, by simp⟩
  | cons a rs ih =>
    by_cases ha : c.stop ≤ a.base
    · refine ⟨[], a :: rs, rfl, ?_⟩
      rw [place, if_pos ha]
      exact ⟨by simpa using hI, by simp, by simpa using ha⟩
    · rw [length_cons] at hlen
      have hnext : I (pre ++ [a]) (move a c) := hmove pre a c (by simp) hI ha
      rw [place, if_neg ha, u32_of_lt (by omega)]
      obtain ⟨l, r, rfl, hl, hpos, hhead⟩ := ih (i := i + 1) (pre ++ [a]) hnext
        (fun pre r c hr => hmove pre r c (mem_cons_of_mem _ hr)) (by omega)
      refine ⟨a :: l, r, rfl, by simpa using hl, ?_, hhead⟩
      rw [hpos, length_cons]
      congr 2
      omega

/-- It is past all regions seen, and no lower place is free. -/
structure Candidate (size : ℕ) (pre : List Region) (c : Region) : Prop where
  low : 4096 ≤ c.base
  stop_eq : c.stop = c.base + size
  past : ∀ r ∈ pre, r.stop ≤ c.base
  least : ∀ b, 4096 ≤ b → (∀ r ∈ pre, Region.Apart ⟨b, b + size⟩ r) → c.base ≤ b

theorem skip_eq {r : Region} (hr : r.base ≤ r.stop) (hwrap : r.stop + size < 2 ^ 64)
    (hstop : c.stop = c.base + size) (hover : ¬c.stop ≤ r.base) :
    skip size r c = if c.base < r.stop then ⟨r.stop, r.stop + size⟩ else c := by
  obtain ⟨base, stop⟩ := c
  simp only at hstop hover
  rw [skip, u64_of_lt hwrap]
  by_cases hin : base < r.stop
  · by_cases h1 : r.base ≤ base
    · simp [h1, hin, show ¬r.stop < r.base by omega]
    · by_cases h2 : stop ≤ r.stop
      · simp [h1, hin, h2, show r.base < stop by omega, show ¬r.stop < r.base by omega]
      · simp [h1, hin, h2, show base < r.base by omega, show r.stop < stop by omega]
  · by_cases h2 : stop ≤ r.stop
    · -- Only an empty candidate that stands right behind the region.
      obtain rfl : size = 0 := by omega
      obtain rfl : base = r.stop := by omega
      simp [hstop, show ¬r.stop < r.base by omega]
    · simp [hin, h2, show ¬base < r.base by omega]

theorem Candidate.skip {pre : List Region} {r : Region} (h : Candidate size pre c)
    (hr : r.base ≤ r.stop) (hwrap : r.stop + size < 2 ^ 64)
    (hover : ¬c.stop ≤ r.base) : Candidate size (pre ++ [r]) (skip size r c) := by
  have hleast : ∀ b, 4096 ≤ b → (∀ x ∈ pre ++ [r], Region.Apart ⟨b, b + size⟩ x) →
      c.base ≤ b ∧ r.stop ≤ b := by
    intro b hb hfree
    have hcb : c.base ≤ b := h.least b hb fun x hx => hfree x (mem_append_left _ hx)
    refine ⟨hcb, (hfree r (by simp)).resolve_left fun hle => hover ?_⟩
    calc c.stop = c.base + size := h.stop_eq
      _ ≤ b + size := Nat.add_le_add_right hcb size
      _ ≤ r.base := hle
  rw [skip_eq hr hwrap h.stop_eq hover]
  by_cases hin : c.base < r.stop
  · rw [if_pos hin]
    refine ⟨h.low.trans hin.le, rfl, fun x hx => ?_, fun b hb hfree => (hleast b hb hfree).2⟩
    rcases mem_append.mp hx with hx | hx
    · exact (h.past x hx).trans hin.le
    · rw [mem_singleton.mp hx]
  · rw [if_neg hin]
    refine ⟨h.low, h.stop_eq, fun x hx => ?_, fun b hb hfree => (hleast b hb hfree).1⟩
    rcases mem_append.mp hx with hx | hx
    · exact h.past x hx
    · rw [mem_singleton.mp hx]
      exact Nat.le_of_not_lt hin

/-- The region `c` has gone between `rs₁` and `rs₂`. The counter follows only when
nothing comes after it. -/
structure Placed (l l' : ListT Region) (rs₁ rs₂ : List Region) (c : Region) : Prop where
  holds : ∃ as, Holds l' as (rs₁ ++ c :: rs₂)
  below : ∀ r ∈ rs₁, r.stop ≤ c.base
  above : ∀ r ∈ rs₂, c.stop ≤ r.base
  cnt_eq : l'.cnt = if rs₂ = [] then u32 (l.cnt + 1) else l.cnt

theorem Ordered.above {rs₁ rs₂ : List Region} {x : ℕ} (h : Ordered (rs₁ ++ rs₂))
    (hhead : ∀ r ∈ rs₂.head?, x ≤ r.base) : ∀ r ∈ rs₂, x ≤ r.base := by
  cases rs₂ with
  | nil => simp
  | cons a rs₂ =>
    have ha : x ≤ a.base := by simpa using hhead
    have hproper : a.base < a.stop := h.proper a (by simp)
    have htail := (pairwise_cons.mp (pairwise_append.mp h.pairwise).2.1).1
    intro r hr
    rcases mem_cons.mp hr with rfl | hr
    · exact ha
    · exact (ha.trans hproper.le).trans (htail r hr)

variable {l : ListT Region} {as : List ℕ} {back new : ℕ}

structure Counted (l : ListT Region) (as : List ℕ) (rs : List Region) : Prop where
  holds : Holds l as rs
  ordered : Ordered rs
  cnt_eq : l.cnt = as.length
  small : as.length < 2 ^ 32

/-- The two nodes that the calls may use are not in the list. -/
structure NewNodes (as : List ℕ) (back new : ℕ) : Prop where
  back_ne : back ≠ 0
  new_ne : new ≠ 0
  back_notMem : back ∉ as
  new_notMem : new ∉ as

theorem enter_placed {rs₁ rs₂ : List Region} (h : Counted l as (rs₁ ++ rs₂))
    (hnew : NewNodes as back new) (hbelow : ∀ r ∈ rs₁, r.stop ≤ c.base)
    (habove : ∀ r ∈ rs₂, c.stop ≤ r.base) :
    ∃ l', enter l (if rs₂ = [] then none else some rs₁.length) c back new = some l' ∧
      Placed l l' rs₁ rs₂ c := by
  by_cases hend : rs₂ = []
  · subst hend
    rw [if_pos rfl]
    have hholds := h.holds
    rw [append_nil] at hholds
    refine ⟨_, rfl, ⟨⟨_, hholds.listPushBack hnew.back_ne hnew.back_notMem⟩, hbelow, habove, ?_⟩⟩
    rw [if_pos rfl, listPushBack_cnt]
  · rw [if_neg hend]
    have hlen := h.holds.length_eq
    rw [length_append] at hlen
    have hpos : 0 < rs₂.length := length_pos_iff.mpr hend
    have hcnt := h.cnt_eq
    have hsmall := h.small
    obtain ⟨as₁, a, as₂, has, has₁⟩ : ∃ as₁ a as₂, as = as₁ ++ a :: as₂ ∧ as₁.length = rs₁.length :=
      ⟨as.take rs₁.length, as[rs₁.length], as.drop (rs₁.length + 1), by simp, by
        rw [length_take]
        omega⟩
    subst has
    obtain ⟨l', hins, hholds, hcnt'⟩ := h.holds.listInsert c back has₁.symm (by omega)
      (by omega) (by omega) hnew.new_ne hnew.new_notMem
    rw [has₁] at hins
    refine ⟨l', hins, ⟨⟨_, hholds⟩, hbelow, habove, ?_⟩⟩
    rw [if_neg hend, hcnt']

theorem Counted.listValues_eq (h : Counted l as rs) : listValues l = some rs :=
  h.holds.listValues_eq (h.small.trans (by decide))

theorem Counted.length_lt (h : Counted l as rs) : 0 + rs.length < 2 ^ 32 := by
  have := h.small
  rw [h.holds.length_eq] at this
  omega

theorem spaceAllocRegionAt_spec {base : ℕ} (h : Counted l as rs) (hnew : NewNodes as back new)
    (hwrap : base + size < 2 ^ 64)
    (hapart : ∀ r ∈ rs, Region.Apart ⟨base, base + size⟩ r) :
    ∃ l' rs₁ rs₂, spaceAllocRegionAt base size l back new = some l' ∧ rs = rs₁ ++ rs₂ ∧
      Placed l l' rs₁ rs₂ ⟨base, base + size⟩ := by
  have hmove : ∀ pre r c, r ∈ rs → (c = ⟨base, base + size⟩ ∧ ∀ x ∈ pre, x.base < base + size) →
      ¬c.stop ≤ r.base → c = (⟨base, base + size⟩ : Region) ∧
        ∀ x ∈ pre ++ [r], x.base < base + size := by
    rintro pre r c - ⟨rfl, hpre⟩ hover
    refine ⟨rfl, fun x hx => ?_⟩
    rcases mem_append.mp hx with hx | hx
    · exact hpre x hx
    · rw [mem_singleton.mp hx]
      exact Nat.lt_of_not_le hover
  obtain ⟨rs₁, rs₂, rfl, ⟨hc, hpast⟩, hpos, hhead⟩ :=
    place_spec (fun _ c => c) _ [] ⟨rfl, by simp⟩ hmove h.length_lt
  have hbelow : ∀ r ∈ rs₁, r.stop ≤ base := by
    intro r hr
    rcases hapart r (mem_append_left _ hr) with hle | hle
    · exact absurd hle (Nat.not_le.mpr (hpast r hr))
    · exact hle
  rw [Nat.zero_add] at hpos
  rw [hc] at hhead
  obtain ⟨l', hl', hplaced⟩ := enter_placed (c := ⟨base, base + size⟩) h hnew hbelow
    (h.ordered.above hhead)
  refine ⟨l', rs₁, rs₂, ?_, rfl, hplaced⟩
  rw [spaceAllocRegionAt, h.listValues_eq, u64_of_lt hwrap]
  simp only [Option.bind_eq_bind, Option.bind_some, hpos]
  exact hl'

/-- `space_alloc_region` either finds a place past the regions before it, or leaves the
list alone because no region follows and the kernel's addresses are reached. -/
theorem spaceAllocRegion_spec (h : Counted l as rs) (hnew : NewNodes as back new)
    (hwrap : 4096 + size < 2 ^ 64) (hwraps : ∀ r ∈ rs, r.stop + size < 2 ^ 64) :
    ∃ c rs₁ rs₂, rs = rs₁ ++ rs₂ ∧ Candidate size rs₁ c ∧
      ((rs₂ = [] ∧ kernelVirtualAddr ≤ c.stop ∧ spaceAllocRegion size l back new = some (l, 0)) ∨
        ∃ l', spaceAllocRegion size l back new = some (l', c.base) ∧ Placed l l' rs₁ rs₂ c) := by
  obtain ⟨rs₁, rs₂, rfl, hc, hpos, hhead⟩ :=
    place_spec (c := ⟨4096, 4096 + size⟩) (skip size) (Candidate size) []
      ⟨Nat.le_refl _, rfl, by simp, fun b hb _ => hb⟩
      (fun pre r c hr hc => hc.skip (h.ordered.proper r hr).le (hwraps r hr)) h.length_lt
  rw [Nat.zero_add] at hpos
  rw [nil_append] at hc
  refine ⟨_, rs₁, rs₂, rfl, hc, ?_⟩
  rw [spaceAllocRegion, h.listValues_eq, u64_of_lt hwrap]
  simp only [Option.bind_eq_bind, Option.bind_some, hpos]
  generalize (place (skip size) 0 ⟨4096, 4096 + size⟩ (rs₁ ++ rs₂)).2 = c at hc hhead ⊢
  by_cases hfull : rs₂ = [] ∧ kernelVirtualAddr ≤ c.stop
  · refine Or.inl ⟨hfull.1, hfull.2, if_pos ⟨if_pos hfull.1, hfull.2⟩⟩
  · obtain ⟨l', hl', hplaced⟩ := enter_placed h hnew hc.past (h.ordered.above hhead)
    refine Or.inr ⟨l', ?_, hplaced⟩
    rw [if_neg, hl', Option.map_some]
    rintro ⟨hnone, hstop⟩
    refine hfull ⟨?_, hstop⟩
    by_contra hne
    rw [if_neg hne] at hnone
    cases hnone

end KernelOld.Space
