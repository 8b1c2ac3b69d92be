import KernelOld.Fs.Ext2.Numbering

/-!
# Allocating blocks again and again

A bit that is set stays set, and `ext2_alloc_block` takes the first one that is clear. So call after
call the numbers it returns go up, until there is no clear bit and it returns 0.
-/

namespace KernelOld.Ext2
open ByteMemory MachineWord BitArray

/-- The bitmaps are in blocks of their own, outside the block that `ext2_rewrite_bgds` writes; the
bits that stand for no block are set. -/
structure Bitmapped (vol : Vol) (s : State) : Prop where
  blkSz_eq : vol.blkSz = u32 (1024 <<< vol.logBlockSz)
  bgds_le : vol.blkGrpCnt * bgdSz ≤ vol.blkSz
  per_le : vol.blksPerGrp ≤ 8 * vol.blkSz
  ne_two : ∀ g < vol.blkGrpCnt, s.blockBitmapAddr g ≠ 2
  distinct : ∀ g < vol.blkGrpCnt, ∀ g' < vol.blkGrpCnt,
    s.blockBitmapAddr g = s.blockBitmapAddr g' → g = g'
  padded : ∀ g < vol.blkGrpCnt, ∀ x < vol.blkSz * 8, vol.blksPerGrp ≤ x →
    bitmapBit blockBitmaps vol s g x = true
  zero_set : 0 < vol.blkGrpCnt → bitmapBit blockBitmaps vol s 0 0 = true
  number_lt : ∀ g < vol.blkGrpCnt, ∀ x < vol.blksPerGrp, g * vol.blksPerGrp + x < 2 ^ 32

def AllSet (vol : Vol) (s : State) : Prop :=
  ∀ g < vol.blkGrpCnt, ∀ x < vol.blkSz * 8, bitmapBit blockBitmaps vol s g x = true

/-- An allocation takes the first block that is free in the bitmaps, or there is none. -/
structure TakesFirst (vol : Vol) (s s' : State) (num : ℕ) : Prop where
  zero_iff : num = 0 ↔ AllSet vol s
  unchanged : AllSet vol s → s' = s
  takes : ¬AllSet vol s → ∃ i b, FirstClear vol s i b ∧ num = i * vol.blksPerGrp + b ∧
    ∀ g < vol.blkGrpCnt, ∀ x < vol.blkSz * 8, bitmapBit blockBitmaps vol s' g x =
      (decide (g = i ∧ x = b) || bitmapBit blockBitmaps vol s g x)
  /-- Blocks that are not bitmaps of blocks keep what they hold, apart from the descriptors. -/
  others : ∀ blk a, InBlock vol blk a → blk ≠ 2 →
    (∀ g < vol.blkGrpCnt, blk ≠ s.blockBitmapAddr g) → s'.disk a = s.disk a

def afterAllocs (vol : Vol) (s : State) : ℕ → State
  | 0 => s
  | n + 1 => (ext2AllocBlock vol (afterAllocs vol s n)).1

def allocated (vol : Vol) (s : State) (n : ℕ) : ℕ := (ext2AllocBlock vol (afterAllocs vol s n)).2

variable {vol : Vol} {s : State} {i b g x m n : ℕ}

/-! ## One call -/

theorem Bitmapped.sized (h : Bitmapped vol s) (hg : g < vol.blkGrpCnt) : vol.Sized := by
  have hfit : bgdSz ≤ vol.blkSz :=
    (Nat.le_mul_of_pos_left bgdSz (Nat.zero_lt_of_lt hg)).trans h.bgds_le
  have hlog : vol.logBlockSz < 22 := by
    by_contra hle
    have hdvd : 2 ^ 32 ∣ 1024 <<< vol.logBlockSz := by
      rw [Nat.shiftLeft_eq, show (1024 : ℕ) = 2 ^ 10 from rfl, ← pow_add]
      exact pow_dvd_pow 2 (by omega)
    have hzero : vol.blkSz = 0 := h.blkSz_eq.trans (Nat.mod_eq_zero_of_dvd hdvd)
    rw [hzero, bgdSz] at hfit
    omega
  refine ⟨hlog, h.blkSz_eq.trans ?_⟩
  have hpow : 2 ^ vol.logBlockSz ≤ 2 ^ 21 := Nat.pow_le_pow_right (by decide) (by omega)
  rw [Nat.shiftLeft_eq, u32_of_lt (by omega)]

theorem findFree_eq_none_iff : findFree blockBitmaps vol s = none ↔ AllSet vol s := by
  constructor
  · intro h g hg x hx
    have hscan := firstSome_none h (Nat.zero_le g) (by rwa [Nat.zero_add])
    exact scanGroup_none hscan rfl hx
  · intro hset
    cases hfind : findFree blockBitmaps vol s with
    | none => rfl
    | some r =>
      have hfirst : FirstClear vol s r.1 r.2 := firstClear_of_findFree hfind
      have hbit := hset r.1 hfirst.group_lt r.2 hfirst.bit_lt
      rw [hfirst.clear] at hbit
      cases hbit

theorem FirstClear.set_of_lt (h : FirstClear vol s i b) (hx : x < vol.blksPerGrp)
    (hper : vol.blksPerGrp ≤ 8 * vol.blkSz) (hb : b < vol.blksPerGrp)
    (hlt : g * vol.blksPerGrp + x < i * vol.blksPerGrp + b) :
    bitmapBit blockBitmaps vol s g x = true := by
  rcases lt_trichotomy g i with hg | rfl | hg
  · exact h.groups_full g hg x (by omega)
  · exact h.set_before x (by omega)
  · have hle : (i + 1) * vol.blksPerGrp ≤ g * vol.blksPerGrp := Nat.mul_le_mul_right _ hg
    rw [Nat.succ_mul] at hle
    omega

theorem Bitmapped.bit_lt (h : Bitmapped vol s) (hfirst : FirstClear vol s i b) :
    b < vol.blksPerGrp := by
  by_contra hle
  have hset := h.padded i hfirst.group_lt b hfirst.bit_lt (Nat.le_of_not_lt hle)
  rw [hfirst.clear] at hset
  cases hset

theorem Bitmapped.number_ne_zero (h : Bitmapped vol s) (hfirst : FirstClear vol s i b) :
    i * vol.blksPerGrp + b ≠ 0 := by
  have hb := h.bit_lt hfirst
  intro hzero
  have hmul : i * vol.blksPerGrp = 0 := by omega
  rcases Nat.mul_eq_zero.mp hmul with rfl | hper
  · obtain rfl : b = 0 := by omega
    have hset := h.zero_set hfirst.group_lt
    rw [hfirst.clear] at hset
    cases hset
  · omega

theorem Bitmapped.alloc_eq (h : Bitmapped vol s) (hfirst : FirstClear vol s i b) :
    ext2AllocBlock vol s = (takeBit blockBitmaps vol s i b, i * vol.blksPerGrp + b) := by
  rw [hfirst.ext2AllocBlock_eq, u32_of_lt (h.number_lt i hfirst.group_lt b (h.bit_lt hfirst))]

theorem Bitmapped.bitmapBit_takeBit (h : Bitmapped vol s) (hfirst : FirstClear vol s i b)
    (hg : g < vol.blkGrpCnt) (hx : x < vol.blkSz * 8) :
    bitmapBit blockBitmaps vol (takeBit blockBitmaps vol s i b) g x =
      (decide (g = i ∧ x = b) || bitmapBit blockBitmaps vol s g x) := by
  have haddr : s.blockBitmapAddr g = s.blockBitmapAddr i ↔ g = i :=
    ⟨h.distinct g hg i hfirst.group_lt, congrArg s.blockBitmapAddr⟩
  rw [Ext2.bitmapBit_takeBit (h.sized hg) hfirst.bit_lt hx (fun h2 => absurd h2 (h.ne_two g hg))]
  simp only [haddr]

theorem Bitmapped.alloc_cases (h : Bitmapped vol s) :
    (∃ i b, FirstClear vol s i b ∧
        ext2AllocBlock vol s = (takeBit blockBitmaps vol s i b, i * vol.blksPerGrp + b)) ∨
      AllSet vol s ∧ ext2AllocBlock vol s = (s, 0) := by
  rcases allocBit_cases blockBitmaps vol s with ⟨i, b, hfind, -⟩ | ⟨hfind, heq⟩
  · have hfirst := firstClear_of_findFree hfind
    exact Or.inl ⟨i, b, hfirst, h.alloc_eq hfirst⟩
  · exact Or.inr ⟨findFree_eq_none_iff.mp hfind, heq⟩

theorem FirstClear.not_allSet (h : FirstClear vol s i b) : ¬AllSet vol s := by
  intro hset
  have hbit := hset i h.group_lt b h.bit_lt
  rw [h.clear] at hbit
  cases hbit

theorem Bitmapped.takesFirst (h : Bitmapped vol s) :
    TakesFirst vol s (ext2AllocBlock vol s).1 (ext2AllocBlock vol s).2 := by
  rcases h.alloc_cases with ⟨i, b, hfirst, heq⟩ | ⟨hset, heq⟩
  · have hsized := h.sized hfirst.group_lt
    have hnot := hfirst.not_allSet
    refine ⟨?_, fun hset => absurd hset hnot, fun _ => ?_, ?_⟩
    · rw [heq]
      exact iff_of_false (h.number_ne_zero hfirst) hnot
    · rw [heq]
      exact ⟨i, b, hfirst, rfl, fun g hg x hx => h.bitmapBit_takeBit hfirst hg hx⟩
    · intro blk a ha htwo hne
      refine allocBit_disk hsized (blockBitmapAddr_lt s) ?_ ?_
      · intro g hg hin
        exact hne g hg (inBlock_unique hsized ha hin)
      · rintro ⟨hlo, hhi⟩
        exact htwo (inBlock_unique hsized ha ⟨hlo, by omega⟩)
  · rw [heq]
    exact ⟨iff_of_true rfl hset, fun _ => rfl, fun hnot => absurd hset hnot, fun _ _ _ _ _ => rfl⟩

theorem Bitmapped.set_alloc (h : Bitmapped vol s) (hg : g < vol.blkGrpCnt)
    (hx : x < vol.blkSz * 8) (hset : bitmapBit blockBitmaps vol s g x = true) :
    bitmapBit blockBitmaps vol (ext2AllocBlock vol s).1 g x = true := by
  rcases h.alloc_cases with ⟨i, b, hfirst, heq⟩ | ⟨-, heq⟩
  · rw [heq, h.bitmapBit_takeBit hfirst hg hx, hset, Bool.or_true]
  · rw [heq]
    exact hset

theorem Bitmapped.alloc (h : Bitmapped vol s) : Bitmapped vol (ext2AllocBlock vol s).1 := by
  have haddr : ∀ g, (ext2AllocBlock vol s).1.blockBitmapAddr g = s.blockBitmapAddr g := by
    intro g
    rcases h.alloc_cases with ⟨i, b, -, heq⟩ | ⟨-, heq⟩
    · rw [heq]
      exact blockBitmapAddr_takeBit
    · rw [heq]
  refine ⟨h.blkSz_eq, h.bgds_le, h.per_le, ?_, ?_, ?_, ?_, h.number_lt⟩
  · intro g hg
    rw [haddr]
    exact h.ne_two g hg
  · intro g hg g' hg' heq
    rw [haddr, haddr] at heq
    exact h.distinct g hg g' hg' heq
  · intro g hg x hx hper
    exact h.set_alloc hg hx (h.padded g hg x hx hper)
  · intro hpos
    have hsz := (h.sized hpos).pos
    exact h.set_alloc hpos (by omega) (h.zero_set hpos)

/-! ## All calls -/

theorem Bitmapped.afterAllocs (h : Bitmapped vol s) (n : ℕ) :
    Bitmapped vol (afterAllocs vol s n) := by
  induction n with
  | zero => exact h
  | succ n ih => exact ih.alloc

theorem Bitmapped.set_afterAllocs (h : Bitmapped vol s) (hmn : m ≤ n) (hg : g < vol.blkGrpCnt)
    (hx : x < vol.blkSz * 8)
    (hset : bitmapBit blockBitmaps vol (Ext2.afterAllocs vol s m) g x = true) :
    bitmapBit blockBitmaps vol (Ext2.afterAllocs vol s n) g x = true := by
  induction n, hmn using Nat.le_induction with
  | base => exact hset
  | succ n _ ih => exact (h.afterAllocs n).set_alloc hg hx ih

theorem Bitmapped.firstClear_of_ne_zero (h : Bitmapped vol s)
    (hne : (ext2AllocBlock vol s).2 ≠ 0) :
    ∃ i b, FirstClear vol s i b ∧ (ext2AllocBlock vol s).2 = i * vol.blksPerGrp + b ∧
      bitmapBit blockBitmaps vol (ext2AllocBlock vol s).1 i b = true := by
  rcases h.alloc_cases with ⟨i, b, hfirst, heq⟩ | ⟨-, heq⟩
  · refine ⟨i, b, hfirst, by rw [heq], ?_⟩
    rw [heq, h.bitmapBit_takeBit hfirst hfirst.group_lt hfirst.bit_lt]
    simp
  · rw [heq] at hne
    exact absurd rfl hne

/-- Each of the calls takes the first clear bit and nothing else, or there is none and it
returns 0; the blocks that are returned have ever larger numbers. -/
theorem ext2AllocBlock_ascends (vol : Vol) (s : State) (h : Bitmapped vol s) :
    (∀ n, TakesFirst vol (afterAllocs vol s n) (afterAllocs vol s (n + 1))
      (allocated vol s n)) ∧
    ∀ m n, m < n → allocated vol s m ≠ 0 → allocated vol s n ≠ 0 →
      allocated vol s m < allocated vol s n := by
  refine ⟨fun n => (h.afterAllocs n).takesFirst, fun m n hmn hm hn => ?_⟩
  have hm' := h.afterAllocs m
  have hn' := h.afterAllocs n
  obtain ⟨i, b, hfirst, hnum, hset⟩ := hm'.firstClear_of_ne_zero hm
  obtain ⟨i', b', hfirst', hnum', -⟩ := hn'.firstClear_of_ne_zero hn
  have hb := hm'.bit_lt hfirst
  have hb' := hn'.bit_lt hfirst'
  rw [allocated, allocated, hnum, hnum']
  by_contra hle
  -- the later bit was set already: taken by the earlier call, or passed over in it
  have hbit : bitmapBit blockBitmaps vol (afterAllocs vol s (m + 1)) i' b' = true := by
    rcases Nat.lt_or_eq_of_le (Nat.le_of_not_lt hle) with hlt | heq
    · have hbefore := hfirst.set_of_lt hb' h.per_le hb hlt
      exact hm'.set_alloc hfirst'.group_lt hfirst'.bit_lt hbefore
    · have hpos : 0 < vol.blksPerGrp := Nat.zero_lt_of_lt hb
      have hgroup : i' = i := by
        have hdiv := congrArg (· / vol.blksPerGrp) heq
        simpa only [Nat.mul_comm _ vol.blksPerGrp, Nat.mul_add_div hpos, Nat.div_eq_of_lt hb,
          Nat.div_eq_of_lt hb', Nat.add_zero] using hdiv
      subst hgroup
      obtain rfl : b' = b := by omega
      exact hset
  have hstays := h.set_afterAllocs hmn hfirst'.group_lt hfirst'.bit_lt hbit
  rw [hfirst'.clear] at hstays
  cases hstays

theorem bitmapped_fresh : Bitmapped freshVol freshState where
  blkSz_eq := by decide
  bgds_le := by decide
  per_le := by decide
  ne_two := by decide +kernel
  distinct := by decide +kernel
  padded g _ x hx hper := absurd hx (Nat.not_lt.mpr hper)
  zero_set _ := by decide +kernel
  number_lt g hg x hx := by
    have hper : freshVol.blksPerGrp = 8192 := rfl
    have hcnt : freshVol.blkGrpCnt = 1 := rfl
    rw [hper] at hx ⊢
    omega

/-- The first two calls on the new volume. -/
theorem ext2AllocBlock_ascends_fresh :
    Bitmapped freshVol freshState ∧
      allocated freshVol freshState 0 < allocated freshVol freshState 1 := by
  have hfirst : allocated freshVol freshState 0 ≠ 0 := by decide +kernel
  have hsecond : allocated freshVol freshState 1 ≠ 0 := by decide +kernel
  exact ⟨bitmapped_fresh, (ext2AllocBlock_ascends freshVol freshState bitmapped_fresh).2 0 1
    Nat.zero_lt_one hfirst hsecond⟩

end KernelOld.Ext2
