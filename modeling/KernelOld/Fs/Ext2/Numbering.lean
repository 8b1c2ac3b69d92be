import KernelOld.Fs.Ext2.Alloc

/-!
# Numbers and bits

Inode numbers start at 1: `ext2_inode_bg` and `ext2_inode_bg_idx` subtract 1 before they
divide. `ext2_alloc_inode` returns the index of the bit it sets without adding 1.

Block numbers start at `first_dat_block`, and `ext2_alloc_block` leaves that out.
-/

namespace KernelOld.Ext2
open ByteMemory MachineWord BitArray

variable {kind : BitmapKind} {vol : Vol} {s : State} {i b g x n : ℕ}

/-! ## Addresses and counters -/

theorem blockBitmapAddr_lt (s : State) (g : ℕ) : s.blockBitmapAddr g < 2 ^ 32 := load_lt_u32 _ _

theorem blockBitmapAddr_takeBit :
    (takeBit blockBitmaps vol s i b).blockBitmapAddr g = s.blockBitmapAddr g := by
  apply takeBit_load
  simp only [Apart, blockBitmaps, bgdSz]
  omega

theorem freeInodes_takeBit_of_ne (h : g ≠ i) :
    (takeBit inodeBitmaps vol s i b).freeInodes g = s.freeInodes g := by
  apply takeBit_load
  simp only [Apart, inodeBitmaps, bgdSz]
  omega

/-! ## Inodes -/

/-- The bit of inode `num` is set, no other bit changes, and its group counts it. -/
structure Allocates (vol : Vol) (s s' : State) (num : ℕ) : Prop where
  pos : 1 ≤ num
  before : bitmapBit inodeBitmaps vol s (ext2InodeBg vol num) (ext2InodeBgIdx vol num) = false
  after : bitmapBit inodeBitmaps vol s' (ext2InodeBg vol num) (ext2InodeBgIdx vol num) = true
  others : ∀ g < vol.blkGrpCnt, ∀ x < vol.blkSz * 8,
    ¬(g = ext2InodeBg vol num ∧ x = ext2InodeBgIdx vol num) →
      bitmapBit inodeBitmaps vol s' g x = bitmapBit inodeBitmaps vol s g x
  counted : s'.freeInodes (ext2InodeBg vol num) + 1 = s.freeInodes (ext2InodeBg vol num)

/-- The index of an inode in its group is below the bit that the allocator would number so:
the number is one too small. -/
theorem ext2InodeBgIdx_lt (hnum : 1 ≤ u32 (i * vol.inodesPerGrp + b))
    (hgroup : ext2InodeBg vol (u32 (i * vol.inodesPerGrp + b)) = i) :
    ext2InodeBgIdx vol (u32 (i * vol.inodesPerGrp + b)) < b := by
  set num := u32 (i * vol.inodesPerGrp + b) with hdef
  have hsub : sub32 num 1 = num - 1 := sub32_of_le (u32_lt _) hnum
  have hle : num ≤ i * vol.inodesPerGrp + b := Nat.mod_le _ _
  have hsplit := Nat.div_add_mod' (num - 1) vol.inodesPerGrp
  rw [ext2InodeBg, hsub] at hgroup
  rw [hgroup] at hsplit
  rw [ext2InodeBgIdx, hsub]
  omega

theorem ext2AllocInode_eq (h : findFree inodeBitmaps vol s = some (i, b)) :
    ext2AllocInode vol s =
      (takeBit inodeBitmaps vol s i b, u32 (i * vol.inodesPerGrp + b)) := allocBit_eq h

/-- Whenever `ext2_alloc_inode` finds a free inode, it returns another one's number: of the
group it took the inode from, the number names a bit that was set already. -/
theorem ext2AllocInode_misnumbers (vol : Vol) (s : State) (i b : ℕ)
    (hfound : findFree inodeBitmaps vol s = some (i, b)) :
    ¬Allocates vol s (ext2AllocInode vol s).1 (ext2AllocInode vol s).2 := by
  rw [ext2AllocInode_eq hfound]
  intro h
  obtain ⟨hpos, hbefore, -, -, hcounted⟩ := h
  dsimp only at hpos hbefore hcounted
  obtain ⟨-, hscan, -⟩ := findFree_some hfound
  obtain ⟨-, -, -, hset⟩ := scanGroup_some hscan
  -- only the counter of group `i` is decremented, so the number would have to be in group `i`
  have hgroup : ext2InodeBg vol (u32 (i * vol.inodesPerGrp + b)) = i := by
    by_contra hne
    rw [freeInodes_takeBit_of_ne hne] at hcounted
    omega
  have hbit := hset _ (ext2InodeBgIdx_lt hpos hgroup)
  rw [hgroup, hbit] at hbefore
  cases hbefore

/-- Blocks of 1 KiB and one group: the descriptor in block 2, the bitmaps in blocks 3 and 4, the
inodes from block 5 on, 11 of 32 in use. -/
def freshVol : Vol where
  blkSz := 1024
  blkGrpCnt := 1
  blkCnt := 64
  firstDatBlock := 1
  logBlockSz := 0
  blksPerGrp := 8192
  inodesPerGrp := 32
  inodeSz := 128

def bytesAt (a : ℕ) (bytes : List UInt8) : Mem := fun x =>
  if a ≤ x then bytes.getD (x - a) 0 else 0

def freshBgd : List UInt8 := [3, 0, 0, 0, 4, 0, 0, 0, 5, 0, 0, 0, 54, 0, 0, 0, 21, 0, 0, 0]

def freshState : State where
  disk a := bytesAt (3 * 1024) [0xff, 1] a ||| bytesAt (4 * 1024) [0xff, 7] a
  blkGrps := bytesAt 0 freshBgd

theorem ext2AllocInode_misnumbers_fresh :
    findFree inodeBitmaps freshVol freshState = some (0, 11) ∧
      ¬Allocates freshVol freshState (ext2AllocInode freshVol freshState).1
        (ext2AllocInode freshVol freshState).2 := by
  have hfound : findFree inodeBitmaps freshVol freshState = some (0, 11) := by decide +kernel
  exact ⟨hfound, ext2AllocInode_misnumbers freshVol freshState 0 11 hfound⟩

/-- Inode 11 is in use, and is returned as the new inode. -/
theorem ext2AllocInode_returns_used :
    findFree inodeBitmaps freshVol freshState = some (0, 11) ∧
      (ext2AllocInode freshVol freshState).2 = 11 ∧
      bitmapBit inodeBitmaps freshVol freshState (ext2InodeBg freshVol 11)
        (ext2InodeBgIdx freshVol 11) = true ∧
      ¬Allocates freshVol freshState (ext2AllocInode freshVol freshState).1 11 := by
  have hused : bitmapBit inodeBitmaps freshVol freshState (ext2InodeBg freshVol 11)
      (ext2InodeBgIdx freshVol 11) = true := by decide +kernel
  refine ⟨by decide +kernel, by decide +kernel, hused, fun h => ?_⟩
  have hclear := h.before
  rw [hused] at hclear
  cases hclear

/-! ## Blocks -/

/-- Bit `b` of the bitmap of group `i` is the first one that is clear. -/
structure FirstClear (vol : Vol) (s : State) (i b : ℕ) : Prop where
  group_lt : i < vol.blkGrpCnt
  bit_lt : b < vol.blkSz * 8
  clear : bitmapBit blockBitmaps vol s i b = false
  set_before : ∀ x < b, bitmapBit blockBitmaps vol s i x = true
  groups_full : ∀ g < i, ∀ x < vol.blkSz * 8, bitmapBit blockBitmaps vol s g x = true

theorem firstClear_of_findFree (h : findFree blockBitmaps vol s = some (i, b)) :
    FirstClear vol s i b := by
  obtain ⟨hi, hscan, hbefore⟩ := findFree_some h
  obtain ⟨-, hb, hclear, hset⟩ := scanGroup_some hscan
  exact ⟨hi, hb, hclear, hset, fun g hg x hx => scanGroup_none (hbefore g hg) rfl hx⟩

theorem FirstClear.unique {i' b' : ℕ} (h : FirstClear vol s i b) (h' : FirstClear vol s i' b') :
    i = i' ∧ b = b' := by
  have hnot : ∀ {i b i' b'}, FirstClear vol s i b → FirstClear vol s i' b' → ¬i < i' := by
    intro i b i' b' h h' hlt
    have hset := h'.groups_full i hlt b h.bit_lt
    rw [h.clear] at hset
    cases hset
  have hi : i = i' := by
    have h₁ := hnot h h'
    have h₂ := hnot h' h
    omega
  subst hi
  have hnot' : ∀ {b b'}, FirstClear vol s i b → FirstClear vol s i b' → ¬b < b' := by
    intro b b' h h' hlt
    have hset := h'.set_before b hlt
    rw [h.clear] at hset
    cases hset
  have h₁ := hnot' h h'
  have h₂ := hnot' h' h
  exact ⟨rfl, by omega⟩

theorem FirstClear.findFree_eq (h : FirstClear vol s i b) :
    findFree blockBitmaps vol s = some (i, b) := by
  cases hfind : findFree blockBitmaps vol s with
  | none =>
    have hscan := firstSome_none hfind (Nat.zero_le i) (by rw [Nat.zero_add]; exact h.group_lt)
    have hset := scanGroup_none hscan rfl h.bit_lt
    rw [h.clear] at hset
    cases hset
  | some r =>
    obtain ⟨rfl, rfl⟩ := h.unique (firstClear_of_findFree hfind)
    rfl

theorem FirstClear.ext2AllocBlock_eq (h : FirstClear vol s i b) :
    ext2AllocBlock vol s =
      (takeBit blockBitmaps vol s i b, u32 (i * vol.blksPerGrp + b)) := allocBit_eq h.findFree_eq

/-- A bit of a block bitmap after another, or the same, has been taken. The descriptors may be
written over the bitmap, if that is in block 2. -/
theorem bitmapBit_takeBit (hvol : vol.Sized) (hb : b < vol.blkSz * 8) (hx : x < vol.blkSz * 8)
    (hout : s.blockBitmapAddr g = 2 → vol.blkGrpCnt * bgdSz ≤ x / 8) :
    bitmapBit blockBitmaps vol (takeBit blockBitmaps vol s i b) g x =
      (decide (s.blockBitmapAddr g = s.blockBitmapAddr i ∧ x = b) ||
        bitmapBit blockBitmaps vol s g x) := by
  have hxb : x / 8 < vol.blkSz := by omega
  have hbb : b / 8 < vol.blkSz := by omega
  have haway : ¬(2 * vol.blkSz ≤ s.blockBitmapAddr g * vol.blkSz + x / 8 ∧
      s.blockBitmapAddr g * vol.blkSz + x / 8 <
        2 * vol.blkSz + min (vol.blkGrpCnt * bgdSz) vol.blkSz) := by
    intro hin
    have htwo : s.blockBitmapAddr g = 2 := (hvol.mem_block_iff hxb).mp ⟨hin.1, by omega⟩
    have := hout htwo
    rw [htwo] at hin
    omega
  have hbyte : readBlock vol (takeBit blockBitmaps vol s i b).disk (s.blockBitmapAddr g) (x / 8) =
      Function.update s.disk (s.blockBitmapAddr i * vol.blkSz + b / 8)
        (s.disk (s.blockBitmapAddr i * vol.blkSz + b / 8) ||| mask (b % 8))
        (s.blockBitmapAddr g * vol.blkSz + x / 8) := by
    rw [hvol.readBlock_apply (blockBitmapAddr_lt s g) hxb]
    exact takeBit_disk hvol (blockBitmapAddr_lt s i) hb haway
  have hold : readBlock vol s.disk (s.blockBitmapAddr g) (x / 8) =
      s.disk (s.blockBitmapAddr g * vol.blkSz + x / 8) :=
    hvol.readBlock_apply (blockBitmapAddr_lt s g) hxb
  change bitAt (readBlock vol _ ((takeBit blockBitmaps vol s i b).blockBitmapAddr g)) x =
    (_ || bitAt (readBlock vol s.disk (s.blockBitmapAddr g)) x)
  rw [blockBitmapAddr_takeBit]
  by_cases haddr : s.blockBitmapAddr g = s.blockBitmapAddr i
  · have hset : readBlock vol (takeBit blockBitmaps vol s i b).disk (s.blockBitmapAddr g) (x / 8) =
        setAt (readBlock vol s.disk (s.blockBitmapAddr g)) b (x / 8) := by
      rw [hbyte, setAt, haddr]
      by_cases hdiv : x / 8 = b / 8
      · rw [hdiv, Function.update_self, Function.update_self,
          hvol.readBlock_apply (blockBitmapAddr_lt s i) hbb]
      · rw [Function.update_of_ne (by omega), Function.update_of_ne hdiv, ← haddr, hold]
    rw [bitAt_congr hset, bitAt_setAt]
    simp [haddr]
  · have hsame : readBlock vol (takeBit blockBitmaps vol s i b).disk (s.blockBitmapAddr g) (x / 8) =
        readBlock vol s.disk (s.blockBitmapAddr g) (x / 8) := by
      rw [hbyte, hold]
      exact Function.update_of_ne
        (fun heq => haddr ((hvol.byte_eq_iff hxb hbb).mp heq).1) _ _
    rw [bitAt_congr hsame]
    simp [haddr]

def blockBit (vol : Vol) (s : State) (n : ℕ) : Bool :=
  bitmapBit blockBitmaps vol s ((n - vol.firstDatBlock) / vol.blksPerGrp)
    ((n - vol.firstDatBlock) % vol.blksPerGrp)

/-- Block `n` was free and is taken, by the numbers that the bits stand for. -/
structure TakesBlock (vol : Vol) (s s' : State) (n : ℕ) : Prop where
  first_le : vol.firstDatBlock ≤ n
  group_lt : (n - vol.firstDatBlock) / vol.blksPerGrp < vol.blkGrpCnt
  before : blockBit vol s n = false
  after : blockBit vol s' n = true

/-- The block that `ext2_alloc_block` returns is the one whose bit it sets if the blocks are
numbered from 0, the bit stands for a block, and the descriptors are not written over it. With the
bitmaps in blocks of their own, outside block 2, the first two conditions are also necessary. -/
theorem ext2AllocBlock_standsFor (vol : Vol) (s : State) (i b : ℕ) (hvol : vol.Sized)
    (hper : 0 < vol.blksPerGrp) (hfirst : FirstClear vol s i b) :
    ((vol.firstDatBlock = 0 ∧ b < vol.blksPerGrp ∧ i * vol.blksPerGrp + b < 2 ^ 32) ∧
        (s.blockBitmapAddr i = 2 → vol.blkGrpCnt * bgdSz ≤ b / 8) →
      TakesBlock vol s (ext2AllocBlock vol s).1 (ext2AllocBlock vol s).2) ∧
    ((∀ g < vol.blkGrpCnt, s.blockBitmapAddr g ≠ 2 ∧
        ∀ g' < vol.blkGrpCnt, s.blockBitmapAddr g = s.blockBitmapAddr g' → g = g') →
      TakesBlock vol s (ext2AllocBlock vol s).1 (ext2AllocBlock vol s).2 →
      vol.firstDatBlock = 0 ∧ b < vol.blksPerGrp ∧ i * vol.blksPerGrp + b < 2 ^ 32) := by
  rw [hfirst.ext2AllocBlock_eq]
  dsimp only
  constructor
  · rintro ⟨⟨hzero, hb, hlt⟩, hout⟩
    have hdiv : (i * vol.blksPerGrp + b) / vol.blksPerGrp = i := by
      rw [Nat.mul_comm, Nat.mul_add_div hper, Nat.div_eq_of_lt hb, Nat.add_zero]
    have hmod : (i * vol.blksPerGrp + b) % vol.blksPerGrp = b := by
      rw [Nat.mul_comm, Nat.mul_add_mod, Nat.mod_eq_of_lt hb]
    rw [u32_of_lt hlt]
    refine ⟨by omega, ?_, ?_, ?_⟩
    · rw [hzero, Nat.sub_zero, hdiv]
      exact hfirst.group_lt
    · rw [blockBit, hzero, Nat.sub_zero, hdiv, hmod]
      exact hfirst.clear
    · rw [blockBit, hzero, Nat.sub_zero, hdiv, hmod,
        bitmapBit_takeBit hvol hfirst.bit_lt hfirst.bit_lt hout]
      simp
  · intro hbitmaps htakes
    obtain ⟨hle, hgroup, hbefore, hafter⟩ := htakes
    rw [blockBit] at hbefore hafter
    set n := u32 (i * vol.blksPerGrp + b) with hn
    set g := (n - vol.firstDatBlock) / vol.blksPerGrp with hg
    set x := (n - vol.firstDatBlock) % vol.blksPerGrp with hx
    -- the bit was clear and is set, so it is the one that was taken
    have htaken : s.blockBitmapAddr g = s.blockBitmapAddr i ∧ x = b := by
      by_contra hne
      by_cases hin : x < vol.blkSz * 8
      · have hout : s.blockBitmapAddr g = 2 → vol.blkGrpCnt * bgdSz ≤ x / 8 :=
          fun htwo => absurd htwo (hbitmaps g hgroup).1
        rw [bitmapBit_takeBit hvol hfirst.bit_lt hin hout, decide_eq_false hne, hbefore] at hafter
        cases hafter
      · rw [bitmapBit, bitAt, hvol.readBlock_beyond (by omega)] at hafter
        simp [bit] at hafter
    have hgi : g = i := (hbitmaps g hgroup).2 i hfirst.group_lt htaken.1
    have hsplit := Nat.div_add_mod' (n - vol.firstDatBlock) vol.blksPerGrp
    have hxlt : x < vol.blksPerGrp := Nat.mod_lt _ hper
    have hnle : n ≤ i * vol.blksPerGrp + b := Nat.mod_le _ _
    have hnlt : n < 2 ^ 32 := u32_lt _
    rw [← hg, ← hx, hgi, htaken.2] at hsplit
    omega

theorem freshVol_sized : freshVol.Sized := ⟨by decide, by decide⟩

def wideVol : Vol := { freshVol with blkSz := 2048, firstDatBlock := 0, logBlockSz := 1 }

def wideState : State where
  disk := bytesAt (3 * 2048) [0xff, 1]
  blkGrps := bytesAt 0 freshBgd

theorem ext2AllocBlock_standsFor_wide :
    FirstClear wideVol wideState 0 9 ∧
      TakesBlock wideVol wideState (ext2AllocBlock wideVol wideState).1
        (ext2AllocBlock wideVol wideState).2 := by
  have hfirst : FirstClear wideVol wideState 0 9 :=
    ⟨by decide, by decide, by decide +kernel, by decide +kernel, by decide⟩
  have hsized : wideVol.Sized := ⟨by decide, by decide⟩
  exact ⟨hfirst,
    (ext2AllocBlock_standsFor wideVol wideState 0 9 hsized (by decide) hfirst).1
      ⟨by decide +kernel, by decide +kernel⟩⟩

/-- On a volume with blocks of 1 KiB, block 9 is in use, and is returned as a new block. -/
theorem ext2AllocBlock_returns_used :
    FirstClear freshVol freshState 0 9 ∧ (ext2AllocBlock freshVol freshState).2 = 9 ∧
      blockBit freshVol freshState 9 = true ∧
      ¬TakesBlock freshVol freshState (ext2AllocBlock freshVol freshState).1 9 := by
  have hfirst : FirstClear freshVol freshState 0 9 :=
    ⟨by decide, by decide, by decide +kernel, by decide +kernel, by decide⟩
  have hused : blockBit freshVol freshState 9 = true := by decide +kernel
  refine ⟨hfirst, by decide +kernel, hused, fun h => ?_⟩
  have hclear := h.before
  rw [hused] at hclear
  cases hclear

end KernelOld.Ext2
