import KernelOld.Fs.Ext2.Volume

/-!
# Allocation of blocks and inodes

`ext2_alloc_block` and `ext2_alloc_inode` set the first clear bit in the bitmaps of the groups,
count it in the group descriptor and write the descriptors back. The second passes over groups
without free inodes.
-/

namespace KernelOld.Ext2
open ByteMemory MachineWord BitArray Function

structure BitmapKind where
  /-- The block with the bitmap of a group. -/
  addr : State → ℕ → ℕ
  /-- The groups that are passed over. -/
  skip : State → ℕ → Bool
  /-- The offset of the free counter in a group descriptor. -/
  free : ℕ
  perGrp : Vol → ℕ

def blockBitmaps : BitmapKind where
  addr := State.blockBitmapAddr
  skip _ _ := false
  free := 12
  perGrp := Vol.blksPerGrp

def inodeBitmaps : BitmapKind where
  addr := State.inodeBitmapAddr
  skip s i := s.freeInodes i == 0
  free := 16
  perGrp := Vol.inodesPerGrp

section

variable (kind : BitmapKind) (vol : Vol) (s : State)

def scanGroup (i : ℕ) : Option ℕ :=
  if kind.skip s i then none
  else findClear (readBlock vol s.disk (kind.addr s i)) vol.blkSz 0

def findFree : Option (ℕ × ℕ) := firstSome (scanGroup kind vol s) vol.blkGrpCnt 0

def decFree (i : ℕ) : State :=
  { s with
    blkGrps := store s.blkGrps (bgdSz * i + kind.free) 4
      (sub32 (load s.blkGrps (bgdSz * i + kind.free) 4) 1) }

def takeBit (i b : ℕ) : State :=
  let grp := kind.addr s i
  let buf := setAt (readBlock vol s.disk grp) b
  let s := { s with disk := writeBlock vol s.disk grp buf }
  ext2RewriteBgds vol (decFree kind s i)

def allocBit : State × ℕ :=
  match findFree kind vol s with
  | some (i, b) => (takeBit kind vol s i b, u32 (i * kind.perGrp vol + b))
  | none => (s, 0)

end

def ext2AllocBlock (vol : Vol) (s : State) : State × ℕ := allocBit blockBitmaps vol s

def ext2AllocInode (vol : Vol) (s : State) : State × ℕ := allocBit inodeBitmaps vol s

variable {kind : BitmapKind} {vol : Vol} {s s' : State} {i j b g x a w : ℕ}

/-! ## The bit that is found -/

def bitmapBit (kind : BitmapKind) (vol : Vol) (s : State) (g x : ℕ) : Bool :=
  bitAt (readBlock vol s.disk (kind.addr s g)) x

theorem scanGroup_some (h : scanGroup kind vol s i = some b) :
    kind.skip s i = false ∧ b < vol.blkSz * 8 ∧ bitmapBit kind vol s i b = false ∧
      ∀ x < b, bitmapBit kind vol s i x = true := by
  rw [scanGroup] at h
  by_cases hskip : kind.skip s i = true
  · rw [if_pos hskip] at h
    cases h
  · rw [if_neg hskip] at h
    obtain ⟨-, hlt, hclear, hset⟩ := findClear_some h
    rw [Nat.zero_add] at hlt
    exact ⟨by simpa using hskip, hlt, hclear, fun x hx => hset x (by omega) hx⟩

theorem scanGroup_none (h : scanGroup kind vol s i = none) (hskip : kind.skip s i = false)
    (hx : x < vol.blkSz * 8) : bitmapBit kind vol s i x = true := by
  rw [scanGroup, if_neg (by simp [hskip])] at h
  exact findClear_none h (by omega) (by omega)

theorem findFree_some (h : findFree kind vol s = some (i, b)) :
    i < vol.blkGrpCnt ∧ scanGroup kind vol s i = some b ∧
      ∀ g < i, scanGroup kind vol s g = none := by
  obtain ⟨-, hi, hscan, hbefore⟩ := firstSome_some h
  exact ⟨by omega, hscan, fun g hg => hbefore g (Nat.zero_le g) hg⟩

theorem allocBit_eq (h : findFree kind vol s = some (i, b)) :
    allocBit kind vol s = (takeBit kind vol s i b, u32 (i * kind.perGrp vol + b)) := by
  rw [allocBit, h]

/-! ## What is written -/

theorem ext2RewriteBgds_blkGrps : (ext2RewriteBgds vol s).blkGrps = s.blkGrps := rfl

theorem ext2RewriteBgds_disk (hvol : vol.Sized) (a : ℕ) :
    (ext2RewriteBgds vol s).disk a =
      if 2 * vol.blkSz ≤ a ∧ a < 2 * vol.blkSz + min (vol.blkGrpCnt * bgdSz) vol.blkSz then
        s.blkGrps (a - 2 * vol.blkSz)
      else s.disk a := by
  have hsec := hvol.sectors
  have hloc : 512 * u32 (2 * (vol.blkSz / 512)) = 2 * vol.blkSz := by
    have := hvol.lt
    rw [u32_of_lt (by omega)]
    omega
  rw [ext2RewriteBgds]
  simp only [devWrite, devRead, hloc, hsec]
  by_cases hblock : 2 * vol.blkSz ≤ a ∧ a < 2 * vol.blkSz + vol.blkSz
  · rw [blit_apply_of_mem hblock.1 hblock.2, Nat.zero_add]
    by_cases hbgd : a - 2 * vol.blkSz < vol.blkGrpCnt * bgdSz
    · rw [if_pos (by omega), blit_apply_of_mem (Nat.zero_le _) (by omega)]
      congr 1
      omega
    · rw [if_neg (by omega), blit_apply_of_notMem (by omega),
        blit_apply_of_mem (Nat.zero_le _) (by omega)]
      congr 1
      omega
  · rw [blit_apply_of_notMem (by omega), if_neg (by omega)]

theorem writeBlock_setAt {disk : Mem} {blk : ℕ} (hvol : vol.Sized) (hblk : blk < 2 ^ 32)
    (hb : b < vol.blkSz * 8) :
    writeBlock vol disk blk (setAt (readBlock vol disk blk) b) =
      update disk (blk * vol.blkSz + b / 8)
        (disk (blk * vol.blkSz + b / 8) ||| mask (b % 8)) := by
  have hbyte : b / 8 < vol.blkSz := by omega
  funext a
  by_cases hin : blk * vol.blkSz ≤ a ∧ a < blk * vol.blkSz + vol.blkSz
  · obtain ⟨x, rfl⟩ := Nat.exists_eq_add_of_le hin.1
    have hx : x < vol.blkSz := by omega
    rw [hvol.writeBlock_apply_of_mem hblk hx, setAt]
    by_cases hxb : x = b / 8
    · subst hxb
      rw [update_self, update_self, hvol.readBlock_apply hblk hx]
    · rw [update_of_ne hxb, update_of_ne (by omega),
        hvol.readBlock_apply hblk hx]
  · rw [hvol.writeBlock_apply_of_notMem hblk (by omega), update_of_ne (by omega)]

theorem takeBit_blkGrps (kind : BitmapKind) (vol : Vol) (s : State) (i b : ℕ) :
    (takeBit kind vol s i b).blkGrps =
      store s.blkGrps (bgdSz * i + kind.free) 4
        (sub32 (load s.blkGrps (bgdSz * i + kind.free) 4) 1) := rfl

theorem takeBit_load (h : Apart (bgdSz * i + kind.free) 4 a w) :
    load (takeBit kind vol s i b).blkGrps a w = load s.blkGrps a w := by
  rw [takeBit_blkGrps, load_store_of_apart h]

theorem load_lt_u32 (m : Mem) (a : ℕ) : load m a 4 < 2 ^ 32 :=
  lt_of_lt_of_eq (load_lt m a 4) (by norm_num)

/-- Apart from the bit that is taken, the disk changes only where the descriptors go. -/
theorem takeBit_disk (hvol : vol.Sized) (haddr : kind.addr s i < 2 ^ 32)
    (hb : b < vol.blkSz * 8)
    (ha : ¬(2 * vol.blkSz ≤ a ∧ a < 2 * vol.blkSz + min (vol.blkGrpCnt * bgdSz) vol.blkSz)) :
    (takeBit kind vol s i b).disk a =
      update s.disk (kind.addr s i * vol.blkSz + b / 8)
        (s.disk (kind.addr s i * vol.blkSz + b / 8) ||| mask (b % 8)) a := by
  rw [takeBit, ext2RewriteBgds_disk hvol, if_neg ha, ← writeBlock_setAt hvol haddr hb]
  rfl

theorem allocBit_cases (kind : BitmapKind) (vol : Vol) (s : State) :
    (∃ i b, findFree kind vol s = some (i, b) ∧ i < vol.blkGrpCnt ∧ b < vol.blkSz * 8 ∧
        allocBit kind vol s = (takeBit kind vol s i b, u32 (i * kind.perGrp vol + b))) ∨
      findFree kind vol s = none ∧ allocBit kind vol s = (s, 0) := by
  cases hfind : findFree kind vol s with
  | none => exact Or.inr ⟨rfl, by rw [allocBit, hfind]⟩
  | some r =>
    obtain ⟨i, b⟩ := r
    obtain ⟨hi, hscan, -⟩ := findFree_some hfind
    obtain ⟨-, hb, -, -⟩ := scanGroup_some hscan
    exact Or.inl ⟨i, b, rfl, hi, hb, allocBit_eq hfind⟩

theorem allocBit_disk (hvol : vol.Sized) (haddr : ∀ g, kind.addr s g < 2 ^ 32)
    (hbitmap : ∀ g < vol.blkGrpCnt, ¬InBlock vol (kind.addr s g) a)
    (hbgds : ¬(2 * vol.blkSz ≤ a ∧
      a < 2 * vol.blkSz + min (vol.blkGrpCnt * bgdSz) vol.blkSz)) :
    (allocBit kind vol s).1.disk a = s.disk a := by
  rcases allocBit_cases kind vol s with ⟨i, b, -, hi, hb, heq⟩ | ⟨-, heq⟩
  · have hne : a ≠ kind.addr s i * vol.blkSz + b / 8 := by
      rintro rfl
      exact hbitmap i hi ⟨by omega, by omega⟩
    rw [heq]
    exact (takeBit_disk hvol (haddr i) hb hbgds).trans (update_of_ne hne _ _)
  · rw [heq]

theorem allocBit_load (h : ∀ i, Apart (bgdSz * i + kind.free) 4 a w) :
    load (allocBit kind vol s).1.blkGrps a w = load s.blkGrps a w := by
  rcases allocBit_cases kind vol s with ⟨i, b, -, -, -, heq⟩ | ⟨-, heq⟩
  · rw [heq]
    exact takeBit_load (h i)
  · rw [heq]

theorem allocBit_lt : (allocBit kind vol s).2 < 2 ^ 32 := by
  rcases allocBit_cases kind vol s with ⟨i, b, -, -, -, heq⟩ | ⟨-, heq⟩
  · rw [heq]
    exact u32_lt _
  · rw [heq]
    exact Nat.two_pow_pos 32

end KernelOld.Ext2
