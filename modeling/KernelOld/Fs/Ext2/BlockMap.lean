import KernelOld.Fs.Ext2.Footprint
import KernelOld.Lib.Trace

/-!
# Block maps

`ext2_get_inode_blk` with the blocks it reads and the elements of them that it uses. It returns 0
for a block that is not there, and looks for pointers in block 0 when a block of pointers is not;
its callers take what they get for the number of a block.
-/

namespace KernelOld.Ext2
open ByteMemory MachineWord Trace

/-! ## Lookups with their accesses -/

/-- What a lookup does to the disk and its buffers: it reads a block, or uses an element of the
last one. -/
inductive PointerAccess
  | read (blk : ℕ)
  | index (k : ℕ)
  deriving DecidableEq

/-- `ext2_get_inode_blk` with its accesses. The subtractions, like the two bounds, are 32-bit. -/
def getInodeBlk (vol : Vol) (disk : Mem) (idx : ℕ) (ino : Mem) : Traced PointerAccess ℕ :=
  let bpp := vol.blkSz / 4
  if idx < 12 then pure (inoBlock ino idx)
  else if idx < dindStrt vol then do
    .emit (.read (inoBlock ino 12))
    .emit (.index (sub32 idx 12))
    pure (entry vol disk (inoBlock ino 12) (sub32 idx 12))
  else if idx < tindStrt vol then do
    .emit (.read (inoBlock ino 13))
    .emit (.index (sub32 idx (dindStrt vol) / bpp))
    let blkPtr := entry vol disk (inoBlock ino 13) (sub32 idx (dindStrt vol) / bpp)
    .emit (.read blkPtr)
    .emit (.index (sub32 idx (dindStrt vol) % bpp))
    pure (entry vol disk blkPtr (sub32 idx (dindStrt vol) % bpp))
  else pure 0

def word (vol : Vol) (disk : Mem) (blk k : ℕ) : ℕ := load disk (blk * vol.blkSz + 4 * k) 4

variable {vol : Vol} {disk ino : Mem} {idx blk k : ℕ}

theorem result_getInodeBlk (hidx : idx < 2 ^ 32) :
    (getInodeBlk vol disk idx ino).result = some (ext2GetInodeBlk vol disk idx ino) := by
  rw [getInodeBlk, ext2GetInodeBlk]
  dsimp only
  by_cases h12 : idx < 12
  · rw [if_pos h12, if_pos h12]
    rfl
  rw [if_neg h12, if_neg h12]
  by_cases hd : idx < dindStrt vol
  · rw [if_pos hd, if_pos hd, sub32_of_le hidx (Nat.le_of_not_lt h12)]
    rfl
  rw [if_neg hd, if_neg hd]
  by_cases ht : idx < tindStrt vol
  · rw [if_pos ht, if_pos ht, sub32_of_le hidx (Nat.le_of_not_lt hd)]
    rfl
  · rw [if_neg ht, if_neg ht]
    rfl

theorem entry_eq_word (hvol : vol.Sized) (hblk : blk < 2 ^ 32) (hk : k < vol.blkSz / 4) :
    entry vol disk blk k = word vol disk blk k := by
  apply load_eq_of_bytes
  intro i hi
  rw [hvol.readBlock_apply hblk (by omega), Nat.add_assoc]

theorem getInodeBlk_direct (hidx : idx < 12) :
    getInodeBlk vol disk idx ino = ⟨[], some (inoBlock ino idx)⟩ := if_pos hidx

section Bounds
variable (hvol : vol.Sized) (hlog : vol.logBlockSz ≤ 6)
include hvol hlog

theorem blkSz_le_of_log : vol.blkSz ≤ 65536 := by
  rw [hvol.blkSz_eq]
  have hpow : 2 ^ vol.logBlockSz ≤ 2 ^ 6 := Nat.pow_le_pow_right (by decide) hlog
  omega

theorem pointers_sq_le : vol.blkSz / 4 * (vol.blkSz / 4) ≤ 2 ^ 28 := by
  have hle := blkSz_le_of_log hvol hlog
  have hp : vol.blkSz / 4 ≤ 2 ^ 14 := by omega
  calc vol.blkSz / 4 * (vol.blkSz / 4) ≤ 2 ^ 14 * 2 ^ 14 := Nat.mul_le_mul hp hp
    _ = 2 ^ 28 := by norm_num

theorem dindStrt_eq : dindStrt vol = 12 + vol.blkSz / 4 := by
  have hle := blkSz_le_of_log hvol hlog
  exact u32_of_lt (by omega)

theorem tindStrt_eq :
    tindStrt vol = 12 + vol.blkSz / 4 + vol.blkSz / 4 * (vol.blkSz / 4) := by
  have hle := blkSz_le_of_log hvol hlog
  have hsq := pointers_sq_le hvol hlog
  rw [tindStrt, dindStrt_eq hvol hlog, u32_of_lt (lt_of_le_of_lt hsq (by decide)),
    u32_of_lt (by omega)]

theorem getInodeBlk_sind (hlo : 12 ≤ idx) (hhi : idx < 12 + vol.blkSz / 4) :
    getInodeBlk vol disk idx ino =
      ⟨[.read (inoBlock ino 12), .index (idx - 12)],
        some (word vol disk (inoBlock ino 12) (idx - 12))⟩ := by
  have hd : idx < dindStrt vol := by rwa [dindStrt_eq hvol hlog]
  have hidx : idx < 2 ^ 32 := lt_trans hd (u32_lt _)
  rw [getInodeBlk]
  dsimp only
  rw [if_neg (Nat.not_lt.mpr hlo), if_pos hd, sub32_of_le hidx hlo,
    entry_eq_word hvol (inoBlock_lt ino 12) (by omega)]
  rfl

theorem getInodeBlk_dind {j blkPtr : ℕ} (hlo : 12 + vol.blkSz / 4 ≤ idx)
    (hhi : idx < 12 + vol.blkSz / 4 + vol.blkSz / 4 * (vol.blkSz / 4))
    (hj : j = idx - 12 - vol.blkSz / 4)
    (hptr : blkPtr = word vol disk (inoBlock ino 13) (j / (vol.blkSz / 4))) :
    getInodeBlk vol disk idx ino =
      ⟨[.read (inoBlock ino 13), .index (j / (vol.blkSz / 4)), .read blkPtr,
        .index (j % (vol.blkSz / 4))], some (word vol disk blkPtr (j % (vol.blkSz / 4)))⟩ := by
  have hd : ¬idx < dindStrt vol := by
    rw [dindStrt_eq hvol hlog]
    exact Nat.not_lt.mpr hlo
  have ht : idx < tindStrt vol := by rwa [tindStrt_eq hvol hlog]
  have hidx : idx < 2 ^ 32 := lt_trans ht (u32_lt _)
  have hsub : sub32 idx (dindStrt vol) = j := by
    rw [sub32_of_le hidx (Nat.le_of_not_lt hd), dindStrt_eq hvol hlog, hj, Nat.sub_sub]
  have hpos : 0 < vol.blkSz / 4 := Nat.div_pos (le_trans (by decide) hvol.le) (by decide)
  have hquot : j / (vol.blkSz / 4) < vol.blkSz / 4 := Nat.div_lt_of_lt_mul (by omega)
  have hrem : j % (vol.blkSz / 4) < vol.blkSz / 4 := Nat.mod_lt j hpos
  have hblk : blkPtr < 2 ^ 32 := hptr ▸ load_lt_u32 _ _
  rw [getInodeBlk]
  dsimp only
  rw [if_neg (by omega), if_neg hd, if_pos ht, hsub,
    entry_eq_word hvol (inoBlock_lt ino 13) hquot, ← hptr, entry_eq_word hvol hblk hrem]
  rfl

theorem getInodeBlk_beyond
    (hidx : 12 + vol.blkSz / 4 + vol.blkSz / 4 * (vol.blkSz / 4) ≤ idx) :
    getInodeBlk vol disk idx ino = ⟨[], some 0⟩ := by
  have hd : ¬idx < dindStrt vol := by
    rw [dindStrt_eq hvol hlog]
    omega
  have ht : ¬idx < tindStrt vol := by
    rw [tindStrt_eq hvol hlog]
    exact Nat.not_lt.mpr hidx
  rw [getInodeBlk]
  dsimp only
  rw [if_neg (by omega), if_neg hd, if_neg ht]
  rfl

theorem index_lt_of_mem (hk : .index k ∈ (getInodeBlk vol disk idx ino).events) :
    k < vol.blkSz / 4 := by
  have hpos : 0 < vol.blkSz / 4 := Nat.div_pos (le_trans (by decide) hvol.le) (by decide)
  rcases Nat.lt_or_ge idx 12 with h12 | h12
  · rw [getInodeBlk_direct h12] at hk
    cases hk
  rcases Nat.lt_or_ge idx (12 + vol.blkSz / 4) with hd | hd
  · rw [getInodeBlk_sind hvol hlog h12 hd] at hk
    obtain rfl : k = idx - 12 := by simpa using hk
    omega
  rcases Nat.lt_or_ge idx (12 + vol.blkSz / 4 + vol.blkSz / 4 * (vol.blkSz / 4)) with ht | ht
  · rw [getInodeBlk_dind hvol hlog hd ht rfl rfl] at hk
    obtain rfl | rfl : k = _ ∨ k = _ := by simpa using hk
    · exact Nat.div_lt_of_lt_mul (by omega)
    · exact Nat.mod_lt _ hpos
  · rw [getInodeBlk_beyond hvol hlog ht] at hk
    cases hk

end Bounds

/-- Blocks are looked up by following the tree of pointers: with `p` words in a block, 12 indices
are direct, the next `p` singly and the next `p * p` doubly indirect. For greater ones the result is
0 and nothing is read. No element behind a block is used, and nothing exceeds 32 bits. -/
theorem ext2GetInodeBlk_follows (vol : Vol) (disk ino : Mem) (hvol : vol.Sized)
    (hlog : vol.logBlockSz ≤ 6) :
    (∀ idx < 2 ^ 32,
      (getInodeBlk vol disk idx ino).result = some (ext2GetInodeBlk vol disk idx ino)) ∧
    (∀ idx < 12, getInodeBlk vol disk idx ino = ⟨[], some (inoBlock ino idx)⟩) ∧
    (∀ idx, 12 ≤ idx → idx < 12 + vol.blkSz / 4 →
      getInodeBlk vol disk idx ino =
        ⟨[.read (inoBlock ino 12), .index (idx - 12)],
          some (word vol disk (inoBlock ino 12) (idx - 12))⟩) ∧
    (∀ idx, 12 + vol.blkSz / 4 ≤ idx →
      idx < 12 + vol.blkSz / 4 + vol.blkSz / 4 * (vol.blkSz / 4) →
      ∀ j, j = idx - 12 - vol.blkSz / 4 → ∀ blkPtr,
        blkPtr = word vol disk (inoBlock ino 13) (j / (vol.blkSz / 4)) →
        getInodeBlk vol disk idx ino =
          ⟨[.read (inoBlock ino 13), .index (j / (vol.blkSz / 4)), .read blkPtr,
            .index (j % (vol.blkSz / 4))], some (word vol disk blkPtr (j % (vol.blkSz / 4)))⟩) ∧
    (∀ idx, 12 + vol.blkSz / 4 + vol.blkSz / 4 * (vol.blkSz / 4) ≤ idx →
      getInodeBlk vol disk idx ino = ⟨[], some 0⟩) ∧
    (∀ idx k, .index k ∈ (getInodeBlk vol disk idx ino).events → k < vol.blkSz / 4) ∧
    12 + vol.blkSz / 4 + vol.blkSz / 4 * (vol.blkSz / 4) < 2 ^ 32 := by
  refine ⟨fun idx hidx => result_getInodeBlk hidx, fun idx hidx => getInodeBlk_direct hidx,
    fun idx hlo hhi => getInodeBlk_sind hvol hlog hlo hhi, ?_,
    fun idx hidx => getInodeBlk_beyond hvol hlog hidx,
    fun idx k hk => index_lt_of_mem hvol hlog hk, ?_⟩
  · intro idx hlo hhi j hj blkPtr hptr
    exact getInodeBlk_dind hvol hlog hlo hhi hj hptr
  · rw [← tindStrt_eq hvol hlog]
    exact u32_lt _

/-- An inode with `blocks[12] = 7`, on a disk where block 7 begins with a pointer to block 9. -/
theorem ext2GetInodeBlk_follows_indirect :
    freshVol.Sized ∧
      getInodeBlk freshVol (bytesAt (7 * 1024) [9]) 12 (bytesAt 88 [7]) =
        ⟨[.read 7, .index 0], some 9⟩ := by
  have h := (ext2GetInodeBlk_follows freshVol (bytesAt (7 * 1024) [9]) (bytesAt 88 [7])
    freshVol_sized (by decide)).2.2.1 12 (by decide) (by decide)
  have hptr : inoBlock (bytesAt 88 [7]) 12 = 7 := by decide +kernel
  have hword : word freshVol (bytesAt (7 * 1024) [9]) 7 0 = 9 := by decide +kernel
  rw [hptr, Nat.sub_self, hword] at h
  exact ⟨freshVol_sized, h⟩

/-! ## Holes -/

/-- A pointer on the way to the block is 0, or the index is too great for two levels. -/
def IsHole (vol : Vol) (disk : Mem) (idx : ℕ) (ino : Mem) : Prop :=
  if idx < 12 then inoBlock ino idx = 0
  else if idx < dindStrt vol then
    inoBlock ino 12 = 0 ∨ entry vol disk (inoBlock ino 12) (idx - 12) = 0
  else if idx < tindStrt vol then
    inoBlock ino 13 = 0 ∨
      entry vol disk (inoBlock ino 13) ((idx - dindStrt vol) / (vol.blkSz / 4)) = 0 ∨
      entry vol disk
        (entry vol disk (inoBlock ino 13) ((idx - dindStrt vol) / (vol.blkSz / 4)))
        ((idx - dindStrt vol) % (vol.blkSz / 4)) = 0
  else True

theorem isHole_iff_not_mapped : IsHole vol disk idx ino ↔ ¬Mapped vol disk idx ino := by
  rw [IsHole, Mapped, ext2GetInodeBlk, pointerBlocks]
  dsimp only
  split_ifs
  · simp
  · simp only [List.mem_singleton, not_and_or, not_not, @eq_comm ℕ 0]
    exact or_comm
  · simp only [List.mem_cons, List.not_mem_nil, or_false, not_and_or, not_not, @eq_comm ℕ 0]
    rw [← or_assoc, or_comm]
  · simp

/-- A hole reads as zeros, and a write to it does not go to block 0. -/
def HoleSparesBlockZero (vol : Vol) (disk : Mem) (idx : ℕ) (ino : Mem) : Prop :=
  (∀ x < vol.blkSz, ext2ReadInodeBlk vol disk idx ino x = 0) ∧
    ∀ buffer a, InBlock vol 0 a → ext2WriteInodeBlk vol disk idx ino buffer a = disk a

/-- Block 0 is written to when the lookup returns 0. A hole is harmless only if the lookup went
through block 0 for a missing block of pointers, and found the number of a block of zeros. -/
theorem hole_spares_block_zero_iff (vol : Vol) (disk : Mem) (idx : ℕ) (ino : Mem)
    (hvol : vol.Sized) (hhole : IsHole vol disk idx ino) :
    HoleSparesBlockZero vol disk idx ino ↔
      0 ∈ pointerBlocks vol disk idx ino ∧ ext2GetInodeBlk vol disk idx ino ≠ 0 ∧
        ∀ a, InBlock vol (ext2GetInodeBlk vol disk idx ino) a → disk a = 0 := by
  have hlt := ext2GetInodeBlk_lt vol disk idx ino
  have hpos := hvol.pos
  constructor
  · rintro ⟨hzeros, hkeeps⟩
    have hne : ext2GetInodeBlk vol disk idx ino ≠ 0 := by
      intro heq
      -- a buffer that differs from block 0 in its first byte
      have hkept := hkeeps (fun x => disk x + 1) 0 ⟨by omega, by omega⟩
      have hwritten : writeBlock vol disk 0 (fun x => disk x + 1) (0 * vol.blkSz + 0) =
          disk 0 + 1 := hvol.writeBlock_apply_of_mem (by decide) hpos
      rw [ext2WriteInodeBlk, heq] at hkept
      rw [Nat.zero_mul, Nat.zero_add, hkept] at hwritten
      simp at hwritten
    refine ⟨?_, hne, fun a ha => ?_⟩
    · by_contra hpointers
      exact isHole_iff_not_mapped.mp hhole ⟨hne, hpointers⟩
    · obtain ⟨x, rfl⟩ := Nat.exists_eq_add_of_le ha.1
      have hx : x < vol.blkSz := by
        have := ha.2
        omega
      exact (hvol.readBlock_apply hlt hx).symm.trans (hzeros x hx)
  · rintro ⟨-, hne, hzero⟩
    refine ⟨fun x hx => ?_, fun buffer a ha => ?_⟩
    · rw [ext2ReadInodeBlk, hvol.readBlock_apply hlt hx]
      exact hzero _ ⟨by omega, by omega⟩
    · apply hvol.writeBlock_apply_of_notMem hlt
      by_contra hin
      exact hne (inBlock_unique hvol ⟨by omega, by omega⟩ ha)

/-- There is no block of pointers for index 12, and block 0 begins with the number of block 9,
which is empty. -/
theorem hole_spares_block_zero_astray :
    IsHole freshVol (bytesAt 0 [9]) 12 newBuf ∧
      HoleSparesBlockZero freshVol (bytesAt 0 [9]) 12 newBuf := by
  have hhole : IsHole freshVol (bytesAt 0 [9]) 12 newBuf := Or.inl (by decide +kernel)
  have hblk : ext2GetInodeBlk freshVol (bytesAt 0 [9]) 12 newBuf = 9 := by decide +kernel
  have hiff := hole_spares_block_zero_iff freshVol (bytesAt 0 [9]) 12 newBuf freshVol_sized hhole
  refine ⟨hhole, hiff.mpr ⟨by decide +kernel, by rw [hblk]; decide, fun a ha => ?_⟩⟩
  rw [hblk] at ha
  have hlo : 9 * 1024 ≤ a := ha.1
  obtain ⟨b, rfl⟩ := Nat.exists_eq_add_of_le' (show 1 ≤ a by omega)
  rfl

/-- The direct pointers are 0. Index 0 is read from block 0, whose first byte is not 0. -/
theorem hole_reads_block_zero :
    IsHole freshVol (bytesAt 0 [9]) 0 newBuf ∧
      ext2ReadInodeBlk freshVol (bytesAt 0 [9]) 0 newBuf 0 = 9 ∧
      ext2WriteInodeBlk freshVol (bytesAt 0 [9]) 0 newBuf newBuf 0 = 0 ∧
      ¬HoleSparesBlockZero freshVol (bytesAt 0 [9]) 0 newBuf := by
  have hread : ext2ReadInodeBlk freshVol (bytesAt 0 [9]) 0 newBuf 0 = 9 := by decide +kernel
  have hptr : inoBlock newBuf 0 = 0 := by decide +kernel
  refine ⟨hptr, hread, by decide +kernel, fun h => ?_⟩
  rw [h.1 0 (by decide)] at hread
  exact absurd hread (by decide)

end KernelOld.Ext2
