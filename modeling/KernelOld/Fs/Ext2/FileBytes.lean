import KernelOld.Fs.Ext2.Footprint

/-!
# The bytes of a file

What a file holds, and how `ext2_read` and `ext2_write` cut a range of it into one chunk for each
block. A range that begins and ends inside one block is cut wrongly: the last chunk is given the
length that it would have if it began with the block.
-/

namespace KernelOld.Ext2
open ByteMemory MachineWord

instance (vol : Vol) (disk : Mem) (idx : ℕ) (ino : Mem) : Decidable (Mapped vol disk idx ino) :=
  inferInstanceAs (Decidable (_ ∧ _))

/-- Byte `k` of the file with inode `num`. Blocks that are not there are zeros. -/
def fileByte (vol : Vol) (s : State) (num k : ℕ) : UInt8 :=
  let ino := ext2ReadInode vol s num newBuf
  if Mapped vol s.disk (k / vol.blkSz) ino then
    s.disk (ext2GetInodeBlk vol s.disk (k / vol.blkSz) ino * vol.blkSz + k % vol.blkSz)
  else 0

/-- Every block of the first `len` bytes of the file is there. -/
def Allocated (vol : Vol) (s : State) (num len : ℕ) : Prop :=
  ∀ i, i * vol.blkSz < len → Mapped vol s.disk i (ext2ReadInode vol s num newBuf)

/-- A range that is copied as it should be: it begins with a block, or ends in another one than
it begins in. -/
def CutsExactly (vol : Vol) (off stop : ℕ) : Prop :=
  off % vol.blkSz = 0 ∨ off / vol.blkSz < stop / vol.blkSz

instance (vol : Vol) (off stop : ℕ) : Decidable (CutsExactly vol off stop) :=
  inferInstanceAs (Decidable (_ ∨ _))

variable {vol : Vol} {s : State} {disk ino : Mem} {off stop len num idx i k n x : ℕ}

/-! ## Blocks of a file -/

theorem fileByte_of_mapped (hmapped : Mapped vol s.disk i (ext2ReadInode vol s num newBuf))
    (hx : x < vol.blkSz) :
    fileByte vol s num (i * vol.blkSz + x) =
      s.disk (ext2GetInodeBlk vol s.disk i (ext2ReadInode vol s num newBuf) * vol.blkSz + x) := by
  have hdiv : (i * vol.blkSz + x) / vol.blkSz = i := by
    rw [Nat.mul_comm, Nat.mul_add_div (by omega), Nat.div_eq_of_lt hx, Nat.add_zero]
  have hmod : (i * vol.blkSz + x) % vol.blkSz = x := by
    rw [Nat.mul_comm, Nat.mul_add_mod, Nat.mod_eq_of_lt hx]
  rw [fileByte, hdiv, hmod]
  exact if_pos hmapped

theorem ext2GetInodeBlk_beyond (hidx : tindStrt vol ≤ idx) (h12 : 12 ≤ idx)
    (hd : dindStrt vol ≤ idx) : ext2GetInodeBlk vol disk idx ino = 0 := by
  rw [ext2GetInodeBlk]
  dsimp only
  rw [if_neg (by omega), if_neg (by omega), if_neg (by omega)]

/-- There are no blocks behind the doubly indirect ones. The end of these is an even number, also
when it wraps. -/
theorem Mapped.lt (hvol : vol.Sized) (h : Mapped vol disk idx ino) : idx + 2 < 2 ^ 32 := by
  by_contra hbig
  have hdvd := hvol.dvd
  have hlt := hvol.lt
  have hdind : dindStrt vol = 12 + vol.blkSz / 4 := u32_of_lt (by omega)
  have heven : tindStrt vol % 2 = 0 := by
    have hsq : vol.blkSz / 4 * (vol.blkSz / 4) % 2 = 0 := by
      rw [Nat.mul_mod, show vol.blkSz / 4 % 2 = 0 by omega]
    rw [tindStrt, hdind, u32, u32]
    omega
  have htind : tindStrt vol < 2 ^ 32 := u32_lt _
  exact h.1 (ext2GetInodeBlk_beyond (by omega) (by omega) (by omega))

/-- The ranges of such a file are small enough for the arithmetic of the driver. -/
theorem Allocated.bounds (hvol : vol.Sized) (h : Allocated vol s num len) (hstop : stop ≤ len) :
    stop / vol.blkSz + 1 < 2 ^ 32 ∧ stop < 2 ^ 64 := by
  have hpos := hvol.pos
  rcases Nat.eq_zero_or_pos stop with rfl | hne
  · simp
  have hsplit := Nat.div_add_mod' (stop - 1) vol.blkSz
  have hmod := Nat.mod_lt (stop - 1) hpos
  have hlast : (stop - 1) / vol.blkSz + 2 < 2 ^ 32 := (h _ (by omega)).lt hvol
  have hmul : ((stop - 1) / vol.blkSz + 2) * vol.blkSz ≤ 2 ^ 32 * 2 ^ 32 :=
    Nat.mul_le_mul hlast.le hvol.lt.le
  rw [Nat.add_mul] at hmul
  have hquot : stop / vol.blkSz < (stop - 1) / vol.blkSz + 2 := by
    rw [Nat.div_lt_iff_lt_mul hpos, Nat.add_mul]
    omega
  constructor <;> omega

theorem allocated_smallFile : Allocated freshVol smallState smallFile.inodeNum 100 := by
  intro i hi
  have hzero : i = 0 := by
    have hbytes : i * 1024 < 100 := hi
    omega
  rw [hzero]
  decide +kernel

/-! ## Chunks -/

def reached (vol : Vol) (off stop n : ℕ) : ℕ :=
  max off (min stop ((off / vol.blkSz + n) * vol.blkSz))

def chunkCount (vol : Vol) (off stop : ℕ) : ℕ := stop / vol.blkSz + 1 - off / vol.blkSz

theorem reached_le (hle : off ≤ stop) (n : ℕ) : reached vol off stop n ≤ stop :=
  max_le hle (min_le_left _ _)

theorem reached_zero : reached vol off stop 0 = off := by
  have hbelow := Nat.div_mul_le_self off vol.blkSz
  rw [reached, Nat.add_zero]
  omega

theorem startBlk_eq (hle : off ≤ stop) (hend : stop / vol.blkSz + 1 < 2 ^ 32) :
    startBlk vol off = off / vol.blkSz := by
  have hdiv : off / vol.blkSz ≤ stop / vol.blkSz := Nat.div_le_div_right hle
  exact u32_of_lt (by omega)

theorem endBlk_eq (hend : stop / vol.blkSz + 1 < 2 ^ 32) : endBlk vol stop = stop / vol.blkSz :=
  u32_of_lt (by omega)

theorem chunkStart_last (hle : off ≤ stop) (hend : stop / vol.blkSz + 1 < 2 ^ 32)
    (hcut : CutsExactly vol off stop) : chunkStart vol off (stop / vol.blkSz) = 0 := by
  rw [chunkStart, startBlk_eq hle hend]
  rcases hcut with hmod | hlt
  · rw [hmod, ite_self]
  · exact if_neg (by omega)

/-- When a range is not cut exactly there is one chunk, and it has as many bytes too many as
there are in front of the range in the block. -/
theorem chunk_overruns (hle : off ≤ stop) (hend : stop / vol.blkSz + 1 < 2 ^ 32)
    (hcut : ¬CutsExactly vol off stop) :
    0 < off % vol.blkSz ∧ chunkCount vol off stop = 1 ∧
      chunkStart vol off (off / vol.blkSz) = off % vol.blkSz ∧
      chunkSize vol off stop (off / vol.blkSz) = off % vol.blkSz + (stop - off) := by
  obtain ⟨hmod, hdiv⟩ := not_or.mp hcut
  have hsame : off / vol.blkSz = stop / vol.blkSz :=
    Nat.le_antisymm (Nat.div_le_div_right hle) (Nat.le_of_not_lt hdiv)
  refine ⟨Nat.pos_of_ne_zero hmod, ?_, ?_, ?_⟩
  · rw [chunkCount, hsame, Nat.add_sub_cancel_left]
  · rw [chunkStart, startBlk_eq hle hend, if_pos rfl]
  · have hoff := Nat.div_add_mod' off vol.blkSz
    have hstop := Nat.div_add_mod' stop vol.blkSz
    rw [chunkSize, endBlk_eq hend, if_pos hsame]
    rw [← hsame] at hstop
    omega

section Chunks

variable (hvol : vol.Sized) (hle : off ≤ stop)
include hvol

theorem reached_succ (hn : off / vol.blkSz + n < stop / vol.blkSz) :
    reached vol off stop (n + 1) = (off / vol.blkSz + n + 1) * vol.blkSz := by
  have hstop := Nat.div_mul_le_self stop vol.blkSz
  have hend : (off / vol.blkSz + n + 1) * vol.blkSz ≤ stop / vol.blkSz * vol.blkSz :=
    Nat.mul_le_mul_right vol.blkSz hn
  have hoff : off < (off / vol.blkSz + 1) * vol.blkSz := by
    rw [Nat.succ_mul]
    exact Nat.lt_div_mul_add hvol.pos
  have hmono : (off / vol.blkSz + 1) * vol.blkSz ≤ (off / vol.blkSz + n + 1) * vol.blkSz :=
    Nat.mul_le_mul_right vol.blkSz (by omega)
  rw [reached, ← Nat.add_assoc]
  omega

include hle

theorem reached_last : reached vol off stop (chunkCount vol off stop) = stop := by
  have hdiv : off / vol.blkSz ≤ stop / vol.blkSz := Nat.div_le_div_right hle
  have hrounds : off / vol.blkSz + chunkCount vol off stop = stop / vol.blkSz + 1 := by
    rw [chunkCount]
    omega
  have hstop := Nat.lt_div_mul_add hvol.pos (a := stop)
  rw [reached, hrounds, Nat.succ_mul]
  omega

variable (hend : stop / vol.blkSz + 1 < 2 ^ 32) (hn : n < chunkCount vol off stop)
include hend hn

theorem chunk_begins :
    (off / vol.blkSz + n) * vol.blkSz + chunkStart vol off (off / vol.blkSz + n) =
      reached vol off stop n := by
  rw [chunkStart, startBlk_eq hle hend]
  cases n with
  | zero =>
    rw [if_pos (Nat.add_zero _), reached_zero, Nat.add_zero]
    exact Nat.div_add_mod' off vol.blkSz
  | succ n =>
    rw [chunkCount] at hn
    rw [if_neg (by omega), reached_succ hvol (by omega)]
    rfl

variable (hcut : CutsExactly vol off stop)
include hcut

theorem chunk_ends :
    reached vol off stop n + chunkSize vol off stop (off / vol.blkSz + n) =
        reached vol off stop (n + 1) ∧
      chunkStart vol off (off / vol.blkSz + n) + chunkSize vol off stop (off / vol.blkSz + n) ≤
        vol.blkSz := by
  have hbegins := chunk_begins hvol hle hend hn
  rw [chunkSize, endBlk_eq hend]
  by_cases hlast : off / vol.blkSz + n = stop / vol.blkSz
  · have hcount : n + 1 = chunkCount vol off stop := by
      rw [chunkCount]
      omega
    have hsplit := Nat.div_add_mod' stop vol.blkSz
    have hmod := Nat.mod_lt stop hvol.pos
    rw [hlast, chunkStart_last hle hend hcut] at hbegins ⊢
    rw [if_pos rfl, hcount, reached_last hvol hle, ← hbegins]
    omega
  · have hstart : chunkStart vol off (off / vol.blkSz + n) < vol.blkSz := chunkStart_lt hvol
    rw [chunkCount] at hn
    rw [if_neg hlast, reached_succ hvol (by omega), ← hbegins, Nat.succ_mul]
    omega

end Chunks

end KernelOld.Ext2
