import KernelOld.Lib.BitArray
import KernelOld.Lib.ByteMemory
import KernelOld.Lib.MachineWord

/-!
# Ext2 volumes

The block device, the group descriptors and the addressing functions of `fs/ext2/super.c`.

The disk is a byte-addressed memory. A buffer is addressed from its own start; what a copy puts
past its end stays there and never reaches the disk. `kmalloc` clears what it returns.
-/

namespace KernelOld.Ext2
open ByteMemory MachineWord

/-- What `ext2_init` computes, and the fields of the superblock that the driver uses. -/
structure Vol where
  blkSz : ℕ
  blkGrpCnt : ℕ
  blkCnt : ℕ
  firstDatBlock : ℕ
  logBlockSz : ℕ
  blksPerGrp : ℕ
  inodesPerGrp : ℕ
  inodeSz : ℕ
  deriving DecidableEq

/-- What the driver changes: the disk, and the array `blk_grps` in memory. -/
structure State where
  disk : Mem
  blkGrps : Mem

@[simp] theorem State.blkGrps_mk (disk blkGrps : Mem) : (State.mk disk blkGrps).blkGrps = blkGrps :=
  rfl

def newBuf : Mem := fun _ => 0

/-! ## The block device -/

def devRead (disk buf : Mem) (lba n : ℕ) : Mem := blit buf 0 disk (512 * lba) (512 * n)

def devWrite (disk buf : Mem) (lba n : ℕ) : Mem := blit disk (512 * lba) buf 0 (512 * n)

def ext2LocToBlk (vol : Vol) (loc : ℕ) : ℕ := u32 ((loc >>> vol.logBlockSz) >>> 10)

def ext2BlkToLba (vol : Vol) (blk : ℕ) : ℕ := u64 (blk * (vol.blkSz / 512))

/-- The buffer is new, or a whole block long. -/
def readBlock (vol : Vol) (disk : Mem) (blk : ℕ) : Mem :=
  devRead disk newBuf (ext2BlkToLba vol blk) (vol.blkSz / 512)

def writeBlock (vol : Vol) (disk : Mem) (blk : ℕ) (buf : Mem) : Mem :=
  devWrite disk buf (ext2BlkToLba vol blk) (vol.blkSz / 512)

/-! ## Group descriptors -/

def bgdSz : ℕ := 38

namespace State

variable (s : State) (i : ℕ)

def blockBitmapAddr : ℕ := load s.blkGrps (bgdSz * i) 4
def inodeBitmapAddr : ℕ := load s.blkGrps (bgdSz * i + 4) 4
def inodeTblAddr : ℕ := load s.blkGrps (bgdSz * i + 8) 4
def freeInodes : ℕ := load s.blkGrps (bgdSz * i + 16) 4

end State

/-! ## Inode addresses -/

def ext2InodeBgIdx (vol : Vol) (inode : ℕ) : ℕ := sub32 inode 1 % vol.inodesPerGrp

def ext2InodeBg (vol : Vol) (inode : ℕ) : ℕ := sub32 inode 1 / vol.inodesPerGrp

/-- The products and the sum are 32-bit; only the quotient is widened. -/
def ext2InodeLba (vol : Vol) (s : State) (inode : ℕ) : ℕ :=
  let blk := s.inodeTblAddr (ext2InodeBg vol inode)
  u32 (u32 (blk * vol.blkSz) + u32 (ext2InodeBgIdx vol inode * vol.inodeSz)) / 512

/-! ## Mounting -/

def readSuper (disk : Mem) : Vol :=
  let sb := devRead disk newBuf 2 1
  let blkCnt := load sb 4 4
  let logBlockSz := load sb 24 4
  let blksPerGrp := load sb 32 4
  { blkSz := u32 (1024 <<< logBlockSz)
    blkGrpCnt :=
      if blkCnt % blksPerGrp ≠ 0 then blkCnt / blksPerGrp + 1 else blkCnt / blksPerGrp
    blkCnt
    firstDatBlock := load sb 20 4
    logBlockSz
    blksPerGrp
    inodesPerGrp := load sb 40 4
    inodeSz := load sb 88 2 }

def bgdsLba (vol : Vol) : ℕ := ext2BlkToLba vol (u32 (ext2LocToBlk vol 1024 + 1))

def readBgds (vol : Vol) (disk : Mem) : Mem :=
  devRead disk newBuf (bgdsLba vol) (u32 (vol.blkGrpCnt * bgdSz / 512 + 1))

/-- `ext2_rewrite_bgds`. The copy runs past the buffer when the descriptors do not fit in a
block. -/
def ext2RewriteBgds (vol : Vol) (s : State) : State :=
  let bgdsLoc := u32 (2 * (vol.blkSz / 512))
  let buffer := devRead s.disk newBuf bgdsLoc (vol.blkSz / 512)
  let buffer := blit buffer 0 s.blkGrps 0 (vol.blkGrpCnt * bgdSz)
  { s with disk := devWrite s.disk buffer bgdsLoc (vol.blkSz / 512) }

/-! ## Block sizes -/

/-- The block size is `1024 << log_block_sz`, and not shifted out of its 32 bits. -/
structure Vol.Sized (vol : Vol) : Prop where
  log_lt : vol.logBlockSz < 22
  blkSz_eq : vol.blkSz = 1024 * 2 ^ vol.logBlockSz

variable {vol : Vol} {disk buf : Mem} {blk x a p q : ℕ}

namespace Vol.Sized

theorem dvd (h : vol.Sized) : 1024 ∣ vol.blkSz := ⟨_, h.blkSz_eq⟩

theorem pos (h : vol.Sized) : 0 < vol.blkSz := by
  rw [h.blkSz_eq]
  positivity

theorem le (h : vol.Sized) : 1024 ≤ vol.blkSz := Nat.le_of_dvd h.pos h.dvd

theorem le_two_pow (h : vol.Sized) : vol.blkSz ≤ 2 ^ 31 := by
  have hpow : 2 ^ vol.logBlockSz ≤ 2 ^ 21 :=
    Nat.pow_le_pow_right (by decide) (Nat.le_of_lt_succ h.log_lt)
  rw [h.blkSz_eq]
  omega

theorem lt (h : vol.Sized) : vol.blkSz < 2 ^ 32 := lt_of_le_of_lt h.le_two_pow (by decide)

theorem sectors (h : vol.Sized) : 512 * (vol.blkSz / 512) = vol.blkSz := by
  have := h.dvd
  omega

theorem blkToLba (h : vol.Sized) (hblk : blk < 2 ^ 32) :
    512 * ext2BlkToLba vol blk = blk * vol.blkSz := by
  have hsec : vol.blkSz / 512 < 2 ^ 32 := lt_of_le_of_lt (Nat.div_le_self _ _) h.lt
  have hlt : blk * (vol.blkSz / 512) < 2 ^ 64 := by
    calc blk * (vol.blkSz / 512) < 2 ^ 32 * 2 ^ 32 := Nat.mul_lt_mul'' hblk hsec
      _ = 2 ^ 64 := by norm_num
  calc 512 * ext2BlkToLba vol blk = blk * (512 * (vol.blkSz / 512)) := by
        rw [ext2BlkToLba, u64_of_lt hlt]
        ring
    _ = blk * vol.blkSz := by rw [h.sectors]

theorem readBlock_apply (h : vol.Sized) (hblk : blk < 2 ^ 32) (hx : x < vol.blkSz) :
    readBlock vol disk blk x = disk (blk * vol.blkSz + x) := by
  rw [readBlock, devRead, blit_apply_of_mem (Nat.zero_le x) (by rw [h.sectors]; omega),
    h.blkToLba hblk, Nat.sub_zero]

theorem readBlock_beyond (h : vol.Sized) (hx : vol.blkSz ≤ x) : readBlock vol disk blk x = 0 := by
  rw [readBlock, devRead, h.sectors, blit_apply_of_notMem (by omega), newBuf]

theorem writeBlock_apply_of_mem (h : vol.Sized) (hblk : blk < 2 ^ 32) (hx : x < vol.blkSz) :
    writeBlock vol disk blk buf (blk * vol.blkSz + x) = buf x := by
  rw [writeBlock, devWrite, h.blkToLba hblk, h.sectors, blit_apply_add hx, Nat.zero_add]

theorem writeBlock_apply_of_notMem (h : vol.Sized) (hblk : blk < 2 ^ 32)
    (ha : a < blk * vol.blkSz ∨ blk * vol.blkSz + vol.blkSz ≤ a) :
    writeBlock vol disk blk buf a = disk a := by
  rw [writeBlock, devWrite, h.blkToLba hblk, h.sectors, blit_apply_of_notMem ha]

theorem byte_eq_iff (h : vol.Sized) {blk' y : ℕ} (hx : x < vol.blkSz) (hy : y < vol.blkSz) :
    blk * vol.blkSz + x = blk' * vol.blkSz + y ↔ blk = blk' ∧ x = y := by
  constructor
  · intro heq
    have hdiv : ∀ c z, z < vol.blkSz → (c * vol.blkSz + z) / vol.blkSz = c := by
      intro c z hz
      rw [Nat.mul_comm, Nat.mul_add_div h.pos, Nat.div_eq_of_lt hz, Nat.add_zero]
    have hblk : blk = blk' := by
      rw [← hdiv blk x hx, heq, hdiv blk' y hy]
    subst hblk
    exact ⟨rfl, by omega⟩
  · rintro ⟨rfl, rfl⟩
    rfl

theorem mem_block_iff (h : vol.Sized) {blk' : ℕ} (hx : x < vol.blkSz) :
    (blk' * vol.blkSz ≤ blk * vol.blkSz + x ∧
      blk * vol.blkSz + x < blk' * vol.blkSz + vol.blkSz) ↔ blk = blk' := by
  constructor
  · rintro ⟨hlo, hhi⟩
    obtain ⟨y, hy⟩ := Nat.exists_eq_add_of_le hlo
    exact ((h.byte_eq_iff hx (by omega)).mp hy).1
  · rintro rfl
    omega

end Vol.Sized

/-- Byte `a` of the disk belongs to block `q`. -/
def InBlock (vol : Vol) (q a : ℕ) : Prop := q * vol.blkSz ≤ a ∧ a < q * vol.blkSz + vol.blkSz

theorem inBlock_unique (hvol : vol.Sized) (hp : InBlock vol p a) (hq : InBlock vol q a) :
    p = q := by
  obtain ⟨x, rfl⟩ := Nat.exists_eq_add_of_le hp.1
  have hx : x < vol.blkSz := by
    have := hp.2
    omega
  exact (hvol.mem_block_iff hx).mp hq

end KernelOld.Ext2
