import KernelOld.Fs.Ext2.Dir

/-!
# Group descriptors on disk

`ext2_init` reads the group descriptors from the block behind the superblock;
`ext2_rewrite_bgds` writes one block of them, always to block 2. The two places are the same
exactly on volumes with blocks of 1 KiB (`bgdsLba_eq_iff`).
-/

namespace KernelOld.Ext2
open ByteMemory MachineWord BitArray

/-! ## Mounting -/

/-- The descriptors as `ext2_init` finds them. -/
def mountState (disk : Mem) : State := ⟨disk, readBgds (readSuper disk) disk⟩

/-- `ext2_get_root`. -/
def ext2GetRoot (ino : Mem) : DirNode where
  size := u32 (ext2GetSize ino)
  inodeNum := 2
  name := [Strings.slash]
  flags := 2

/-- The place of `super` in `ext2_vol_t`, which has 280 bytes. -/
def superOff : ℕ := 28

/-- The sector that is read to `super` is longer than the struct: `room` is the number of bytes
from the struct on that belong to no other block of the heap. Besides, `blks_per_grp` and
`inodes_per_grp` are divided by. -/
def Mountable (disk : Mem) (room : ℕ) : Prop :=
  superOff + 512 ≤ room ∧ (readSuper disk).blksPerGrp ≠ 0 ∧ (readSuper disk).inodesPerGrp ≠ 0

instance (disk : Mem) (room : ℕ) : Decidable (Mountable disk room) :=
  inferInstanceAs (Decidable (_ ∧ _))

def ext2Init (disk : Mem) (room : ℕ) : Option (Vol × State × DirNode) :=
  if Mountable disk room then
    let vol := readSuper disk
    let s := mountState disk
    some (vol, s, ext2GetRoot (ext2ReadInode vol s 2 newBuf))
  else none

variable {vol : Vol} {s : State} {root : DirNode} {disk disk' : Mem} {i b g a room : ℕ}

/-- `ext2_init` returns, with a volume and descriptors that have the property. -/
def Mounts (disk : Mem) (room : ℕ) (P : Vol → State → Prop) : Prop :=
  ∃ vol s root, ext2Init disk room = some (vol, s, root) ∧ P vol s

theorem of_ext2Init_eq_some (h : ext2Init disk room = some (vol, s, root)) :
    Mountable disk room ∧ vol = readSuper disk ∧ s = mountState disk := by
  rw [ext2Init] at h
  split_ifs at h with hmount
  cases h
  exact ⟨hmount, rfl, rfl⟩

theorem mounts_iff {P : Vol → State → Prop} :
    Mounts disk room P ↔ Mountable disk room ∧ P (readSuper disk) (mountState disk) := by
  constructor
  · rintro ⟨vol, s, root, hinit, hP⟩
    obtain ⟨hmount, rfl, rfl⟩ := of_ext2Init_eq_some hinit
    exact ⟨hmount, hP⟩
  · rintro ⟨hmount, hP⟩
    exact ⟨_, _, _, if_pos hmount, hP⟩

/-! ## The place of the descriptors -/

theorem ext2LocToBlk_superblock (vol : Vol) :
    ext2LocToBlk vol 1024 = if vol.logBlockSz = 0 then 1 else 0 := by
  rw [ext2LocToBlk, Nat.shiftRight_eq_div_pow, Nat.shiftRight_eq_div_pow, Nat.div_div_eq_div_mul]
  by_cases hlog : vol.logBlockSz = 0
  · rw [hlog, if_pos rfl]
    rfl
  · have hbig : 1024 < 2 ^ vol.logBlockSz * 2 ^ 10 := by
      have htwo : 2 ^ 1 ≤ 2 ^ vol.logBlockSz :=
        Nat.pow_le_pow_right (by decide) (Nat.one_le_iff_ne_zero.mpr hlog)
      omega
    rw [if_neg hlog, Nat.div_eq_of_lt hbig]
    rfl

theorem bgdsLba_mul (hvol : vol.Sized) :
    512 * bgdsLba vol = if vol.logBlockSz = 0 then 2 * vol.blkSz else vol.blkSz := by
  rw [bgdsLba, hvol.blkToLba (u32_lt _), ext2LocToBlk_superblock]
  by_cases hlog : vol.logBlockSz = 0
  · rw [if_pos hlog, if_pos hlog]
    rfl
  · rw [if_neg hlog, if_neg hlog]
    exact Nat.one_mul _

theorem bgdsLba_eq_iff (hvol : vol.Sized) :
    512 * bgdsLba vol = 2 * vol.blkSz ↔ vol.logBlockSz = 0 := by
  have hpos := hvol.pos
  rw [bgdsLba_mul hvol]
  by_cases hlog : vol.logBlockSz = 0
  · rw [if_pos hlog]
    exact iff_of_true rfl hlog
  · rw [if_neg hlog]
    exact iff_of_false (by omega) hlog

/-! ## Runs of allocations -/

inductive AllocCall where
  | block
  | inode

def AllocCall.kind : AllocCall → BitmapKind
  | .block => blockBitmaps
  | .inode => inodeBitmaps

def AllocCall.exec (vol : Vol) (s : State) : AllocCall → State
  | .block => (ext2AllocBlock vol s).1
  | .inode => (ext2AllocInode vol s).1

def execAllocs (vol : Vol) (s : State) (calls : List AllocCall) : State :=
  calls.foldl (AllocCall.exec vol) s

theorem AllocCall.exec_cases (vol : Vol) (s : State) (call : AllocCall) :
    call.exec vol s = s ∨ ∃ i b, i < vol.blkGrpCnt ∧ b < vol.blkSz * 8 ∧
      call.exec vol s = takeBit call.kind vol s i b := by
  have hkind : call.exec vol s = (allocBit call.kind vol s).1 := by
    cases call <;> rfl
  rw [hkind]
  rcases allocBit_cases call.kind vol s with ⟨i, b, -, hi, hb, heq⟩ | ⟨-, heq⟩
  · exact Or.inr ⟨i, b, hi, hb, by rw [heq]⟩
  · exact Or.inl (by rw [heq])

/-- No bitmap lies over the superblock or the descriptors. -/
def Laid (vol : Vol) (s : State) : Prop :=
  ∀ g < vol.blkGrpCnt, ∀ call : AllocCall,
    Apart (call.kind.addr s g * vol.blkSz) vol.blkSz 1024 512 ∧
      Apart (call.kind.addr s g * vol.blkSz) vol.blkSz (512 * bgdsLba vol)
        (vol.blkGrpCnt * bgdSz)

/-- Mounting again gives the same volume and descriptors, and writing these changes only the table
they are read from. -/
structure Survives (vol : Vol) (s : State) (room : ℕ) : Prop where
  remounts : Mounts s.disk room fun vol' s' =>
    vol' = vol ∧ ∀ a < vol.blkGrpCnt * bgdSz, s'.blkGrps a = s.blkGrps a
  only_table : ∀ a, ¬(512 * bgdsLba vol ≤ a ∧ a < 512 * bgdsLba vol + vol.blkGrpCnt * bgdSz) →
    (ext2RewriteBgds vol s).disk a = s.disk a

structure Mirrors (vol : Vol) (s : State) : Prop where
  super_eq : readSuper s.disk = vol
  bgds : ∀ a < vol.blkGrpCnt * bgdSz, s.disk (2 * vol.blkSz + a) = s.blkGrps a
  laid : Laid vol s

theorem readSuper_congr (h : ∀ x < 512, disk' (1024 + x) = disk (1024 + x)) :
    readSuper disk' = readSuper disk := by
  have hsector : devRead disk' newBuf 2 1 = devRead disk newBuf 2 1 := by
    funext x
    by_cases hx : x < 512
    · rw [devRead, devRead, blit_apply_of_mem (Nat.zero_le x) (by omega),
        blit_apply_of_mem (Nat.zero_le x) (by omega)]
      exact h x hx
    · rw [devRead, devRead, blit_apply_of_notMem (by omega), blit_apply_of_notMem (by omega)]
  rw [readSuper, hsector]
  rfl

theorem readBgds_apply (hcnt : vol.blkGrpCnt < 2 ^ 32) (ha : a < vol.blkGrpCnt * bgdSz) :
    readBgds vol disk a = disk (512 * bgdsLba vol + a) := by
  have hsectors : u32 (vol.blkGrpCnt * bgdSz / 512 + 1) = vol.blkGrpCnt * bgdSz / 512 + 1 := by
    rw [bgdSz]
    exact u32_of_lt (by omega)
  rw [readBgds, devRead, hsectors, blit_apply_of_mem (Nat.zero_le a) (by omega), Nat.sub_zero]

theorem cnt_lt_of_fits (hfit : vol.blkGrpCnt * bgdSz ≤ 1024) : vol.blkGrpCnt < 2 ^ 32 := by
  rw [bgdSz] at hfit
  omega

theorem AllocCall.addr_takeBit (call call' : AllocCall) :
    call.kind.addr (takeBit call'.kind vol s i b) g = call.kind.addr s g := by
  cases call <;> cases call' <;>
  · apply takeBit_load
    simp only [Apart, AllocCall.kind, blockBitmaps, inodeBitmaps, bgdSz]
    omega

theorem AllocCall.addr_lt (call : AllocCall) : call.kind.addr s g < 2 ^ 32 := by
  cases call <;> exact load_lt_u32 _ _

theorem Mirrors.takeBit (hm : Mirrors vol s) (hvol : vol.Sized) (hlog : vol.logBlockSz = 0)
    (hfit : vol.blkGrpCnt * bgdSz ≤ 1024) (call : AllocCall) (hi : i < vol.blkGrpCnt)
    (hb : b < vol.blkSz * 8) : Mirrors vol (takeBit call.kind vol s i b) := by
  have hsz : vol.blkSz = 1024 := by rw [hvol.blkSz_eq, hlog, pow_zero, Nat.mul_one]
  constructor
  · -- the superblock is in front of the descriptors, and in no bitmap
    have hbytes : ∀ x < 512, (Ext2.takeBit call.kind vol s i b).disk (1024 + x) =
        s.disk (1024 + x) := by
      intro x hx
      have hapart := (hm.laid i hi call).1
      rw [takeBit_disk hvol call.addr_lt hb (by omega), Function.update_of_ne]
      simp only [Apart] at hapart
      omega
    rw [readSuper_congr hbytes]
    exact hm.super_eq
  · intro a ha
    rw [Ext2.takeBit, ext2RewriteBgds_disk hvol, if_pos (by omega), ext2RewriteBgds_blkGrps,
      Nat.add_sub_cancel_left]
  · intro g hg call'
    rw [call'.addr_takeBit call]
    exact hm.laid g hg call'

theorem Mirrors.execAllocs (hm : Mirrors vol s) (hvol : vol.Sized) (hlog : vol.logBlockSz = 0)
    (hfit : vol.blkGrpCnt * bgdSz ≤ 1024) (calls : List AllocCall) :
    Mirrors vol (execAllocs vol s calls) := by
  induction calls generalizing s with
  | nil => exact hm
  | cons call calls ih =>
    apply ih
    rcases call.exec_cases vol s with hsame | ⟨i, b, hi, hb, htake⟩
    · rw [hsame]
      exact hm
    · rw [htake]
      exact hm.takeBit hvol hlog hfit call hi hb

theorem Mirrors.survives_iff (hm : Mirrors vol s) (hvol : vol.Sized) (hlog : vol.logBlockSz = 0)
    (hfit : vol.blkGrpCnt * bgdSz ≤ 1024) : Survives vol s room ↔ Mountable s.disk room := by
  have hlba : 512 * bgdsLba vol = 2 * vol.blkSz := (bgdsLba_eq_iff hvol).mpr hlog
  constructor
  · rintro ⟨hremounts, -⟩
    exact (mounts_iff.mp hremounts).1
  · refine fun hmount => ⟨mounts_iff.mpr ⟨hmount, hm.super_eq, fun a ha => ?_⟩, fun a ha => ?_⟩
    · rw [mountState, hm.super_eq]
      dsimp only
      rw [readBgds_apply (cnt_lt_of_fits hfit) ha, hlba, hm.bgds a ha]
    · rw [ext2RewriteBgds_disk hvol, if_neg (by omega)]

theorem mirrors_mountState (hlaid : Laid (readSuper disk) (mountState disk))
    (hvol : (readSuper disk).Sized) (hlog : (readSuper disk).logBlockSz = 0)
    (hfit : (readSuper disk).blkGrpCnt * bgdSz ≤ 1024) :
    Mirrors (readSuper disk) (mountState disk) := by
  refine ⟨rfl, fun a ha => ?_, hlaid⟩
  have hread : readBgds _ disk a = _ := readBgds_apply (cnt_lt_of_fits hfit) ha
  rw [(bgdsLba_eq_iff hvol).mpr hlog] at hread
  exact hread.symm

/-- On a mounted volume with blocks of 1 KiB whose descriptors fit in one block, they survive a
remount after every sequence of allocations, provided that the sector with the superblock overruns
no block of the heap then. For every block size, what `ext2_init` reads is what
`ext2_rewrite_bgds` writes only if a block is 1 KiB. -/
theorem bgds_survive_remount (disk : Mem) (room : ℕ) (vol : Vol) (s : State) (root : DirNode)
    (hinit : ext2Init disk room = some (vol, s, root)) (hvol : vol.Sized) (hlaid : Laid vol s) :
    (512 * bgdsLba vol = 2 * vol.blkSz ↔ vol.logBlockSz = 0) ∧
    ∀ (calls : List AllocCall) (room' : ℕ), vol.logBlockSz = 0 →
      vol.blkGrpCnt * bgdSz ≤ 1024 →
      (Survives vol (execAllocs vol s calls) room' ↔ superOff + 512 ≤ room') := by
  refine ⟨bgdsLba_eq_iff hvol, fun calls room' hlog hfit => ?_⟩
  obtain ⟨⟨-, hdivisors⟩, rfl, rfl⟩ := of_ext2Init_eq_some hinit
  have hm := (mirrors_mountState hlaid hvol hlog hfit).execAllocs hvol hlog hfit calls
  rw [hm.survives_iff hvol hlog hfit, Mountable, hm.super_eq]
  exact and_iff_left hdivisors

/-- The superblock, the descriptor of the one group, and the two bitmaps. -/
def volumeImage (log first : UInt8) (blkSz : ℕ) : Mem := fun a =>
  bytesAt 1028 [64] a ||| bytesAt 1044 [first, 0, 0, 0, log] a ||| bytesAt 1057 [32] a |||
    bytesAt 1064 [32] a ||| bytesAt 1112 [128] a ||| bytesAt 2048 freshBgd a |||
    bytesAt (3 * blkSz) [0xff, 1] a ||| bytesAt (4 * blkSz) [0xff, 7] a

theorem bgds_survive_remount_fresh :
    Mounts (volumeImage 0 1 1024) 1024 fun vol s =>
      vol = freshVol ∧ Survives vol (execAllocs vol s [.block, .inode]) 1024 := by
  have hvol : readSuper (volumeImage 0 1 1024) = freshVol := by decide +kernel
  have hblock : (mountState (volumeImage 0 1 1024)).blockBitmapAddr 0 = 3 := by decide +kernel
  have hinode : (mountState (volumeImage 0 1 1024)).inodeBitmapAddr 0 = 4 := by decide +kernel
  have hmount : Mountable (volumeImage 0 1 1024) 1024 := by
    rw [Mountable, hvol]
    decide
  have hlaid : Laid freshVol (mountState (volumeImage 0 1 1024)) := by
    intro g hg call
    obtain rfl : g = 0 := Nat.lt_one_iff.mp hg
    cases call with
    | block =>
      change Apart ((mountState (volumeImage 0 1 1024)).blockBitmapAddr 0 * _) _ _ _ ∧
        Apart ((mountState (volumeImage 0 1 1024)).blockBitmapAddr 0 * _) _ _ _
      rw [hblock]
      decide +kernel
    | inode =>
      change Apart ((mountState (volumeImage 0 1 1024)).inodeBitmapAddr 0 * _) _ _ _ ∧
        Apart ((mountState (volumeImage 0 1 1024)).inodeBitmapAddr 0 * _) _ _ _
      rw [hinode]
      decide +kernel
  have hinit : ext2Init (volumeImage 0 1 1024) 1024 = some _ := if_pos hmount
  rw [hvol] at hinit
  exact ⟨_, _, _, hinit, rfl, ((bgds_survive_remount _ 1024 freshVol _ _ hinit freshVol_sized
    hlaid).2 _ 1024 rfl (by decide)).mpr (by decide)⟩

/-- With blocks of 2 KiB the descriptors are read from block 1 and written to block 2: after
one allocation a remount loads the old number of free blocks, and block 2 has changed. -/
theorem bgds_lost_on_remount :
    Mounts (volumeImage 1 0 2048) 1024 fun vol s =>
      vol = wideVol ∧ ¬Survives vol (execAllocs vol s [.block]) 1024 ∧
        (execAllocs vol s [.block]).disk (2 * 2048) ≠ volumeImage 1 0 2048 (2 * 2048) := by
  have hvol : readSuper (volumeImage 1 0 2048) = wideVol := by decide +kernel
  rw [mounts_iff, Mountable, hvol]
  refine ⟨by decide, rfl, fun h => ?_, by decide +kernel⟩
  obtain ⟨-, -, hbgds⟩ := mounts_iff.mp h.remounts
  exact absurd (hbgds 12 (by decide)) (by decide +kernel)

end KernelOld.Ext2
