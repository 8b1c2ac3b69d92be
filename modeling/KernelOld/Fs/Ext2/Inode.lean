import KernelOld.Fs.Ext2.Numbering

/-!
# Inodes on disk

`ext2_read_inode` and `ext2_write_inode`. An inode in memory is the 128 bytes of `ext2_inode_t`,
with whatever lies behind it: the writer copies `inode_sz` bytes. The two functions compute the
place of an inode on their own (`readSlot`, `writeSlot`).
-/

namespace KernelOld.Ext2
open ByteMemory MachineWord

def inodeStructSz : ℕ := 128

def ext2ReadInode (vol : Vol) (s : State) (num : ℕ) (inode : Mem) : Mem :=
  let buf := devRead s.disk newBuf (ext2InodeLba vol s num) 1
  blit inode 0 buf (u32 (ext2InodeBgIdx vol num * vol.inodeSz) % 512) inodeStructSz

def ext2WriteInode (vol : Vol) (s : State) (num : ℕ) (inode : Mem) : State :=
  let group := num / vol.inodesPerGrp
  let table := s.inodeTblAddr group
  let offset := u32 (sub32 num 1 * vol.inodeSz) / vol.blkSz
  let buf := readBlock vol s.disk (u32 (table + offset))
  let inoOffset := sub32 (sub32 num 1) (u32 (offset * (vol.blkSz / vol.inodeSz)))
  let buf := blit buf (u32 (inoOffset * vol.inodeSz)) inode 0 vol.inodeSz
  { s with disk := writeBlock vol s.disk (u32 (table + offset)) buf }

/-- The sizes of an inode on disk that divide a sector. -/
def Vol.InodeSized (vol : Vol) : Prop := vol.inodeSz = 128 ∨ vol.inodeSz = 256 ∨ vol.inodeSz = 512

/-- Inode `num` is one of the volume's; the numbers start at 1. -/
def Vol.HasInode (vol : Vol) (num : ℕ) : Prop :=
  1 ≤ num ∧ num ≤ vol.inodesPerGrp * vol.blkGrpCnt ∧ num < 2 ^ 32

/-! ## The place of an inode -/

def readSlot (vol : Vol) (s : State) (num : ℕ) : ℕ :=
  u32 (s.inodeTblAddr ((num - 1) / vol.inodesPerGrp) * vol.blkSz +
    (num - 1) % vol.inodesPerGrp * vol.inodeSz)

def writeSlot (vol : Vol) (s : State) (num : ℕ) : ℕ :=
  u32 (s.inodeTblAddr (num / vol.inodesPerGrp) + u32 ((num - 1) * vol.inodeSz) / vol.blkSz) *
    vol.blkSz + u32 ((num - 1) * vol.inodeSz) % vol.blkSz

variable {vol : Vol} {s : State} {inode : Mem} {num n a i k : ℕ}

theorem Vol.InodeSized.dvd_512 (h : vol.InodeSized) : vol.inodeSz ∣ 512 := by
  rcases h with h | h | h <;> rw [h] <;> decide

theorem Vol.InodeSized.le (h : vol.InodeSized) : inodeStructSz ≤ vol.inodeSz := by
  rcases h with h | h | h <;> rw [h] <;> decide

theorem Vol.InodeSized.dvd_blkSz (h : vol.InodeSized) (hvol : vol.Sized) :
    vol.inodeSz ∣ vol.blkSz :=
  h.dvd_512.trans ((by decide : 512 ∣ 1024).trans hvol.dvd)

theorem Vol.InodeSized.dvd_u32 (h : vol.InodeSized) (hn : vol.inodeSz ∣ n) :
    vol.inodeSz ∣ u32 n :=
  (Nat.dvd_mod_iff (h.dvd_512.trans (by decide))).mpr hn

theorem dvd_readSlot (hvol : vol.Sized) (hsz : vol.InodeSized) :
    vol.inodeSz ∣ readSlot vol s num :=
  hsz.dvd_u32 (Nat.dvd_add ((hsz.dvd_blkSz hvol).mul_left _) (Nat.dvd_mul_left _ _))

theorem dvd_writeSlot_mod (hvol : vol.Sized) (hsz : vol.InodeSized) :
    vol.inodeSz ∣ u32 (k * vol.inodeSz) % vol.blkSz :=
  (Nat.dvd_mod_iff (hsz.dvd_blkSz hvol)).mpr (hsz.dvd_u32 (Nat.dvd_mul_left _ _))

theorem dvd_writeSlot (hvol : vol.Sized) (hsz : vol.InodeSized) :
    vol.inodeSz ∣ writeSlot vol s num :=
  Nat.dvd_add ((hsz.dvd_blkSz hvol).mul_left _) (dvd_writeSlot_mod hvol hsz)

theorem add_le_of_dvd {d x y : ℕ} (hx : d ∣ x) (hy : d ∣ y) (hlt : x < y) : x + d ≤ y := by
  obtain ⟨q, rfl⟩ := hx
  obtain ⟨r, rfl⟩ := hy
  have hqr : q + 1 ≤ r := Nat.lt_of_mul_lt_mul_left hlt
  calc d * q + d = d * (q + 1) := by ring
    _ ≤ d * r := Nat.mul_le_mul_left d hqr

theorem slots_apart {d x y : ℕ} (hx : d ∣ x) (hy : d ∣ y) (hne : x ≠ y) :
    x + d ≤ y ∨ y + d ≤ x := by
  rcases Nat.lt_or_gt_of_ne hne with hlt | hlt
  · exact Or.inl (add_le_of_dvd hx hy hlt)
  · exact Or.inr (add_le_of_dvd hy hx hlt)

/-- The offset that the writer computes from the index of the inode in its block is the
remainder of its offset in the table. Nothing is lost when the product wraps. -/
theorem writer_offset (hvol : vol.Sized) (hsz : vol.InodeSized) (hk : k < 2 ^ 32) :
    u32 (sub32 k (u32 (u32 (k * vol.inodeSz) / vol.blkSz * (vol.blkSz / vol.inodeSz))) *
      vol.inodeSz) = u32 (k * vol.inodeSz) % vol.blkSz := by
  have hpos : 0 < vol.inodeSz := lt_of_lt_of_le (by decide) hsz.le
  obtain ⟨q, hq⟩ : ∃ q, vol.blkSz / vol.inodeSz = q := ⟨_, rfl⟩
  obtain ⟨p, hp⟩ : ∃ p, u32 (k * vol.inodeSz) = p := ⟨_, rfl⟩
  have hblk : q * vol.inodeSz = vol.blkSz := hq ▸ Nat.div_mul_cancel (hsz.dvd_blkSz hvol)
  have hple : p ≤ k * vol.inodeSz := hp ▸ Nat.mod_le _ _
  have hplt : p < 2 ^ 32 := hp ▸ u32_lt _
  rw [hp, hq]
  have hbelow : p / vol.blkSz * q * vol.inodeSz ≤ p := by
    rw [Nat.mul_assoc, hblk]
    exact Nat.div_mul_le_self _ _
  have hcount : p / vol.blkSz * q ≤ k :=
    Nat.le_of_mul_le_mul_right (hbelow.trans hple) hpos
  rw [u32_of_lt (lt_of_le_of_lt hcount hk), sub32_of_le hk hcount, Nat.sub_mul, Nat.mul_assoc,
    hblk]
  have hsplit := Nat.div_add_mod' p vol.blkSz
  have hwrap := Nat.div_add_mod' (k * vol.inodeSz) (2 ^ 32)
  rw [u32] at hp
  rw [hp] at hwrap
  have hrest : k * vol.inodeSz - p / vol.blkSz * vol.blkSz =
      p % vol.blkSz + k * vol.inodeSz / 2 ^ 32 * 2 ^ 32 := by omega
  rw [hrest, u32, Nat.add_mul_mod_self_right, Nat.mod_eq_of_lt (by omega)]

theorem ext2WriteInode_blkGrps : (ext2WriteInode vol s num inode).blkGrps = s.blkGrps :=
  State.blkGrps_mk _ _

theorem ext2WriteInode_disk (hvol : vol.Sized) (hsz : vol.InodeSized) (hpos : 1 ≤ num)
    (hnum : num < 2 ^ 32) (a : ℕ) :
    (ext2WriteInode vol s num inode).disk a =
      blit s.disk (writeSlot vol s num) inode 0 vol.inodeSz a := by
  have hsub : sub32 num 1 = num - 1 := sub32_of_le hnum hpos
  have hoff := writer_offset hvol hsz (lt_of_le_of_lt (Nat.sub_le num 1) hnum)
  have hroom : u32 ((num - 1) * vol.inodeSz) % vol.blkSz + vol.inodeSz ≤ vol.blkSz :=
    add_le_of_dvd (dvd_writeSlot_mod hvol hsz) (hsz.dvd_blkSz hvol) (Nat.mod_lt _ hvol.pos)
  rw [ext2WriteInode]
  simp only [hsub, hoff]
  rw [writeSlot]
  generalize u32 ((num - 1) * vol.inodeSz) % vol.blkSz = off at hroom ⊢
  have hblk := u32_lt (s.inodeTblAddr (num / vol.inodesPerGrp) +
    u32 ((num - 1) * vol.inodeSz) / vol.blkSz)
  generalize u32 (s.inodeTblAddr (num / vol.inodesPerGrp) +
    u32 ((num - 1) * vol.inodeSz) / vol.blkSz) = blk at hblk ⊢
  by_cases hin : blk * vol.blkSz ≤ a ∧ a < blk * vol.blkSz + vol.blkSz
  · obtain ⟨x, rfl⟩ := Nat.exists_eq_add_of_le hin.1
    have hx : x < vol.blkSz := by omega
    rw [hvol.writeBlock_apply_of_mem hblk hx]
    by_cases hslot : off ≤ x ∧ x < off + vol.inodeSz
    · have hidx : blk * vol.blkSz + x - (blk * vol.blkSz + off) = x - off := by omega
      rw [blit_apply_of_mem hslot.1 hslot.2, blit_apply_of_mem (by omega) (by omega), hidx]
    · rw [blit_apply_of_notMem (by omega), blit_apply_of_notMem (by omega),
        hvol.readBlock_apply hblk hx]
  · rw [hvol.writeBlock_apply_of_notMem hblk (by omega), blit_apply_of_notMem (by omega)]

theorem ext2ReadInode_of_dvd (hvol : vol.Sized) (hsz : inodeStructSz ∣ vol.inodeSz)
    (hpos : 1 ≤ num) (hnum : num < 2 ^ 32) (hi : i < inodeStructSz) :
    ext2ReadInode vol s num inode i = s.disk (readSlot vol s num + i) := by
  have hsub : sub32 num 1 = num - 1 := sub32_of_le hnum hpos
  have hstruct : inodeStructSz ∣ 512 := by decide
  have hwrap : inodeStructSz ∣ 2 ^ 32 := by decide
  have hroom : u32 ((num - 1) % vol.inodesPerGrp * vol.inodeSz) % 512 + inodeStructSz ≤ 512 :=
    add_le_of_dvd ((Nat.dvd_mod_iff hstruct).mpr ((Nat.dvd_mod_iff hwrap).mpr (hsz.mul_left _)))
      hstruct (Nat.mod_lt _ (by decide))
  have hsector : 512 ∣ s.inodeTblAddr ((num - 1) / vol.inodesPerGrp) * vol.blkSz :=
    ((by decide : 512 ∣ 1024).trans hvol.dvd).mul_left _
  rw [ext2ReadInode, ext2InodeLba, ext2InodeBg, ext2InodeBgIdx, hsub, readSlot]
  -- the table begins at a sector, so the offset in the sector is that in the table
  generalize (num - 1) % vol.inodesPerGrp * vol.inodeSz = p at hroom ⊢
  generalize s.inodeTblAddr ((num - 1) / vol.inodesPerGrp) * vol.blkSz = t at hsector ⊢
  have haddr : u32 (u32 t + u32 p) = u32 (t + p) := (Nat.add_mod t p _).symm
  have hmod : u32 p % 512 = u32 (t + p) % 512 := by
    simp only [u32]
    omega
  have hsplit := Nat.div_add_mod (u32 (t + p)) 512
  have hidx : 512 * (u32 (t + p) / 512) + (u32 p % 512 + i) = u32 (t + p) + i := by omega
  rw [blit_apply_of_mem (Nat.zero_le i) (by omega), devRead,
    blit_apply_of_mem (Nat.zero_le _) (by omega), haddr, Nat.sub_zero, Nat.sub_zero, hidx]

theorem ext2ReadInode_apply (hvol : vol.Sized) (hsz : vol.InodeSized) (hpos : 1 ≤ num)
    (hnum : num < 2 ^ 32) (hi : i < inodeStructSz) :
    ext2ReadInode vol s num inode i = s.disk (readSlot vol s num + i) := by
  refine ext2ReadInode_of_dvd hvol ?_ hpos hnum hi
  rcases hsz with h | h | h <;> rw [h] <;> decide

/-! ## Round trips -/

/-- What is written as inode `num` is read back, and the other inodes are read as before. -/
def RoundTrips (vol : Vol) (s : State) (num : ℕ) : Prop :=
  ∀ disk inode stack : Mem,
    (∀ i < inodeStructSz,
      ext2ReadInode vol (ext2WriteInode vol ⟨disk, s.blkGrps⟩ num inode) num stack i = inode i) ∧
    ∀ m, vol.HasInode m → m ≠ num → ∀ i < inodeStructSz,
      ext2ReadInode vol (ext2WriteInode vol ⟨disk, s.blkGrps⟩ num inode) m stack i =
        ext2ReadInode vol ⟨disk, s.blkGrps⟩ m stack i

theorem readSlot_congr {s' : State} (h : s'.blkGrps = s.blkGrps) :
    readSlot vol s' num = readSlot vol s num := by
  simp only [readSlot, State.inodeTblAddr, h]

theorem writeSlot_congr {s' : State} (h : s'.blkGrps = s.blkGrps) :
    writeSlot vol s' num = writeSlot vol s num := by
  simp only [writeSlot, State.inodeTblAddr, h]

theorem ext2ReadInode_write {m : ℕ} {stack : Mem} (hvol : vol.Sized) (hsz : vol.InodeSized)
    (hnum : vol.HasInode num) (hm : vol.HasInode m) (hi : i < inodeStructSz) :
    ext2ReadInode vol (ext2WriteInode vol s num inode) m stack i =
      if readSlot vol s m = writeSlot vol s num then inode i
      else s.disk (readSlot vol s m + i) := by
  have hle := hsz.le
  rw [ext2ReadInode_apply hvol hsz hm.1 hm.2.2 hi, readSlot_congr ext2WriteInode_blkGrps,
    ext2WriteInode_disk hvol hsz hnum.1 hnum.2.2]
  by_cases heq : readSlot vol s m = writeSlot vol s num
  · rw [if_pos heq, heq, blit_apply_add (by omega), Nat.zero_add]
  · have hapart := slots_apart (dvd_readSlot hvol hsz) (dvd_writeSlot hvol hsz) heq
    rw [if_neg heq, blit_apply_of_notMem (by omega)]

theorem roundTrips_iff (vol : Vol) (s : State) (num : ℕ) (hvol : vol.Sized)
    (hsz : vol.InodeSized) (hnum : vol.HasInode num) :
    RoundTrips vol s num ↔
      writeSlot vol s num = readSlot vol s num ∧
        ∀ m, vol.HasInode m → m ≠ num → readSlot vol s m ≠ readSlot vol s num := by
  have hread : ∀ disk m, readSlot vol ⟨disk, s.blkGrps⟩ m = readSlot vol s m :=
    fun disk m => readSlot_congr rfl
  have hwrite : ∀ disk, writeSlot vol ⟨disk, s.blkGrps⟩ num = writeSlot vol s num :=
    fun disk => writeSlot_congr rfl
  constructor
  · intro h
    -- inode bytes of 1 on a disk of zeros show where they went
    obtain ⟨hself, hother⟩ := h (fun _ => 0) (fun _ => 1) (fun _ => 0)
    have hslot : writeSlot vol s num = readSlot vol s num := by
      by_contra hne
      have hback := hself 0 (by decide)
      rw [ext2ReadInode_write hvol hsz hnum hnum (by decide), hread, hwrite,
        if_neg (Ne.symm hne)] at hback
      exact absurd (show (0 : UInt8) = 1 from hback) (by decide)
    refine ⟨hslot, fun m hm hne heq => ?_⟩
    have hback := hother m hm hne 0 (by decide)
    rw [ext2ReadInode_write hvol hsz hnum hm (by decide), hread, hwrite,
      if_pos (heq.trans hslot.symm), ext2ReadInode_apply hvol hsz hm.1 hm.2.2 (by decide)] at hback
    exact absurd (show (1 : UInt8) = 0 from hback) (by decide)
  · rintro ⟨hslot, hothers⟩ disk inode stack
    refine ⟨fun i hi => ?_, fun m hm hne i hi => ?_⟩
    · rw [ext2ReadInode_write hvol hsz hnum hnum hi, hread, hwrite, if_pos hslot.symm]
    · rw [ext2ReadInode_write hvol hsz hnum hm hi, hread, hwrite,
        if_neg fun heq => hothers m hm hne (heq.trans hslot),
        ext2ReadInode_apply hvol hsz hm.1 hm.2.2 hi, hread disk m]

theorem Vol.HasInode.inodesPerGrp_pos (hnum : vol.HasInode num) : 0 < vol.inodesPerGrp := by
  obtain ⟨hpos, hle, -⟩ := hnum
  rcases Nat.eq_zero_or_pos vol.inodesPerGrp with hzero | hpos'
  · rw [hzero, Nat.zero_mul] at hle
    omega
  · exact hpos'

theorem pred_of_dvd {per : ℕ} (hper : 0 < per) (hpos : 1 ≤ num) (hdvd : per ∣ num) :
    (num - 1) / per = num / per - 1 ∧ (num - 1) % per = per - 1 := by
  obtain ⟨c, rfl⟩ := hdvd
  obtain ⟨d, rfl⟩ : ∃ d, c = d + 1 := Nat.exists_eq_succ_of_ne_zero (by rintro rfl; omega)
  have hsplit : per * (d + 1) - 1 = per * d + (per - 1) := by
    rw [Nat.mul_succ]
    omega
  rw [hsplit, Nat.mul_div_cancel_left _ hper, Nat.mul_add_div hper, Nat.mul_add_mod,
    Nat.div_eq_of_lt (by omega), Nat.mod_eq_of_lt (by omega)]
  exact ⟨rfl, rfl⟩

theorem pred_of_not_dvd {per : ℕ} (hper : 0 < per) (hdvd : ¬per ∣ num) :
    (num - 1) / per = num / per ∧ (num - 1) % per = num % per - 1 := by
  have hmodpos : 0 < num % per := Nat.pos_of_ne_zero fun h => hdvd (Nat.dvd_of_mod_eq_zero h)
  have hmodlt := Nat.mod_lt num hper
  have hsplit := Nat.div_add_mod num per
  have hnum : num - 1 = per * (num / per) + (num % per - 1) := by omega
  have hlt : num % per - 1 < per := by omega
  constructor
  · rw [hnum, Nat.mul_add_div hper, Nat.div_eq_of_lt hlt, Nat.add_zero]
  · rw [hnum, Nat.mul_add_mod, Nat.mod_eq_of_lt hlt]

/-- No two inode tables overlap, and all of them end below 4 GiB. -/
structure LowTables (vol : Vol) (s : State) : Prop where
  apart : ∀ g < vol.blkGrpCnt, ∀ g' < vol.blkGrpCnt, g ≠ g' →
    Apart (s.inodeTblAddr g * vol.blkSz) (vol.inodesPerGrp * vol.inodeSz)
      (s.inodeTblAddr g' * vol.blkSz) (vol.inodesPerGrp * vol.inodeSz)
  below : ∀ g < vol.blkGrpCnt,
    s.inodeTblAddr g * vol.blkSz + vol.inodesPerGrp * vol.inodeSz ≤ 2 ^ 32
  total : vol.inodesPerGrp * vol.blkGrpCnt * vol.inodeSz ≤ 2 ^ 32

namespace LowTables

variable (ht : LowTables vol s) (hvol : vol.Sized) (hsz : vol.InodeSized)
include ht hsz

theorem readSlot_eq (hnum : vol.HasInode num) :
    (num - 1) / vol.inodesPerGrp < vol.blkGrpCnt ∧
      (num - 1) % vol.inodesPerGrp * vol.inodeSz + vol.inodeSz ≤
        vol.inodesPerGrp * vol.inodeSz ∧
      readSlot vol s num = s.inodeTblAddr ((num - 1) / vol.inodesPerGrp) * vol.blkSz +
        (num - 1) % vol.inodesPerGrp * vol.inodeSz := by
  have hper := hnum.inodesPerGrp_pos
  obtain ⟨hpos, hle, -⟩ := hnum
  have hgroup : (num - 1) / vol.inodesPerGrp < vol.blkGrpCnt :=
    Nat.div_lt_of_lt_mul (by omega)
  have hroom : (num - 1) % vol.inodesPerGrp * vol.inodeSz + vol.inodeSz ≤
      vol.inodesPerGrp * vol.inodeSz := by
    rw [← Nat.succ_mul]
    exact Nat.mul_le_mul_right _ (Nat.mod_lt (num - 1) hper)
  refine ⟨hgroup, hroom, u32_of_lt ?_⟩
  have hbelow := ht.below _ hgroup
  have hstruct : 128 ≤ vol.inodeSz := hsz.le
  omega

theorem readSlot_inj {m : ℕ} (hm : vol.HasInode m) (hnum : vol.HasInode num)
    (heq : readSlot vol s m = readSlot vol s num) : m = num := by
  obtain ⟨hgm, hrm, hsm⟩ := ht.readSlot_eq hsz hm
  obtain ⟨hgn, hrn, hsn⟩ := ht.readSlot_eq hsz hnum
  have hstruct : 128 ≤ vol.inodeSz := hsz.le
  rw [hsm, hsn] at heq
  have hgroup : (m - 1) / vol.inodesPerGrp = (num - 1) / vol.inodesPerGrp := by
    by_contra hne
    have hapart := ht.apart _ hgm _ hgn hne
    simp only [Apart] at hapart
    omega
  rw [hgroup] at heq
  have hidx : (m - 1) % vol.inodesPerGrp = (num - 1) % vol.inodesPerGrp :=
    Nat.eq_of_mul_eq_mul_right (by omega) (Nat.add_left_cancel heq)
  have hsplit_m := Nat.div_add_mod' (m - 1) vol.inodesPerGrp
  have hsplit_n := Nat.div_add_mod' (num - 1) vol.inodesPerGrp
  rw [hgroup, hidx] at hsplit_m
  have hm1 := hm.1
  have hn1 := hnum.1
  omega

include hvol

/-- The writer uses the table of group `num / inodes_per_grp`, and counts from the first inode
of the volume. -/
theorem writeSlot_eq (hnum : num < vol.inodesPerGrp * vol.blkGrpCnt) :
    writeSlot vol s num =
      s.inodeTblAddr (num / vol.inodesPerGrp) * vol.blkSz + (num - 1) * vol.inodeSz := by
  have hgroup : num / vol.inodesPerGrp < vol.blkGrpCnt := Nat.div_lt_of_lt_mul hnum
  have hbelow := ht.below _ hgroup
  have htotal := ht.total
  have hstruct : 128 ≤ vol.inodeSz := hsz.le
  have hoff : (num - 1) * vol.inodeSz + vol.inodeSz ≤ 2 ^ 32 := by
    calc (num - 1) * vol.inodeSz + vol.inodeSz = (num - 1 + 1) * vol.inodeSz := by ring
      _ ≤ vol.inodesPerGrp * vol.blkGrpCnt * vol.inodeSz :=
        Nat.mul_le_mul_right _ (by omega)
      _ ≤ 2 ^ 32 := htotal
  have hblock : s.inodeTblAddr (num / vol.inodesPerGrp) ≤ 2 ^ 22 := by
    by_contra hbig
    have hmul := Nat.mul_le_mul (Nat.lt_of_not_le hbig) hvol.le
    omega
  have hquot : (num - 1) * vol.inodeSz / vol.blkSz ≤ (num - 1) * vol.inodeSz / 1024 :=
    Nat.div_le_div_left hvol.le (by decide)
  have hsplit := Nat.div_add_mod' ((num - 1) * vol.inodeSz) vol.blkSz
  have hprod : u32 ((num - 1) * vol.inodeSz) = (num - 1) * vol.inodeSz := u32_of_lt (by omega)
  rw [writeSlot, hprod, u32_of_lt (by omega), Nat.add_mul]
  omega

/-- The two slots agree in the first group, but for its last inode. Elsewhere they can agree
only for the last inode of a group, if the next group's table lies the right number of bytes
in front of that of the group. -/
theorem slots_agree_iff (hnum : vol.HasInode num)
    (hlt : num < vol.inodesPerGrp * vol.blkGrpCnt) :
    writeSlot vol s num = readSlot vol s num ↔
      num < vol.inodesPerGrp ∨ vol.inodesPerGrp ∣ num ∧
        s.inodeTblAddr (num / vol.inodesPerGrp) * vol.blkSz +
          (num - vol.inodesPerGrp) * vol.inodeSz =
        s.inodeTblAddr (num / vol.inodesPerGrp - 1) * vol.blkSz := by
  obtain ⟨-, -, hread⟩ := ht.readSlot_eq hsz hnum
  rw [hread, ht.writeSlot_eq hvol hsz hlt]
  have hpos := hnum.1
  have hstruct : 128 ≤ vol.inodeSz := hsz.le
  have hper := hnum.inodesPerGrp_pos
  by_cases hdvd : vol.inodesPerGrp ∣ num
  · obtain ⟨hdiv, hmod⟩ := pred_of_dvd hper hpos hdvd
    have hle : vol.inodesPerGrp ≤ num := Nat.le_of_dvd hpos hdvd
    have hsub : (num - 1) * vol.inodeSz =
        (num - vol.inodesPerGrp) * vol.inodeSz + (vol.inodesPerGrp - 1) * vol.inodeSz := by
      rw [← Nat.add_mul]
      congr 1
      omega
    rw [hdiv, hmod, hsub]
    simp only [Nat.not_lt.mpr hle, false_or, hdvd, true_and]
    omega
  · obtain ⟨hdiv, hmod⟩ := pred_of_not_dvd hper hdvd
    have hmodpos : 0 < num % vol.inodesPerGrp :=
      Nat.pos_of_ne_zero fun h => hdvd (Nat.dvd_of_mod_eq_zero h)
    have hmodlt := Nat.mod_lt num hper
    rw [hdiv, hmod, Nat.add_left_cancel_iff, Nat.mul_left_inj (by omega)]
    simp only [hdvd, false_and, or_false]
    constructor
    · intro heq
      omega
    · intro hfirst
      rw [Nat.mod_eq_of_lt hfirst]

end LowTables

/-- Inode `num` can be written and read back exactly when the writer's place for it is the reader's,
and the reader has no other inode there. On a volume whose tables do not overlap and end below 4
GiB, these are the inodes of the first group but its last, unless the tables lie as
`slots_agree_iff` says. -/
theorem ext2WriteInode_roundTrips (vol : Vol) (s : State) (num : ℕ) (hvol : vol.Sized)
    (hsz : vol.InodeSized) (hnum : vol.HasInode num) :
    (RoundTrips vol s num ↔
      writeSlot vol s num = readSlot vol s num ∧
        ∀ m, vol.HasInode m → m ≠ num → readSlot vol s m ≠ readSlot vol s num) ∧
    (LowTables vol s → num < vol.inodesPerGrp * vol.blkGrpCnt →
      (RoundTrips vol s num ↔
        num < vol.inodesPerGrp ∨ vol.inodesPerGrp ∣ num ∧
          s.inodeTblAddr (num / vol.inodesPerGrp) * vol.blkSz +
            (num - vol.inodesPerGrp) * vol.inodeSz =
          s.inodeTblAddr (num / vol.inodesPerGrp - 1) * vol.blkSz)) := by
  refine ⟨roundTrips_iff vol s num hvol hsz hnum, fun ht hlt => ?_⟩
  rw [roundTrips_iff vol s num hvol hsz hnum, ht.slots_agree_iff hvol hsz hnum hlt]
  refine and_iff_left fun m hm hne heq => ?_
  exact hne (ht.readSlot_inj hsz hm hnum heq)

def twoGroups : Vol := { freshVol with blkGrpCnt := 2, blksPerGrp := 32 }

def twoGroupsState : State where
  disk := newBuf
  blkGrps a := bytesAt 8 [5] a ||| bytesAt (bgdSz + 8) [37] a

theorem lowTables_twoGroups : LowTables twoGroups twoGroupsState := by
  constructor
  · intro g hg g' hg' hne
    have hg2 : g < 2 := hg
    have hg2' : g' < 2 := hg'
    interval_cases g <;> interval_cases g' <;> first | exact absurd rfl hne | decide +kernel
  · intro g hg
    have hg2 : g < 2 := hg
    interval_cases g <;> decide +kernel
  · decide

theorem ext2WriteInode_roundTrips_root :
    LowTables twoGroups twoGroupsState ∧ twoGroups.HasInode 2 ∧
      RoundTrips twoGroups twoGroupsState 2 := by
  have hnum : twoGroups.HasInode 2 := ⟨by decide, by decide, by decide⟩
  have hiff := (ext2WriteInode_roundTrips twoGroups twoGroupsState 2 ⟨by decide, by decide⟩
    (Or.inl rfl) hnum).2 lowTables_twoGroups (by decide)
  exact ⟨lowTables_twoGroups, hnum, hiff.mpr (Or.inl (by decide))⟩

/-- Inode 33, the first of the second group, is written four blocks behind the place where it
is read. -/
theorem ext2WriteInode_misplaces :
    LowTables twoGroups twoGroupsState ∧ twoGroups.HasInode 33 ∧
      ¬RoundTrips twoGroups twoGroupsState 33 := by
  refine ⟨lowTables_twoGroups, ⟨by decide, by decide, by decide⟩, fun h => ?_⟩
  have hread := (h newBuf (fun _ => 1) newBuf).1 0 (by decide)
  exact absurd hread (by decide +kernel)

/-! ## Exact addresses -/

/-- The byte of the disk at which the format puts inode `num`, as an exact number. -/
def tableSlot (vol : Vol) (s : State) (num : ℕ) : ℕ :=
  s.inodeTblAddr ((num - 1) / vol.inodesPerGrp) * vol.blkSz +
    (num - 1) % vol.inodesPerGrp * vol.inodeSz

/-- Whatever is on the disk, inode `num` is read from its slot of the table. -/
def ReadsSlot (vol : Vol) (s : State) (num : ℕ) : Prop :=
  ∀ disk stack : Mem, ∀ i < inodeStructSz,
    ext2ReadInode vol ⟨disk, s.blkGrps⟩ num stack i = disk (tableSlot vol s num + i)

/-- `ext2_inode_lba` multiplies in 32 bits: an inode is read where it is exactly when it begins
below 4 GiB. -/
theorem ext2ReadInode_readsSlot_iff (vol : Vol) (s : State) (num : ℕ) (hvol : vol.Sized)
    (hsz : vol.inodeSz ∈ [128, 256, 512, 1024]) (hnum : vol.HasInode num) :
    ReadsSlot vol s num ↔ tableSlot vol s num < 2 ^ 32 := by
  have hdvd : inodeStructSz ∣ vol.inodeSz :=
    (by decide : ∀ sz ∈ [128, 256, 512, 1024], inodeStructSz ∣ sz) _ hsz
  have hread : ∀ disk stack : Mem, ∀ i < inodeStructSz,
      ext2ReadInode vol ⟨disk, s.blkGrps⟩ num stack i = disk (u32 (tableSlot vol s num) + i) :=
    fun disk stack i hi => ext2ReadInode_of_dvd hvol hdvd hnum.1 hnum.2.2 hi
  constructor
  · intro h
    -- a disk with a single byte of 1, where the inode is
    by_contra hhigh
    have hbyte := h (fun a => if a = tableSlot vol s num then 1 else 0) newBuf 0 (by decide)
    have hlow := u32_lt (tableSlot vol s num)
    have hne : u32 (tableSlot vol s num) ≠ tableSlot vol s num := by omega
    simp [hread _ newBuf 0 (by decide), hne] at hbyte
  · intro hlow disk stack i hi
    rw [hread disk stack i hi, u32_of_lt hlow]

theorem ext2ReadInode_readsSlot_fresh :
    freshVol.HasInode 12 ∧ tableSlot freshVol freshState 12 = 6528 ∧
      ReadsSlot freshVol freshState 12 := by
  have hnum : freshVol.HasInode 12 := ⟨by decide, by decide, by decide⟩
  have hslot : tableSlot freshVol freshState 12 = 6528 := by decide +kernel
  refine ⟨hnum, hslot, ?_⟩
  have hiff := ext2ReadInode_readsSlot_iff freshVol freshState 12 freshVol_sized (by decide) hnum
  exact hiff.mpr (by rw [hslot]; decide)

/-- The table of the only group begins at block 2^22, which is byte 2^32. Inode 1 is read from
the first sector of the disk. -/
theorem ext2ReadInode_wraps :
    freshVol.HasInode 1 ∧ tableSlot freshVol ⟨newBuf, bytesAt 8 [0, 0, 0x40]⟩ 1 = 2 ^ 32 ∧
      ¬ReadsSlot freshVol ⟨newBuf, bytesAt 8 [0, 0, 0x40]⟩ 1 := by
  have hslot : tableSlot freshVol ⟨newBuf, bytesAt 8 [0, 0, 0x40]⟩ 1 = 2 ^ 32 := by
    decide +kernel
  refine ⟨⟨by decide, by decide, by decide⟩, hslot, fun h => ?_⟩
  have hbyte := h (bytesAt (2 ^ 32) [1]) newBuf 0 (by decide)
  rw [hslot] at hbyte
  exact absurd hbyte (by decide +kernel)

end KernelOld.Ext2
