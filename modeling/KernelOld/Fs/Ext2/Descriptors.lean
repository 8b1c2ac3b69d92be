import KernelOld.Fs.Ext2.Remount

/-!
# The format of group descriptors

On disk a group descriptor takes 32 bytes. `ext2_bgd_t` has three counters of four bytes where
the format has two bytes each, and so takes 38: from the second group on, `ext2_init` finds the
fields of a descriptor six bytes further on for each group in front of it.
-/

namespace KernelOld.Ext2
open ByteMemory MachineWord

variable {disk disk' : Mem} {vol : Vol} {i k room : ℕ}

def bgdRecordSz : ℕ := 32

/-- The descriptor table of the format: the block behind the one with the superblock. -/
def bgdTableLoc (vol : Vol) : ℕ := if vol.logBlockSz = 0 then 2 * vol.blkSz else vol.blkSz

/-- The three addresses of group `i` in memory are those of its record on disk. -/
structure Decodes (disk : Mem) (vol : Vol) (s : State) (i : ℕ) : Prop where
  blockBitmap : s.blockBitmapAddr i = load disk (bgdTableLoc vol + bgdRecordSz * i) 4
  inodeBitmap : s.inodeBitmapAddr i = load disk (bgdTableLoc vol + bgdRecordSz * i + 4) 4
  inodeTbl : s.inodeTblAddr i = load disk (bgdTableLoc vol + bgdRecordSz * i + 8) 4

/-- The two disks have the same superblock. -/
def SameSuper (disk disk' : Mem) : Prop := ∀ x < 512, disk' (1024 + x) = disk (1024 + x)

theorem readSuper_blkGrpCnt_lt (disk : Mem) : (readSuper disk).blkGrpCnt < 2 ^ 32 := by
  have hcnt : (readSuper disk).blkCnt < 2 ^ 32 := load_lt _ 4 4
  have hgroups : (readSuper disk).blkGrpCnt =
      if (readSuper disk).blkCnt % (readSuper disk).blksPerGrp ≠ 0 then
        (readSuper disk).blkCnt / (readSuper disk).blksPerGrp + 1
      else (readSuper disk).blkCnt / (readSuper disk).blksPerGrp := rfl
  generalize (readSuper disk).blksPerGrp = n at hgroups
  rw [hgroups]
  obtain hn | hn := Nat.lt_or_ge n 2
  · interval_cases n
    · rw [Nat.div_zero]
      split <;> decide
    · rw [Nat.mod_one, Nat.div_one, if_neg (by simp)]
      exact hcnt
  · have hle : (readSuper disk).blkCnt / n ≤ (readSuper disk).blkCnt / 2 :=
      Nat.div_le_div_left hn (by decide)
    split <;> omega

theorem record_end_le (hi : i < vol.blkGrpCnt) : bgdSz * i + 12 ≤ vol.blkGrpCnt * bgdSz := by
  rw [bgdSz]
  omega

/-- What `ext2_init` finds for group `i` is `sizeof(ext2_bgd_t)` bytes further on for each group
in front of it. -/
theorem mountState_field (hvol : (readSuper disk).Sized) (hi : i < (readSuper disk).blkGrpCnt)
    (hk : k ≤ 8) :
    load (mountState disk).blkGrps (bgdSz * i + k) 4 =
      load disk (bgdTableLoc (readSuper disk) + bgdSz * i + k) 4 := by
  refine load_eq_of_bytes fun x hx => ?_
  have hend := record_end_le hi
  have hread : readBgds (readSuper disk) disk (bgdSz * i + k + x) = _ :=
    readBgds_apply (readSuper_blkGrpCnt_lt disk) (Nat.lt_of_lt_of_le (by omega) hend)
  have hloc : 512 * bgdsLba (readSuper disk) = bgdTableLoc (readSuper disk) := bgdsLba_mul hvol
  rw [hloc, ← Nat.add_assoc, ← Nat.add_assoc] at hread
  exact hread

theorem words_eq_iff {a b : ℕ} :
    (load disk a 4 = load disk b 4 ∧ load disk (a + 4) 4 = load disk (b + 4) 4 ∧
      load disk (a + 8) 4 = load disk (b + 8) 4) ↔
    ∀ k < 12, disk (a + k) = disk (b + k) := by
  constructor
  · rintro ⟨h₀, h₁, h₂⟩ k hk
    obtain hlt | hge := Nat.lt_or_ge k 4
    · exact bytes_eq_of_load_eq h₀ hlt
    obtain ⟨j, rfl⟩ := Nat.exists_eq_add_of_le hge
    obtain hj | hj := Nat.lt_or_ge j 4
    · rw [← Nat.add_assoc, ← Nat.add_assoc]
      exact bytes_eq_of_load_eq h₁ hj
    obtain ⟨l, rfl⟩ := Nat.exists_eq_add_of_le hj
    have hbyte := bytes_eq_of_load_eq h₂ (i := l) (by omega)
    rw [Nat.add_assoc, Nat.add_assoc] at hbyte
    rw [← Nat.add_assoc 4 4 l]
    exact hbyte
  · intro h
    refine ⟨load_eq_of_bytes fun x hx => h x (by omega), load_eq_of_bytes fun x hx => ?_,
      load_eq_of_bytes fun x hx => ?_⟩
    · rw [Nat.add_assoc, Nat.add_assoc]
      exact h (4 + x) (by omega)
    · rw [Nat.add_assoc, Nat.add_assoc]
      exact h (8 + x) (by omega)

theorem decodes_iff (hvol : (readSuper disk).Sized) (hi : i < (readSuper disk).blkGrpCnt) :
    Decodes disk (readSuper disk) (mountState disk) i ↔ ∀ k < 12,
      disk (bgdTableLoc (readSuper disk) + bgdSz * i + k) =
        disk (bgdTableLoc (readSuper disk) + bgdRecordSz * i + k) := by
  have hblock : (mountState disk).blockBitmapAddr i =
      load disk (bgdTableLoc (readSuper disk) + bgdSz * i) 4 :=
    mountState_field hvol hi (Nat.zero_le 8)
  have hinode : (mountState disk).inodeBitmapAddr i =
      load disk (bgdTableLoc (readSuper disk) + bgdSz * i + 4) 4 :=
    mountState_field hvol hi (by decide)
  have htable : (mountState disk).inodeTblAddr i =
      load disk (bgdTableLoc (readSuper disk) + bgdSz * i + 8) 4 :=
    mountState_field hvol hi (Nat.le_refl 8)
  rw [← words_eq_iff, ← hblock, ← hinode, ← htable]
  exact ⟨fun ⟨h₀, h₁, h₂⟩ => ⟨h₀, h₁, h₂⟩, fun ⟨h₀, h₁, h₂⟩ => ⟨h₀, h₁, h₂⟩⟩

theorem SameSuper.vol_eq (h : SameSuper disk disk') : readSuper disk' = readSuper disk :=
  readSuper_congr h

theorem bgdTableLoc_ge (hvol : vol.Sized) : 2048 ≤ bgdTableLoc vol := by
  have hle := hvol.le
  rw [bgdTableLoc]
  by_cases hlog : vol.logBlockSz = 0
  · rw [if_pos hlog]
    omega
  · have htwo : 2 ^ 1 ≤ 2 ^ vol.logBlockSz :=
      Nat.pow_le_pow_right (by decide) (Nat.one_le_iff_ne_zero.mpr hlog)
    rw [if_neg hlog, hvol.blkSz_eq]
    omega

theorem exists_not_decodes (hvol : (readSuper disk).Sized)
    (hcnt : 1 < (readSuper disk).blkGrpCnt) :
    ∃ disk', SameSuper disk disk' ∧
      ¬Decodes disk' (readSuper disk') (mountState disk') 1 := by
  have hloc := bgdTableLoc_ge hvol
  generalize hvol' : bgdTableLoc (readSuper disk) = loc at hloc
  -- The first byte of the second record differs from the byte where it is looked for.
  obtain ⟨disk', hfound, hthere, hrest⟩ : ∃ disk' : Mem, disk' (loc + 38) = 1 ∧
      disk' (loc + 32) = 0 ∧ ∀ a < loc, disk' a = disk a := by
    refine ⟨Function.update (Function.update disk (loc + 38) 1) (loc + 32) 0, ?_,
      Function.update_self .., fun a ha => ?_⟩
    · rw [Function.update_of_ne (by omega), Function.update_self]
    · rw [Function.update_of_ne (by omega), Function.update_of_ne (by omega)]
  have hsuper : SameSuper disk disk' := fun x hx => hrest _ (by omega)
  refine ⟨disk', hsuper, ?_⟩
  rw [decodes_iff (hsuper.vol_eq ▸ hvol) (hsuper.vol_eq ▸ hcnt), hsuper.vol_eq, hvol']
  intro h
  have hbyte : disk' (loc + 38) = disk' (loc + 32) := h 0 (by decide)
  rw [hfound, hthere] at hbyte
  exact absurd hbyte (by decide)

/-- A descriptor is decoded exactly when `ext2_init` returns and the twelve bytes at `38 * i` of the
table happen to be those at `32 * i`. Whether all are decoded, whatever the table holds, is decided
by the superblock: they are when there is one group. -/
theorem ext2Init_decodes_iff (disk : Mem) (room : ℕ) (hvol : (readSuper disk).Sized) :
    (∀ i < (readSuper disk).blkGrpCnt,
      Mounts disk room (fun vol s => Decodes disk vol s i) ↔ Mountable disk room ∧ ∀ k < 12,
        disk (bgdTableLoc (readSuper disk) + bgdSz * i + k) =
          disk (bgdTableLoc (readSuper disk) + bgdRecordSz * i + k)) ∧
    ((∀ disk', SameSuper disk disk' →
      Mounts disk' room fun vol s => ∀ i < vol.blkGrpCnt, Decodes disk' vol s i) ↔
        Mountable disk room ∧ (readSuper disk).blkGrpCnt ≤ 1) := by
  simp only [mounts_iff]
  refine ⟨fun i hi => and_congr_right fun _ => decodes_iff hvol hi, fun hall => ?_, ?_⟩
  · refine ⟨(hall disk fun _ _ => rfl).1, ?_⟩
    by_contra hcnt
    obtain ⟨disk', hsuper, hnot⟩ := exists_not_decodes hvol (Nat.lt_of_not_le hcnt)
    refine hnot ((hall disk' hsuper).2 1 ?_)
    rw [hsuper.vol_eq]
    exact Nat.lt_of_not_le hcnt
  · rintro ⟨hmount, hone⟩ disk' hsuper
    rw [Mountable, ← hsuper.vol_eq] at hmount
    refine ⟨hmount, fun i hi => ?_⟩
    rw [decodes_iff (hsuper.vol_eq ▸ hvol) hi]
    rw [hsuper.vol_eq] at hi
    obtain rfl : i = 0 := by omega
    exact fun k _ => rfl

/-- 128 inodes of 128 bytes in each group. -/
def groupsDisk (blkCnt : ℕ) : Mem :=
  [(1028, blkCnt), (1056, 8192), (1064, 128), (1112, 128), (2048, 3), (2052, 4), (2056, 5),
    (2080, 8195), (2084, 8196), (2088, 8197)].foldl (fun m w => store m w.1 4 w.2) newBuf

theorem ext2Init_decodes_iff_one_group :
    Mounts (groupsDisk 8192) 540 fun vol s =>
      vol.blkGrpCnt = 1 ∧ ∀ i < vol.blkGrpCnt, Decodes (groupsDisk 8192) vol s i := by
  have hvol : (readSuper (groupsDisk 8192)).Sized := ⟨by decide +kernel, by decide +kernel⟩
  have hcnt : (readSuper (groupsDisk 8192)).blkGrpCnt = 1 := by decide +kernel
  obtain ⟨vol, s, root, hinit, hall⟩ := (ext2Init_decodes_iff (groupsDisk 8192) 540 hvol).2.mpr
    ⟨by decide +kernel, hcnt.le⟩ _ fun _ _ => rfl
  exact ⟨vol, s, root, hinit, (of_ext2Init_eq_some hinit).2.1 ▸ hcnt, hall⟩

/-- On a disk with two groups, the inode table of the second is looked for in a block that the
disk does not have. -/
theorem ext2Init_misreads_second_group :
    Mounts (groupsDisk 16384) 540 fun vol s => vol.Sized ∧ vol.blkGrpCnt = 2 ∧
      load (groupsDisk 16384) (bgdTableLoc vol + 32 * 1 + 8) 4 = 8197 ∧
      s.inodeTblAddr 1 ≠ 8197 ∧ ¬Decodes (groupsDisk 16384) vol s 1 := by
  have htable : load (groupsDisk 16384)
      (bgdTableLoc (readSuper (groupsDisk 16384)) + bgdRecordSz * 1 + 8) 4 = 8197 := by
    decide +kernel
  have hmisread : (mountState (groupsDisk 16384)).inodeTblAddr 1 ≠ 8197 := by decide +kernel
  refine mounts_iff.mpr ⟨by decide +kernel, ⟨by decide +kernel, by decide +kernel⟩,
    by decide +kernel, htable, hmisread, ?_⟩
  exact fun h => hmisread (h.inodeTbl.trans htable)

end KernelOld.Ext2
