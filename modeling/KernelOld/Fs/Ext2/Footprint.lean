import KernelOld.Fs.Ext2.Growth

/-!
# What a write touches

A write should change no more of the disk than the blocks of its file and the metadata that
belongs to them. `ext2_write` follows a pointer that is 0 to block 0 of the disk, and a write that
begins and ends in one block may copy past the buffer for the block.
-/

namespace KernelOld.Ext2
open ByteMemory MachineWord

variable {vol : Vol} {s s₁ : State} {file file₁ : FileNode} {ino ino₁ ptr disk stack : Mem}
  {off stop size num a i idx q : ℕ}

/-! ## Blocks of a file -/

/-- The metadata of a write to inode `num`: the block bitmaps, the table of group descriptors
and the inode. -/
def InMetadata (vol : Vol) (s : State) (num a : ℕ) : Prop :=
  (∃ g < vol.blkGrpCnt, InBlock vol (s.blockBitmapAddr g) a) ∨
    (512 * bgdsLba vol ≤ a ∧ a < 512 * bgdsLba vol + vol.blkGrpCnt * bgdSz) ∨
    InSlot vol s num a

def Mapped (vol : Vol) (disk : Mem) (idx : ℕ) (ino : Mem) : Prop :=
  ext2GetInodeBlk vol disk idx ino ≠ 0 ∧ 0 ∉ pointerBlocks vol disk idx ino

def PointerBlock (vol : Vol) (disk ino : Mem) (q : ℕ) : Prop :=
  q ≠ 0 ∧ (q = inoBlock ino 12 ∨ q = inoBlock ino 13 ∨
    inoBlock ino 13 ≠ 0 ∧ ∃ k, q = entry vol disk (inoBlock ino 13) k)

structure DataBlock (vol : Vol) (s : State) (num q : ℕ) : Prop where
  ne_zero : q ≠ 0
  apart : ∀ a, InBlock vol q a → ¬InMetadata vol s num a
  not_pointers : ¬PointerBlock vol s.disk (ext2ReadInode vol s num newBuf) q

/-- Block 0 is in use, and metadata, pointers and data of the file are kept apart. -/
structure FormedFile (vol : Vol) (s : State) (num : ℕ) : Prop where
  sized : vol.Sized
  inodeSized : vol.InodeSized
  hasInode : vol.HasInode num
  zero_apart : ∀ a, InBlock vol 0 a → ¬InMetadata vol s num a
  zero_used : vol.firstDatBlock = 0 → blockBit vol s 0 = true
  data : ∀ idx, Mapped vol s.disk idx (ext2ReadInode vol s num newBuf) →
    DataBlock vol s num (ext2GetInodeBlk vol s.disk idx (ext2ReadInode vol s num newBuf))
  pointers : ∀ q, PointerBlock vol s.disk (ext2ReadInode vol s num newBuf) q →
    ∀ a, InBlock vol q a → ¬InMetadata vol s num a

theorem pointerBlock_of_mem (hzero : 0 ∉ pointerBlocks vol disk idx ino)
    (hq : q ∈ pointerBlocks vol disk idx ino) : PointerBlock vol disk ino q := by
  refine ⟨fun heq => hzero (heq ▸ hq), ?_⟩
  rw [pointerBlocks] at hzero hq
  split_ifs at hzero hq
  · cases hq
  · exact Or.inl (List.mem_singleton.mp hq)
  · rcases List.mem_cons.mp hq with hfirst | hsecond
    · exact Or.inr (Or.inl hfirst)
    · refine Or.inr (Or.inr ⟨fun heq => hzero ?_, _, List.mem_singleton.mp hsecond⟩)
      rw [heq]
      exact List.mem_cons_self
  · cases hq

/-! ## The property and its condition -/

/-- The metadata, the blocks that are taken, and those that the inode has in the end. -/
def MayChange (vol : Vol) (s s' : State) (num a : ℕ) : Prop :=
  InMetadata vol s num a ∨ ∃ n, InBlock vol n a ∧
    (TakesBlock vol s s' n ∨ ∃ idx, Mapped vol s'.disk idx (ext2ReadInode vol s' num newBuf) ∧
      ext2GetInodeBlk vol s'.disk idx (ext2ReadInode vol s' num newBuf) = n)

/-- The chunks fit into the buffer for a block, and so do the descriptors if a block is taken. -/
def Bounded (vol : Vol) (s : State) (file : FileNode) (off stop : ℕ) : Prop :=
  (∀ k < endBlk vol stop + 1 - startBlk vol off,
    chunkStart vol off (startBlk vol off + k) + chunkSize vol off stop (startBlk vol off + k) ≤
      vol.blkSz) ∧
    (Grows vol file stop → findFree blockBitmaps vol s ≠ none → vol.blkGrpCnt * bgdSz ≤ vol.blkSz)

instance (vol : Vol) (s : State) (file : FileNode) (off stop : ℕ) :
    Decidable (Bounded vol s file off stop) := inferInstanceAs (Decidable (_ ∧ _))

/-- `ext2_write`, without a result where a copy runs past its buffer, over the heap. -/
def ext2WriteBounded (vol : Vol) (s : State) (file : FileNode) (ptr : Mem) (off size : ℕ)
    (stack : Mem) : Option (State × FileNode × ℕ) :=
  if Bounded vol s file off (u64 (off + size)) then ext2Write vol s file ptr off size stack
  else none

/-- The call returns and has changed only what it may. -/
def WritesOwn (vol : Vol) (s : State) (file : FileNode) (off size : ℕ) : Prop :=
  ∀ ptr stack, ∃ s' file',
    ext2WriteBounded vol s file ptr off size stack = some (s', file', size) ∧
      ∀ a, ¬MayChange vol s s' file.inodeNum a → s'.disk a = s.disk a

/-- A write inside one block is copied from the offset of its start, but as many bytes as there are
up to its end. -/
def FitsOneBlock (vol : Vol) (off stop : ℕ) : Prop :=
  startBlk vol off = endBlk vol stop → off % vol.blkSz + stop % vol.blkSz ≤ vol.blkSz

/-- The block of this index is the one that the write takes. -/
def Gets (vol : Vol) (s : State) (file : FileNode) (stop i : ℕ) : Prop :=
  Grows vol file stop ∧ i = inoBlkCnt vol (ext2ReadInode vol s file.inodeNum newBuf) ∧ i < 12

instance (vol : Vol) (s : State) (file : FileNode) (stop i : ℕ) :
    Decidable (Gets vol s file stop i) := inferInstanceAs (Decidable (_ ∧ _))

/-- There is a block for the index, or there will be when the data are copied. -/
def Covered (vol : Vol) (s : State) (file : FileNode) (stop i : ℕ) : Prop :=
  if Gets vol s file stop i then ∃ g b, FirstClear vol s g b
  else Mapped vol s.disk i (ext2ReadInode vol s file.inodeNum newBuf)

/-- An end below 4 GiB, the inode written to where it is read from and, if a block is taken, the
descriptors written over metadata, and a free block. -/
structure GrowthSafe (vol : Vol) (s : State) (file : FileNode) (stop : ℕ) : Prop where
  below : stop < 2 ^ 32
  slot : writeSlot vol s file.inodeNum = readSlot vol s file.inodeNum
  bgds : (∃ g b, FirstClear vol s g b) → vol.blkGrpCnt * bgdSz ≤ vol.blkSz ∧
    ∀ a, 2 * vol.blkSz ≤ a → a < 2 * vol.blkSz + vol.blkGrpCnt * bgdSz →
      InMetadata vol s file.inodeNum a
  fresh : inoBlkCnt vol (ext2ReadInode vol s file.inodeNum newBuf) < 12 →
    ∀ g b, FirstClear vol s g b →
      DataBlock vol s file.inodeNum (u32 (g * vol.blksPerGrp + b))

/-- Where a block of pointers is missing, pointers are read from block 0. None is found there
by chance. -/
def NoStrayPointers (vol : Vol) (s : State) (num off stop : ℕ) : Prop :=
  ∀ i, Touches vol off stop i →
    0 ∈ pointerBlocks vol s.disk i (ext2ReadInode vol s num newBuf) →
    ext2GetInodeBlk vol s.disk i (ext2ReadInode vol s num newBuf) = 0 ∧
      ∀ q ∈ pointerBlocks vol s.disk i (ext2ReadInode vol s num newBuf),
        q = 0 ∨ PointerBlock vol s.disk (ext2ReadInode vol s num newBuf) q

/-! ## Before the copy loop -/

structure Prepared (vol : Vol) (s : State) (file : FileNode) (stop : ℕ) (s₁ : State)
    (ino₁ : Mem) : Prop where
  tables : ∀ g, s₁.inodeTblAddr g = s.inodeTblAddr g
  disk : ∀ a, ¬InMetadata vol s file.inodeNum a → s₁.disk a = s.disk a
  slot : ∀ a, a + 4 ≤ inodeStructSz →
    load s₁.disk (readSlot vol s file.inodeNum + a) 4 = load ino₁ a 4
  block : ∀ i < 15, inoBlock ino₁ i =
    if Gets vol s file stop i then (ext2AllocBlock vol s).2
    else inoBlock (ext2ReadInode vol s file.inodeNum newBuf) i

theorem prepareWrite_prepared (stack : Mem) (h : FormedFile vol s file.inodeNum)
    (hsafe : Grows vol file stop → GrowthSafe vol s file stop) :
    ∃ s₁ file₁ ino₁,
      prepareWrite vol s file (ext2ReadInode vol s file.inodeNum stack) stop =
        some (s₁, file₁, ino₁) ∧ Prepared vol s file stop s₁ ino₁ := by
  obtain ⟨hpos, -, hnum⟩ := h.hasInode
  have hle := h.inodeSized.le
  by_cases hgrows : Grows vol file stop
  · obtain ⟨hbelow, hslot, hbgds, -⟩ := hsafe hgrows
    obtain ⟨s₁, ino₁, hgrow, hG⟩ := growFile_grown s
      (ext2ReadInode vol s file.inodeNum stack) h.sized h.inodeSized hpos hnum hbelow
    refine ⟨s₁, _, ino₁, (if_pos hgrows).trans hgrow, hG.inodeTblAddr, fun a ha => ?_,
      fun a ha => hG.load_slot hslot (by omega), fun i hi => ?_⟩
    · rw [hG.disk_of_notSlot fun hin => ha (Or.inr (Or.inr (by rwa [hslot] at hin)))]
      rcases ext2AllocBlock_cases vol s with ⟨g, b, hfirst, -⟩ | ⟨-, heq⟩
      · refine ext2AllocBlock_disk h.sized (fun g hg hin => ha (Or.inl ⟨g, hg, hin⟩)) fun hin => ?_
        obtain ⟨hfit, htable⟩ := hbgds ⟨g, b, hfirst⟩
        exact ha (htable a hin.1 (by omega))
      · rw [heq]
    · rw [hG.block i hi, inoBlkCnt_ext2ReadInode_stack, inoBlock_ext2ReadInode_stack hi]
      simp only [Gets, hgrows, true_and]
  · refine ⟨s, file, _, prepareWrite_of_not_grows hgrows, fun _ => rfl, fun _ _ => rfl,
      fun a ha => (load_ext2ReadInode h.sized h.inodeSized hpos hnum ha).symm, fun i hi => ?_⟩
    rw [inoBlock_ext2ReadInode_stack hi, if_neg fun hgets => hgrows hgets.1]

namespace Prepared

variable (hP : Prepared vol s file stop s₁ ino₁)
include hP

theorem ext2GetInodeBlk_gets (hgets : Gets vol s file stop i) :
    ext2GetInodeBlk vol s₁.disk i ino₁ = (ext2AllocBlock vol s).2 ∧
      pointerBlocks vol s₁.disk i ino₁ = [] := by
  have hlt := hgets.2.2
  rw [ext2GetInodeBlk_direct hlt, hP.block i (by omega), if_pos hgets, pointerBlocks, if_pos hlt]
  exact ⟨rfl, rfl⟩

variable (h : FormedFile vol s file.inodeNum)
include h

/-- A pointer that is not the new one is found as before, as long as the blocks it is found
through are block 0 or pointer blocks of the file. -/
theorem ext2GetInodeBlk_eq (hgets : ¬Gets vol s file stop i)
    (hptrs : ∀ q ∈ pointerBlocks vol s.disk i (ext2ReadInode vol s file.inodeNum newBuf),
      q = 0 ∨ PointerBlock vol s.disk (ext2ReadInode vol s file.inodeNum newBuf) q) :
    ext2GetInodeBlk vol s₁.disk i ino₁ =
        ext2GetInodeBlk vol s.disk i (ext2ReadInode vol s file.inodeNum newBuf) ∧
      pointerBlocks vol s₁.disk i ino₁ =
        pointerBlocks vol s.disk i (ext2ReadInode vol s file.inodeNum newBuf) := by
  have hindirect : ∀ j, 12 ≤ j → ¬Gets vol s file stop j := fun j hj hgets =>
    absurd hgets.2.2 (by omega)
  refine ext2GetInodeBlk_congr h.sized (fun hlt => ?_) ?_ ?_ fun q hq a ha => hP.disk a ?_
  · rw [hP.block i (by omega), if_neg hgets]
  · rw [hP.block 12 (by decide), if_neg (hindirect 12 le_rfl)]
  · rw [hP.block 13 (by decide), if_neg (hindirect 13 (by decide))]
  · rcases hptrs q hq with rfl | hpointer
    · exact h.zero_apart a ha
    · exact h.pointers q hpointer a ha

theorem of_covered (hsafe : Grows vol file stop → GrowthSafe vol s file stop)
    (hcov : Covered vol s file stop i) :
    DataBlock vol s file.inodeNum (ext2GetInodeBlk vol s₁.disk i ino₁) ∧
      ∀ q ∈ pointerBlocks vol s₁.disk i ino₁,
        PointerBlock vol s.disk (ext2ReadInode vol s file.inodeNum newBuf) q := by
  rw [Covered] at hcov
  by_cases hgets : Gets vol s file stop i
  · rw [if_pos hgets] at hcov
    obtain ⟨g, b, hfirst⟩ := hcov
    obtain ⟨hptr, hnil⟩ := hP.ext2GetInodeBlk_gets hgets
    rw [hptr, hnil, hfirst.ext2AllocBlock_eq]
    refine ⟨(hsafe hgets.1).fresh ?_ g b hfirst, fun q hq => ?_⟩
    · rw [← hgets.2.1]
      exact hgets.2.2
    · cases hq
  · rw [if_neg hgets] at hcov
    have hpointers : ∀ q ∈ pointerBlocks vol s.disk i (ext2ReadInode vol s file.inodeNum newBuf),
        PointerBlock vol s.disk (ext2ReadInode vol s file.inodeNum newBuf) q :=
      fun q hq => pointerBlock_of_mem hcov.2 hq
    obtain ⟨hptr, hsame⟩ := hP.ext2GetInodeBlk_eq h hgets fun q hq => Or.inr (hpointers q hq)
    rw [hptr, hsame]
    exact ⟨h.data i hcov, hpointers⟩

theorem of_not_covered (hstray : NoStrayPointers vol s file.inodeNum off stop)
    (hi : Touches vol off stop i) (hcov : ¬Covered vol s file stop i) :
    ext2GetInodeBlk vol s₁.disk i ino₁ = 0 ∧
      ∀ q ∈ pointerBlocks vol s₁.disk i ino₁,
        q = 0 ∨ PointerBlock vol s.disk (ext2ReadInode vol s file.inodeNum newBuf) q := by
  rw [Covered] at hcov
  by_cases hgets : Gets vol s file stop i
  · rw [if_pos hgets] at hcov
    obtain ⟨hptr, hnil⟩ := hP.ext2GetInodeBlk_gets hgets
    rw [hptr, hnil]
    refine ⟨?_, fun q hq => by cases hq⟩
    rcases ext2AllocBlock_cases vol s with ⟨g, b, hfirst, -⟩ | ⟨-, heq⟩
    · exact absurd ⟨g, b, hfirst⟩ hcov
    · rw [heq]
  · rw [if_neg hgets, Mapped] at hcov
    have hmissing : ext2GetInodeBlk vol s.disk i (ext2ReadInode vol s file.inodeNum newBuf) = 0 ∧
        ∀ q ∈ pointerBlocks vol s.disk i (ext2ReadInode vol s file.inodeNum newBuf),
          q = 0 ∨ PointerBlock vol s.disk (ext2ReadInode vol s file.inodeNum newBuf) q := by
      by_cases hzero : 0 ∈ pointerBlocks vol s.disk i (ext2ReadInode vol s file.inodeNum newBuf)
      · exact hstray i hi hzero
      · refine ⟨by_contra fun hne => hcov ⟨hne, hzero⟩, fun q hq => ?_⟩
        exact Or.inr (pointerBlock_of_mem hzero hq)
    obtain ⟨hptr, hsame⟩ := hP.ext2GetInodeBlk_eq h hgets hmissing.2
    rw [hptr, hsame]
    exact hmissing

end Prepared

/-! ## The copy loop -/

/-- Where the copy loop goes while the blocks are there: nothing but these changes, and in the
end the inode has them. -/
theorem Prepared.chunks {s' : State} (hP : Prepared vol s file stop s₁ ino₁) (off : ℕ)
    (ptr : Mem) (h : FormedFile vol s file.inodeNum)
    (hsafe : Grows vol file stop → GrowthSafe vol s file stop) (hstop : stop < 2 ^ 32)
    (hcov : ∀ i, Touches vol off stop i → Covered vol s file stop i)
    (hs' : s' = ⟨chunksDisk vol off stop ino₁ ptr s₁.disk
      (endBlk vol stop + 1 - startBlk vol off), s₁.blkGrps⟩) :
    (∀ a, (∀ i, Touches vol off stop i →
        ¬InBlock vol (ext2GetInodeBlk vol s₁.disk i ino₁) a) → s'.disk a = s₁.disk a) ∧
      ∀ i, Touches vol off stop i →
        Mapped vol s'.disk i (ext2ReadInode vol s' file.inodeNum newBuf) ∧
          ext2GetInodeBlk vol s'.disk i (ext2ReadInode vol s' file.inodeNum newBuf) =
            ext2GetInodeBlk vol s₁.disk i ino₁ := by
  obtain ⟨hpos, -, hnum⟩ := h.hasInode
  have hle := h.inodeSized.le
  have hframe : ∀ a, (∀ i, Touches vol off stop i →
      ¬InBlock vol (ext2GetInodeBlk vol s₁.disk i ino₁) a) → s'.disk a = s₁.disk a := by
    intro a ha
    rw [hs']
    refine chunksDisk_frame ptr h.sized hstop _ le_rfl ?_ a fun i hi _ hin => ha i hi hin.1
    intro i j hi hj _ _ hmem
    exact (hP.of_covered h hsafe (hcov i hi)).1.not_pointers
      ((hP.of_covered h hsafe (hcov j hj)).2 _ hmem)
  -- neither the inode nor a pointer block is among the blocks that are written
  have hmeta : ∀ a, InMetadata vol s file.inodeNum a → s'.disk a = s₁.disk a := fun a ha =>
    hframe a fun i hi hin => (hP.of_covered h hsafe (hcov i hi)).1.apart a hin ha
  have hblock : ∀ i < 15, inoBlock (ext2ReadInode vol s' file.inodeNum newBuf) i =
      inoBlock ino₁ i := by
    intro i hi
    have hroom := pointer_le hi
    have hslot : readSlot vol s' file.inodeNum = readSlot vol s file.inodeNum := by
      rw [hs']
      exact readSlot_of_tables hP.tables
    rw [inoBlock, load_ext2ReadInode h.sized h.inodeSized hpos hnum hroom, hslot, inoBlock,
      ← hP.slot _ hroom]
    apply load_congr
    intro x hlo hhi
    exact hmeta x (Or.inr (Or.inr ⟨by omega, by omega⟩))
  refine ⟨hframe, fun i hi => ?_⟩
  obtain ⟨hdata, hpointers⟩ := hP.of_covered h hsafe (hcov i hi)
  obtain ⟨hptr, hsame⟩ := ext2GetInodeBlk_congr h.sized (fun hlt => hblock i (by omega))
    (hblock 12 (by decide)) (hblock 13 (by decide)) fun q hq a ha => hframe a fun j hj hin => by
      have heq := inBlock_unique h.sized hin ha
      exact (hP.of_covered h hsafe (hcov j hj)).1.not_pointers (heq ▸ hpointers q hq)
  refine ⟨⟨?_, ?_⟩, hptr⟩
  · rw [hptr]
    exact hdata.ne_zero
  · rw [hsame]
    exact fun hzero => (hpointers 0 hzero).1 rfl

/-! ## Buffers -/

theorem chunks_fit_iff (hvol : vol.Sized) :
    (∀ k < endBlk vol stop + 1 - startBlk vol off,
      chunkStart vol off (startBlk vol off + k) + chunkSize vol off stop (startBlk vol off + k) ≤
        vol.blkSz) ↔ FitsOneBlock vol off stop := by
  constructor
  · intro hall hsame
    have hfirst := hall 0 (by omega)
    rwa [Nat.add_zero, chunkStart, if_pos rfl, chunkSize, if_pos hsame] at hfirst
  · intro hfit k _
    have hstart : chunkStart vol off (startBlk vol off + k) < vol.blkSz := chunkStart_lt hvol
    have hmod := Nat.mod_lt stop hvol.pos
    rw [chunkSize]
    split_ifs with hlast
    · rw [chunkStart]
      split_ifs with hfirst
      · exact hfit (hfirst.symm.trans hlast)
      · omega
    · omega

theorem bounded_iff (hvol : vol.Sized) (hsafe : Grows vol file stop → GrowthSafe vol s file stop) :
    Bounded vol s file off stop ↔ FitsOneBlock vol off stop := by
  rw [Bounded, chunks_fit_iff hvol]
  refine and_iff_left fun hgrows hfree => ?_
  obtain ⟨⟨g, b⟩, hfind⟩ := Option.ne_none_iff_exists'.mp hfree
  exact ((hsafe hgrows).bgds ⟨g, b, firstClear_of_findFree hfind⟩).1

theorem WritesOwn.bounded (hown : WritesOwn vol s file off size) :
    Bounded vol s file off (u64 (off + size)) := by
  obtain ⟨s', file', hwrite, -⟩ := hown newBuf newBuf
  rw [ext2WriteBounded] at hwrite
  split_ifs at hwrite with hbounded
  exact hbounded

theorem writesOwn_of_covered (h : FormedFile vol s file.inodeNum)
    (hsafe : Grows vol file (u64 (off + size)) → GrowthSafe vol s file (u64 (off + size)))
    (hstop : u64 (off + size) < 2 ^ 32) (hfit : FitsOneBlock vol off (u64 (off + size)))
    (hcov : ∀ i, Touches vol off (u64 (off + size)) i →
      Covered vol s file (u64 (off + size)) i) : WritesOwn vol s file off size := by
  intro ptr stack
  obtain ⟨s₁, file₁, ino₁, hprep, hP⟩ := prepareWrite_prepared stack h hsafe
  refine ⟨_, _, (if_pos ((bounded_iff h.sized hsafe).mpr hfit)).trans
    (ext2Write_eq ptr h.sized rfl hstop hprep), fun a ha => ?_⟩
  obtain ⟨hframe, hmapped⟩ := hP.chunks off ptr h hsafe hstop hcov rfl
  rw [hframe a fun i hi hin => ?_]
  · exact hP.disk a fun hmeta => ha (Or.inl hmeta)
  · obtain ⟨hmap, hptr⟩ := hmapped i hi
    exact ha (Or.inr ⟨_, hin, Or.inr ⟨i, hmap, hptr⟩⟩)

theorem not_mayChange_zero {s' : State} (h : FormedFile vol s num) (ha : InBlock vol 0 a) :
    ¬MayChange vol s s' num a := by
  rintro (hmeta | ⟨n, hin, hown⟩)
  · exact h.zero_apart a ha hmeta
  obtain rfl := inBlock_unique h.sized hin ha
  rcases hown with htakes | ⟨idx, hmap, hptr⟩
  · have hused := h.zero_used (Nat.le_zero.mp htakes.first_le)
    rw [htakes.before] at hused
    cases hused
  · exact hmap.1 hptr

theorem covered_of_writesOwn (h : FormedFile vol s file.inodeNum)
    (hsafe : Grows vol file (u64 (off + size)) → GrowthSafe vol s file (u64 (off + size)))
    (hstop : u64 (off + size) < 2 ^ 32)
    (hstray : NoStrayPointers vol s file.inodeNum off (u64 (off + size)))
    (hown : WritesOwn vol s file off size) (hi : Touches vol off (u64 (off + size)) i) :
    Covered vol s file (u64 (off + size)) i := by
  -- by induction, so that the blocks before this one are there
  induction i using Nat.strong_induction_on with
  | _ i ih =>
    by_contra hcov
    have hx : InBlock vol 0 (0 * vol.blkSz + chunkStart vol off i) := by
      have hstart : chunkStart vol off i < vol.blkSz := chunkStart_lt h.sized
      exact ⟨by omega, by omega⟩
    generalize hxeq : 0 * vol.blkSz + chunkStart vol off i = x at hx
    -- a byte that is not the one in block 0
    obtain ⟨c, hc⟩ : ∃ c : UInt8, c ≠ s.disk x := by
      by_cases hzero : s.disk x = 0
      · exact ⟨1, by rw [hzero]; decide⟩
      · exact ⟨0, Ne.symm hzero⟩
    obtain ⟨s₁, file₁, ino₁, hprep, hP⟩ := prepareWrite_prepared newBuf h hsafe
    obtain ⟨s', file', hwrite, hsame⟩ := hown (fun _ => c) newBuf
    rw [ext2WriteBounded, if_pos hown.bounded, ext2Write_eq _ h.sized rfl hstop hprep] at hwrite
    cases hwrite
    have hkept := hsame x (not_mayChange_zero h hx)
    obtain ⟨hzero, hpointers⟩ := hP.of_not_covered h hstray hi hcov
    have hlast : i < startBlk vol off +
        (endBlk vol (u64 (off + size)) + 1 - startBlk vol off) := by
      have hfirst := hi.1
      have hend := hi.le_endBlk h.sized hstop
      omega
    have hreach := chunksDisk_const ino₁ s₁.disk c _ h.sized hstop hi hlast
      fun j k hj hk hjk hki hmem => by
        obtain ⟨hdata, -⟩ := hP.of_covered h hsafe (ih j (by omega) hj)
        rcases Nat.lt_or_eq_of_le hki with hlt | rfl
        · exact hdata.not_pointers ((hP.of_covered h hsafe (ih k hlt hk)).2 _ hmem)
        · exact (hpointers _ hmem).elim hdata.ne_zero hdata.not_pointers
    rw [hzero, hxeq] at hreach
    exact hc (hreach.symm.trans hkept)

/-- A write on a well-formed volume changes only what it may if it fits the buffer and every block
that bytes are copied to will be there. For a file that does not grow, and for one whose growth
stays in bounds, this is also necessary, unless pointers are found in block 0 by chance. -/
theorem ext2Write_writesOwn (vol : Vol) (s : State) (file : FileNode) (off size : ℕ)
    (h : FormedFile vol s file.inodeNum)
    (hsafe : Grows vol file (u64 (off + size)) → GrowthSafe vol s file (u64 (off + size))) :
    (FitsOneBlock vol off (u64 (off + size)) →
      (∀ i, Touches vol off (u64 (off + size)) i → Covered vol s file (u64 (off + size)) i) →
      WritesOwn vol s file off size) ∧
    (WritesOwn vol s file off size → FitsOneBlock vol off (u64 (off + size))) ∧
    (NoStrayPointers vol s file.inodeNum off (u64 (off + size)) →
      WritesOwn vol s file off size →
      ∀ i, Touches vol off (u64 (off + size)) i → Covered vol s file (u64 (off + size)) i) := by
  have hstop : u64 (off + size) < 2 ^ 32 := by
    by_cases hgrows : Grows vol file (u64 (off + size))
    · exact (hsafe hgrows).below
    · exact lt_of_le_of_lt (Nat.le_of_not_lt hgrows) (u32_lt _)
  exact ⟨writesOwn_of_covered h hsafe hstop,
    fun hown => (bounded_iff h.sized hsafe).mp hown.bounded,
    fun hstray hown i hi => covered_of_writesOwn h hsafe hstop hstray hown hi⟩

theorem smallFile_mapped (hmap : Mapped freshVol smallState.disk idx
    (ext2ReadInode freshVol smallState smallFile.inodeNum newBuf)) : idx = 0 := by
  obtain ⟨hne, hzero⟩ := hmap
  have hsind : inoBlock (ext2ReadInode freshVol smallState smallFile.inodeNum newBuf) 12 = 0 :=
    smallFile_blocks 12 (by decide)
  have hdind : inoBlock (ext2ReadInode freshVol smallState smallFile.inodeNum newBuf) 13 = 0 :=
    smallFile_blocks 13 (by decide)
  rw [ext2GetInodeBlk] at hne
  rw [pointerBlocks, hsind, hdind] at hzero
  split_ifs at hne hzero with hlt
  · by_contra hidx
    rw [smallFile_blocks idx (by omega), if_neg hidx] at hne
    exact hne rfl
  · exact absurd List.mem_cons_self hzero
  · exact absurd List.mem_cons_self hzero
  · exact absurd rfl hne

theorem smallFile_inMetadata (h : InMetadata freshVol smallState smallFile.inodeNum a) :
    3072 ≤ a ∧ a < 4096 ∨ 2048 ≤ a ∧ a < 2086 ∨ 6528 ≤ a ∧ a < 6656 := by
  rcases h with ⟨g, hg, hin⟩ | htable | hslot
  · have hzero : g = 0 := Nat.lt_one_iff.mp hg
    have haddr : smallState.blockBitmapAddr 0 = 3 := by decide +kernel
    rw [hzero, haddr] at hin
    exact Or.inl hin
  · have hlba : bgdsLba freshVol = 4 := by decide +kernel
    rw [hlba] at htable
    exact Or.inr (Or.inl htable)
  · rw [InSlot, readSlot_smallFile] at hslot
    exact Or.inr (Or.inr hslot)

theorem dataBlock_smallFile (hq : q = 9 ∨ q = 20) :
    DataBlock freshVol smallState smallFile.inodeNum q := by
  refine ⟨by omega, fun a hin hmeta => ?_, fun hpointer => ?_⟩
  · have hlo : q * 1024 ≤ a := hin.1
    have hmeta' := smallFile_inMetadata hmeta
    omega
  · obtain ⟨hne, hsind | hdind | ⟨hdind, -⟩⟩ := hpointer
    · exact hne (hsind.trans (smallFile_blocks 12 (by decide)))
    · exact hne (hdind.trans (smallFile_blocks 13 (by decide)))
    · exact hdind (smallFile_blocks 13 (by decide))

theorem formedFile_smallFile : FormedFile freshVol smallState smallFile.inodeNum where
  sized := freshVol_sized
  inodeSized := Or.inl rfl
  hasInode := ⟨by decide, by decide, by decide⟩
  zero_apart := by
    intro a hin hmeta
    have hhi : a < 0 * 1024 + 1024 := hin.2
    have hmeta' := smallFile_inMetadata hmeta
    omega
  zero_used := by decide
  data := by
    intro idx hmap
    rw [smallFile_mapped hmap, ext2GetInodeBlk_direct (by decide),
      smallFile_blocks 0 (by decide)]
    exact dataBlock_smallFile (Or.inr rfl)
  pointers := by
    rintro q ⟨hne, hsind | hdind | ⟨hdind, -⟩⟩
    · exact absurd (hsind.trans (smallFile_blocks 12 (by decide))) hne
    · exact absurd (hdind.trans (smallFile_blocks 13 (by decide))) hne
    · exact absurd (smallFile_blocks 13 (by decide)) hdind

theorem growthSafe_smallFile (hstop : stop < 2 ^ 32) :
    GrowthSafe freshVol smallState smallFile stop where
  below := hstop
  slot := by decide +kernel
  bgds := by
    refine fun _ => ⟨by decide, fun a hlo hhi => Or.inr (Or.inl ?_)⟩
    have hlba : bgdsLba freshVol = 4 := by decide +kernel
    rw [hlba]
    exact ⟨hlo, hhi⟩
  fresh := by
    intro _ g b hfirst
    have hknown : FirstClear freshVol smallState 0 9 :=
      ⟨by decide, by decide, by decide +kernel, by decide +kernel, by decide⟩
    obtain ⟨rfl, rfl⟩ := hfirst.unique hknown
    exact dataBlock_smallFile (Or.inl rfl)

/-- 150 bytes appended to the file of 100 bytes stay in its block. -/
theorem ext2Write_writesOwn_small : WritesOwn freshVol smallState smallFile 100 150 := by
  refine (ext2Write_writesOwn freshVol smallState smallFile 100 150 formedFile_smallFile
    fun _ => growthSafe_smallFile (by decide)).1 (fun _ => by decide) fun i hi => ?_
  have hzero : i = 0 := by
    have hbytes : i * 1024 < 250 := hi.2
    omega
  have hcnt : inoBlkCnt freshVol (ext2ReadInode freshVol smallState smallFile.inodeNum newBuf) =
      1 := by decide +kernel
  rw [hzero, Covered, if_neg fun hgets : Gets freshVol smallState smallFile _ 0 =>
    absurd (hgets.2.1.trans hcnt) (by decide)]
  refine ⟨?_, by decide +kernel⟩
  rw [ext2GetInodeBlk_direct (by decide), smallFile_blocks 0 (by decide)]
  decide

/-- 2000 bytes appended need two more blocks. One is taken, and the rest goes to block 0. -/
theorem ext2Write_writes_zero :
    FormedFile freshVol smallState smallFile.inodeNum ∧
      ¬WritesOwn freshVol smallState smallFile 100 2000 := by
  refine ⟨formedFile_smallFile, fun hown => ?_⟩
  have hcnt : inoBlkCnt freshVol (ext2ReadInode freshVol smallState smallFile.inodeNum newBuf) =
      1 := by decide +kernel
  have hstray : NoStrayPointers freshVol smallState smallFile.inodeNum 100 (u64 (100 + 2000)) := by
    intro i hi hzero
    have hbytes : i * 1024 < 2100 := hi.2
    rw [pointerBlocks, if_pos (by omega)] at hzero
    cases hzero
  have hcov := covered_of_writesOwn formedFile_smallFile
    (fun _ => growthSafe_smallFile (by decide)) (by decide) hstray hown
    (show Touches freshVol 100 (u64 (100 + 2000)) 2 from ⟨by decide, by decide⟩)
  rw [Covered, if_neg fun hgets : Gets freshVol smallState smallFile _ 2 =>
    absurd (hgets.2.1.trans hcnt) (by decide)] at hcov
  exact absurd (smallFile_mapped hcov) (by decide)

end KernelOld.Ext2
