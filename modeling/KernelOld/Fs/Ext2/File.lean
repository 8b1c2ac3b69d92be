import KernelOld.Fs.Ext2.Inode
import KernelOld.Lib.CountedLoop

/-!
# Files

The block pointers of an inode and `ext2_write`, from `fs/ext2/inode.c` and `fs/ext2/file.c`. A
pointer that is 0 is followed like any other, to block 0 of the disk. A write that makes the file
longer first takes one block and puts it behind the blocks that `sector_cnt` counts.
-/

namespace KernelOld.Ext2
open ByteMemory MachineWord CountedLoop

/-! ## The model -/

def inoSize (ino : Mem) : ℕ := load ino 4 4

def inoSectorCnt (ino : Mem) : ℕ := load ino 28 4

def inoBlock (ino : Mem) (i : ℕ) : ℕ := load ino (40 + 4 * i) 4

def dindStrt (vol : Vol) : ℕ := u32 (12 + vol.blkSz / 4)

def tindStrt (vol : Vol) : ℕ := u32 (dindStrt vol + u32 (vol.blkSz / 4 * (vol.blkSz / 4)))

def entry (vol : Vol) (disk : Mem) (blk k : ℕ) : ℕ := load (readBlock vol disk blk) (4 * k) 4

def ext2GetInodeBlk (vol : Vol) (disk : Mem) (idx : ℕ) (ino : Mem) : ℕ :=
  let bpp := vol.blkSz / 4
  if idx < 12 then inoBlock ino idx
  else if idx < dindStrt vol then entry vol disk (inoBlock ino 12) (idx - 12)
  else if idx < tindStrt vol then
    let blkPtr := entry vol disk (inoBlock ino 13) ((idx - dindStrt vol) / bpp)
    entry vol disk blkPtr ((idx - dindStrt vol) % bpp)
  else 0

/-- Pointers in blocks are not set: the branches for `idx >= sind_strt` do nothing. -/
def ext2SetInodeBlk (vol : Vol) (s : State) (idx : ℕ) (ino : Mem) (inonum blk : ℕ) :
    State × Mem :=
  if idx < 12 then
    let ino := store ino (40 + 4 * idx) 4 blk
    let ino := store ino 28 4 (inoSectorCnt ino + vol.blkSz / 512)
    (ext2WriteInode vol s inonum ino, ino)
  else (s, ino)

def ext2ReadInodeBlk (vol : Vol) (disk : Mem) (idx : ℕ) (ino : Mem) : Mem :=
  readBlock vol disk (ext2GetInodeBlk vol disk idx ino)

def ext2WriteInodeBlk (vol : Vol) (disk : Mem) (idx : ℕ) (ino buffer : Mem) : Mem :=
  writeBlock vol disk (ext2GetInodeBlk vol disk idx ino) buffer

def inoBlkCnt (vol : Vol) (ino : Mem) : ℕ := inoSectorCnt ino / (vol.blkSz / 512)

def ext2AllocInodeBlk (vol : Vol) (s : State) (ino : Mem) (inonum : ℕ) : State × Mem :=
  let r := ext2AllocBlock vol s
  ext2SetInodeBlk vol r.1 (inoBlkCnt vol ino) ino inonum r.2

structure FileNode where
  size : ℕ
  inodeNum : ℕ
  deriving DecidableEq

/-- The test for growth, where `stop` is `off + size`. The sum on the left is 32-bit. -/
def Grows (vol : Vol) (file : FileNode) (stop : ℕ) : Prop :=
  u32 (file.size + file.size % vol.blkSz) < stop

instance (vol : Vol) (file : FileNode) (stop : ℕ) : Decidable (Grows vol file stop) :=
  inferInstanceAs (Decidable (_ < _))

/-- The first branch of `ext2_write`. `file->size` is set before it is subtracted, so the difference
is what the cut to 32 bits takes away. The counter has 32 bits too. -/
def growFile (vol : Vol) (s : State) (file : FileNode) (ino : Mem) (stop : ℕ) :
    Option (State × FileNode × Mem) :=
  let file := { file with size := u32 stop }
  let rounds := (stop - file.size) / vol.blkSz + 1
  if rounds < 2 ^ 32 then
    let (s, ino) := loop (fun _ p => ext2AllocInodeBlk vol p.1 p.2 file.inodeNum) rounds (s, ino)
    let ino := store ino 4 4 stop
    some (ext2WriteInode vol s file.inodeNum ino, file, ino)
  else none

/-- What `ext2_write` does before it copies. The branch for files that get shorter is empty. -/
def prepareWrite (vol : Vol) (s : State) (file : FileNode) (ino : Mem) (stop : ℕ) :
    Option (State × FileNode × Mem) :=
  if Grows vol file stop then growFile vol s file ino stop else some (s, file, ino)

section

variable (vol : Vol) (off stop : ℕ)

def startBlk : ℕ := u32 (off / vol.blkSz)

def endBlk : ℕ := u32 (stop / vol.blkSz)

def chunkStart (i : ℕ) : ℕ := if i = startBlk vol off then off % vol.blkSz else 0

/-- When the write begins and ends in one block, it is counted from the start of the block. -/
def chunkSize (i : ℕ) : ℕ :=
  if i = endBlk vol stop then stop % vol.blkSz else vol.blkSz - chunkStart vol off i

def writeChunk (ino ptr : Mem) (i : ℕ) (st : Mem × ℕ) : Mem × ℕ :=
  let buf := ext2ReadInodeBlk vol st.1 i ino
  let buf := blit buf (chunkStart vol off i) ptr st.2 (chunkSize vol off stop i)
  (ext2WriteInodeBlk vol st.1 i ino buf, st.2 + chunkSize vol off stop i)

/-- The copy loop. Its condition `i <= endblk` always holds for the greatest `endblk`. -/
def writeChunks (ino ptr disk : Mem) : Option Mem :=
  if endBlk vol stop + 1 < 2 ^ 32 then
    some (loop (fun k => writeChunk vol off stop ino ptr (startBlk vol off + k))
      (endBlk vol stop + 1 - startBlk vol off) (disk, 0)).1
  else none

end

/-- What a copy puts behind the buffer of a block is not followed: `ext2WriteBounded` has no result
where there is such a copy. -/
def ext2Write (vol : Vol) (s : State) (file : FileNode) (ptr : Mem) (off size : ℕ)
    (stack : Mem) : Option (State × FileNode × ℕ) := do
  let ino := ext2ReadInode vol s file.inodeNum stack
  let stop := u64 (off + size)
  let (s, file, ino) ← prepareWrite vol s file ino stop
  let disk ← writeChunks vol off stop ino ptr s.disk
  return ({ s with disk }, file, size)

variable {vol : Vol} {s : State} {file : FileNode} {ino ino' ptr disk disk' stack : Mem}
  {off stop num idx i k p q a x b g : ℕ}

/-! ## Inodes that were read -/

theorem pointer_le (hi : i < 15) : 40 + 4 * i + 4 ≤ inodeStructSz := by
  rw [inodeStructSz]
  omega

theorem load_ext2ReadInode {w : ℕ} (hvol : vol.Sized) (hsz : vol.InodeSized) (hpos : 1 ≤ num)
    (hnum : num < 2 ^ 32) (ha : a + w ≤ inodeStructSz) :
    load (ext2ReadInode vol s num stack) a w = load s.disk (readSlot vol s num + a) w := by
  apply load_eq_of_bytes
  intro i hi
  rw [ext2ReadInode_apply hvol hsz hpos hnum (by omega), Nat.add_assoc]

theorem load_ext2ReadInode_stack {w : ℕ} (ha : a + w ≤ inodeStructSz) :
    load (ext2ReadInode vol s num stack) a w = load (ext2ReadInode vol s num newBuf) a w := by
  apply load_congr
  intro x hlo hhi
  rw [ext2ReadInode, ext2ReadInode, blit_apply_of_mem (Nat.zero_le x) (by omega),
    blit_apply_of_mem (Nat.zero_le x) (by omega)]

theorem inoBlock_ext2ReadInode_stack (hi : i < 15) :
    inoBlock (ext2ReadInode vol s num stack) i = inoBlock (ext2ReadInode vol s num newBuf) i :=
  load_ext2ReadInode_stack (pointer_le hi)

theorem inoBlkCnt_ext2ReadInode_stack :
    inoBlkCnt vol (ext2ReadInode vol s num stack) =
      inoBlkCnt vol (ext2ReadInode vol s num newBuf) := by
  rw [inoBlkCnt, inoSectorCnt, load_ext2ReadInode_stack (by decide)]
  rfl

def InSlot (vol : Vol) (s : State) (num a : ℕ) : Prop :=
  readSlot vol s num ≤ a ∧ a < readSlot vol s num + vol.inodeSz

theorem readSlot_of_tables {s' : State} (h : ∀ g, s'.inodeTblAddr g = s.inodeTblAddr g) :
    readSlot vol s' num = readSlot vol s num := by
  rw [readSlot, h, readSlot]

theorem writeSlot_of_tables {s' : State} (h : ∀ g, s'.inodeTblAddr g = s.inodeTblAddr g) :
    writeSlot vol s' num = writeSlot vol s num := by
  rw [writeSlot, h, writeSlot]

theorem inoBlock_lt (ino : Mem) (i : ℕ) : inoBlock ino i < 2 ^ 32 := load_lt_u32 _ _

theorem inoBlock_setSize (hi : i < 15) : inoBlock (store ino 4 4 x) i = inoBlock ino i := by
  apply load_store_of_apart
  simp only [Apart]
  omega

/-! ## Pointers -/

theorem entry_lt (vol : Vol) (disk : Mem) (blk k : ℕ) : entry vol disk blk k < 2 ^ 32 :=
  load_lt_u32 _ _

theorem ext2GetInodeBlk_lt (vol : Vol) (disk : Mem) (idx : ℕ) (ino : Mem) :
    ext2GetInodeBlk vol disk idx ino < 2 ^ 32 := by
  rw [ext2GetInodeBlk]
  split_ifs
  · exact inoBlock_lt ino idx
  · exact entry_lt _ _ _ _
  · exact entry_lt _ _ _ _
  · decide

theorem ext2GetInodeBlk_direct (h : idx < 12) :
    ext2GetInodeBlk vol disk idx ino = inoBlock ino idx := by
  rw [ext2GetInodeBlk, if_pos h]

def pointerBlocks (vol : Vol) (disk : Mem) (idx : ℕ) (ino : Mem) : List ℕ :=
  if idx < 12 then []
  else if idx < dindStrt vol then [inoBlock ino 12]
  else if idx < tindStrt vol then
    [inoBlock ino 13, entry vol disk (inoBlock ino 13) ((idx - dindStrt vol) / (vol.blkSz / 4))]
  else []

def SameBlock (vol : Vol) (disk disk' : Mem) (q : ℕ) : Prop :=
  ∀ a, InBlock vol q a → disk' a = disk a

theorem readBlock_congr (hvol : vol.Sized) (hq : q < 2 ^ 32) (h : SameBlock vol disk disk' q) :
    readBlock vol disk' q = readBlock vol disk q := by
  funext x
  by_cases hx : x < vol.blkSz
  · rw [hvol.readBlock_apply hq hx, hvol.readBlock_apply hq hx]
    exact h _ ⟨by omega, by omega⟩
  · rw [hvol.readBlock_beyond (by omega), hvol.readBlock_beyond (by omega)]

theorem entry_congr (hvol : vol.Sized) (hq : q < 2 ^ 32) (h : SameBlock vol disk disk' q) :
    entry vol disk' q k = entry vol disk q k := by
  rw [entry, entry, readBlock_congr hvol hq h]

theorem ext2GetInodeBlk_congr (hvol : vol.Sized)
    (hdirect : idx < 12 → inoBlock ino' idx = inoBlock ino idx)
    (hsind : inoBlock ino' 12 = inoBlock ino 12) (hdind : inoBlock ino' 13 = inoBlock ino 13)
    (hsame : ∀ q ∈ pointerBlocks vol disk idx ino, SameBlock vol disk disk' q) :
    ext2GetInodeBlk vol disk' idx ino' = ext2GetInodeBlk vol disk idx ino ∧
      pointerBlocks vol disk' idx ino' = pointerBlocks vol disk idx ino := by
  simp only [ext2GetInodeBlk, pointerBlocks] at hsame ⊢
  rw [hsind, hdind]
  by_cases h12 : idx < 12
  · simp only [if_pos h12]
    exact ⟨hdirect h12, trivial⟩
  by_cases hd : idx < dindStrt vol
  · simp only [if_neg h12, if_pos hd] at hsame ⊢
    exact ⟨entry_congr hvol (inoBlock_lt _ _) (hsame _ (by simp)), trivial⟩
  by_cases ht : idx < tindStrt vol
  · simp only [if_neg h12, if_neg hd, if_pos ht] at hsame ⊢
    have hfirst : ∀ k, entry vol disk' (inoBlock ino 13) k = entry vol disk (inoBlock ino 13) k :=
      fun k => entry_congr hvol (inoBlock_lt _ _) (hsame _ (by simp))
    rw [hfirst]
    exact ⟨entry_congr hvol (entry_lt _ _ _ _) (hsame _ (by simp)), rfl⟩
  · simp only [if_neg h12, if_neg hd, if_neg ht]
    exact ⟨trivial, trivial⟩

/-! ## The copy loop -/

def InChunk (vol : Vol) (off stop i p a : ℕ) : Prop :=
  InBlock vol p a ∧ chunkStart vol off i ≤ a - p * vol.blkSz ∧
    a - p * vol.blkSz < chunkStart vol off i + chunkSize vol off stop i

theorem chunkStart_lt (hvol : vol.Sized) : chunkStart vol off i < vol.blkSz := by
  rw [chunkStart]
  split_ifs
  · exact Nat.mod_lt off hvol.pos
  · exact hvol.pos

theorem writeChunk_apply_of_mem {st : Mem × ℕ} (hvol : vol.Sized)
    (hp : ext2GetInodeBlk vol st.1 i ino = p) (hx : x < vol.blkSz) :
    (writeChunk vol off stop ino ptr i st).1 (p * vol.blkSz + x) =
      if chunkStart vol off i ≤ x ∧ x < chunkStart vol off i + chunkSize vol off stop i then
        ptr (st.2 + (x - chunkStart vol off i))
      else st.1 (p * vol.blkSz + x) := by
  have hlt : p < 2 ^ 32 := hp ▸ ext2GetInodeBlk_lt vol st.1 i ino
  rw [writeChunk, ext2WriteInodeBlk, ext2ReadInodeBlk, hp]
  dsimp only
  rw [hvol.writeBlock_apply_of_mem hlt hx]
  split_ifs with hchunk
  · rw [blit_apply_of_mem hchunk.1 hchunk.2]
  · rw [blit_apply_of_notMem (by omega), hvol.readBlock_apply hlt hx]

theorem writeChunk_apply_of_notMem {st : Mem × ℕ} (hvol : vol.Sized)
    (hp : ext2GetInodeBlk vol st.1 i ino = p) (ha : ¬InBlock vol p a) :
    (writeChunk vol off stop ino ptr i st).1 a = st.1 a := by
  have hlt : p < 2 ^ 32 := hp ▸ ext2GetInodeBlk_lt vol st.1 i ino
  rw [writeChunk, ext2WriteInodeBlk, hp]
  apply hvol.writeBlock_apply_of_notMem hlt
  simp only [InBlock] at ha
  omega

theorem writeChunk_disk (hvol : vol.Sized) (off stop : ℕ) (ino ptr : Mem) (i : ℕ)
    (st : Mem × ℕ) (a : ℕ) :
    (writeChunk vol off stop ino ptr i st).1 a = st.1 a ∧
        ¬InChunk vol off stop i (ext2GetInodeBlk vol st.1 i ino) a ∨
      (∃ y, (writeChunk vol off stop ino ptr i st).1 a = ptr y) ∧
        InChunk vol off stop i (ext2GetInodeBlk vol st.1 i ino) a := by
  obtain ⟨p, hp⟩ : ∃ p, ext2GetInodeBlk vol st.1 i ino = p := ⟨_, rfl⟩
  rw [hp]
  by_cases hin : InBlock vol p a
  · obtain ⟨x, rfl⟩ := Nat.exists_eq_add_of_le hin.1
    have hx : x < vol.blkSz := by
      have := hin.2
      omega
    rw [writeChunk_apply_of_mem hvol hp hx]
    simp only [InChunk, Nat.add_sub_cancel_left, hin, true_and]
    split_ifs with hchunk
    · exact Or.inr ⟨⟨_, rfl⟩, hchunk⟩
    · exact Or.inl ⟨rfl, hchunk⟩
  · exact Or.inl ⟨writeChunk_apply_of_notMem hvol hp hin, fun h => hin h.1⟩

/-- Block `i` is among those that the loops visit for the bytes from `off` up to `stop`. -/
def Touches (vol : Vol) (off stop i : ℕ) : Prop := startBlk vol off ≤ i ∧ i * vol.blkSz < stop

theorem endBlk_of_lt (hstop : stop < 2 ^ 32) : endBlk vol stop = stop / vol.blkSz :=
  u32_of_lt (lt_of_le_of_lt (Nat.div_le_self _ _) hstop)

theorem Touches.le_endBlk (hvol : vol.Sized) (hstop : stop < 2 ^ 32)
    (h : Touches vol off stop i) : i ≤ endBlk vol stop := by
  rw [endBlk_of_lt hstop]
  exact (Nat.le_div_iff_mul_le hvol.pos).mpr h.2.le

theorem touches_of_inChunk (hvol : vol.Sized) (hstop : stop < 2 ^ 32)
    (hlo : startBlk vol off ≤ i) (hhi : i ≤ endBlk vol stop) (h : InChunk vol off stop i p a) :
    Touches vol off stop i := by
  refine ⟨hlo, ?_⟩
  obtain ⟨-, hge, hlt⟩ := h
  have hsplit := Nat.div_add_mod' stop vol.blkSz
  rw [endBlk_of_lt hstop] at hhi
  rcases Nat.lt_or_eq_of_le hhi with hbelow | hlast
  · have hmul := Nat.mul_le_mul_right vol.blkSz hbelow
    have hpos := hvol.pos
    rw [Nat.succ_mul] at hmul
    omega
  · have hsize : chunkSize vol off stop i = stop % vol.blkSz := by
      rw [chunkSize, endBlk_of_lt hstop, if_pos hlast]
    rw [hlast]
    omega

theorem Touches.inChunk (hvol : vol.Sized) (hstop : stop < 2 ^ 32)
    (h : Touches vol off stop i) (p : ℕ) :
    InChunk vol off stop i p (p * vol.blkSz + chunkStart vol off i) := by
  have hstart : chunkStart vol off i < vol.blkSz := chunkStart_lt hvol
  refine ⟨⟨by omega, by omega⟩, by omega, ?_⟩
  rw [Nat.add_sub_cancel_left]
  have hpos : 0 < chunkSize vol off stop i := by
    rw [chunkSize]
    split_ifs with hlast
    · rw [endBlk_of_lt hstop] at hlast
      have hsplit := Nat.div_add_mod' stop vol.blkSz
      have hbelow := h.2
      rw [hlast] at hbelow
      omega
    · omega
  omega

def chunksDisk (vol : Vol) (off stop : ℕ) (ino ptr disk : Mem) (n : ℕ) : Mem :=
  (loop (fun k => writeChunk vol off stop ino ptr (startBlk vol off + k)) n (disk, 0)).1

/-- If the blocks that are written are not among those that later pointers are found through, the
rounds change nothing but the chunks of their blocks. -/
theorem chunksDisk_frame (ptr : Mem) (hvol : vol.Sized) (hstop : stop < 2 ^ 32) (n : ℕ)
    (hn : n ≤ endBlk vol stop + 1 - startBlk vol off)
    (hsep : ∀ i j, Touches vol off stop i → Touches vol off stop j → i < j →
      j < startBlk vol off + n →
      ext2GetInodeBlk vol disk i ino ∉ pointerBlocks vol disk j ino) :
    ∀ a, (∀ i, Touches vol off stop i → i < startBlk vol off + n →
        ¬InChunk vol off stop i (ext2GetInodeBlk vol disk i ino) a) →
      chunksDisk vol off stop ino ptr disk n a = disk a := by
  let I : ℕ → Mem × ℕ → Prop := fun m st =>
    ∀ a, (∀ i, Touches vol off stop i → i < startBlk vol off + m →
      ¬InChunk vol off stop i (ext2GetInodeBlk vol disk i ino) a) → st.1 a = disk a
  refine loop_induction (I := I) n (fun a _ => rfl) ?_
  intro m st hm hI a ha
  set j := startBlk vol off + m with hj
  rcases writeChunk_disk hvol off stop ino ptr j st a with ⟨hsame, -⟩ | ⟨-, hchunk⟩
  · exact hsame.trans (hI a fun i hi hij => ha i hi (by omega))
  · have htouch := touches_of_inChunk hvol hstop (by omega) (by omega) hchunk
    -- the pointer of this round is still the one of the beginning
    have hptr : ext2GetInodeBlk vol st.1 j ino = ext2GetInodeBlk vol disk j ino := by
      refine (ext2GetInodeBlk_congr hvol (fun _ => rfl) rfl rfl fun q hq b hb => ?_).1
      refine hI b fun i hi hij hin => ?_
      have heq := inBlock_unique hvol hin.1 hb
      exact hsep i j hi htouch hij (by omega) (heq ▸ hq)
    rw [hptr] at hchunk
    exact absurd hchunk (ha j htouch (by omega))

/-- When every byte that is copied is `c`, the first byte of a chunk is `c` in the end, even if
later rounds go astray. -/
theorem chunksDisk_const (ino disk : Mem) (c : UInt8) (n : ℕ) (hvol : vol.Sized)
    (hstop : stop < 2 ^ 32)
    (hi : Touches vol off stop i) (hn : i < startBlk vol off + n)
    (hsep : ∀ j k, Touches vol off stop j → Touches vol off stop k → j < k → k ≤ i →
      ext2GetInodeBlk vol disk j ino ∉ pointerBlocks vol disk k ino) :
    chunksDisk vol off stop ino (fun _ => c) disk n
      (ext2GetInodeBlk vol disk i ino * vol.blkSz + chunkStart vol off i) = c := by
  obtain ⟨m, hm⟩ := Nat.exists_eq_add_of_le hi.1
  have hle := hi.le_endBlk hvol hstop
  induction n, (show m + 1 ≤ n by omega) using Nat.le_induction with
  | base =>
    have hframe := chunksDisk_frame (fun _ => c) hvol hstop m (by omega)
      fun j k hj hk hjk hle => hsep j k hj hk hjk (by omega)
    have hptr : ext2GetInodeBlk vol (chunksDisk vol off stop ino (fun _ => c) disk m) i ino =
        ext2GetInodeBlk vol disk i ino := by
      refine (ext2GetInodeBlk_congr hvol (fun _ => rfl) rfl rfl fun q hq b hb => ?_).1
      refine hframe b fun j hj hji hchunk => ?_
      have heq := inBlock_unique hvol hchunk.1 hb
      exact hsep j i hj hi (by omega) le_rfl (heq ▸ hq)
    rw [chunksDisk, loop_succ, ← hm]
    rcases writeChunk_disk hvol off stop ino (fun _ => c) i _ _ with ⟨-, hout⟩ | ⟨⟨-, hc⟩, -⟩
    · rw [← chunksDisk, hptr] at hout
      exact absurd (hi.inChunk hvol hstop _) hout
    · exact hc
  | succ n hmn ih =>
    rw [chunksDisk, loop_succ]
    rcases writeChunk_disk hvol off stop ino (fun _ => c) (startBlk vol off + n) _ _
      with ⟨hsame, -⟩ | ⟨⟨-, hc⟩, -⟩
    · exact hsame.trans (ih (by omega))
    · exact hc

theorem ext2Write_eq {s₁ : State} {file₁ : FileNode} {ino₁ : Mem} {size : ℕ} (ptr : Mem)
    (hvol : vol.Sized) (hcut : u64 (off + size) = stop) (hstop : stop < 2 ^ 32)
    (hprep : prepareWrite vol s file (ext2ReadInode vol s file.inodeNum stack) stop =
      some (s₁, file₁, ino₁)) :
    ext2Write vol s file ptr off size stack =
      some (⟨chunksDisk vol off stop ino₁ ptr s₁.disk
        (endBlk vol stop + 1 - startBlk vol off), s₁.blkGrps⟩, file₁, size) := by
  have hend : endBlk vol stop + 1 < 2 ^ 32 := by
    have hquot : stop / vol.blkSz ≤ stop / 1024 := Nat.div_le_div_left hvol.le (by decide)
    rw [endBlk_of_lt hstop]
    omega
  simp only [ext2Write, hcut, hprep, writeChunks, if_pos hend, Option.bind_eq_bind,
    Option.bind_some]
  rfl

theorem ext2Write_prepared {s' : State} {file' : FileNode} {size ret : ℕ}
    (h : ext2Write vol s file ptr off size stack = some (s', file', ret)) :
    ∃ s₁ ino₁, prepareWrite vol s file (ext2ReadInode vol s file.inodeNum stack)
      (u64 (off + size)) = some (s₁, file', ino₁) := by
  rw [ext2Write] at h
  obtain ⟨⟨s₁, file₁, ino₁⟩, hprep, hrest⟩ := Option.bind_eq_some_iff.mp h
  obtain ⟨disk, -, hret⟩ := Option.bind_eq_some_iff.mp hrest
  cases hret
  exact ⟨s₁, ino₁, hprep⟩

theorem prepareWrite_of_not_grows (h : ¬Grows vol file stop) :
    prepareWrite vol s file ino stop = some (s, file, ino) := if_neg h

theorem prepareWrite_size {s₁ : State} {file₁ : FileNode} {ino₁ : Mem}
    (h : prepareWrite vol s file ino stop = some (s₁, file₁, ino₁)) :
    file₁.size = if Grows vol file stop then u32 stop else file.size := by
  rw [prepareWrite] at h
  by_cases hgrows : Grows vol file stop
  · rw [if_pos hgrows, growFile] at h
    dsimp only at h
    split_ifs at h
    cases h
    rw [if_pos hgrows]
  · rw [if_neg hgrows] at h
    cases h
    rw [if_neg hgrows]

/-! ## Growth -/

theorem ext2AllocBlock_cases (vol : Vol) (s : State) :
    (∃ i b, FirstClear vol s i b ∧ ext2AllocBlock vol s =
        (takeBit blockBitmaps vol s i b, u32 (i * vol.blksPerGrp + b))) ∨
      (∀ i b, ¬FirstClear vol s i b) ∧ ext2AllocBlock vol s = (s, 0) := by
  rcases allocBit_cases blockBitmaps vol s with ⟨i, b, hfind, -, -, heq⟩ | ⟨hfind, heq⟩
  · exact Or.inl ⟨i, b, firstClear_of_findFree hfind, heq⟩
  · refine Or.inr ⟨fun i b h => ?_, heq⟩
    rw [h.findFree_eq] at hfind
    cases hfind

theorem inodeTblAddr_ext2AllocBlock :
    (ext2AllocBlock vol s).1.inodeTblAddr g = s.inodeTblAddr g := by
  apply allocBit_load
  intro i
  simp only [Apart, blockBitmaps, bgdSz]
  omega

theorem ext2AllocBlock_disk (hvol : vol.Sized)
    (hbitmap : ∀ g < vol.blkGrpCnt, ¬InBlock vol (s.blockBitmapAddr g) a)
    (hbgds : ¬(2 * vol.blkSz ≤ a ∧
      a < 2 * vol.blkSz + min (vol.blkGrpCnt * bgdSz) vol.blkSz)) :
    (ext2AllocBlock vol s).1.disk a = s.disk a :=
  allocBit_disk hvol (blockBitmapAddr_lt s) hbitmap hbgds

structure Grown (vol : Vol) (s : State) (num : ℕ) (ino : Mem) (stop : ℕ) (s' : State)
    (ino' : Mem) : Prop where
  blkGrps : s'.blkGrps = (ext2AllocBlock vol s).1.blkGrps
  disk : ∀ a, s'.disk a =
    blit (ext2AllocBlock vol s).1.disk (writeSlot vol s num) ino' 0 vol.inodeSz a
  size : inoSize ino' = stop
  block : ∀ i < 15, inoBlock ino' i =
    if i = inoBlkCnt vol ino ∧ i < 12 then (ext2AllocBlock vol s).2 else inoBlock ino i

theorem ext2AllocInodeBlk_block (hi : i < 15) :
    inoBlock (ext2AllocInodeBlk vol s ino num).2 i =
      if i = inoBlkCnt vol ino ∧ i < 12 then (ext2AllocBlock vol s).2 else inoBlock ino i := by
  have hblk : (ext2AllocBlock vol s).2 < 2 ^ 32 := allocBit_lt
  rw [ext2AllocInodeBlk, ext2SetInodeBlk]
  dsimp only
  by_cases hcnt : inoBlkCnt vol ino < 12
  · rw [if_pos hcnt]
    have hsectors : ∀ m : Mem, ∀ v, inoBlock (store m 28 4 v) i = inoBlock m i := by
      intro m v
      apply load_store_of_apart
      simp only [Apart]
      omega
    rw [hsectors]
    by_cases hsame : i = inoBlkCnt vol ino
    · rw [if_pos ⟨hsame, hsame ▸ hcnt⟩, hsame]
      exact load_store_of_lt hblk
    · rw [if_neg fun h => hsame h.1]
      apply load_store_of_apart
      simp only [Apart]
      omega
  · rw [if_neg hcnt, if_neg (by omega)]

theorem ext2AllocInodeBlk_state (s : State) (ino : Mem) (hvol : vol.Sized)
    (hsz : vol.InodeSized) (hpos : 1 ≤ num) (hnum : num < 2 ^ 32) :
    (ext2AllocInodeBlk vol s ino num).1.blkGrps = (ext2AllocBlock vol s).1.blkGrps ∧
      ∀ a, ¬(writeSlot vol s num ≤ a ∧ a < writeSlot vol s num + vol.inodeSz) →
        (ext2AllocInodeBlk vol s ino num).1.disk a = (ext2AllocBlock vol s).1.disk a := by
  have hslot : writeSlot vol (ext2AllocBlock vol s).1 num = writeSlot vol s num :=
    writeSlot_of_tables fun _ => inodeTblAddr_ext2AllocBlock
  rw [ext2AllocInodeBlk, ext2SetInodeBlk]
  dsimp only
  split_ifs
  · refine ⟨ext2WriteInode_blkGrps, fun a ha => ?_⟩
    rw [ext2WriteInode_disk hvol hsz hpos hnum, hslot, blit_apply_of_notMem (by omega)]
  · exact ⟨rfl, fun a _ => rfl⟩

theorem growFile_grown (s : State) (ino : Mem) (hvol : vol.Sized) (hsz : vol.InodeSized)
    (hpos : 1 ≤ file.inodeNum) (hnum : file.inodeNum < 2 ^ 32) (hstop : stop < 2 ^ 32) :
    ∃ s' ino', growFile vol s file ino stop = some (s', ⟨stop, file.inodeNum⟩, ino') ∧
      Grown vol s file.inodeNum ino stop s' ino' := by
  obtain ⟨hbgds, hdisk⟩ := ext2AllocInodeBlk_state s ino hvol hsz hpos hnum
  set num := file.inodeNum with hnumdef
  set p := ext2AllocInodeBlk vol s ino num with hp
  set ino' := store p.2 4 4 stop with hino'
  have hcut : u32 stop = stop := u32_of_lt hstop
  have hrounds : (stop - stop) / vol.blkSz + 1 = 1 := by simp
  have hslot : writeSlot vol p.1 num = writeSlot vol s num := by
    rw [writeSlot_congr hbgds, writeSlot_of_tables fun _ => inodeTblAddr_ext2AllocBlock]
  refine ⟨ext2WriteInode vol p.1 num ino', ino', ?_, ?_⟩
  · rw [growFile]
    dsimp only
    rw [hcut, hrounds, if_pos (by decide), loop_succ, loop_zero]
  · refine ⟨ext2WriteInode_blkGrps.trans hbgds, fun a => ?_, load_store_of_lt hstop, ?_⟩
    · rw [ext2WriteInode_disk hvol hsz hpos hnum, hslot]
      by_cases hin : writeSlot vol s num ≤ a ∧ a < writeSlot vol s num + vol.inodeSz
      · rw [blit_apply_of_mem hin.1 hin.2, blit_apply_of_mem hin.1 hin.2]
      · rw [blit_apply_of_notMem (by omega), blit_apply_of_notMem (by omega), hdisk a hin]
    · intro i hi
      rw [hino', inoBlock_setSize hi, hp, ext2AllocInodeBlk_block hi]

namespace Grown

variable {s' : State} (h : Grown vol s num ino stop s' ino')
include h

theorem inodeTblAddr (g : ℕ) : s'.inodeTblAddr g = s.inodeTblAddr g := by
  rw [State.inodeTblAddr, h.blkGrps]
  exact inodeTblAddr_ext2AllocBlock

theorem disk_of_slot (hi : i < vol.inodeSz) : s'.disk (writeSlot vol s num + i) = ino' i := by
  rw [h.disk, blit_apply_add hi, Nat.zero_add]

theorem disk_of_notSlot (ha : ¬(writeSlot vol s num ≤ a ∧ a < writeSlot vol s num + vol.inodeSz)) :
    s'.disk a = (ext2AllocBlock vol s).1.disk a := by
  rw [h.disk, blit_apply_of_notMem (by omega)]

theorem load_slot (hsame : writeSlot vol s num = readSlot vol s num) (ha : a + 4 ≤ vol.inodeSz) :
    load s'.disk (readSlot vol s num + a) 4 = load ino' a 4 := by
  apply load_eq_of_bytes
  intro i hi
  rw [Nat.add_assoc, ← hsame, h.disk_of_slot (by omega)]

end Grown

end KernelOld.Ext2
