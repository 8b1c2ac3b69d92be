import KernelOld.Fs.Ext2.FileBytes

/-!
# Overwriting files

`ext2_write` inside a file whose blocks are there, with the bytes that it reads at `ptr`. The block
behind the range may be read and written back: nothing is copied into it.
-/

namespace KernelOld.Ext2
open ByteMemory MachineWord CountedLoop

/-! ## The model -/

section

variable (vol : Vol) (off stop : ℕ)

def writeChunkReads (ino ptr : Mem) (i : ℕ) (st : (Mem × ℕ) × List ℕ) : (Mem × ℕ) × List ℕ :=
  (writeChunk vol off stop ino ptr i st.1,
    st.2 ++ List.range' st.1.2 (chunkSize vol off stop i))

def writeRounds (ino ptr disk : Mem) (n : ℕ) : (Mem × ℕ) × List ℕ :=
  loop (fun k => writeChunkReads vol off stop ino ptr (startBlk vol off + k)) n ((disk, 0), [])

def writeChunksReads (ino ptr disk : Mem) : Option (Mem × List ℕ) :=
  if endBlk vol stop + 1 < 2 ^ 32 then
    let st := writeRounds vol off stop ino ptr disk (endBlk vol stop + 1 - startBlk vol off)
    some (st.1.1, st.2)
  else none

end

def ext2WriteReads (vol : Vol) (s : State) (file : FileNode) (ptr : Mem) (off size : ℕ)
    (stack : Mem) : Option ((State × FileNode × ℕ) × List ℕ) := do
  let ino := ext2ReadInode vol s file.inodeNum stack
  let stop := u64 (off + size)
  let (s, file, ino) ← prepareWrite vol s file ino stop
  let (disk, reads) ← writeChunksReads vol off stop ino ptr s.disk
  return (({ s with disk }, file, size), reads)

variable {vol : Vol} {s : State} {file : FileNode} {ino ptr disk stack : Mem}
  {off stop size i j n a x pos : ℕ}

variable {st : Mem × ℕ}

theorem writeRounds_fst :
    (writeRounds vol off stop ino ptr disk n).1 =
      loop (fun k => writeChunk vol off stop ino ptr (startBlk vol off + k)) n (disk, 0) := by
  rw [writeRounds]
  induction n with
  | zero => rw [loop_zero, loop_zero]
  | succ n ih => rw [loop_succ, loop_succ, writeChunkReads, ih]

theorem ext2WriteReads_map :
    (ext2WriteReads vol s file ptr off size stack).map Prod.fst =
      ext2Write vol s file ptr off size stack := by
  rw [ext2WriteReads, ext2Write]
  dsimp only
  cases prepareWrite vol s file (ext2ReadInode vol s file.inodeNum stack) (u64 (off + size)) with
  | none => rfl
  | some prepared =>
    obtain ⟨s₁, file₁, ino₁⟩ := prepared
    simp only [Option.bind_eq_bind, Option.bind_some, writeChunksReads, writeChunks]
    split_ifs
    · simp only [Option.bind_some, Option.pure_def, Option.map_some, writeRounds_fst]
    · rfl

/-! ## The property -/

/-- Its data blocks are all there and different, and hold neither its pointers nor its inode. -/
structure OwnFile (vol : Vol) (s : State) (file : FileNode) : Prop where
  sized : vol.Sized
  inodeSized : vol.InodeSized
  hasInode : vol.HasInode file.inodeNum
  size_lt : file.size < 2 ^ 32
  allocated : Allocated vol s file.inodeNum file.size
  injective : ∀ i j, i * vol.blkSz < file.size → j * vol.blkSz < file.size →
    ext2GetInodeBlk vol s.disk i (ext2ReadInode vol s file.inodeNum newBuf) =
      ext2GetInodeBlk vol s.disk j (ext2ReadInode vol s file.inodeNum newBuf) → i = j
  not_pointers : ∀ i j, i * vol.blkSz < file.size → j * vol.blkSz < file.size →
    ext2GetInodeBlk vol s.disk i (ext2ReadInode vol s file.inodeNum newBuf) ∉
      pointerBlocks vol s.disk j (ext2ReadInode vol s file.inodeNum newBuf)
  apart : ∀ i, i * vol.blkSz < file.size → ∀ a,
    InBlock vol (ext2GetInodeBlk vol s.disk i (ext2ReadInode vol s file.inodeNum newBuf)) a →
      ¬InSlot vol s file.inodeNum a

/-- The bytes from `off` on are those at `ptr`, the others are as before, and no byte behind
`ptr + size` is read. -/
def OverwritesExactly (vol : Vol) (s : State) (file : FileNode) (off size : ℕ) : Prop :=
  ∀ ptr stack, ∃ s' file' reads,
    ext2WriteReads vol s file ptr off size stack = some ((s', file', size), reads) ∧
      file'.size = file.size ∧
      (∀ k < file.size, fileByte vol s' file.inodeNum k =
        if off ≤ k ∧ k < off + size then ptr (k - off) else fileByte vol s file.inodeNum k) ∧
      ∀ k ∈ reads, k < size

/-! ## Rounds -/

structure WrittenUpTo (vol : Vol) (s : State) (file : FileNode) (ptr : Mem) (off pos : ℕ)
    (st : Mem × ℕ) : Prop where
  ptroff : off + st.2 = pos
  own : ∀ i x, i * vol.blkSz < file.size → x < vol.blkSz →
    st.1 (ext2GetInodeBlk vol s.disk i (ext2ReadInode vol s file.inodeNum newBuf) * vol.blkSz
      + x) =
      if off ≤ i * vol.blkSz + x ∧ i * vol.blkSz + x < pos then ptr (i * vol.blkSz + x - off)
      else s.disk
        (ext2GetInodeBlk vol s.disk i (ext2ReadInode vol s file.inodeNum newBuf) * vol.blkSz + x)
  other : ∀ a, (∀ i, i * vol.blkSz < file.size → ¬InBlock vol
    (ext2GetInodeBlk vol s.disk i (ext2ReadInode vol s file.inodeNum newBuf)) a) →
    st.1 a = s.disk a

namespace OwnFile

variable (h : OwnFile vol s file)
include h

theorem sameBlock_of_mem {q : ℕ} (hW : WrittenUpTo vol s file ptr off pos st)
    (hi : i * vol.blkSz < file.size)
    (hq : q ∈ pointerBlocks vol s.disk i (ext2ReadInode vol s file.inodeNum newBuf)) :
    SameBlock vol s.disk st.1 q := by
  intro a ha
  apply hW.other
  intro j hj hin
  have heq := inBlock_unique h.sized hin ha
  exact h.not_pointers j i hj hi (heq ▸ hq)

theorem ext2GetInodeBlk_eq (hW : WrittenUpTo vol s file ptr off pos st)
    (hi : i * vol.blkSz < file.size) :
    ext2GetInodeBlk vol st.1 i (ext2ReadInode vol s file.inodeNum stack) =
      ext2GetInodeBlk vol s.disk i (ext2ReadInode vol s file.inodeNum newBuf) :=
  (ext2GetInodeBlk_congr h.sized (fun hi => inoBlock_ext2ReadInode_stack (by omega))
    (inoBlock_ext2ReadInode_stack (by decide)) (inoBlock_ext2ReadInode_stack (by decide))
    fun _ hq => h.sameBlock_of_mem hW hi hq).1

end OwnFile

theorem writeChunk_empty (hvol : vol.Sized) (hsize : chunkSize vol off stop i = 0) :
    writeChunk vol off stop ino ptr i st = st := by
  refine Prod.ext (funext fun a => ?_) (by rw [writeChunk, hsize]; rfl)
  rcases writeChunk_disk hvol off stop ino ptr i st a with ⟨hsame, -⟩ | ⟨-, -, hlo, hhi⟩
  · exact hsame
  · omega

theorem WrittenUpTo.writeChunk (h : OwnFile vol s file)
    (hW : WrittenUpTo vol s file ptr off (i * vol.blkSz + chunkStart vol off i) st)
    (hfile : 0 < chunkSize vol off stop i → i * vol.blkSz < file.size)
    (hfits : chunkStart vol off i + chunkSize vol off stop i ≤ vol.blkSz) :
    WrittenUpTo vol s file ptr off
      (i * vol.blkSz + chunkStart vol off i + chunkSize vol off stop i)
      (writeChunk vol off stop (ext2ReadInode vol s file.inodeNum stack) ptr i st) := by
  rcases Nat.eq_zero_or_pos (chunkSize vol off stop i) with hzero | hpos
  · rw [writeChunk_empty h.sized hzero, hzero, Nat.add_zero]
    exact hW
  have hi := hfile hpos
  have hptr : ext2GetInodeBlk vol st.1 i (ext2ReadInode vol s file.inodeNum stack) = _ :=
    h.ext2GetInodeBlk_eq hW hi
  obtain ⟨hptroff, hown, hother⟩ := hW
  refine ⟨?_, fun j x hj hx => ?_, fun a ha => ?_⟩
  · rw [Ext2.writeChunk]
    dsimp only
    omega
  · by_cases hji : j = i
    · subst hji
      rw [writeChunk_apply_of_mem h.sized hptr hx, hown j x hj hx]
      by_cases hchunk : chunkStart vol off j ≤ x ∧
          x < chunkStart vol off j + chunkSize vol off stop j
      · have hidx : j * vol.blkSz + x - off = st.2 + (x - chunkStart vol off j) := by omega
        rw [if_pos hchunk, if_pos (by omega), hidx]
      · rw [if_neg hchunk]
        have hsame : j * vol.blkSz + x <
              j * vol.blkSz + chunkStart vol off j + chunkSize vol off stop j ↔
            j * vol.blkSz + x < j * vol.blkSz + chunkStart vol off j := by omega
        simp only [hsame]
    · -- another block of the file, and no position in it is one of the chunk
      have hblock : ¬InBlock vol (ext2GetInodeBlk vol s.disk i
          (ext2ReadInode vol s file.inodeNum newBuf)) _ := fun hin =>
        hji (h.injective j i hj hi ((h.sized.mem_block_iff hx).mp hin))
      have hposition : ¬(i * vol.blkSz ≤ j * vol.blkSz + x ∧
          j * vol.blkSz + x < i * vol.blkSz + vol.blkSz) := fun hin =>
        hji ((h.sized.mem_block_iff hx).mp hin)
      have hsame : j * vol.blkSz + x <
            i * vol.blkSz + chunkStart vol off i + chunkSize vol off stop i ↔
          j * vol.blkSz + x < i * vol.blkSz + chunkStart vol off i := by omega
      rw [writeChunk_apply_of_notMem h.sized hptr hblock, hown j x hj hx]
      simp only [hsame]
  · rw [writeChunk_apply_of_notMem h.sized hptr (ha i hi)]
    exact hother a ha

section Runs

variable (h : OwnFile vol s file) (hle : off ≤ stop) (hstop : stop ≤ file.size)
include h hle hstop

theorem writtenUpTo_rounds (ptr stack : Mem) (hcut : CutsExactly vol off stop)
    (hn : n ≤ chunkCount vol off stop) :
    WrittenUpTo vol s file ptr off (reached vol off stop n)
        (writeRounds vol off stop (ext2ReadInode vol s file.inodeNum stack) ptr s.disk n).1 ∧
      ∀ k ∈ (writeRounds vol off stop (ext2ReadInode vol s file.inodeNum stack) ptr s.disk n).2,
        k < stop - off := by
  obtain ⟨hend, -⟩ := h.allocated.bounds h.sized hstop
  let I : ℕ → (Mem × ℕ) × List ℕ → Prop := fun n st =>
    WrittenUpTo vol s file ptr off (reached vol off stop n) st.1 ∧ ∀ k ∈ st.2, k < stop - off
  rw [writeRounds, startBlk_eq hle hend]
  refine loop_induction (I := I) n ?_ fun m st hm hI => ?_
  · refine ⟨?_, fun k hk => by cases hk⟩
    rw [reached_zero]
    refine ⟨Nat.add_zero off, fun i x _ _ => ?_, fun _ _ => rfl⟩
    rw [if_neg (by omega)]
  · obtain ⟨hW, hreads⟩ := hI
    have hround : m < chunkCount vol off stop := by omega
    have hbegins := chunk_begins h.sized hle hend hround
    obtain ⟨hends, hfits⟩ := chunk_ends h.sized hle hend hround hcut
    have hbelow : reached vol off stop (m + 1) ≤ stop := reached_le hle (m + 1)
    have hptroff := hW.ptroff
    rw [← hends] at hbelow
    refine ⟨?_, fun k hk => ?_⟩
    · rw [← hends]
      rw [← hbegins] at hW hbelow ⊢
      exact hW.writeChunk h (fun hpos => by omega) hfits
    · rcases List.mem_append.mp hk with hk | hk
      · exact hreads k hk
      · obtain ⟨x, hx, rfl⟩ := List.mem_range'.mp hk
        omega

theorem ext2WriteReads_eq (ptr stack : Mem) (hsize : stop = off + size)
    (hgrows : ¬Grows vol file stop) :
    ext2WriteReads vol s file ptr off size stack =
      let st := writeRounds vol off stop (ext2ReadInode vol s file.inodeNum stack) ptr s.disk
        (chunkCount vol off stop)
      some ((⟨st.1.1, s.blkGrps⟩, file, size), st.2) := by
  obtain ⟨hend, hlt⟩ := h.allocated.bounds h.sized hstop
  have hcut : u64 (off + size) = stop := by
    rw [← hsize]
    exact u64_of_lt hlt
  have hcount : endBlk vol stop + 1 - startBlk vol off = chunkCount vol off stop := by
    rw [endBlk_eq hend, startBlk_eq hle hend, chunkCount]
  have hlast : endBlk vol stop + 1 < 2 ^ 32 := by rwa [endBlk_eq hend]
  simp only [ext2WriteReads, hcut, prepareWrite_of_not_grows hgrows, writeChunksReads,
    if_pos hlast, hcount, Option.bind_eq_bind, Option.bind_some]
  rfl

end Runs

/-! ## The file afterwards -/

theorem OwnFile.inoBlock_eq (h : OwnFile vol s file) (hW : WrittenUpTo vol s file ptr off pos st)
    (hi : i < 15) :
    inoBlock (ext2ReadInode vol ⟨st.1, s.blkGrps⟩ file.inodeNum newBuf) i =
      inoBlock (ext2ReadInode vol s file.inodeNum newBuf) i := by
  obtain ⟨hpos, -, hnum⟩ := h.hasInode
  have hstruct := h.inodeSized.le
  have hfield := pointer_le hi
  have hslot : readSlot vol ⟨st.1, s.blkGrps⟩ file.inodeNum = readSlot vol s file.inodeNum :=
    readSlot_congr rfl
  rw [inoBlock, inoBlock, load_ext2ReadInode h.sized h.inodeSized hpos hnum hfield,
    load_ext2ReadInode h.sized h.inodeSized hpos hnum hfield, hslot]
  apply load_congr
  intro a hlo hhi
  apply hW.other
  intro j hj hin
  exact h.apart j hj a hin ⟨by omega, by omega⟩

theorem OwnFile.fileByte_eq {k : ℕ} (h : OwnFile vol s file)
    (hW : WrittenUpTo vol s file ptr off pos st) (hk : k < file.size) :
    fileByte vol ⟨st.1, s.blkGrps⟩ file.inodeNum k =
      if off ≤ k ∧ k < pos then ptr (k - off) else fileByte vol s file.inodeNum k := by
  have hx : k % vol.blkSz < vol.blkSz := Nat.mod_lt k h.sized.pos
  have hsplit := Nat.div_add_mod' k vol.blkSz
  generalize k / vol.blkSz = i at hsplit
  generalize k % vol.blkSz = x at hsplit hx
  subst hsplit
  have hi : i * vol.blkSz < file.size := by omega
  have hmapped := h.allocated i hi
  obtain ⟨hblk, hptrs⟩ := ext2GetInodeBlk_congr h.sized
    (fun hlt => h.inoBlock_eq hW (show i < 15 by omega)) (h.inoBlock_eq hW (by decide))
    (h.inoBlock_eq hW (by decide)) fun _ hq => h.sameBlock_of_mem hW hi hq
  have hmapped' : Mapped vol st.1 i
      (ext2ReadInode vol ⟨st.1, s.blkGrps⟩ file.inodeNum newBuf) := by
    rw [Mapped, hblk, hptrs]
    exact hmapped
  rw [fileByte_of_mapped hmapped' hx, fileByte_of_mapped hmapped hx]
  dsimp only
  rw [hblk]
  exact hW.own i x hi hx

/-- Inside a file whose blocks are its own, `ext2_write` overwrites exactly the bytes that it should
when it does not take the write for growth, and the bytes begin with a block or end in another one
than they begin in. -/
theorem ext2Write_overwrites_iff (vol : Vol) (s : State) (file : FileNode) (off size : ℕ)
    (h : OwnFile vol s file) (hstop : off + size ≤ file.size)
    (hedge : Grows vol file (off + size) → off + size ≠ file.size) :
    OverwritesExactly vol s file off size ↔
      ¬Grows vol file (off + size) ∧
        (off % vol.blkSz = 0 ∨ off / vol.blkSz < (off + size) / vol.blkSz) := by
  have hle : off ≤ off + size := Nat.le_add_right off size
  constructor
  · intro hexact
    obtain ⟨s', file', reads, hwrite, hsize, -, hreads⟩ := hexact newBuf newBuf
    have hgrows : ¬Grows vol file (off + size) := by
      intro hgrows
      have hplain : ext2Write vol s file newBuf off size newBuf = some (s', file', size) := by
        rw [← ext2WriteReads_map, hwrite]
        rfl
      obtain ⟨s₁, ino₁, hprep⟩ := ext2Write_prepared hplain
      have hlt := h.size_lt
      have hcut : u64 (off + size) = off + size := u64_of_lt (by omega)
      have hnode := prepareWrite_size hprep
      rw [hcut, if_pos hgrows, u32_of_lt (by omega)] at hnode
      exact hedge hgrows (hnode.symm.trans hsize)
    refine ⟨hgrows, ?_⟩
    by_contra hcut
    obtain ⟨hend, -⟩ := h.allocated.bounds h.sized hstop
    obtain ⟨hmod, hcount, -, hchunk⟩ := chunk_overruns hle hend hcut
    rw [ext2WriteReads_eq h hle hstop newBuf newBuf rfl hgrows, hcount, writeRounds, loop_succ,
      loop_zero, startBlk_eq hle hend] at hwrite
    cases hwrite
    -- the one chunk goes on behind the range
    refine Nat.lt_irrefl size (hreads size ?_)
    rw [writeChunkReads, Nat.add_zero, hchunk]
    refine List.mem_append_right _ (List.mem_range'.mpr ⟨size, by omega, ?_⟩)
    rw [Nat.one_mul, Nat.zero_add]
  · rintro ⟨hgrows, hcut⟩ ptr stack
    obtain ⟨hW, hreads⟩ := writtenUpTo_rounds h hle hstop ptr stack hcut le_rfl
    rw [reached_last h.sized hle] at hW
    refine ⟨_, _, _, ext2WriteReads_eq h hle hstop ptr stack rfl hgrows, rfl,
      fun k hk => h.fileByte_eq hW hk, fun k hk => ?_⟩
    have hread := hreads k hk
    rwa [Nat.add_sub_cancel_left] at hread

theorem ownFile_smallFile : OwnFile freshVol smallState smallFile := by
  have hfirst : ∀ i, i * freshVol.blkSz < smallFile.size → i = 0 := by
    intro i hi
    have hbytes : i * 1024 < 100 := hi
    omega
  have hblk : ext2GetInodeBlk freshVol smallState.disk 0
      (ext2ReadInode freshVol smallState smallFile.inodeNum newBuf) = 20 := by decide +kernel
  refine ⟨freshVol_sized, Or.inl rfl, ⟨by decide, by decide, by decide⟩, by decide,
    allocated_smallFile, fun i j hi hj _ => (hfirst i hi).trans (hfirst j hj).symm,
    fun i j hi hj => ?_, fun i hi a ha hslot => ?_⟩
  · rw [hfirst j hj]
    exact List.not_mem_nil
  · rw [hfirst i hi, hblk] at ha
    have hlo : 20 * 1024 ≤ a := ha.1
    have hhi := hslot.2
    rw [readSlot_smallFile] at hhi
    simp only [freshVol] at hhi
    omega

theorem ext2Write_overwrites_small :
    OwnFile freshVol smallState smallFile ∧
      OverwritesExactly freshVol smallState smallFile 0 100 := by
  have hgrows : ¬Grows freshVol smallFile (0 + 100) := by decide
  exact ⟨ownFile_smallFile,
    (ext2Write_overwrites_iff freshVol smallState smallFile 0 100 ownFile_smallFile (by decide)
      fun h => absurd h hgrows).mpr ⟨hgrows, Or.inl (by decide)⟩⟩

/-- For 10 bytes from byte 5 on, all in block 0 of the file, 15 are read and written. -/
theorem ext2Write_overwrites_too_much :
    OwnFile freshVol smallState smallFile ∧
      (ext2WriteReads freshVol smallState smallFile newBuf 5 10 newBuf).map Prod.snd =
        some (List.range 15) ∧
      ¬OverwritesExactly freshVol smallState smallFile 5 10 := by
  have hreads : (ext2WriteReads freshVol smallState smallFile newBuf 5 10 newBuf).map Prod.snd =
      some (List.range 15) := by decide +kernel
  refine ⟨ownFile_smallFile, hreads, fun h => ?_⟩
  obtain ⟨s', file', reads, hwrite, -, -, hbelow⟩ := h newBuf newBuf
  rw [hwrite, Option.map_some, Option.some_inj] at hreads
  have hmem : 14 ∈ reads := (show reads = List.range 15 from hreads) ▸ by decide
  exact absurd (hbelow 14 hmem) (by decide)

end KernelOld.Ext2
