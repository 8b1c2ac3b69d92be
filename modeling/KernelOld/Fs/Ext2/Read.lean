import KernelOld.Fs.Ext2.FileBytes

/-!
# Reading files

`ext2_read` with the bytes that it stores at `ptr` and those that it fetches from its block
buffer.
-/

namespace KernelOld.Ext2
open ByteMemory MachineWord CountedLoop

/-! ## The model -/

/-- A byte that `memcpy` fetches from the block buffer, or stores behind `ptr`. -/
inductive CopyAccess
  | fetch (j : ℕ)
  | store (k : ℕ)
  deriving DecidableEq

def copyAccesses (k j n : ℕ) : List CopyAccess :=
  (List.range n).flatMap fun i => [.fetch (j + i), .store (k + i)]

structure ReadState where
  mem : Mem
  ptroff : ℕ
  accesses : List CopyAccess

def readChunk (vol : Vol) (disk ino : Mem) (off stop i : ℕ) (st : ReadState) : ReadState :=
  let buf := ext2ReadInodeBlk vol disk i ino
  let start := chunkStart vol off i
  let size := chunkSize vol off stop i
  { mem := blit st.mem st.ptroff buf start size
    ptroff := st.ptroff + size
    accesses := st.accesses ++ copyAccesses st.ptroff start size }

def ext2Read (vol : Vol) (s : State) (num : ℕ) (ptr : Mem) (off size : ℕ) (stack : Mem) :
    Option (Mem × ℕ × List CopyAccess) :=
  let stop := u64 (size + off)
  let ino := ext2ReadInode vol s num stack
  if endBlk vol stop + 1 < 2 ^ 32 then
    let st := loop (fun k => readChunk vol s.disk ino off stop (startBlk vol off + k))
      (endBlk vol stop + 1 - startBlk vol off) ⟨ptr, 0, []⟩
    some (st.mem, size, st.accesses)
  else none

def CopyAccess.Within (blkSz size : ℕ) : CopyAccess → Prop
  | .fetch j => j < blkSz
  | .store k => k < size

/-- The bytes of the file from `off` on are at `ptr`, and neither buffer is left. -/
def ReadsExactly (vol : Vol) (s : State) (num off size : ℕ) : Prop :=
  ∀ ptr stack, ∃ mem accesses,
    ext2Read vol s num ptr off size stack = some (mem, size, accesses) ∧
      (∀ k < size, mem k = fileByte vol s num (off + k)) ∧ (∀ k, size ≤ k → mem k = ptr k) ∧
      ∀ e ∈ accesses, e.Within vol.blkSz size

variable {vol : Vol} {s : State} {disk ino ptr stack : Mem} {st : ReadState}
  {off stop size len num i j k n : ℕ} {e : CopyAccess}

/-! ## Rounds -/

theorem mem_copyAccesses :
    e ∈ copyAccesses k j n ↔ ∃ i < n, e = .fetch (j + i) ∨ e = .store (k + i) := by
  simp [copyAccesses]

theorem ext2ReadInodeBlk_stack (hvol : vol.Sized) :
    ext2ReadInodeBlk vol s.disk i (ext2ReadInode vol s num stack) =
      ext2ReadInodeBlk vol s.disk i (ext2ReadInode vol s num newBuf) := by
  have hblk : ext2GetInodeBlk vol s.disk i (ext2ReadInode vol s num stack) =
      ext2GetInodeBlk vol s.disk i (ext2ReadInode vol s num newBuf) :=
    (ext2GetInodeBlk_congr hvol (fun hi => inoBlock_ext2ReadInode_stack (by omega))
      (inoBlock_ext2ReadInode_stack (by decide)) (inoBlock_ext2ReadInode_stack (by decide))
      fun _ _ _ _ => rfl).1
  rw [ext2ReadInodeBlk, ext2ReadInodeBlk, hblk]

structure ReadUpTo (vol : Vol) (s : State) (num : ℕ) (ptr : Mem) (off stop pos : ℕ)
    (st : ReadState) : Prop where
  ptroff : off + st.ptroff = pos
  read : ∀ k, off + k < pos → st.mem k = fileByte vol s num (off + k)
  kept : ∀ k, pos ≤ off + k → st.mem k = ptr k
  within : ∀ e ∈ st.accesses, e.Within vol.blkSz (stop - off)

theorem ReadUpTo.readChunk (hvol : vol.Sized)
    (h : ReadUpTo vol s num ptr off stop (i * vol.blkSz + chunkStart vol off i) st)
    (hmapped : 0 < chunkSize vol off stop i →
      Mapped vol s.disk i (ext2ReadInode vol s num newBuf))
    (hfits : chunkStart vol off i + chunkSize vol off stop i ≤ vol.blkSz)
    (hstop : i * vol.blkSz + chunkStart vol off i + chunkSize vol off stop i ≤ stop) :
    ReadUpTo vol s num ptr off stop
      (i * vol.blkSz + chunkStart vol off i + chunkSize vol off stop i)
      (readChunk vol s.disk (ext2ReadInode vol s num stack) off stop i st) := by
  obtain ⟨hptroff, hread, hkept, hwithin⟩ := h
  rw [Ext2.readChunk, ext2ReadInodeBlk_stack hvol]
  generalize chunkStart vol off i = start at *
  generalize chunkSize vol off stop i = m at *
  refine ⟨?_, fun k hk => ?_, fun k hk => ?_, fun e he => ?_⟩
  · dsimp only
    omega
  · dsimp only
    by_cases hnew : st.ptroff ≤ k
    · have hin : k < st.ptroff + m := by omega
      have hpos : off + k = i * vol.blkSz + (start + (k - st.ptroff)) := by omega
      rw [blit_apply_of_mem hnew hin, ext2ReadInodeBlk,
        hvol.readBlock_apply (ext2GetInodeBlk_lt _ _ _ _) (by omega), hpos,
        fileByte_of_mapped (hmapped (by omega)) (by omega)]
    · rw [blit_apply_of_notMem (by omega), hread k (by omega)]
  · dsimp only
    rw [blit_apply_of_notMem (by omega), hkept k (by omega)]
  · rcases List.mem_append.mp he with he | he
    · exact hwithin e he
    · obtain ⟨x, hx, rfl | rfl⟩ := mem_copyAccesses.mp he
      · show start + x < vol.blkSz
        omega
      · show st.ptroff + x < stop - off
        omega

section Runs

variable (hvol : vol.Sized) (halloc : Allocated vol s num len) (hle : off ≤ stop)
  (hlen : stop ≤ len)
include hvol halloc hle hlen

theorem readUpTo_rounds (ptr stack : Mem) (hcut : CutsExactly vol off stop)
    (hn : n ≤ chunkCount vol off stop) :
    ReadUpTo vol s num ptr off stop (reached vol off stop n)
      (loop (fun k => readChunk vol s.disk (ext2ReadInode vol s num stack) off stop
        (off / vol.blkSz + k)) n ⟨ptr, 0, []⟩) := by
  obtain ⟨hend, -⟩ := halloc.bounds hvol hlen
  refine loop_induction (I := fun n st =>
    ReadUpTo vol s num ptr off stop (reached vol off stop n) st) n ?_ fun m st hm hI => ?_
  · rw [reached_zero]
    exact ⟨Nat.add_zero off, fun k hk => by omega, fun _ _ => rfl, fun e he => by cases he⟩
  · have hround : m < chunkCount vol off stop := by omega
    have hbegins := chunk_begins hvol hle hend hround
    obtain ⟨hends, hfits⟩ := chunk_ends hvol hle hend hround hcut
    have hbelow : reached vol off stop (m + 1) ≤ stop := reached_le hle (m + 1)
    rw [← hends, ← hbegins] at hbelow ⊢
    rw [← hbegins] at hI
    exact hI.readChunk hvol (fun hpos => halloc _ (by omega)) hfits hbelow

theorem ext2Read_eq (ptr stack : Mem) (hsize : stop = off + size) :
    ext2Read vol s num ptr off size stack =
      let st := loop (fun k => readChunk vol s.disk (ext2ReadInode vol s num stack) off stop
        (off / vol.blkSz + k)) (chunkCount vol off stop) ⟨ptr, 0, []⟩
      some (st.mem, size, st.accesses) := by
  obtain ⟨hend, hlt⟩ := halloc.bounds hvol hlen
  have hcut : u64 (size + off) = stop := by
    rw [Nat.add_comm, ← hsize]
    exact u64_of_lt hlt
  rw [ext2Read]
  dsimp only
  rw [hcut, startBlk_eq hle hend, endBlk_eq hend, if_pos hend, chunkCount]

end Runs

/-- Of a file whose blocks are there, `ext2_read` returns exactly the bytes that were asked for
when they begin with a block, or end in another block than they begin in. If they do neither,
the bytes behind them are stored behind `ptr + size`. -/
theorem ext2Read_exact_iff (vol : Vol) (s : State) (num len off size : ℕ) (hvol : vol.Sized)
    (halloc : Allocated vol s num len) (hlen : off + size ≤ len) :
    ReadsExactly vol s num off size ↔
      off % vol.blkSz = 0 ∨ off / vol.blkSz < (off + size) / vol.blkSz := by
  have hle : off ≤ off + size := Nat.le_add_right off size
  have hrun : ∀ ptr stack, _ := fun ptr stack =>
    ext2Read_eq hvol halloc hle hlen ptr stack rfl
  constructor
  · intro h
    by_contra hcut
    obtain ⟨hend, -⟩ := halloc.bounds hvol hlen
    obtain ⟨hmod, hcount, -, hsize⟩ := chunk_overruns hle hend hcut
    obtain ⟨mem, accesses, hread, -, -, hwithin⟩ := h newBuf newBuf
    rw [hrun, hcount, loop_succ, loop_zero] at hread
    cases hread
    -- the one chunk goes on behind the range
    have hstore : (CopyAccess.store size).Within vol.blkSz size := by
      refine hwithin _ ?_
      rw [readChunk]
      dsimp only
      refine List.mem_append_right _ (mem_copyAccesses.mpr ⟨size, ?_, Or.inr ?_⟩)
      · rw [Nat.add_zero, hsize]
        omega
      · rw [Nat.zero_add]
    exact Nat.lt_irrefl size hstore
  · intro hcut ptr stack
    have hall := readUpTo_rounds hvol halloc hle hlen ptr stack hcut le_rfl
    rw [reached_last hvol hle] at hall
    refine ⟨_, _, hrun ptr stack, fun k hk => hall.read k (by omega),
      fun k hk => hall.kept k (by omega), fun e he => ?_⟩
    have hwithin := hall.within e he
    rwa [Nat.add_sub_cancel_left] at hwithin

theorem ext2Read_exact_small :
    Allocated freshVol smallState smallFile.inodeNum 100 ∧
      ReadsExactly freshVol smallState smallFile.inodeNum 0 100 :=
  ⟨allocated_smallFile,
    (ext2Read_exact_iff freshVol smallState smallFile.inodeNum 100 0 100 freshVol_sized
      allocated_smallFile (by decide)).mpr (Or.inl (by decide))⟩

/-- Of 10 bytes from byte 5 on, all in block 0 of the file, 15 are stored. -/
theorem ext2Read_overruns :
    Allocated freshVol smallState smallFile.inodeNum 100 ∧
      (ext2Read freshVol smallState smallFile.inodeNum newBuf 5 10 newBuf).map
        (fun r => decide (CopyAccess.store 14 ∈ r.2.2)) = some true ∧
      ¬ReadsExactly freshVol smallState smallFile.inodeNum 5 10 := by
  have hstores : (ext2Read freshVol smallState smallFile.inodeNum newBuf 5 10 newBuf).map
      (fun r => decide (CopyAccess.store 14 ∈ r.2.2)) = some true := by decide +kernel
  refine ⟨allocated_smallFile, hstores, fun h => ?_⟩
  obtain ⟨mem, accesses, hread, -, -, hwithin⟩ := h newBuf newBuf
  rw [hread, Option.map_some, Option.some_inj, decide_eq_true_iff] at hstores
  exact absurd (hwithin _ hstores) (by decide : ¬14 < 10)

end KernelOld.Ext2
