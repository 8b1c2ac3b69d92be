import KernelOld.Fs.Ext2.File

/-!
# Growth of files

When a write should make a file longer, `ext2_write` compares its end with the size plus the
size modulo the block size, and takes one block, however many it needs.
-/

namespace KernelOld.Ext2
open ByteMemory MachineWord

variable {vol : Vol} {s : State} {file : FileNode} {ino ptr disk stack : Mem}
  {off stop size num a i : ℕ}

def smallState : State where
  disk a := freshState.disk a ||| bytesAt 6532 [100] a ||| bytesAt 6556 [2] a |||
    bytesAt 6568 [20] a
  blkGrps := freshState.blkGrps

def smallFile : FileNode := ⟨100, 12⟩

theorem readSlot_smallFile : readSlot freshVol smallState smallFile.inodeNum = 6528 := by
  decide +kernel

theorem smallFile_blocks : ∀ i < 15,
    inoBlock (ext2ReadInode freshVol smallState smallFile.inodeNum newBuf) i =
      if i = 0 then 20 else 0 := by
  decide +kernel

end KernelOld.Ext2
