import KernelOld.Fs.Ext2.Overwrite
import KernelOld.Fs.Ext2.Read

/-!
# Files as arrays of bytes

Any writes inside the files of a volume, one after the other. As long as the files share no block,
what `ext2_read` returns is what arrays would hold that are written in the same way.
-/

namespace KernelOld.Ext2
open ByteMemory CountedLoop Function

variable {ι : Type*}

def blockOf (vol : Vol) (s : State) (file : FileNode) (i : ℕ) : ℕ :=
  ext2GetInodeBlk vol s.disk i (ext2ReadInode vol s file.inodeNum newBuf)

def pointersOf (vol : Vol) (s : State) (file : FileNode) (i : ℕ) : List ℕ :=
  pointerBlocks vol s.disk i (ext2ReadInode vol s file.inodeNum newBuf)

/-- The data of the first file lie apart from the pointers and the inode of the second. -/
structure Clear (vol : Vol) (s : State) (file file' : FileNode) : Prop where
  pointers : ∀ i j, i * vol.blkSz < file.size → j * vol.blkSz < file'.size →
    blockOf vol s file i ∉ pointersOf vol s file' j
  slot : ∀ i, i * vol.blkSz < file.size → ∀ a, InBlock vol (blockOf vol s file i) a →
    ¬InSlot vol s file'.inodeNum a

/-- Each file has its own blocks and pointers, and no two share any. -/
structure OwnFiles (vol : Vol) (s : State) (files : ι → FileNode) : Prop where
  own : ∀ f, OwnFile vol s (files f)
  clear : ∀ f g, f ≠ g → Clear vol s (files f) (files g)
  separate : ∀ f g, f ≠ g → ∀ i j, i * vol.blkSz < (files f).size →
    j * vol.blkSz < (files g).size → blockOf vol s (files f) i ≠ blockOf vol s (files g) j

/-- A call of `ext2_write`, with the memory at `ptr` and what lies on the stack. -/
structure Write (ι : Type*) where
  file : ι
  ptr : Mem
  off : ℕ
  size : ℕ
  stack : Mem

def Write.exec [DecidableEq ι] (vol : Vol) (p : State × (ι → FileNode)) (w : Write ι) :
    Option (State × (ι → FileNode)) :=
  (ext2Write vol p.1 (p.2 w.file) w.ptr w.off w.size w.stack).map fun r =>
    (r.1, update p.2 w.file r.2.1)

def Write.apply [DecidableEq ι] (contents : ι → Mem) (w : Write ι) : ι → Mem :=
  update contents w.file (blit (contents w.file) w.off w.ptr 0 w.size)

/-- The write stays inside its file, which is not taken to grow, and cuts its bytes right. -/
structure Write.Fits (vol : Vol) (files : ι → FileNode) (w : Write ι) : Prop where
  inside : w.off + w.size ≤ (files w.file).size
  keeps : ¬Grows vol (files w.file) (w.off + w.size)
  cuts : CutsExactly vol w.off (w.off + w.size)

variable {vol : Vol} {s s' : State} {file file' : FileNode} {ptr : Mem} {off pos size i j k : ℕ}
  {st : Mem × ℕ} {files : ι → FileNode} {f g : ι} {w : Write ι}

theorem OwnFile.clear (h : OwnFile vol s file) : Clear vol s file file :=
  ⟨h.not_pointers, h.apart⟩

/-- A write to the first file leaves the second one with its blocks. -/
theorem Clear.lookup (h : Clear vol s file file') (hown : OwnFile vol s file')
    (hW : WrittenUpTo vol s file ptr off pos st) (hj : j * vol.blkSz < file'.size) :
    blockOf vol ⟨st.1, s.blkGrps⟩ file' j = blockOf vol s file' j ∧
      pointersOf vol ⟨st.1, s.blkGrps⟩ file' j = pointersOf vol s file' j := by
  have hino : ∀ i < 15, inoBlock (ext2ReadInode vol ⟨st.1, s.blkGrps⟩ file'.inodeNum newBuf) i =
      inoBlock (ext2ReadInode vol s file'.inodeNum newBuf) i := by
    intro i hi
    obtain ⟨hpos, -, hnum⟩ := hown.hasInode
    have hstruct := hown.inodeSized.le
    have hfield := pointer_le hi
    have hslot : readSlot vol ⟨st.1, s.blkGrps⟩ file'.inodeNum = readSlot vol s file'.inodeNum :=
      readSlot_congr rfl
    rw [inoBlock, inoBlock, load_ext2ReadInode hown.sized hown.inodeSized hpos hnum hfield,
      load_ext2ReadInode hown.sized hown.inodeSized hpos hnum hfield, hslot]
    refine load_congr fun a hlo hhi => hW.other a fun i hi hin => ?_
    exact h.slot i hi a hin ⟨by omega, by omega⟩
  refine ext2GetInodeBlk_congr hown.sized (fun hlt => hino j (by omega)) (hino 12 (by decide))
    (hino 13 (by decide)) fun q hq a ha => hW.other a fun i hi hin => ?_
  have hblk : blockOf vol s file i = q := inBlock_unique hown.sized hin ha
  exact h.pointers i j hi hj (hblk ▸ hq)

theorem OwnFiles.clear_of (h : OwnFiles vol s files) (f g : ι) :
    Clear vol s (files f) (files g) := by
  by_cases hfg : f = g
  · exact hfg ▸ (h.own f).clear
  · exact h.clear f g hfg

theorem OwnFiles.written (h : OwnFiles vol s files)
    (hW : WrittenUpTo vol s (files f) ptr off pos st) :
    OwnFiles vol ⟨st.1, s.blkGrps⟩ files := by
  have hlookup := fun g j (hj : j * vol.blkSz < (files g).size) =>
    (h.clear_of f g).lookup (h.own g) hW hj
  have hclear : ∀ g g', Clear vol s (files g) (files g') →
      Clear vol ⟨st.1, s.blkGrps⟩ (files g) (files g') := by
    intro g g' hc
    refine ⟨fun i j hi hj => ?_, fun i hi a ha => ?_⟩
    · rw [(hlookup g i hi).1, (hlookup g' j hj).2]
      exact hc.pointers i j hi hj
    · have hslot : readSlot vol ⟨st.1, s.blkGrps⟩ (files g').inodeNum =
        readSlot vol s (files g').inodeNum := readSlot_congr rfl
      rw [(hlookup g i hi).1] at ha
      rw [InSlot, hslot]
      exact hc.slot i hi a ha
  refine ⟨fun g => ?_, fun g g' hne => hclear g g' (h.clear g g' hne),
    fun g g' hne i j hi hj => ?_⟩
  · have hg := h.own g
    have hself := hclear g g hg.clear
    refine ⟨hg.sized, hg.inodeSized, hg.hasInode, hg.size_lt, fun i hi => ?_,
      fun i j hi hj heq => ?_, hself.pointers, hself.slot⟩
    · show blockOf vol _ (files g) i ≠ 0 ∧ 0 ∉ pointersOf vol _ (files g) i
      rw [(hlookup g i hi).1, (hlookup g i hi).2]
      exact hg.allocated i hi
    · exact hg.injective i j hi hj
        ((hlookup g i hi).1.symm.trans (heq.trans (hlookup g j hj).1))
  · rw [(hlookup g i hi).1, (hlookup g' j hj).1]
    exact h.separate g g' hne i j hi hj

variable [DecidableEq ι] {contents : ι → Mem}

theorem OwnFiles.fileByte_written (h : OwnFiles vol s files)
    (hW : WrittenUpTo vol s (files f) ptr off (off + size) st) (hk : k < (files g).size) :
    fileByte vol ⟨st.1, s.blkGrps⟩ (files g).inodeNum k =
      update (fun g => fileByte vol s (files g).inodeNum) f
        (blit (fileByte vol s (files f).inodeNum) off ptr 0 size) g k := by
  have hg := h.own g
  by_cases hgf : g = f
  · subst hgf
    rw [update_self, hg.fileByte_eq hW hk, blit, Nat.zero_add]
  have hx : k % vol.blkSz < vol.blkSz := Nat.mod_lt k hg.sized.pos
  have hsplit := Nat.div_add_mod' k vol.blkSz
  have hj : k / vol.blkSz * vol.blkSz < (files g).size := by omega
  have hmapped := (h.written hW).own g |>.allocated _ hj
  rw [update_of_ne hgf, ← hsplit, fileByte_of_mapped hmapped hx,
    fileByte_of_mapped (hg.allocated _ hj) hx]
  show st.1 (blockOf vol ⟨st.1, s.blkGrps⟩ (files g) _ * vol.blkSz + _) = _
  rw [((h.clear_of f g).lookup hg hW hj).1]
  refine hW.other _ fun i hi hin => ?_
  exact h.separate f g (Ne.symm hgf) i _ hi hj
    (inBlock_unique hg.sized hin ⟨Nat.le_add_right _ _, by omega⟩)

structure FilesHold (vol : Vol) (s : State) (files : ι → FileNode) (contents : ι → Mem) : Prop where
  own : OwnFiles vol s files
  bytes : ∀ f, ∀ k < (files f).size, fileByte vol s (files f).inodeNum k = contents f k

theorem FilesHold.step (h : FilesHold vol s files contents) (hw : w.Fits vol files) :
    ∃ s', w.exec vol (s, files) = some (s', files) ∧
      FilesHold vol s' files (w.apply contents) := by
  have hf := h.own.own w.file
  have hle := Nat.le_add_right w.off w.size
  obtain ⟨hW, -⟩ := writtenUpTo_rounds hf hle hw.inside w.ptr w.stack hw.cuts le_rfl
  rw [reached_last hf.sized hle] at hW
  refine ⟨_, ?_, h.own.written hW, fun g k hk => ?_⟩
  · rw [Write.exec, ← ext2WriteReads_map,
      ext2WriteReads_eq hf hle hw.inside w.ptr w.stack rfl hw.keeps]
    exact congrArg (fun files => some (_, files)) (update_eq_self _ _)
  · rw [h.own.fileByte_written hW hk, Write.apply, update_apply, update_apply]
    by_cases hgf : g = w.file
    · subst hgf
      rw [if_pos rfl, if_pos rfl, blit, blit, h.bytes _ k hk]
    · rw [if_neg hgf, if_neg hgf]
      exact h.bytes g k hk

/-- Whatever has been written inside the files: `ext2_read` returns what arrays of bytes would
hold. -/
theorem files_refine (vol : Vol) (s : State) (files : ι → FileNode) (ws : List (Write ι))
    (h : OwnFiles vol s files) (hws : ∀ w ∈ ws, w.Fits vol files) :
    ∃ s', ws.foldlM (Write.exec vol) (s, files) = some (s', files) ∧
      ∀ f off size ptr stack, off + size ≤ (files f).size → CutsExactly vol off (off + size) →
        ∃ mem accesses,
          ext2Read vol s' (files f).inodeNum ptr off size stack = some (mem, size, accesses) ∧
            ∀ k < size, mem k =
              ws.foldl Write.apply (fun f => fileByte vol s (files f).inodeNum) f (off + k) := by
  let R : State × (ι → FileNode) → (ι → Mem) → Prop := fun p contents =>
    p.2 = files ∧ FilesHold vol p.1 files contents
  have hstep : ∀ w ∈ ws, ∀ p contents, R p contents →
      ∃ p', w.exec vol p = some p' ∧ R p' (w.apply contents) := by
    rintro w hw ⟨s, _⟩ contents ⟨rfl, h⟩
    obtain ⟨s', hexec, h'⟩ := h.step (hws w hw)
    exact ⟨_, hexec, rfl, h'⟩
  obtain ⟨⟨s', _⟩, hrun, rfl, hfiles⟩ :=
    foldlM_simulates (s := (s, files)) hstep ⟨rfl, h, fun _ _ _ => rfl⟩
  refine ⟨s', hrun, fun f off size ptr stack hin hcut => ?_⟩
  have hf := hfiles.own.own f
  have hle := Nat.le_add_right off size
  have hall := readUpTo_rounds hf.sized hf.allocated hle hin ptr stack hcut le_rfl
  rw [reached_last hf.sized hle] at hall
  refine ⟨_, _, ext2Read_eq hf.sized hf.allocated hle hin ptr stack rfl, fun k hk => ?_⟩
  rw [hall.read k (by omega)]
  exact hfiles.bytes f _ (by omega)

/-- A hundred fives are written and read back. -/
theorem files_refine_small :
    ∃ s', [⟨(), fun _ => 5, 0, 100, newBuf⟩].foldlM (Write.exec freshVol)
        (smallState, fun _ : Unit => smallFile) = some (s', fun _ => smallFile) ∧
      ∃ mem accesses, ext2Read freshVol s' smallFile.inodeNum newBuf 0 100 newBuf =
        some (mem, 100, accesses) ∧ mem 99 = 5 := by
  obtain ⟨s', hrun, hread⟩ := files_refine freshVol smallState (fun _ : Unit => smallFile)
    [⟨(), fun _ => 5, 0, 100, newBuf⟩]
    ⟨fun _ => ownFile_smallFile, fun _ _ hne => absurd rfl hne, fun _ _ hne => absurd rfl hne⟩
    (List.forall_mem_singleton.mpr ⟨by decide, by decide, by decide⟩)
  obtain ⟨mem, accesses, hcall, hmem⟩ := hread () 0 100 newBuf newBuf (by decide) (by decide)
  exact ⟨s', hrun, mem, accesses, hcall, hmem 99 (by decide)⟩

end KernelOld.Ext2
