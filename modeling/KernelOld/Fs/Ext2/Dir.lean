import KernelOld.Fs.Ext2.File
import KernelOld.Util.Strings

/-!
# Directories

The loops of `fs/ext2/dir.c` go from entry to entry in the same way (`nextPos`). They do not end on
every directory, so they are given a number of rounds. They see a directory only as the size of its
inode and the contents of its blocks (`DirImage`).
-/

namespace KernelOld.Ext2
open ByteMemory MachineWord Strings

/-! ## Entries -/

section

variable (buf : Mem) (o : ℕ)

def entSize : ℕ := load buf (o + 4) 2

def entNameLen : ℕ := (buf (o + 6)).toNat

def entName : Str := (List.range (entNameLen buf o)).map fun i => buf (o + 8 + i)

end

structure DirNode extends FileNode where
  name : Str
  flags : ℕ
  deriving DecidableEq

def ext2GetSize (ino : Mem) : ℕ := u64 (inoSize ino + load ino 108 4 <<< 32)

/-- The blocks of a directory, as they are read. -/
structure DirImage where
  size : ℕ
  blk : ℕ → Mem

def inodeImage (vol : Vol) (disk ino : Mem) : DirImage where
  size := inoSize ino
  blk i := ext2ReadInodeBlk vol disk i ino

def dirImage (vol : Vol) (s : State) (num : ℕ) : DirImage :=
  inodeImage vol s.disk (ext2ReadInode vol s num newBuf)

def nextPos (vol : Vol) (img : DirImage) (pos : ℕ × ℕ) : ℕ × ℕ :=
  let off := u32 (pos.2 + entSize (img.blk pos.1) pos.2)
  if vol.blkSz ≤ off then (u32 (pos.1 + 1), 0) else (pos.1, off)

section

variable {α : Type*} (vol : Vol) (img : DirImage)

def listLoop (mk : Mem → ℕ → α) : ℕ → ℕ × ℕ → Option (List α)
  | 0, _ => none
  | rounds + 1, pos =>
    if u32 (pos.1 * vol.blkSz) < img.size then
      (listLoop mk rounds (nextPos vol img pos)).map (mk (img.blk pos.1) pos.2 :: ·)
    else some []

def findLoop (name : Str) (mk : Mem → ℕ → α) : ℕ → ℕ × ℕ → Option (Option α)
  | 0, _ => none
  | rounds + 1, pos =>
    if u32 (pos.1 * vol.blkSz) < img.size then
      let buf := img.blk pos.1
      if name.length = entNameLen buf pos.2 ∧
          strncmp (entName buf pos.2) name (entNameLen buf pos.2) = 0 then
        some (some (mk buf pos.2))
      else findLoop name mk rounds (nextPos vol img pos)
    else some none

/-- The end of the loop of `ext2_add_entry`, from `pos` to `next`. The size is set at the old
offset, but in the block that is then in the buffer. -/
def shrinkEnt (pos next : ℕ × ℕ) : ℕ × Mem × ℕ :=
  let buf := img.blk next.1
  let buf := store buf (pos.2 + 4) 2 (entNameLen buf pos.2 + 8)
  (next.1, buf, u32 (next.2 + entSize buf pos.2))

def addLoop (linkCnt : ℕ) : ℕ → ℕ × ℕ → ℕ → Option (ℕ × Mem × ℕ)
  | 0, _, _ => none
  | rounds + 1, pos, direntoff =>
    if u32 (pos.1 * vol.blkSz) < img.size then
      let next := nextPos vol img pos
      if direntoff = linkCnt + 1 then some (shrinkEnt img pos next)
      else addLoop linkCnt rounds next (direntoff + 1)
    else some (pos.1, img.blk pos.1, pos.2)

end

/-! ## The functions -/

def inoLinkCnt (ino : Mem) : ℕ := load ino 26 2

/-- `ext2_init_inode`, which leaves `file_acl` as it is. -/
def ext2InitInode (ino : Mem) (type perms : ℕ) : Mem :=
  let cleared : Mem := fun x =>
    if x < inodeStructSz ∧ ¬(104 ≤ x ∧ x < 108) then 0 else ino x
  store (store cleared 0 2 (perms &&& 0xfff ||| type)) 26 2 (if type = 2 then 2 else 0)

/-- The new entry. Its size is its own, not the rest of the block. -/
def newEnt (name : Str) (type newino : ℕ) : Mem :=
  let dirent := store newBuf 7 1 type
  let dirent := store dirent 0 4 newino
  let dirent := store dirent 6 1 name.length
  let dirent := store dirent 4 2 (8 + name.length)
  blit dirent 8 (fun i => name.getD i 0) 0 (name.length % 256)

/-- `ext2_add_entry`. `stack` and `stack'` are what lies where `newino` and `pino` are. -/
def ext2AddEntry (vol : Vol) (s : State) (num : ℕ) (name : Str) (type : ℕ) (stack stack' : Mem)
    (rounds : ℕ) : Option State := do
  let r := ext2AllocInode vol s
  let s := ext2WriteInode vol r.1 r.2 (ext2InitInode stack type 0)
  let dirent := newEnt name type r.2
  let pino := ext2ReadInode vol s num stack'
  let (blkIdx, buf, off) ←
    addLoop vol (inodeImage vol s.disk pino) (inoLinkCnt pino) rounds (0, 0) 0
  let buf := blit buf off dirent 0 (entSize dirent 0)
  let s := { s with disk := ext2WriteInodeBlk vol s.disk blkIdx pino buf }
  let pino := store pino 26 2 (inoLinkCnt pino + 1)
  return ext2WriteInode vol s num pino

variable {vol : Vol} {img : DirImage} {n rounds : ℕ} {pos stop : ℕ × ℕ} {ps : List (ℕ × ℕ)}

/-! ## Well-formed directories -/

inductive Tiles (blkSz : ℕ) (buf : Mem) : ℕ → Prop where
  | done : Tiles blkSz buf blkSz
  | ent {o : ℕ} (hsize : 8 + entNameLen buf o ≤ entSize buf o)
      (hrest : Tiles blkSz buf (o + entSize buf o)) : Tiles blkSz buf o

theorem Tiles.le {blkSz o : ℕ} {buf : Mem} (h : Tiles blkSz buf o) : o ≤ blkSz := by
  induction h with
  | done => exact le_rfl
  | ent _ _ ih => exact (Nat.le_add_right _ _).trans ih

inductive Tiling (blkSz : ℕ) (buf : Mem) : ℕ → List ℕ → Prop where
  | done : Tiling blkSz buf blkSz []
  | ent {o : ℕ} {os : List ℕ} (hsize : 8 + entNameLen buf o ≤ entSize buf o)
      (hrest : Tiling blkSz buf (o + entSize buf o) os) : Tiling blkSz buf o (o :: os)

theorem Tiling.tiles {blkSz o : ℕ} {buf : Mem} {os : List ℕ} (h : Tiling blkSz buf o os) :
    Tiles blkSz buf o := by
  induction h with
  | done => exact Tiles.done
  | ent hsize _ ih => exact Tiles.ent hsize ih

theorem Tiling.eq_nil {blkSz : ℕ} {buf : Mem} {os : List ℕ} (h : Tiling blkSz buf blkSz os) :
    os = [] := by
  cases h with
  | done => rfl
  | ent hsize hrest =>
    have hle := hrest.tiles.le
    omega

/-! ## Walks -/

inductive Walk (vol : Vol) (img : DirImage) : ℕ × ℕ → List (ℕ × ℕ) → ℕ × ℕ → Prop where
  | stop {pos : ℕ × ℕ} (hend : ¬u32 (pos.1 * vol.blkSz) < img.size) : Walk vol img pos [] pos
  | step {pos stop : ℕ × ℕ} {ps : List (ℕ × ℕ)} (hcond : u32 (pos.1 * vol.blkSz) < img.size)
      (hrest : Walk vol img (nextPos vol img pos) ps stop) : Walk vol img pos (pos :: ps) stop

theorem Walk.nil_iff (h : Walk vol img pos [] stop) : pos = stop := by
  cases h
  rfl

theorem Walk.head {q : ℕ × ℕ} (h : Walk vol img pos (q :: ps) stop) : q = pos := by
  cases h
  rfl

/-- In a block the loops go along its entries, and then on to the next block. -/
theorem Tiling.walk {i o : ℕ} {os : List ℕ} {rest : List (ℕ × ℕ)}
    (ht : Tiling vol.blkSz (img.blk i) o os) (ho : o < vol.blkSz) (hvol : vol.Sized)
    (hi : i + 1 < 2 ^ 32) (hcond : u32 (i * vol.blkSz) < img.size)
    (hrest : Walk vol img (i + 1, 0) rest stop) :
    Walk vol img (i, o) (os.map (Prod.mk i) ++ rest) stop := by
  have hsz := hvol.lt
  induction ht with
  | done => exact absurd ho (lt_irrefl _)
  | @ent o os hsize htail ih =>
    have hle := htail.tiles.le
    have hoff : u32 (o + entSize (img.blk i) o) = o + entSize (img.blk i) o :=
      u32_of_lt (by omega)
    refine Walk.step hcond ?_
    by_cases hfull : o + entSize (img.blk i) o = vol.blkSz
    · have hnext : nextPos vol img (i, o) = (i + 1, 0) := by
        rw [nextPos]
        dsimp only
        rw [hoff, if_pos (by omega), u32_of_lt hi]
      rw [hfull] at htail
      rw [htail.eq_nil, hnext]
      exact hrest
    · have hnext : nextPos vol img (i, o) = (i, o + entSize (img.blk i) o) := by
        rw [nextPos]
        dsimp only
        rw [hoff, if_neg (by omega)]
      rw [hnext]
      exact ih (by omega)

theorem walk_of_tilings {offs : ℕ → List ℕ} (hvol : vol.Sized) (hsize : img.size = n * vol.blkSz)
    (hlt : img.size < 2 ^ 32) (ht : ∀ i < n, Tiling vol.blkSz (img.blk i) 0 (offs i)) (d i : ℕ)
    (hi : i + d = n) :
    Walk vol img (i, 0) ((List.range' i d).flatMap fun i => (offs i).map (Prod.mk i)) (n, 0) := by
  have hpos := hvol.pos
  have hn : n < 2 ^ 32 := by
    have hle : n * 1 ≤ n * vol.blkSz := Nat.mul_le_mul_left n hpos
    rw [hsize] at hlt
    omega
  -- backwards over the blocks
  induction d generalizing i with
  | zero =>
    obtain rfl : i = n := hi
    refine Walk.stop ?_
    rw [← hsize, u32_of_lt hlt]
    exact lt_irrefl _
  | succ d ih =>
    have hin : i < n := by omega
    have hcond : u32 (i * vol.blkSz) < img.size := by
      have hmul : (i + 1) * vol.blkSz ≤ n * vol.blkSz := Nat.mul_le_mul_right _ hin
      rw [Nat.succ_mul, ← hsize] at hmul
      rw [u32_of_lt (by omega)]
      omega
    rw [List.range'_succ, List.flatMap_cons]
    exact (ht i hin).walk hpos hvol (by omega) hcond (ih (i + 1) (by omega))

/-- What the loop of `ext2_add_entry` comes to at the first of the entries that are left, with
`stop` behind the last one. -/
def addResult (img : DirImage) (stop : ℕ × ℕ) : List (ℕ × ℕ) → ℕ × Mem × ℕ
  | [] => (stop.1, img.blk stop.1, stop.2)
  | [p] => shrinkEnt img p stop
  | p :: q :: _ => shrinkEnt img p q

theorem addLoop_eq {linkCnt d : ℕ} (hw : Walk vol img pos ps stop) (hd : d ≤ linkCnt + 1) :
    addLoop vol img linkCnt rounds pos d = none ∧ rounds ≤ ps.length ∨
      addLoop vol img linkCnt rounds pos d =
        some (addResult img stop (ps.drop (linkCnt + 1 - d))) := by
  induction hw generalizing rounds d with
  | stop hend =>
    cases rounds with
    | zero => exact Or.inl ⟨rfl, le_rfl⟩
    | succ rounds =>
      right
      rw [addLoop, if_neg hend, List.drop_nil]
      rfl
  | @step pos stop ps hcond hrest ih =>
    cases rounds with
    | zero => exact Or.inl ⟨rfl, Nat.zero_le _⟩
    | succ rounds =>
      rw [addLoop, if_pos hcond]
      dsimp only
      -- the loop breaks at this entry, whether or not another one follows
      by_cases heq : d = linkCnt + 1
      · right
        rw [if_pos heq, heq, Nat.sub_self, List.drop_zero]
        cases ps with
        | nil => rw [hrest.nil_iff]; rfl
        | cons q ps => rw [← hrest.head]; rfl
      · rw [if_neg heq]
        have hdrop : linkCnt + 1 - d = linkCnt + 1 - (d + 1) + 1 := by omega
        rw [hdrop, List.drop_succ_cons]
        rcases @ih rounds (d + 1) (by omega) with ⟨hnone, hle⟩ | hsome
        · exact Or.inl ⟨hnone, Nat.succ_le_succ hle⟩
        · exact Or.inr hsome

/-- In a directory with at most `link_cnt + 2` entries the loop has gone on to the block behind the
last one when it is done. -/
theorem addLoop_behind {linkCnt : ℕ} (hw : Walk vol img (0, 0) ps stop)
    (hlen : ps.length ≤ linkCnt + 2) (hrounds : ps.length < rounds) :
    ∃ buf off, addLoop vol img linkCnt rounds (0, 0) 0 = some (stop.1, buf, off) := by
  have hloop : addLoop vol img linkCnt rounds (0, 0) 0 = none ∧ rounds ≤ ps.length ∨ _ :=
    addLoop_eq hw (Nat.zero_le (linkCnt + 1))
  obtain ⟨-, hle⟩ | hsome := hloop
  · omega
  · rw [hsome, Nat.sub_zero]
    have hdrop : (ps.drop (linkCnt + 1)).length ≤ 1 := by
      rw [List.length_drop]
      omega
    generalize ps.drop (linkCnt + 1) = left at hdrop ⊢
    rcases left with _ | ⟨q, _ | ⟨q', rest⟩⟩
    · exact ⟨_, _, rfl⟩
    · exact ⟨_, _, rfl⟩
    · simp at hdrop

end KernelOld.Ext2
