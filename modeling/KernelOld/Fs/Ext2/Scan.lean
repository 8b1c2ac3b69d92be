import KernelOld.Fs.Ext2.Growth
import KernelOld.Fs.Ext2.Lookup
import KernelOld.Lib.Trace

/-!
# Scanning arbitrary blocks

`ext2_listdir` and `ext2_finddir` with the bytes of the block buffer that they read. The step from
one entry to the next is a field of the entry, and nothing is checked. The product of block index
and block size wraps, so that a directory of nearly 4 GiB has no end.
-/

namespace KernelOld.Ext2
open ByteMemory MachineWord Strings Trace List

/-! ## The loops with their reads -/

def strncpyReads (buf : Mem) : ℕ → ℕ → List ℕ
  | _, 0 => []
  | a, n + 1 => a :: if buf a = 0 then [] else strncpyReads buf (a + 1) n

def strncmpReads (buf : Mem) : ℕ → Str → List ℕ
  | _, [] => []
  | a, b :: name => a :: if buf a ≠ b then [] else strncmpReads buf (a + 1) name

section

variable (buf : Mem) (o : ℕ)

def sizeReads : List ℕ := [o + 4, o + 5]

def nodeReads : List ℕ :=
  (o + 6) :: strncpyReads buf (o + 8) (entNameLen buf o) ++ [o, o + 1, o + 2, o + 3, o + 7]

def matchReads (name : Str) : List ℕ :=
  (o + 6) :: if name.length = entNameLen buf o then strncmpReads buf (o + 8) name else []

end

section

variable {α : Type} (vol : Vol) (img : DirImage)

def listScan (mk : Mem → ℕ → α) : ℕ → ℕ × ℕ → Traced ℕ (List α)
  | 0, _ => .lift none
  | rounds + 1, pos =>
    if u32 (pos.1 * vol.blkSz) < img.size then do
      let buf := img.blk pos.1
      let node ← ⟨sizeReads pos.2 ++ nodeReads buf pos.2, some (mk buf pos.2)⟩
      let nodes ← listScan mk rounds (nextPos vol img pos)
      return node :: nodes
    else pure []

def findScan (name : Str) (mk : Mem → ℕ → α) : ℕ → ℕ × ℕ → Traced ℕ (Option α)
  | 0, _ => .lift none
  | rounds + 1, pos =>
    if u32 (pos.1 * vol.blkSz) < img.size then do
      let buf := img.blk pos.1
      let found ← ⟨sizeReads pos.2 ++ matchReads buf pos.2 name,
        some (decide (name.length = entNameLen buf pos.2 ∧
          strncmp (entName buf pos.2) name (entNameLen buf pos.2) = 0))⟩
      if found then ⟨nodeReads buf pos.2, some (some (mk buf pos.2))⟩
      else findScan name mk rounds (nextPos vol img pos)
    else pure none

end

variable {α : Type} {vol : Vol} {img : DirImage} {mk : Mem → ℕ → α} {name : Str} {buf : Mem}
  {a e i n o rounds : ℕ} {pos stop : ℕ × ℕ} {ps : List (ℕ × ℕ)}

theorem result_listScan :
    (listScan vol img mk rounds pos).result = listLoop vol img mk rounds pos := by
  induction rounds generalizing pos with
  | zero => rfl
  | succ rounds ih =>
    rw [listScan, listLoop]
    split_ifs
    · rw [← ih]
      simp only [Traced.bind_some, Traced.result_bind]
      cases (listScan vol img mk rounds (nextPos vol img pos)).result <;> rfl
    · rfl

theorem result_findScan :
    (findScan vol img name mk rounds pos).result = findLoop vol img name mk rounds pos := by
  induction rounds generalizing pos with
  | zero => rfl
  | succ rounds ih =>
    rw [findScan, findLoop]
    dsimp only
    split_ifs with hcond hfound
    · simp only [Traced.bind_some, decide_eq_true hfound, if_true]
    · simp only [Traced.bind_some, decide_eq_false hfound, Bool.false_eq_true, if_false, ih]
    · rfl

theorem nextPos_eq (hvol : vol.Sized) (ho : o < vol.blkSz) (hi : i + 1 < 2 ^ 32) :
    nextPos vol img (i, o) =
      if vol.blkSz ≤ o + entSize (img.blk i) o then (i + 1, 0)
      else (i, o + entSize (img.blk i) o) := by
  have hsize : entSize (img.blk i) o < 2 ^ 16 := load_lt _ _ _
  have hblk := hvol.le_two_pow
  rw [nextPos]
  dsimp only
  rw [u32_of_lt (show o + entSize (img.blk i) o < 2 ^ 32 by omega), u32_of_lt hi]

theorem mem_events_listScan :
    e ∈ (listScan vol img mk (rounds + 1) pos).events ↔
      u32 (pos.1 * vol.blkSz) < img.size ∧
        (e ∈ sizeReads pos.2 ++ nodeReads (img.blk pos.1) pos.2 ∨
          e ∈ (listScan vol img mk rounds (nextPos vol img pos)).events) := by
  rw [listScan]
  split_ifs with hcond
  · simp only [hcond, true_and, Traced.bind_some, Traced.pure_eq, mem_append (s := _ ++ _)]
    refine or_congr_right ?_
    rw [Traced.mem_events_bind]
    simp
  · simp [hcond]

theorem mem_events_findScan (he : e ∈ (findScan vol img name mk (rounds + 1) pos).events) :
    u32 (pos.1 * vol.blkSz) < img.size ∧
      (e ∈ sizeReads pos.2 ++ matchReads (img.blk pos.1) pos.2 name ∨
        e ∈ nodeReads (img.blk pos.1) pos.2 ∨
        e ∈ (findScan vol img name mk rounds (nextPos vol img pos)).events) := by
  rw [findScan] at he
  split_ifs at he with hcond
  · refine ⟨hcond, ?_⟩
    rw [Traced.bind_some] at he
    refine (mem_append.mp he).imp_right fun he => ?_
    split_ifs at he
    · exact Or.inl he
    · exact Or.inr he
  · cases he

/-! ## Entries inside their block -/

def EntInside (blkSz : ℕ) (buf : Mem) (o : ℕ) : Prop :=
  o + 8 + (strncpyReads buf (o + 8) (entNameLen buf o)).length ≤ blkSz

instance (blkSz : ℕ) (buf : Mem) (o : ℕ) : Decidable (EntInside blkSz buf o) :=
  inferInstanceAs (Decidable (_ ≤ _))

/-- Entries that are not empty follow one another to the end of the block or past it. -/
inductive Scans (blkSz : ℕ) (buf : Mem) : ℕ → Prop where
  | done {o : ℕ} (hend : blkSz ≤ o) : Scans blkSz buf o
  | ent {o : ℕ} (hinside : EntInside blkSz buf o) (hsize : 0 < entSize buf o)
      (hrest : Scans blkSz buf (o + entSize buf o)) : Scans blkSz buf o

theorem mem_strncpyReads :
    e ∈ strncpyReads buf a n ↔ a ≤ e ∧ e < a + (strncpyReads buf a n).length := by
  induction n generalizing a with
  | zero => exact iff_of_false not_mem_nil fun h => absurd h.2 (Nat.not_lt.mpr h.1)
  | succ n ih =>
    rw [strncpyReads]
    by_cases hzero : buf a = 0
    · simp only [if_pos hzero, mem_singleton, length_singleton]
      omega
    · simp only [if_neg hzero, mem_cons, length_cons, ih]
      omega

theorem strncmpReads_subset (hname : 0 ∉ name) :
    strncmpReads buf a name ⊆ strncpyReads buf a name.length := by
  induction name generalizing a with
  | nil => exact nil_subset _
  | cons b name ih =>
    rw [mem_cons, not_or] at hname
    rw [strncmpReads, length_cons, strncpyReads]
    by_cases hb : buf a = b
    · -- the byte is not zero, and `strncpy` goes on too
      rw [if_neg (not_not.mpr hb), if_neg (by rw [hb]; exact Ne.symm hname.1)]
      exact cons_subset_cons a (ih hname.2)
    · rw [if_pos hb]
      exact cons_subset_cons a (nil_subset _)

theorem entInside_iff {blkSz : ℕ} :
    EntInside blkSz buf o ↔ ∀ e ∈ sizeReads o ++ nodeReads buf o, e < blkSz := by
  simp only [EntInside, sizeReads, nodeReads, mem_append, mem_cons, not_mem_nil,
    or_false, mem_strncpyReads]
  generalize (strncpyReads buf (o + 8) (entNameLen buf o)).length = len
  constructor
  · intro h e he
    omega
  · intro h
    have htype := h (o + 7)
    have hlast := h (o + 8 + (len - 1))
    omega

theorem EntInside.matchReads {blkSz : ℕ} (h : EntInside blkSz buf o) (hname : 0 ∉ name)
    (he : e ∈ sizeReads o ++ matchReads buf o name) : e < blkSz := by
  have hall := entInside_iff.mp h
  rcases mem_append.mp he with he | he
  · exact hall e (mem_append_left _ he)
  rcases mem_cons.mp he with rfl | he
  · exact hall _ (by simp [nodeReads])
  split_ifs at he with hlen
  · have hcopied := strncmpReads_subset hname he
    rw [hlen] at hcopied
    exact hall e (by simp [nodeReads, hcopied])
  · cases he

/-! ## From entries to scans -/

/-- In a block the scans go along its entries, and then on to the next block. -/
theorem Scans.walk {rest : List (ℕ × ℕ)} (h : Scans vol.blkSz (img.blk i) o)
    (ho : o < vol.blkSz) (hvol : vol.Sized) (hi : i + 1 < 2 ^ 32)
    (hcond : u32 (i * vol.blkSz) < img.size) (hrest : Walk vol img (i + 1, 0) rest stop)
    (hinside : ∀ p ∈ rest, EntInside vol.blkSz (img.blk p.1) p.2) :
    ∃ ps, Walk vol img (i, o) ps stop ∧ ∀ p ∈ ps, EntInside vol.blkSz (img.blk p.1) p.2 := by
  induction h with
  | done hend => exact absurd ho (Nat.not_lt.mpr hend)
  | @ent o hent hsize _ ih =>
    obtain ⟨ps, hwalk, hps⟩ : ∃ ps, Walk vol img (nextPos vol img (i, o)) ps stop ∧
        ∀ p ∈ ps, EntInside vol.blkSz (img.blk p.1) p.2 := by
      rw [nextPos_eq hvol ho hi]
      split_ifs with hfull
      · exact ⟨rest, hrest, hinside⟩
      · exact ih (Nat.lt_of_not_le hfull)
    exact ⟨(i, o) :: ps, Walk.step hcond hwalk, forall_mem_cons.mpr ⟨hent, hps⟩⟩

def EndsInside {β : Type} (blkSz : ℕ) (scan : Traced ℕ β) : Prop :=
  scan.result.isSome ∧ ∀ e ∈ scan.events, e < blkSz

theorem Walk.listScan (hw : Walk vol img pos ps stop)
    (hinside : ∀ p ∈ ps, EntInside vol.blkSz (img.blk p.1) p.2) :
    EndsInside vol.blkSz (listScan vol img mk (ps.length + 1) pos) := by
  refine ⟨?_, ?_⟩
  · rw [result_listScan, hw.listLoop (Nat.lt_succ_self _)]
    rfl
  induction hw with
  | stop hend =>
    intro e he
    exact absurd (mem_events_listScan.mp he).1 hend
  | step hcond hrest ih =>
    obtain ⟨hent, hinside⟩ := forall_mem_cons.mp hinside
    intro e he
    rcases (mem_events_listScan.mp he).2 with he | he
    · exact entInside_iff.mp hent e he
    · exact ih hinside e he

theorem Walk.findScan (hw : Walk vol img pos ps stop) (hname : 0 ∉ name)
    (hinside : ∀ p ∈ ps, EntInside vol.blkSz (img.blk p.1) p.2) :
    EndsInside vol.blkSz (findScan vol img name mk (ps.length + 1) pos) := by
  refine ⟨?_, ?_⟩
  · rw [result_findScan, hw.findLoop (Nat.lt_succ_self _)]
    rfl
  induction hw with
  | stop hend =>
    intro e he
    exact absurd (mem_events_findScan he).1 hend
  | step hcond hrest ih =>
    obtain ⟨hent, hinside⟩ := forall_mem_cons.mp hinside
    intro e he
    rcases (mem_events_findScan he).2 with he | he | he
    · exact hent.matchReads hname he
    · exact entInside_iff.mp hent e (mem_append_right _ he)
    · exact ih hinside e he

/-! ## From scans to entries -/

theorem EndsInside.next (h : EndsInside vol.blkSz (listScan vol img mk rounds pos))
    (hcond : u32 (pos.1 * vol.blkSz) < img.size) :
    ∃ rounds', rounds = rounds' + 1 ∧ EntInside vol.blkSz (img.blk pos.1) pos.2 ∧
      EndsInside vol.blkSz (listScan vol img mk rounds' (nextPos vol img pos)) := by
  obtain ⟨hresult, hinside⟩ := h
  cases rounds with
  | zero => cases hresult
  | succ rounds =>
    refine ⟨rounds, rfl, entInside_iff.mpr fun e he => ?_, ?_, fun e he => ?_⟩
    · exact hinside e (mem_events_listScan.mpr ⟨hcond, Or.inl he⟩)
    · rw [result_listScan, listLoop, if_pos hcond, Option.isSome_map] at hresult
      rwa [result_listScan]
    · exact hinside e (mem_events_listScan.mpr ⟨hcond, Or.inr he⟩)

end KernelOld.Ext2
