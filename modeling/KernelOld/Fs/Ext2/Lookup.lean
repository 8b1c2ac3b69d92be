import Mathlib.Data.List.Find
import Mathlib.Data.List.TakeWhile
import KernelOld.Fs.Ext2.Dir

/-!
# Listing a directory and finding a name in it

`ext2_listdir` and `ext2_finddir` are two loops of their own. On a directory whose blocks are
tiled by entries they agree.
-/

namespace KernelOld.Ext2
open ByteMemory MachineWord Strings List

/-- The entries of block `i` are at the offsets `offs i`, one directly behind the other. -/
structure NamedDir (vol : Vol) (img : DirImage) (n : ℕ) (offs : ℕ → List ℕ) : Prop where
  size_eq : img.size = n * vol.blkSz
  tiling : ∀ i < n, Tiling vol.blkSz (img.blk i) 0 (offs i)
  nul_free : ∀ i < n, ∀ o ∈ offs i, 0 ∉ entName (img.blk i) o

variable {α : Type*} {vol : Vol} {s : State} {img : DirImage} {mk : Mem → ℕ → α} {name : Str}
  {buf : Mem} {n num o rounds : ℕ} {offs : ℕ → List ℕ} {pos stop : ℕ × ℕ} {ps : List (ℕ × ℕ)}

theorem length_entName (buf : Mem) (o : ℕ) : (entName buf o).length = entNameLen buf o := by
  rw [entName, length_map, length_range]

theorem name_matches_iff :
    (name.length = entNameLen buf o ∧ strncmp (entName buf o) name (entNameLen buf o) = 0) ↔
      entName buf o = name := by
  rw [← length_entName]
  constructor
  · rintro ⟨hlen, hcmp⟩
    exact (strncmp_eq_zero hlen.symm).mp hcmp
  · rintro rfl
    exact ⟨rfl, (strncmp_eq_zero rfl).mpr rfl⟩

theorem Walk.listLoop (hw : Walk vol img pos ps stop) (hrounds : ps.length < rounds) :
    listLoop vol img mk rounds pos = some (ps.map fun p => mk (img.blk p.1) p.2) := by
  induction hw generalizing rounds with
  | stop hend =>
    obtain ⟨rounds, rfl⟩ := Nat.exists_eq_succ_of_ne_zero (Nat.ne_of_gt hrounds)
    exact if_neg hend
  | step hcond hrest ih =>
    obtain ⟨rounds, rfl⟩ := Nat.exists_eq_succ_of_ne_zero (Nat.ne_zero_of_lt hrounds)
    rw [Ext2.listLoop, if_pos hcond, ih (Nat.lt_of_succ_lt_succ hrounds)]
    rfl

theorem Walk.findLoop (hw : Walk vol img pos ps stop) (hrounds : ps.length < rounds) :
    findLoop vol img name mk rounds pos =
      some ((ps.find? fun p => entName (img.blk p.1) p.2 = name).map
        fun p => mk (img.blk p.1) p.2) := by
  induction hw generalizing rounds with
  | stop hend =>
    obtain ⟨rounds, rfl⟩ := Nat.exists_eq_succ_of_ne_zero (Nat.ne_of_gt hrounds)
    exact if_neg hend
  | @step pos stop ps hcond hrest ih =>
    obtain ⟨rounds, rfl⟩ := Nat.exists_eq_succ_of_ne_zero (Nat.ne_zero_of_lt hrounds)
    rw [Ext2.findLoop, if_pos hcond, find?_cons]
    simp only [name_matches_iff]
    by_cases hname : entName (img.blk pos.1) pos.2 = name
    · rw [if_pos hname, decide_eq_true hname]
      rfl
    · rw [if_neg hname, decide_eq_false hname]
      exact ih (Nat.lt_of_succ_lt_succ hrounds)

/-! ## A directory of tiled blocks -/

def entPositions (n : ℕ) (offs : ℕ → List ℕ) : List (ℕ × ℕ) :=
  (List.range n).flatMap fun i => (offs i).map (Prod.mk i)

theorem NamedDir.walk (h : NamedDir vol (dirImage vol s num) n offs) (hvol : vol.Sized) :
    Walk vol (dirImage vol s num) (0, 0) (entPositions n offs) (n, 0) := by
  rw [entPositions, range_eq_range']
  exact walk_of_tilings hvol h.size_eq (load_lt _ _ _) h.tiling n 0 (Nat.zero_add n)

end KernelOld.Ext2
