import KernelOld.Fs.Ext2.Volume
import KernelOld.Fs.Vfs.CanonBuffer
import KernelOld.Lib.Trace

/-!
# GPT partitions

`gpt_getpart` of `drivers/storage/partmgr/gpt.c`. The comparison of two names never counts, so it
goes on in memory until two units differ, and then says so with the value that its caller takes
for a match. With no entries the function ends without a `return`.
-/

namespace KernelOld.Gpt
open ByteMemory MachineWord Trace
open Vfs (strlen)

/-! ## The model -/

/-- `unicode_strncmp`, for at most `fuel` rounds. `i` stays what it is. -/
def unicodeStrncmp (m : Mem) (n i : ℕ) : ℕ → ℕ → ℕ → Option Bool
  | 0, _, _ => none
  | fuel + 1, s1, s2 =>
    if i < n then
      if load m s1 2 ≠ load m s2 2 then some true else unicodeStrncmp m n i fuel (s1 + 2) (s2 + 2)
    else some false

inductive Event
  | read (lba : ℕ)
  | entry (i : ℕ)

/-- A node for these sectors, `NULL`, or what is in the register without a `return`. -/
inductive Ret
  | node (startlba endlba : ℕ)
  | null
  | indeterminate
  deriving DecidableEq

/-- Where the two blocks and the name are in memory. -/
structure Places where
  hdr : ℕ
  ents : ℕ
  name : ℕ

def readHdr (disk mem : Mem) (p : Places) : Mem := blit mem p.hdr disk 512 512

def entlba (m : Mem) (p : Places) : ℕ := load m (p.hdr + 72) 8
def nrentries (m : Mem) (p : Places) : ℕ := load m (p.hdr + 80) 4

def readEnts (disk m : Mem) (p : Places) : Mem := blit m p.ents disk (512 * entlba m p) 512

def searchLoop (m : Mem) (p : Places) (fuel : ℕ) : ℕ → ℕ → Traced Event Ret
  | 0, _ => .lift none
  | rounds + 1, i =>
    if i < nrentries m p then do
      .emit (.entry i)
      let ent := p.ents + 128 * i
      if ← .lift (unicodeStrncmp m 36 0 fuel p.name (ent + 56)) then
        -- `strcpy(part->name, name)` goes on to a byte that is 0
        let _ ← .lift (strlen m fuel p.name)
        pure (.node (load m (ent + 32) 8) (load m (ent + 40) 8))
      else searchLoop m p fuel rounds (u32 (i + 1))
    else pure .indeterminate

def gptGetpart (disk mem : Mem) (p : Places) (fuel : ℕ) : Traced Event Ret := do
  .emit (.read 1)
  let m := readHdr disk mem p
  .emit (.read (entlba m p))
  searchLoop (readEnts disk m p) p fuel fuel 0

/-! ## What a lookup is to find -/

def tableLba (disk : Mem) : ℕ := load disk (512 + 72) 8
def tableLength (disk : Mem) : ℕ := load disk (512 + 80) 4

/-- Where entry `i` of the table is: in sector `entlba + i / 4`. -/
def tableEntry (disk : Mem) (i : ℕ) : ℕ := 512 * (tableLba disk + i / 4) + 128 * (i % 4)

def startOf (disk : Mem) (i : ℕ) : ℕ := load disk (tableEntry disk i + 32) 8
def endOf (disk : Mem) (i : ℕ) : ℕ := load disk (tableEntry disk i + 40) 8

def Matches (disk mem : Mem) (name i : ℕ) : Prop :=
  ∀ k < 36, load mem (name + 2 * k) 2 = load disk (tableEntry disk i + 56 + 2 * k) 2

/-- Entry `j` is the first of the table with the name. -/
structure FirstMatch (disk mem : Mem) (name j : ℕ) : Prop where
  lt : j < tableLength disk
  found : Matches disk mem name j
  first : ∀ i < j, ¬Matches disk mem name i

def Ret.Right (disk mem : Mem) (name : ℕ) : Ret → Prop
  | .node startlba endlba => ∃ j, FirstMatch disk mem name j ∧ startlba = startOf disk j ∧
      endlba = endOf disk j
  | .null => ∀ i < tableLength disk, ¬Matches disk mem name i
  | .indeterminate => False

/-- The lookup ends, returns the right thing, and has read the sector of each entry that it has
looked at. -/
def Finds (disk mem : Mem) (p : Places) : Prop :=
  ∃ fuel ret, (gptGetpart disk mem p fuel).result = some ret ∧ ret.Right disk mem p.name ∧
    ∀ i, .entry i ∈ (gptGetpart disk mem p fuel).events →
      .read (tableLba disk + i / 4) ∈ (gptGetpart disk mem p fuel).events

/-- The two blocks that are allocated and the name do not overlap. -/
structure Places.Separate (p : Places) : Prop where
  blocks : Apart p.hdr 512 p.ents 512
  hdr : Apart p.hdr 512 p.name 72
  ents : Apart p.ents 512 p.name 72

variable {disk mem m : Mem} {p : Places} {fuel rounds n i j k s1 s2 a : ℕ} {ret : Ret} {c : Bool}

def places : Places := ⟨4096, 8192, 16384⟩

def named (char : ℕ) : Mem := store Ext2.newBuf 16384 2 char

end KernelOld.Gpt
