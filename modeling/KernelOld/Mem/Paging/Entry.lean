import Mathlib.Data.Nat.Notation
import KernelOld.Lib.MachineWord

/-!
# Entries of the paging structures

The flags, the frame field and the index macros of `mem/paging.h`, with
`set_page_frame` of `mem/paging.c`. An entry is a 64-bit word; the lemmas say which
of its bits each update changes.
-/

namespace KernelOld.Paging
open MachineWord

/-- `page_t`, `pd_entry_t`, `pdp_entry_t` and `pml4_entry_t`. -/
abbrev Entry := BitVec 64

def pagePresent : Entry := 1
def pageWritable : Entry := 2
def pageUser : Entry := 4

def pd2M : Entry := 0x80

def pageFrame : Entry := 0xffffffffff000

def setPageFrame (page addr : Entry) : Entry := (page &&& ~~~pageFrame) ||| (addr &&& pageFrame)

def pml4Idx (vadr : ℕ) : ℕ := (vadr >>> 39) &&& 0x1ff
def pdpIdx (vadr : ℕ) : ℕ := (vadr >>> 30) &&& 0x1ff
def pdIdx (vadr : ℕ) : ℕ := (vadr >>> 21) &&& 0x1ff
def ptIdx (vadr : ℕ) : ℕ := (vadr >>> 12) &&& 0x1ff

def present (e : Entry) : Bool := e &&& pagePresent != 0

def large (e : Entry) : Bool := e &&& pd2M != 0

theorem and_twoPow_bne {i : ℕ} (e : Entry) (hi : i < 64) :
    (e &&& BitVec.twoPow 64 i != 0) = e.getLsbD i := by
  have hpos : (BitVec.twoPow 64 i).toNat ≠ 0 := by
    rw [BitVec.toNat_twoPow_of_lt hi]
    exact Nat.ne_of_gt (Nat.two_pow_pos i)
  have hne : BitVec.twoPow 64 i ≠ 0#64 := fun hzero => hpos (by rw [hzero]; rfl)
  rw [BitVec.and_twoPow]
  cases e.getLsbD i <;> simp [hne]

theorem present_eq (e : Entry) : present e = e.getLsbD 0 := by
  have hmask : pagePresent = BitVec.twoPow 64 0 := by decide
  rw [present, hmask, and_twoPow_bne e (by decide)]

theorem large_eq (e : Entry) : large e = e.getLsbD 7 := by
  have hmask : pd2M = BitVec.twoPow 64 7 := by decide
  rw [large, hmask, and_twoPow_bne e (by decide)]

theorem getLsbD_pageFrame (i : ℕ) : pageFrame.getLsbD i = decide (12 ≤ i ∧ i < 52) := by
  by_cases hi : i < 64
  · have hall : ∀ j : Fin 64, pageFrame.getLsbD j = decide (12 ≤ (j : ℕ) ∧ (j : ℕ) < 52) := by
      decide
    exact hall ⟨i, hi⟩
  · have hout : ¬(12 ≤ i ∧ i < 52) := by omega
    rw [BitVec.getLsbD_of_ge _ _ (by omega), decide_eq_false hout]

theorem getLsbD_setPageFrame (page addr : Entry) (i : ℕ) :
    (setPageFrame page addr).getLsbD i =
      if 12 ≤ i ∧ i < 52 then addr.getLsbD i else page.getLsbD i := by
  rw [setPageFrame, BitVec.getLsbD_or, BitVec.getLsbD_and, BitVec.getLsbD_and,
    BitVec.getLsbD_not, getLsbD_pageFrame]
  by_cases hi : 12 ≤ i ∧ i < 52
  · simp [hi]
  · by_cases hlt : i < 64
    · simp [hi, hlt]
    · simp [hi, hlt, BitVec.getLsbD_of_ge page i (by omega)]

theorem and_0x1ff (n : ℕ) : n &&& 0x1ff = n % 512 := Nat.and_two_pow_sub_one_eq_mod n 9

theorem pml4Idx_eq (v : ℕ) : pml4Idx v = v / 2 ^ 39 % 512 := by
  rw [pml4Idx, and_0x1ff, Nat.shiftRight_eq_div_pow]

theorem pdpIdx_eq (v : ℕ) : pdpIdx v = v / 2 ^ 30 % 512 := by
  rw [pdpIdx, and_0x1ff, Nat.shiftRight_eq_div_pow]

theorem pdIdx_eq (v : ℕ) : pdIdx v = v / 2 ^ 21 % 512 := by
  rw [pdIdx, and_0x1ff, Nat.shiftRight_eq_div_pow]

theorem ptIdx_eq (v : ℕ) : ptIdx v = v / 2 ^ 12 % 512 := by
  rw [ptIdx, and_0x1ff, Nat.shiftRight_eq_div_pow]

end KernelOld.Paging
