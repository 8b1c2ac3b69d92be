import KernelOld.Lib.BitArray

/-!
# Bits of a byte, most significant first

A bit array packed into bytes reads and writes single bits through masks
`0b10000000 >> k`.
-/

namespace ByteBits

def mask (k : ℕ) : UInt8 := 0b10000000 >>> k.toUInt8

def bit (b : UInt8) (k : ℕ) : Bool := b &&& mask k != 0

variable {k j : ℕ}

theorem mask_eq (hk : k < 8) : mask k = BitArray.mask (7 - k) := by
  interval_cases k <;> rfl

theorem bit_eq (b : UInt8) (hk : k < 8) : bit b k = BitArray.bit b (7 - k) := by
  rw [bit, mask_eq hk, BitArray.bit]

theorem bit_clear (b : UInt8) (hk : k < 8) (hj : j < 8) :
    bit (b &&& ~~~mask k) j = (decide (j ≠ k) && bit b j) := by
  have hlt : 7 - j < 8 := by omega
  rw [bit_eq _ hj, bit_eq _ hj, mask_eq hk, BitArray.bit_eq_getLsbD _ hlt,
    BitArray.bit_eq_getLsbD _ hlt, UInt8.toBitVec_and, UInt8.toBitVec_not,
    BitArray.mask_eq_twoPow (show 7 - k < 8 by omega)]
  by_cases h : k = j
  · subst h
    simp
  · have hne : 7 - k ≠ 7 - j := by omega
    simp [Ne.symm h, hne]
    omega

theorem bit_set (b : UInt8) (hk : k < 8) (hj : j < 8) :
    bit (b ||| mask k) j = (decide (j = k) || bit b j) := by
  have hiff : 7 - j = 7 - k ↔ j = k := by omega
  rw [bit_eq _ hj, bit_eq _ hj, mask_eq hk, BitArray.bit_or_mask _ (by omega) (by omega),
    decide_eq_decide.mpr hiff]

theorem bit_full (hk : k < 8) : bit 0xff k = true := by
  interval_cases k <;> rfl

end ByteBits
