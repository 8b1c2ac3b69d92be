import Mathlib.Algebra.Ring.Nat
import Mathlib.Algebra.Ring.Int.Defs

/-!
# Fixed-width machine arithmetic on natural numbers

Unsigned machine words are natural numbers below `2 ^ w`; the operations reduce
modulo `2 ^ w` where the hardware does.
-/

namespace MachineWord

def u64 (x : ℕ) : ℕ := x % 2 ^ 64

def u32 (x : ℕ) : ℕ := x % 2 ^ 32

/-- Unsigned 64-bit subtraction, for operands that are words. -/
def sub64 (x y : ℕ) : ℕ := u64 (x + 2 ^ 64 - y)

/-- Unsigned 32-bit subtraction, for operands that are words. -/
def sub32 (x y : ℕ) : ℕ := u32 (x + 2 ^ 32 - y)

def toInt64 (x : ℕ) : ℤ := if x < 2 ^ 63 then x else (x : ℤ) - 2 ^ 64

def toInt32 (x : ℕ) : ℤ := if x < 2 ^ 31 then x else (x : ℤ) - 2 ^ 32

theorem u64_of_lt {x : ℕ} (h : x < 2 ^ 64) : u64 x = x := Nat.mod_eq_of_lt h

theorem u32_of_lt {x : ℕ} (h : x < 2 ^ 32) : u32 x = x := Nat.mod_eq_of_lt h

theorem sub64_of_le {x y : ℕ} (hx : x < 2 ^ 64) (h : y ≤ x) : sub64 x y = x - y := by
  rw [sub64, u64]
  omega

theorem u32_lt (x : ℕ) : u32 x < 2 ^ 32 := Nat.mod_lt x (by decide)

theorem sub32_of_le {x y : ℕ} (hx : x < 2 ^ 32) (h : y ≤ x) : sub32 x y = x - y := by
  rw [sub32, u32]
  omega

theorem toInt32_of_lt {x : ℕ} (h : x < 2 ^ 31) : toInt32 x = x := if_pos h

end MachineWord
