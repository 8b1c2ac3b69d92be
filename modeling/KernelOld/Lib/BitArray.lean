import Mathlib.Data.Nat.Notation
import Mathlib.Logic.Function.Basic
import Mathlib.Tactic.IntervalCases

/-!
# Packed bit arrays, least significant bit first

Bit `n` of an array of bytes is bit `n % 8` of byte `n / 8`. `findClear` looks for the
lowest clear bit the way allocators do: byte by byte, full bytes first passed over.
-/

namespace BitArray

def mask (k : ℕ) : UInt8 := 1 <<< k.toUInt8

def bit (b : UInt8) (k : ℕ) : Bool := b &&& mask k != 0

def bitAt (buf : ℕ → UInt8) (n : ℕ) : Bool := bit (buf (n / 8)) (n % 8)

def setAt (buf : ℕ → UInt8) (n : ℕ) : ℕ → UInt8 :=
  Function.update buf (n / 8) (buf (n / 8) ||| mask (n % 8))

variable {buf buf' : ℕ → UInt8} {b : UInt8} {k j left m n : ℕ}

theorem mask_eq_twoPow (hk : k < 8) : (mask k).toBitVec = BitVec.twoPow 8 k := by
  interval_cases k <;> rfl

theorem bit_eq_getLsbD (b : UInt8) (hk : k < 8) : bit b k = b.toBitVec.getLsbD k := by
  have hand : (b &&& mask k).toBitVec =
      if b.toBitVec.getLsbD k then BitVec.twoPow 8 k else 0#8 := by
    rw [UInt8.toBitVec_and, mask_eq_twoPow hk, BitVec.and_twoPow]
  have hne : BitVec.twoPow 8 k ≠ 0#8 := by
    interval_cases k <;> decide
  have hzero : b &&& mask k = 0 ↔ (b &&& mask k).toBitVec = 0#8 := UInt8.toBitVec_inj.symm
  rw [bit, bne, Bool.not_eq_eq_eq_not, Bool.eq_iff_iff, beq_iff_eq, hzero, hand]
  cases b.toBitVec.getLsbD k <;> simp [hne]

theorem bit_or_mask (b : UInt8) (hk : k < 8) (hj : j < 8) :
    bit (b ||| mask k) j = (decide (j = k) || bit b j) := by
  rw [bit_eq_getLsbD _ hj, bit_eq_getLsbD _ hj, UInt8.toBitVec_or, mask_eq_twoPow hk]
  by_cases h : k = j
  · subst h
    simp
    omega
  · simp [h, Ne.symm h]

/-- Setting a bit changes that bit and no other. -/
theorem bitAt_setAt (buf : ℕ → UInt8) (n m : ℕ) :
    bitAt (setAt buf n) m = (decide (m = n) || bitAt buf m) := by
  have hn : n % 8 < 8 := Nat.mod_lt n (by decide)
  have hm : m % 8 < 8 := Nat.mod_lt m (by decide)
  rw [bitAt, setAt]
  by_cases hbyte : m / 8 = n / 8
  · have hiff : m % 8 = n % 8 ↔ m = n := by omega
    rw [hbyte, Function.update_self, bit_or_mask _ hn hm, decide_eq_decide.mpr hiff, bitAt, hbyte]
  · have hne : m ≠ n := fun h => hbyte (by rw [h])
    rw [Function.update_of_ne hbyte, decide_eq_false hne, Bool.false_or, bitAt]

theorem bitAt_congr (h : buf' (n / 8) = buf (n / 8)) : bitAt buf' n = bitAt buf n := by
  rw [bitAt, h, bitAt]

/-! ## The first index with a result -/

variable {α : Type*} {f : ℕ → Option α} {a : α} {i : ℕ}

/-- The first index from `i` on, with `left` indices to go, at which `f` has a result. -/
def firstSome (f : ℕ → Option α) : ℕ → ℕ → Option (ℕ × α)
  | 0, _ => none
  | left + 1, i =>
    match f i with
    | some a => some (i, a)
    | none => firstSome f left (i + 1)

theorem firstSome_some (h : firstSome f left i = some (n, a)) :
    i ≤ n ∧ n < i + left ∧ f n = some a ∧ ∀ m, i ≤ m → m < n → f m = none := by
  induction left generalizing i with
  | zero => simp [firstSome] at h
  | succ left ih =>
    rw [firstSome] at h
    cases hi : f i with
    | some x =>
      rw [hi] at h
      obtain ⟨rfl, rfl⟩ := Prod.mk.inj (Option.some.inj h)
      exact ⟨Nat.le_refl i, by omega, hi, fun m hlo hhi => by omega⟩
    | none =>
      rw [hi] at h
      obtain ⟨hlo, hhi, hn, hbefore⟩ := ih h
      refine ⟨by omega, by omega, hn, fun m hm hmn => ?_⟩
      by_cases hmi : m = i
      · rw [hmi, hi]
      · exact hbefore m (by omega) hmn

theorem firstSome_none (h : firstSome f left i = none) (hlo : i ≤ m) (hhi : m < i + left) :
    f m = none := by
  induction left generalizing i with
  | zero => omega
  | succ left ih =>
    rw [firstSome] at h
    cases hi : f i with
    | some x =>
      rw [hi] at h
      exact absurd h (Option.some_ne_none _)
    | none =>
      rw [hi] at h
      by_cases hmi : m = i
      · rw [hmi, hi]
      · exact ih h (by omega) (by omega)

/-! ## The search for a clear bit -/

def clearBit (b : UInt8) : ℕ → ℕ → Option ℕ
  | 0, _ => none
  | left + 1, k => if b &&& mask k = 0 then some k else clearBit b left (k + 1)

def findClear (buf : ℕ → UInt8) : ℕ → ℕ → Option ℕ
  | 0, _ => none
  | left + 1, j =>
    if buf j = 0xff then findClear buf left (j + 1)
    else
      match clearBit (buf j) 8 0 with
      | some k => some (j * 8 + k)
      | none => findClear buf left (j + 1)

def clearAt (b : UInt8) (k : ℕ) : Option Unit := if b &&& mask k = 0 then some () else none

theorem clearAt_eq_some : clearAt b k = some () ↔ bit b k = false := by
  simp [clearAt, bit]

theorem clearAt_eq_none : clearAt b k = none ↔ bit b k = true := by
  simp [clearAt, bit]

theorem clearBit_eq_firstSome (b : UInt8) (left k : ℕ) :
    clearBit b left k = (firstSome (clearAt b) left k).map Prod.fst := by
  induction left generalizing k with
  | zero => rfl
  | succ left ih =>
    rw [clearBit, firstSome]
    by_cases hk : b &&& mask k = 0
    · simp [clearAt, hk]
    · simp [clearAt, hk, ih]

theorem clearBit_some (h : clearBit b left k = some n) :
    k ≤ n ∧ n < k + left ∧ bit b n = false ∧ ∀ i, k ≤ i → i < n → bit b i = true := by
  rw [clearBit_eq_firstSome] at h
  obtain ⟨⟨_, _⟩, hfirst, rfl⟩ := Option.map_eq_some_iff.mp h
  obtain ⟨hlo, hhi, hclear, hset⟩ := firstSome_some hfirst
  exact ⟨hlo, hhi, clearAt_eq_some.mp hclear, fun i hi hin => clearAt_eq_none.mp (hset i hi hin)⟩

theorem clearBit_none (h : clearBit b left k = none) (hlo : k ≤ n) (hhi : n < k + left) :
    bit b n = true := by
  rw [clearBit_eq_firstSome, Option.map_eq_none_iff] at h
  exact clearAt_eq_none.mp (firstSome_none h hlo hhi)

/-- The test for a full byte changes nothing: such a byte has no clear bit. -/
theorem findClear_eq_firstSome (buf : ℕ → UInt8) (left j : ℕ) :
    findClear buf left j =
      (firstSome (fun j => clearBit (buf j) 8 0) left j).map fun p => p.1 * 8 + p.2 := by
  induction left generalizing j with
  | zero => rfl
  | succ left ih =>
    rw [findClear, firstSome, ih]
    by_cases hff : buf j = 0xff
    · have hfull : clearBit 0xff 8 0 = none := by decide
      rw [if_pos hff, hff, hfull]
    · rw [if_neg hff]
      cases clearBit (buf j) 8 0 with
      | none => rfl
      | some k => rfl

/-- A byte in which no clear bit is found. -/
private theorem byte_set (h : clearBit (buf (m / 8)) 8 0 = none) : bitAt buf m = true :=
  clearBit_none h (Nat.zero_le _) (by omega)

/-- The bit that is found is clear, and every bit before it is set. -/
theorem findClear_some (h : findClear buf left j = some n) :
    j * 8 ≤ n ∧ n < (j + left) * 8 ∧ bitAt buf n = false ∧
      ∀ m, j * 8 ≤ m → m < n → bitAt buf m = true := by
  rw [findClear_eq_firstSome] at h
  obtain ⟨⟨i, k⟩, hfirst, rfl⟩ := Option.map_eq_some_iff.mp h
  obtain ⟨hlo, hhi, hbyte, hbefore⟩ := firstSome_some hfirst
  obtain ⟨-, hk, hclear, hset⟩ := clearBit_some hbyte
  have hdiv : (i * 8 + k) / 8 = i := by omega
  have hmod : (i * 8 + k) % 8 = k := by omega
  refine ⟨by omega, by omega, by rw [bitAt, hdiv, hmod]; exact hclear, fun m hm hmn => ?_⟩
  by_cases hsame : m / 8 = i
  · rw [bitAt, hsame]
    exact hset _ (Nat.zero_le _) (by omega)
  · exact byte_set (hbefore (m / 8) (by omega) (by omega))

/-- If none is found, all bits are set. -/
theorem findClear_none (h : findClear buf left j = none) (hlo : j * 8 ≤ m)
    (hhi : m < (j + left) * 8) : bitAt buf m = true := by
  rw [findClear_eq_firstSome, Option.map_eq_none_iff] at h
  have hbyte := firstSome_none h (show j ≤ m / 8 by omega) (by omega)
  exact byte_set hbyte

end BitArray
