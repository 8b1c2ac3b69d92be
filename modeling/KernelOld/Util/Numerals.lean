import KernelOld.Fs.Vfs.CanonBuffer
import Mathlib.Data.Nat.Digits.Lemmas

/-!
# Numbers as strings

`ultoa`, `itoa` and `strrev` of `util/stdlib.c`, with `abs` of `util/math.c`. The digits are stored
from the lowest one on, and then the string is reversed in place.
-/

namespace KernelOld.Numerals
open ByteMemory MachineWord Strings Strtok Vfs Function List

def digitChar (r : ℤ) : UInt8 := UInt8.ofNat (if 10 ≤ r then 65 + (r - 10) else 48 + r).toNat

/-- The loop of `itoa` and `ultoa`. An `unsigned long` is an integer that is not negative; on those
`%` and `/` of both types agree. -/
def putDigits (str : ℕ) (base : ℤ) : ℕ → Mem → ℕ → ℤ → Option (Mem × ℕ)
  | 0, _, _, _ => none
  | fuel + 1, m, i, n =>
    if n = 0 then some (m, i)
    else
      putDigits str base fuel (update m (str + i) (digitChar (n.tmod base))) (i + 1) (n.tdiv base)

def revLoop (str : ℕ) : ℕ → ℕ → Mem → Mem
  | 0, _, m => m
  | i + 1, j, m =>
    if j < i then
      revLoop str i (j + 1)
        (update (update m (str + i) (m (str + j))) (str + j) (m (str + i)))
    else m

def strrev (fuel : ℕ) (m : Mem) (str : ℕ) : Option Mem := do
  let last ← strlen m fuel str
  some (revLoop str (toInt32 (u32 (sub64 (last - str) 1)) + 1).toNat 0 m)

def orZero (str : ℕ) (r : Mem × ℕ) : Mem × ℕ :=
  if r.2 = 0 then (update r.1 (str + r.2) 48, r.2 + 1) else r

def ultoa (fuel : ℕ) (m : Mem) (n str : ℕ) (base : ℤ) : Option Mem :=
  if base < 2 ∨ 32 < base then some m
  else do
    let (m, i) ← (putDigits str base fuel m 0 n).map (orZero str)
    strrev fuel (update m (str + i) 0) str

/-- `abs`. The negative of the least `int` is that `int` again. -/
def abs (n : ℤ) : ℤ := if n < 0 then toInt32 (-n).toNat else n

def itoa (fuel : ℕ) (m : Mem) (value : ℤ) (str : ℕ) (base : ℤ) : Option Mem :=
  if base < 2 ∨ 32 < base then some m
  else do
    let (m, i) ← (putDigits str base fuel m 0 (abs value)).map (orZero str)
    let (m, i) := if value < 0 ∧ base = 10 then (update m (str + i) 45, i + 1) else (m, i)
    strrev fuel (update m (str + i) 0) str

variable {m : Mem} {str fuel base i j k n : ℕ} {σ : ℤ} {ds : Str}

/-! ## The reversal -/

theorem revLoop_of_notMem {x : ℕ} (h : x < str + j ∨ str + i ≤ x) :
    revLoop str i j m x = m x := by
  induction i generalizing j m with
  | zero => rfl
  | succ i ih =>
    rw [revLoop]
    split
    · rw [ih (by omega), update_of_ne (by omega), update_of_ne (by omega)]
    · rfl

theorem revLoop_apply (hlo : j ≤ k) (hhi : k < i) :
    revLoop str i j m (str + k) = m (str + (i + j - 1 - k)) := by
  induction i generalizing j m with
  | zero => cases hhi
  | succ i ih =>
    rw [revLoop]
    split
    · -- the two ends have been exchanged, the rest is left to the next rounds
      rcases Nat.lt_trichotomy j k with hj | rfl | hj
      · rcases Nat.lt_succ_iff_lt_or_eq.mp hhi with hk | rfl
        · rw [ih hj hk, update_of_ne (by omega), update_of_ne (by omega)]
          congr 2
          omega
        · rw [revLoop_of_notMem (by omega), update_of_ne (by omega), update_self]
          congr 2
          omega
      · rw [revLoop_of_notMem (by omega), update_self]
        congr 2
        omega
      · omega
    · congr 1
      omega

theorem cstr_putBytes (hnul : 0 ∉ ds) : CStr (putBytes m str (ds ++ [0])) str ds := by
  induction ds generalizing m str with
  | nil => exact update_self _ _ _
  | cons b ds ih =>
    rw [mem_cons, not_or] at hnul
    refine ⟨?_, Ne.symm hnul.1, ih hnul.2⟩
    rw [cons_append, putBytes, putBytes_of_notMem (by omega), update_self]

theorem strrev_putBytes (hnul : 0 ∉ ds) (hfuel : ds.length < fuel) (hlen : ds.length < 2 ^ 31) :
    strrev fuel (putBytes m str (ds ++ [0])) str = some (putBytes m str (ds.reverse ++ [0])) := by
  have hi : (toInt32 (u32 (sub64 ds.length 1)) + 1).toNat = ds.length := by
    rw [sub64, u64, u32, toInt32]
    split <;> omega
  rw [strrev, strlen_eq (cstr_putBytes hnul) hfuel]
  simp only [Option.bind_eq_bind, Option.bind_some, Nat.add_sub_cancel_left, hi, Option.some.injEq]
  funext x
  by_cases hout : x < str ∨ str + ds.length ≤ x
  · rw [revLoop_of_notMem hout, putBytes_append, putBytes_append, length_reverse]
    by_cases hend : x = str + ds.length
    · rw [hend, putBytes, putBytes, putBytes, putBytes, update_self, update_self]
    · rw [putBytes, putBytes, putBytes, putBytes, update_of_ne hend, update_of_ne hend,
        putBytes_of_notMem hout, putBytes_of_notMem (by rwa [length_reverse])]
  · obtain ⟨k, rfl⟩ := Nat.exists_eq_add_of_le (show str ≤ x by omega)
    have hk : k < ds.length := by omega
    rw [revLoop_apply (Nat.zero_le k) hk, putBytes_apply_add (by simp; omega),
      putBytes_apply_add (by simp; omega), getElem_append_left (by omega),
      getElem_append_left (by simpa using hk), getElem_reverse]
    rfl

theorem update_putBytes (m : Mem) (str : ℕ) (ds : Str) (c : UInt8) :
    update (putBytes m str ds) (str + ds.length) c = putBytes m str (ds ++ [c]) := by
  rw [putBytes_append]
  rfl

/-! ## The digits -/

def digitText (base : ℕ) (σ : ℤ) (k : ℕ) : Str :=
  if k = 0 then [48] else (Nat.digits base k).map fun d : ℕ => digitChar (σ * d)

theorem putDigits_eq (hbase : 1 < base) (hσ : σ = 1 ∨ σ = -1)
    (hfuel : (Nat.digits base k).length < fuel) :
    putDigits str base fuel m i (σ * k) =
      some (putBytes m (str + i) ((Nat.digits base k).map fun d : ℕ => digitChar (σ * d)),
        i + (Nat.digits base k).length) := by
  induction fuel generalizing m i k with
  | zero => cases hfuel
  | succ fuel ih =>
    rw [putDigits]
    rcases Nat.eq_zero_or_pos k with rfl | hk
    · simp [putBytes]
    · have hdiv : (σ * k).tdiv base = σ * (k / base : ℕ) := by
        rcases hσ with rfl | rfl <;> simp [Int.neg_tdiv]
      have hmod : (σ * k).tmod base = σ * (k % base : ℕ) := by
        rcases hσ with rfl | rfl <;> simp [Int.neg_tmod, Int.tmod_eq_emod_of_nonneg]
      have hne : σ * (k : ℤ) ≠ 0 := by
        rcases hσ with rfl | rfl <;> omega
      rw [Nat.digits_def' hbase hk] at hfuel ⊢
      rw [if_neg hne, hdiv, hmod, ih (Nat.lt_of_succ_lt_succ hfuel), map_cons, putBytes,
        length_cons, Nat.add_assoc i, Nat.add_comm 1, Nat.add_assoc str]

theorem orZero_putDigits (m : Mem) (str : ℕ) (hbase : 1 < base) (hσ : σ = 1 ∨ σ = -1)
    (hfuel : (digitText base σ k).length < fuel) :
    (putDigits str base fuel m 0 (σ * k)).map (orZero str) =
      some (putBytes m str (digitText base σ k), (digitText base σ k).length) := by
  by_cases hk : k = 0
  · have hone : 1 < fuel := by simpa [digitText, hk] using hfuel
    rw [putDigits_eq hbase hσ (by simp [hk]; omega), hk]
    simp [orZero, digitText, putBytes]
  · rw [digitText, if_neg hk, length_map] at hfuel ⊢
    rw [putDigits_eq hbase hσ hfuel, Option.map_some, orZero, if_neg]
    · rw [Nat.zero_add, Nat.add_zero]
    · rw [Nat.zero_add, length_eq_zero_iff]
      exact Nat.digits_ne_nil_iff_ne_zero.mpr hk

theorem digitChar_ne_zero (hσ : σ = 1 ∨ σ = -1) (hk : k < 32) : digitChar (σ * k) ≠ 0 := by
  have hall : ∀ d : ℕ, d < 32 → digitChar d ≠ 0 ∧ digitChar (-d) ≠ 0 := by decide
  rcases hσ with rfl | rfl
  · rw [Int.one_mul]
    exact (hall k hk).1
  · rw [Int.neg_one_mul]
    exact (hall k hk).2

theorem nul_notMem_digitText (hbase : 1 < base) (hhi : base ≤ 32) (hσ : σ = 1 ∨ σ = -1) :
    0 ∉ digitText base σ k := by
  rw [digitText]
  split
  · decide
  · intro hmem
    obtain ⟨d, hd, hzero⟩ := mem_map.mp hmem
    exact digitChar_ne_zero hσ ((Nat.digits_lt_base hbase hd).trans_le hhi) hzero

theorem ultoa_eq (hbase : 1 < base) (hhi : base ≤ 32) (hfuel : (digitText base 1 n).length < fuel)
    (hlen : (digitText base 1 n).length < 2 ^ 31) :
    ultoa fuel m n str base = some (putBytes m str ((digitText base 1 n).reverse ++ [0])) := by
  have hdigits := orZero_putDigits m str hbase (Or.inl rfl) hfuel
  rw [Int.one_mul] at hdigits
  rw [ultoa, if_neg (by omega), hdigits]
  simp only [Option.bind_eq_bind, Option.bind_some]
  rw [update_putBytes, strrev_putBytes (nul_notMem_digitText hbase hhi (Or.inl rfl)) hfuel hlen]

def absSign (value : ℤ) : ℤ := if value = -2 ^ 31 then -1 else 1

/-- What `itoa` stores in base 10. The digits of the least `int` are remainders of a negative
number. -/
def itoaText (value : ℤ) : Str :=
  (if value < 0 then [45] else []) ++ (digitText 10 (absSign value) value.natAbs).reverse

theorem abs_eq {value : ℤ} (hlo : -2 ^ 31 ≤ value) : abs value = absSign value * value.natAbs := by
  rw [abs, absSign, toInt32]
  split_ifs <;> omega

theorem absSign_cases (value : ℤ) : absSign value = 1 ∨ absSign value = -1 := by
  rw [absSign]
  split_ifs <;> decide

section
variable {value : ℤ} (hlo : -2 ^ 31 ≤ value) (hhi : value < 2 ^ 31)
include hlo hhi

theorem length_digitText_int : (digitText 10 (absSign value) value.natAbs).length ≤ 10 := by
  rw [digitText]
  split
  · decide
  · rw [length_map, Nat.digits_length_le_iff (by decide)]
    omega

theorem length_itoaText : (itoaText value).length ≤ 11 := by
  have hlen := length_digitText_int hlo hhi
  rw [itoaText, length_append, length_reverse]
  split_ifs <;> simp <;> omega

theorem itoa_eq (hfuel : 11 < fuel) :
    itoa fuel m value str 10 = some (putBytes m str (itoaText value ++ [0])) := by
  have hlen := length_digitText_int hlo hhi
  have hnul : 0 ∉ digitText 10 (absSign value) value.natAbs :=
    nul_notMem_digitText (by decide) (by decide) (absSign_cases value)
  have hdigits : (putDigits str 10 fuel m 0 (absSign value * value.natAbs)).map (orZero str) = _ :=
    orZero_putDigits m str (show 1 < 10 by decide) (absSign_cases value)
      (hlen.trans_lt (by omega))
  rw [itoa, if_neg (by decide), abs_eq hlo, itoaText, hdigits]
  generalize digitText 10 (absSign value) value.natAbs = ds at hlen hnul
  simp only [Option.bind_eq_bind, Option.bind_some, and_true]
  split
  · -- the sign is one more character to reverse
    have hsigned : 0 ∉ ds ++ [45] := by simp [hnul]
    have hlen' : (ds ++ [45]).length = ds.length + 1 := length_append
    rw [update_putBytes, ← hlen', update_putBytes,
      strrev_putBytes hsigned (by omega) (by omega), reverse_append]
    rfl
  · rw [update_putBytes, strrev_putBytes hnul (by omega) (by omega)]
    rfl

end

theorem nul_notMem_itoaText (value : ℤ) : 0 ∉ itoaText value := by
  rw [itoaText, mem_append, mem_reverse, not_or]
  refine ⟨by split_ifs <;> decide, ?_⟩
  exact nul_notMem_digitText (by decide) (by decide) (absSign_cases value)

/-! ## Numerals -/

def digitValue (c : UInt8) : Option ℕ :=
  if 48 ≤ c ∧ c ≤ 57 then some (c.toNat - 48)
  else if 65 ≤ c ∧ c ≤ 86 then some (c.toNat - 55)
  else none

/-- The digits of `n` in the base, without leading zeros. -/
structure Numeral (base : ℕ) (str : Str) (n : ℕ) : Prop where
  digits : ∀ c ∈ str, ∃ d < base, digitValue c = some d
  ne_nil : str ≠ []
  leading : str.head? = some 48 → str = [48]
  value : str.foldl (fun v c => v * base + (digitValue c).getD 0) 0 = n

theorem digitValue_digitChar (hk : k < 32) :
    digitValue (digitChar k) = some k ∧ (digitChar k = 48 → k = 0) := by
  have hall : ∀ d : ℕ, d < 32 →
      digitValue (digitChar d) = some d ∧ (digitChar d = 48 → d = 0) := by
    decide
  exact hall k hk

theorem numeral_digitText (hbase : 1 < base) (hhi : base ≤ 32) (n : ℕ) :
    Numeral base (digitText base 1 n).reverse n := by
  rw [digitText]
  split
  · rename_i hn
    subst hn
    refine ⟨fun c hc => ⟨0, by omega, ?_⟩, by decide, fun _ => rfl, by simp [digitValue]⟩
    rw [mem_singleton.mp hc]
    rfl
  · rename_i hn
    simp only [Int.one_mul]
    have hdigit {d : ℕ} (hd : d ∈ Nat.digits base n) := digitValue_digitChar
      ((Nat.digits_lt_base hbase hd).trans_le hhi)
    have hne : Nat.digits base n ≠ [] := Nat.digits_ne_nil_iff_ne_zero.mpr hn
    refine ⟨fun c hc => ?_, by simpa using hne, fun hhead => ?_, ?_⟩
    · obtain ⟨d, hd, rfl⟩ := mem_map.mp (mem_reverse.mp hc)
      exact ⟨d, Nat.digits_lt_base hbase hd, (hdigit hd).1⟩
    · -- the last digit that was stored is not zero
      rw [head?_reverse, getLast?_map, getLast?_eq_some_getLast hne,
        Option.map_some, Option.some.injEq] at hhead
      exact absurd ((hdigit (getLast_mem hne)).2 hhead) (Nat.getLast_digit_ne_zero base hn)
    · rw [foldl_reverse, foldr_map]
      calc (Nat.digits base n).foldr
            (fun (d v : ℕ) => v * base + (digitValue (digitChar d)).getD 0) 0
        _ = (Nat.digits base n).foldr (fun d v => d + base * v) 0 := by
          refine foldr_ext _ _ _ fun d hd v => ?_
          rw [(hdigit hd).1, Option.getD_some, Nat.mul_comm, Nat.add_comm]
        _ = n := by
          have hvalue := Nat.ofDigits_digits base n
          rwa [Nat.ofDigits_eq_foldr] at hvalue

theorem length_digitText_le (hbase : 1 < base) (hn : n < 2 ^ 64) :
    (digitText base σ n).length ≤ 64 := by
  rw [digitText]
  split
  · decide
  · rw [length_map, Nat.digits_length_le_iff hbase]
    exact hn.trans_le (Nat.pow_le_pow_left hbase 64)

/-- `ultoa` stores the numeral of every 64-bit number in every base from 2 to 32. -/
theorem ultoa_stores_numeral (m : Mem) (str : ℕ) (hn : n < 2 ^ 64) (hlo : 2 ≤ base)
    (hhi : base ≤ 32) (hfuel : 64 < fuel) :
    ∃ m' digits, ultoa fuel m n str base = some m' ∧ CStr m' str digits ∧
      digits.length ≤ 64 ∧ Numeral base digits n ∧
      ∀ x, x < str ∨ str + digits.length < x → m' x = m x := by
  have hlen : (digitText base 1 n).length ≤ 64 := length_digitText_le hlo hn
  refine ⟨_, _, ultoa_eq hlo hhi (by omega) (by omega), cstr_putBytes ?_, ?_,
    numeral_digitText hlo hhi n, fun x hx => putBytes_of_notMem ?_⟩
  · rw [mem_reverse]
    exact nul_notMem_digitText hlo hhi (Or.inl rfl)
  · rwa [length_reverse]
  · rw [length_append, length_singleton]
    omega

theorem ultoa_stores_numeral_hex : ∃ m' digits,
    ultoa 65 (fun _ => 0) 0xffff800000000000 4096 (16 : ℕ) = some m' ∧ CStr m' 4096 digits ∧
      Numeral 16 digits 0xffff800000000000 := by
  obtain ⟨m', digits, hultoa, hstr, -, hnumeral, -⟩ := ultoa_stores_numeral (fun _ => 0) 4096
    (show 0xffff800000000000 < 2 ^ 64 by decide) (show 2 ≤ 16 by decide) (by decide)
    (show 64 < 65 by decide)
  exact ⟨m', digits, hultoa, hstr, hnumeral⟩

/-! ## Signed numbers -/

/-- A decimal numeral, with a minus sign if the value is negative. -/
def Decimal (text : Str) (value : ℤ) : Prop :=
  ∃ digits n, Numeral 10 digits n ∧
    (text = digits ∧ value = n ∨ text = 45 :: digits ∧ value = -n)

theorem decimal_itoaText {value : ℤ} (hne : value ≠ -2 ^ 31) : Decimal (itoaText value) value := by
  refine ⟨_, _, numeral_digitText (show 1 < 10 by decide) (by decide) value.natAbs, ?_⟩
  rw [itoaText, absSign, if_neg hne]
  by_cases hneg : value < 0
  · rw [if_pos hneg]
    exact Or.inr ⟨rfl, by omega⟩
  · rw [if_neg hneg]
    exact Or.inl ⟨rfl, by omega⟩

-- `-./,),(-*,(`: `abs` has left the value negative, and so are the remainders.
theorem itoaText_least :
    itoaText (-2 ^ 31) = [45, 46, 47, 44, 41, 44, 40, 45, 42, 44, 40] := by
  decide +kernel

theorem not_decimal_itoaText : ¬Decimal (itoaText (-2 ^ 31)) (-2 ^ 31) := by
  rintro ⟨digits, n, hnumeral, ⟨heq, hvalue⟩ | ⟨heq, -⟩⟩
  · omega
  · rw [itoaText_least, List.cons.injEq] at heq
    -- The character behind the sign is `.`.
    obtain ⟨d, -, hd⟩ := hnumeral.digits 46 (by rw [← heq.2]; exact mem_cons_self)
    cases hd

/-- `itoa` stores a decimal numeral for every `int` but the least one. -/
theorem itoa_stores_decimal_iff (m : Mem) (str : ℕ) {value : ℤ} (hlo : -2 ^ 31 ≤ value)
    (hhi : value < 2 ^ 31) (hfuel : 11 < fuel) :
    (∃ m' text, itoa fuel m value str 10 = some m' ∧ CStr m' str text ∧ Decimal text value) ↔
      value ≠ -2 ^ 31 := by
  have hitoa : itoa fuel m value str 10 = some (putBytes m str (itoaText value ++ [0])) :=
    itoa_eq hlo hhi hfuel
  have hstr : CStr (putBytes m str (itoaText value ++ [0])) str (itoaText value) :=
    cstr_putBytes (nul_notMem_itoaText value)
  constructor
  · rintro ⟨m', text, hcall, htext, hdecimal⟩ rfl
    obtain rfl := Option.some.inj (hitoa.symm.trans hcall)
    rw [cstr_unique htext hstr] at hdecimal
    exact not_decimal_itoaText hdecimal
  · intro hne
    exact ⟨_, _, hitoa, hstr, decimal_itoaText hne⟩

theorem itoa_stores_decimal_least : ∃ m' text,
    itoa 12 (fun _ => 0) (-2147483647) 4096 10 = some m' ∧ CStr m' 4096 text ∧
      Decimal text (-2147483647) :=
  (itoa_stores_decimal_iff (fun _ => 0) 4096 (show -2 ^ 31 ≤ -2147483647 by decide) (by decide)
    (show 11 < 12 by decide)).mpr (by decide)

/-- The digits of the least `int` are stored as characters in front of `0`. -/
theorem itoa_garbles_least : ∃ m' text,
    itoa 12 (fun _ => 0) (-2147483648) 4096 10 = some m' ∧ CStr m' 4096 text ∧
      text = [45, 46, 47, 44, 41, 44, 40, 45, 42, 44, 40] ∧ ¬Decimal text (-2147483648) :=
  ⟨_, itoaText (-2 ^ 31), itoa_eq (by decide) (by decide) (by decide),
    cstr_putBytes (nul_notMem_itoaText _), itoaText_least, not_decimal_itoaText⟩

end KernelOld.Numerals
