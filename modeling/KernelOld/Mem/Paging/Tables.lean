import KernelOld.Mem.Paging.Entry
import KernelOld.Util.Stdlib

/-!
# Paging structures in physical memory

A frame of physical memory seen as 512 entries. Frames lie at multiples of 4096, so
writing one of them, or all of its bytes, leaves the entries of every other frame
alone. `walk` is the four-level translation of the processor.
-/

namespace KernelOld.Paging
open ByteMemory Stdlib

variable {m : Mem} {p q j k : ℕ} {e : Entry}

def word (m : Mem) (p j : ℕ) : Entry := BitVec.ofNat 64 (load m (p + 8 * j) 8)

def setWord (m : Mem) (p j : ℕ) (e : Entry) : Mem := store m (p + 8 * j) 8 e.toNat

theorem word_setWord (m : Mem) (p j : ℕ) (e : Entry) : word (setWord m p j e) p j = e := by
  rw [word, setWord, load_store_of_lt (by simpa using e.isLt)]
  simp

theorem word_setWord_of_ne (hp : 4096 ∣ p) (hq : 4096 ∣ q) (hj : j < 512) (hk : k < 512)
    (hne : p ≠ q ∨ j ≠ k) : word (setWord m p j e) q k = word m q k := by
  rw [word, setWord, load_store_of_apart, word]
  simp only [ByteMemory.Apart]
  omega

theorem word_congr {m' : Mem} (h : ∀ i < 4096, m' (p + i) = m (q + i)) (hj : j < 512) :
    word m' p j = word m q j := by
  rw [word, word]
  congr 1
  refine load_eq_of_bytes fun i hi => ?_
  rw [Nat.add_assoc, Nat.add_assoc]
  exact h (8 * j + i) (by omega)

theorem byte_eq_of_words {m' : Mem} {x : ℕ} (h : ∀ j < 512, word m' p j = word m p j)
    (hx : x < 4096) : m' (p + x) = m (p + x) := by
  have hword := congrArg BitVec.toNat (h (x / 8) (by omega))
  have hlt : load m' (p + 8 * (x / 8)) 8 < 2 ^ 64 := load_lt m' _ 8
  have hlt' : load m (p + 8 * (x / 8)) 8 < 2 ^ 64 := load_lt m _ 8
  rw [word, word, BitVec.toNat_ofNat, BitVec.toNat_ofNat, Nat.mod_eq_of_lt hlt,
    Nat.mod_eq_of_lt hlt'] at hword
  have hbyte := bytes_eq_of_load_eq hword (Nat.mod_lt x (by decide : 8 > 0))
  rwa [Nat.add_assoc, Nat.div_add_mod] at hbyte

theorem word_update {b : UInt8} {x : ℕ} (hp : 4096 ∣ p) (hq : 4096 ∣ q) (hne : p ≠ q)
    (hx : x < 4096) (hj : j < 512) : word (Function.update m (p + x) b) q j = word m q j :=
  word_congr (fun i hi => Function.update_of_ne (by omega) _ _) hj

theorem word_memset (hj : j < 512) : word (memset m p 0 4096) p j = 0 := by
  rw [word, load_eq_zero]
  · rfl
  · intro i hi
    exact memset_apply_of_mem (by omega) (by omega)

theorem word_memset_of_ne (hp : 4096 ∣ p) (hq : 4096 ∣ q) (hne : p ≠ q) (hj : j < 512) :
    word (memset m p 0 4096) q j = word m q j :=
  word_congr (fun i hi => memset_apply_of_notMem (by omega)) hj

theorem word_memcpy (hp : 4096 ∣ p) (hq : 4096 ∣ q) (hne : p ≠ q) (hj : j < 512) :
    word (memcpy m p q 4096) p j = word m q j := by
  refine word_congr (fun i hi => ?_) hj
  rw [memcpy_apply (by simp only [ByteMemory.Apart]; omega), if_pos (by omega),
    Nat.add_sub_cancel_left]

theorem word_memcpy_of_ne {r : ℕ} (hp : 4096 ∣ p) (hr : 4096 ∣ r) (hpr : p ≠ r) (hj : j < 512) :
    word (memcpy m p q 4096) r j = word m r j :=
  word_congr (fun i hi => memcpy_apply_of_notMem (by omega)) hj

/-! ## Frames named by entries -/

def frameOf (e : Entry) : ℕ := (e &&& pageFrame).toNat

def userFlags : Entry := pagePresent ||| pageWritable ||| pageUser

theorem frameOf_testBit (e : Entry) (i : ℕ) :
    (frameOf e).testBit i = (e.getLsbD i && decide (12 ≤ i ∧ i < 52)) := by
  rw [frameOf, ← BitVec.getLsbD, BitVec.getLsbD_and, getLsbD_pageFrame]

theorem dvd_frameOf (e : Entry) : 4096 ∣ frameOf e := by
  refine Nat.dvd_of_mod_eq_zero (Nat.eq_of_testBit_eq fun i => ?_)
  rw [show (4096 : ℕ) = 2 ^ 12 from rfl, Nat.testBit_mod_two_pow, frameOf_testBit, Nat.zero_testBit]
  by_cases hi : i < 12
  · have hout : ¬(12 ≤ i ∧ i < 52) := by omega
    simp [hout]
  · simp [hi]

theorem frameOf_ofNat_eq (p : ℕ) : frameOf (BitVec.ofNat 64 p) = p / 4096 * 4096 % 2 ^ 52 := by
  refine Nat.eq_of_testBit_eq fun i => ?_
  rw [frameOf_testBit, BitVec.getLsbD_ofNat, Nat.testBit_mod_two_pow,
    show (4096 : ℕ) = 2 ^ 12 from rfl, Nat.testBit_mul_two_pow, Nat.testBit_div_two_pow]
  by_cases hlow : 12 ≤ i
  · by_cases hhigh : i < 52
    · have hi : i < 64 := by omega
      simp [hlow, hhigh, hi]
    · simp [hlow, hhigh]
  · simp [hlow]

theorem frameOf_ofNat (hp : 4096 ∣ p) : frameOf (BitVec.ofNat 64 p) = p % 2 ^ 52 := by
  rw [frameOf_ofNat_eq, Nat.div_mul_cancel hp]

theorem getLsbD_userFlags (i : ℕ) : userFlags.getLsbD i = decide (i < 3) := by
  by_cases hi : i < 64
  · have hall : ∀ j : Fin 64, userFlags.getLsbD j = decide ((j : ℕ) < 3) := by decide
    exact hall ⟨i, hi⟩
  · have hout : ¬i < 3 := by omega
    rw [BitVec.getLsbD_of_ge _ _ (by omega), decide_eq_false hout]

theorem frameOf_mapped (e addr : Entry) :
    frameOf (setPageFrame e addr ||| userFlags) = frameOf addr := by
  refine Nat.eq_of_testBit_eq fun i => ?_
  rw [frameOf_testBit, frameOf_testBit, BitVec.getLsbD_or, getLsbD_setPageFrame,
    getLsbD_userFlags]
  by_cases hi : 12 ≤ i ∧ i < 52
  · have hflag : ¬i < 3 := by omega
    simp [hi, hflag]
  · rw [decide_eq_false hi, Bool.and_false, Bool.and_false]

theorem present_mapped_user (e addr : Entry) :
    present (setPageFrame e addr ||| userFlags) = true := by
  rw [present_eq, BitVec.getLsbD_or, getLsbD_userFlags]
  simp

theorem large_mapped_user (e addr : Entry) :
    large (setPageFrame e addr ||| userFlags) = large e := by
  rw [large_eq, large_eq, BitVec.getLsbD_or, getLsbD_userFlags, getLsbD_setPageFrame]
  simp

/-! ## The walk of the processor -/

/-- The four-level translation: the frame of the page that holds `v`, or `none` for a page fault. -/
def walk (m : Mem) (cr3 v : ℕ) : Option ℕ :=
  let e4 := word m cr3 (pml4Idx v)
  if !present e4 then none
  else
    let e3 := word m (frameOf e4) (pdpIdx v)
    if !present e3 then none
    else if large e3 then some (frameOf e3 / 2 ^ 30 * 2 ^ 30 + v % 2 ^ 30 / 4096 * 4096)
    else
      let e2 := word m (frameOf e3) (pdIdx v)
      if !present e2 then none
      else if large e2 then some (frameOf e2 / 2 ^ 21 * 2 ^ 21 + v % 2 ^ 21 / 4096 * 4096)
      else
        let e1 := word m (frameOf e2) (ptIdx v)
        if !present e1 then none else some (frameOf e1)

end KernelOld.Paging
