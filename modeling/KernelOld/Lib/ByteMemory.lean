import Mathlib.Data.Nat.Notation
import Mathlib.Logic.Function.Basic
import Mathlib.Tactic.Ring

/-!
# Byte-addressed memory

A memory gives every address one byte. Machine words are read and written little-endian, `w` bytes
at a time, and are handled as natural numbers below `256 ^ w`.
-/

namespace ByteMemory

abbrev Mem := ℕ → UInt8

/-- Little-endian load of `w` bytes at address `a`. -/
def load (m : Mem) (a : ℕ) : ℕ → ℕ
  | 0 => 0
  | w + 1 => (m a).toNat + 256 * load m (a + 1) w

/-- Little-endian store of the low `w` bytes of `v` at address `a`. -/
def store (m : Mem) (a w v : ℕ) : Mem := fun x =>
  if a ≤ x ∧ x < a + w then UInt8.ofNat (v / 256 ^ (x - a)) else m x

/-- Two address ranges `[a, a + v)` and `[b, b + w)` share no address. -/
def Apart (a v b w : ℕ) : Prop := a + v ≤ b ∨ b + w ≤ a

instance (a v b w : ℕ) : Decidable (Apart a v b w) :=
  inferInstanceAs (Decidable (_ ∨ _))

variable {m m' src : Mem} {a b w v x i n : ℕ}

/-- Equal bytes load as equal numbers, wherever they lie. -/
theorem load_eq_of_bytes (h : ∀ i < w, m' (a + i) = m (b + i)) :
    load m' a w = load m b w := by
  induction w generalizing a b with
  | zero => rfl
  | succ w ih =>
    have hhead : m' a = m b := h 0 (Nat.succ_pos w)
    have htail : load m' (a + 1) w = load m (b + 1) w := by
      refine ih fun i hi => ?_
      rw [Nat.add_assoc, Nat.add_assoc, Nat.add_comm 1 i]
      exact h (i + 1) (by omega)
    simp only [load, hhead, htail]

/-- A load reads only the bytes of its own range. -/
theorem load_congr (h : ∀ x, a ≤ x → x < a + w → m' x = m x) : load m' a w = load m a w :=
  load_eq_of_bytes fun i hi => h (a + i) (by omega) (by omega)

theorem load_eq_zero (h : ∀ i < w, m (a + i) = 0) : load m a w = 0 := by
  induction w generalizing a with
  | zero => rfl
  | succ w ih =>
    have hhead : m a = 0 := h 0 (Nat.succ_pos w)
    have htail : load m (a + 1) w = 0 := by
      refine ih fun i hi => ?_
      rw [Nat.add_assoc, Nat.add_comm 1 i]
      exact h (i + 1) (by omega)
    simp only [load, hhead, htail]
    rfl

/-- A store changes no byte outside its range. -/
theorem store_apply_of_notMem (h : x < a ∨ a + w ≤ x) :
    store m a w v x = m x := by
  have hn : ¬(a ≤ x ∧ x < a + w) := by omega
  simp only [store, if_neg hn]

/-- A load from a range disjoint from a store is not affected by it. -/
theorem load_store_of_apart {u : ℕ} (h : Apart a w b u) :
    load (store m a w v) b u = load m b u := by
  apply load_congr
  intro x hlo hhi
  apply store_apply_of_notMem
  unfold Apart at h
  omega

private theorem load_of_digits (h : ∀ i, i < w → m (a + i) = UInt8.ofNat (v / 256 ^ i)) :
    load m a w = v % 256 ^ w := by
  induction w generalizing a v with
  | zero => simp [load, Nat.mod_one]
  | succ w ih =>
    have hhead : m a = UInt8.ofNat v := by simpa using h 0 (by omega)
    have htail : load m (a + 1) w = v / 256 % 256 ^ w := by
      apply ih
      intro i hi
      have hnext := h (i + 1) (by omega)
      rw [Nat.div_div_eq_div_mul, ← Nat.pow_succ']
      rw [← hnext]
      congr 1
      omega
    have hbyte : (UInt8.ofNat v).toNat = v % 256 := UInt8.toNat_ofNat'
    rw [load, hhead, htail, hbyte, pow_succ', Nat.mod_mul]

/-- A load reads back the value stored at the same address, cut to the width. -/
theorem load_store_self (m : Mem) (a w v : ℕ) :
    load (store m a w v) a w = v % 256 ^ w := by
  apply load_of_digits
  intro i hi
  have hin : a ≤ a + i ∧ a + i < a + w := by omega
  simp only [store, if_pos hin, Nat.add_sub_cancel_left]

/-- A load reads back the value stored at the same address when it fits. -/
theorem load_store_of_lt (h : v < 256 ^ w) :
    load (store m a w v) a w = v := by
  rw [load_store_self, Nat.mod_eq_of_lt h]

/-- A load of `w` bytes is below `256 ^ w`. -/
theorem load_lt (m : Mem) (a w : ℕ) : load m a w < 256 ^ w := by
  induction w generalizing a with
  | zero => simp [load]
  | succ w ih =>
    have hbyte : (m a).toNat < 256 := UInt8.toNat_lt (m a)
    have htail := ih (a + 1)
    rw [load, Nat.pow_succ']
    omega

/-- A load in two parts. -/
theorem load_add (m : Mem) (a v w : ℕ) :
    load m a (v + w) = load m a v + 256 ^ v * load m (a + v) w := by
  induction v generalizing a with
  | zero => simp [load]
  | succ v ih =>
    rw [Nat.add_right_comm, load, load, ih, Nat.add_right_comm a 1 v, Nat.pow_succ', Nat.mul_add,
      Nat.mul_assoc, Nat.add_assoc a v 1, Nat.add_assoc]

/-- Equal loads have equal bytes. -/
theorem bytes_eq_of_load_eq (h : load m' a w = load m b w) (hi : i < w) :
    m' (a + i) = m (b + i) := by
  induction w generalizing a b i with
  | zero => exact absurd hi (Nat.not_lt_zero i)
  | succ w ih =>
    rw [load, load] at h
    have hlt : (m' a).toNat < 256 := UInt8.toNat_lt (m' a)
    have hlt' : (m b).toNat < 256 := UInt8.toNat_lt (m b)
    cases i with
    | zero =>
      show m' a = m b
      exact UInt8.toNat_inj.mp (by omega)
    | succ i =>
      have htail := ih (a := a + 1) (b := b + 1) (by omega) (Nat.lt_of_succ_lt_succ hi)
      rwa [Nat.add_right_comm, Nat.add_right_comm b 1 i] at htail

-- Clients reason through the lemmas above; unfolding a load byte by byte is slow.
attribute [irreducible] load store

/-! ## Copies between memories -/

/-- `n` bytes of `src`, from address `b` on, copied to address `a` of `m`. -/
def blit (m : Mem) (a : ℕ) (src : Mem) (b n : ℕ) : Mem := fun x =>
  if a ≤ x ∧ x < a + n then src (b + (x - a)) else m x

theorem blit_apply_of_mem (hlo : a ≤ x) (hhi : x < a + n) :
    blit m a src b n x = src (b + (x - a)) := if_pos ⟨hlo, hhi⟩

theorem blit_apply_of_notMem (h : x < a ∨ a + n ≤ x) :
    blit m a src b n x = m x := if_neg (by omega)

theorem blit_apply_add (hi : i < n) :
    blit m a src b n (a + i) = src (b + i) := by
  rw [blit_apply_of_mem (Nat.le_add_right a i) (by omega), Nat.add_sub_cancel_left]

theorem blit_congr {src' : Mem} {b' : ℕ} (h : ∀ i < n, src (b + i) = src' (b' + i)) :
    blit m a src b n = blit m a src' b' n := by
  funext x
  unfold blit
  split
  · exact h _ (by omega)
  · rfl

/-- A load from what has been copied is the load from where it came. -/
theorem load_blit (h : i + w ≤ n) :
    load (blit m a src b n) (a + i) w = load src (b + i) w := by
  apply load_eq_of_bytes
  intro l hl
  rw [Nat.add_assoc, blit_apply_add (by omega), Nat.add_assoc]

def putBytes (m : Mem) : ℕ → List UInt8 → Mem
  | _, [] => m
  | a, b :: bs => putBytes (Function.update m a b) (a + 1) bs

theorem putBytes_of_notMem {bs : List UInt8} (h : x < a ∨ a + bs.length ≤ x) :
    putBytes m a bs x = m x := by
  induction bs generalizing m a with
  | nil => rfl
  | cons b bs ih =>
    rw [List.length_cons] at h
    rw [putBytes, ih (by omega), Function.update_of_ne (by omega)]

theorem putBytes_apply_add {bs : List UInt8} (hi : i < bs.length) :
    putBytes m a bs (a + i) = bs[i] := by
  induction bs generalizing m a i with
  | nil => cases hi
  | cons b bs ih =>
    rw [putBytes]
    cases i with
    | zero =>
      rw [putBytes_of_notMem (by omega), Nat.add_zero, Function.update_self]
      rfl
    | succ i =>
      have haddr : a + (i + 1) = a + 1 + i := by omega
      rw [List.getElem_cons_succ, haddr, ih (Nat.lt_of_succ_lt_succ hi)]

theorem putBytes_append (m : Mem) (a : ℕ) (bs cs : List UInt8) :
    putBytes m a (bs ++ cs) = putBytes (putBytes m a bs) (a + bs.length) cs := by
  induction bs generalizing m a with
  | nil => rfl
  | cons b bs ih =>
    rw [List.cons_append, putBytes, ih, putBytes, List.length_cons, Nat.add_assoc a,
      Nat.add_comm 1]

end ByteMemory
