import KernelOld.Lib.ByteMemory

/-!
# Memory routines of `util/stdlib.c`

`memset`, `memcpy` and `memmove` write one byte per iteration, lowest address first. The
loops are kept as they are in the source; the lemmas give their closed forms.
-/

namespace KernelOld.Stdlib
open ByteMemory Function

def memset (m : Mem) (dst : ℕ) (c : UInt8) : ℕ → Mem
  | 0 => m
  | n + 1 => Function.update (memset m dst c n) (dst + n) c

variable {m : Mem} {dst n x : ℕ}

theorem memset_apply (m : Mem) (dst : ℕ) (c : UInt8) (n x : ℕ) :
    memset m dst c n x = if dst ≤ x ∧ x < dst + n then c else m x := by
  induction n with
  | zero =>
    have hn : ¬(dst ≤ x ∧ x < dst + 0) := by omega
    simp only [memset, if_neg hn]
  | succ n ih =>
    rw [memset]
    by_cases hx : x = dst + n
    · subst hx
      rw [update_self, if_pos (by omega)]
    · rw [update_of_ne hx, ih]
      by_cases hin : dst ≤ x ∧ x < dst + n
      · rw [if_pos hin, if_pos (by omega)]
      · rw [if_neg hin, if_neg (by omega)]

theorem memset_apply_of_mem {c : UInt8} (hlo : dst ≤ x) (hhi : x < dst + n) :
    memset m dst c n x = c := by
  rw [memset_apply, if_pos ⟨hlo, hhi⟩]

theorem memset_apply_of_notMem {c : UInt8} (h : x < dst ∨ dst + n ≤ x) :
    memset m dst c n x = m x := by
  rw [memset_apply, if_neg (by omega)]

def memcpy (m : Mem) (dst src : ℕ) : ℕ → Mem
  | 0 => m
  | n + 1 => Function.update (memcpy m dst src n) (dst + n) (memcpy m dst src n (src + n))

theorem memcpy_apply_of_notMem {src : ℕ} (h : x < dst ∨ dst + n ≤ x) :
    memcpy m dst src n x = m x := by
  induction n with
  | zero => rfl
  | succ n ih =>
    rw [memcpy, update_of_ne (by omega)]
    exact ih (by omega)

theorem mod_sub_of_apart {src i : ℕ} (h : dst ≤ src ∨ src + i < dst) : i % (dst - src) = i := by
  rcases h with h | h
  · rw [Nat.sub_eq_zero_of_le h, Nat.mod_zero]
  · exact Nat.mod_eq_of_lt (by omega)

/-- The loop goes up. When `dst` lies behind `src` and in the source, the bytes in front of `dst`
are repeated; in the other cases the remainder is `i`. -/
theorem memcpy_apply_add {src i : ℕ} (hi : i < n) :
    memcpy m dst src n (dst + i) = m (src + i % (dst - src)) := by
  induction n generalizing i with
  | zero => cases hi
  | succ n ih =>
    rw [memcpy]
    rcases Nat.lt_succ_iff_lt_or_eq.mp hi with hi | rfl
    · rw [update_of_ne (by omega), ih hi]
    · rw [update_self]
      by_cases hread : dst ≤ src + i ∧ src < dst
      · -- the byte that is read has been written `dst - src` rounds ago
        have hback : src + i = dst + (i - (dst - src)) := by omega
        rw [hback, ih (by omega), ← Nat.mod_eq_sub_mod (by omega)]
      · rw [memcpy_apply_of_notMem (by omega), mod_sub_of_apart (by omega)]

theorem memcpy_apply {src : ℕ} (h : Apart dst n src n) (x : ℕ) :
    memcpy m dst src n x = if dst ≤ x ∧ x < dst + n then m (src + (x - dst)) else m x := by
  rw [Apart] at h
  split
  · obtain ⟨i, rfl⟩ := Nat.exists_eq_add_of_le (show dst ≤ x by omega)
    rw [memcpy_apply_add (by omega), Nat.add_sub_cancel_left, mod_sub_of_apart (by omega)]
  · exact memcpy_apply_of_notMem (by omega)

/-- `memmove`. It has the loop of `memcpy`. -/
def memmove (m : Mem) (dst src n : ℕ) : Mem := memcpy m dst src n

/-- The `n` bytes at `src` are at `dst`, and the bytes around are as before. -/
structure Moved (m m' : Mem) (dst src n : ℕ) : Prop where
  moved : ∀ i < n, m' (dst + i) = m (src + i)
  outside : ∀ x, x < dst ∨ dst + n ≤ x → m' x = m x

/-- `memmove` moves the bytes if `dst` is not behind `src` or the ranges do not overlap, and
otherwise if and only if the bytes at `src` repeat themselves. -/
theorem memmove_moves_iff (m : Mem) (dst src n : ℕ) :
    Moved m (memmove m dst src n) dst src n ↔
      dst ≤ src ∨ src + n ≤ dst ∨ ∀ i < n, m (src + i % (dst - src)) = m (src + i) := by
  constructor
  · intro h
    refine Or.inr (Or.inr fun i hi => ?_)
    rw [← h.moved i hi, memmove, memcpy_apply_add hi]
  · intro h
    refine ⟨fun i hi => ?_, fun x hx => memcpy_apply_of_notMem hx⟩
    rw [memmove, memcpy_apply_add hi]
    rcases h with hlow | hapart | hrepeat
    · rw [mod_sub_of_apart (Or.inl hlow)]
    · rw [mod_sub_of_apart (by omega)]
    · exact hrepeat i hi

/-- Two bytes are moved up by one: the second one is lost. -/
theorem memmove_loses_byte :
    ¬Moved (fun a => UInt8.ofNat a) (memmove (fun a => UInt8.ofNat a) 1 0 2) 1 0 2 := by
  intro h
  exact absurd (h.moved 1 (by decide)) (by decide)

-- A whole page is 4096 rounds: proofs go through the closed forms.
attribute [irreducible] memset memcpy

end KernelOld.Stdlib
