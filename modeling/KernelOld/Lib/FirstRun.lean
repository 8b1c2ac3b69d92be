import Mathlib.Data.Nat.Notation

/-!
# First-fit search for a run of free slots

A row of slots is scanned from left to right, remembering where the current run of
free slots began. The first run of the wanted length is returned.
-/

namespace FirstRun

variable {ok : ℕ → Bool} {cnt left k start a : ℕ}

def Run (ok : ℕ → Bool) (a n : ℕ) : Prop := ∀ k, a ≤ k → k < a + n → ok k = true

/-- The scan from slot `k` with `left` slots to go; the current run began at
`start`. -/
def search (ok : ℕ → Bool) (cnt : ℕ) : ℕ → ℕ → ℕ → Option ℕ
  | 0, _, _ => none
  | left + 1, k, start =>
    if ok k then
      if cnt ≤ k + 1 - start then some start else search ok cnt left (k + 1) start
    else search ok cnt left (k + 1) (k + 1)

theorem search_some (hstart : start ≤ k) (hrun : Run ok start (k - start)) (hlt : k - start < cnt)
    (hfound : search ok cnt left k start = some a) : Run ok a cnt ∧ a + cnt ≤ k + left := by
  induction left generalizing k start with
  | zero => simp [search] at hfound
  | succ left ih =>
    rw [search] at hfound
    by_cases hk : ok k = true
    · rw [if_pos hk] at hfound
      have hrun' : Run ok start (k + 1 - start) := by
        intro i hlo hhi
        by_cases hik : i = k
        · rw [hik]
          exact hk
        · exact hrun i hlo (by omega)
      by_cases hlong : cnt ≤ k + 1 - start
      · rw [if_pos hlong] at hfound
        obtain rfl := Option.some.inj hfound
        exact ⟨fun i hlo hhi => hrun' i hlo (by omega), by omega⟩
      · rw [if_neg hlong] at hfound
        obtain ⟨ha, hle⟩ := ih (by omega) hrun' (by omega) hfound
        exact ⟨ha, by omega⟩
    · rw [if_neg hk] at hfound
      obtain ⟨ha, hle⟩ := ih (Nat.le_refl _) (fun i hlo hhi => by omega) (by omega) hfound
      exact ⟨ha, by omega⟩

/-- A scan that fails has passed over every run that ends behind its position. The
slot before the current run is not free, so no run reaches across it. -/
theorem search_none (hstart : start ≤ k) (hbefore : start = 0 ∨ ok (start - 1) = false)
    (hlt : k - start < cnt) (hnone : search ok cnt left k start = none) (hend : k < a + cnt)
    (hbound : a + cnt ≤ k + left) : ¬Run ok a cnt := by
  induction left generalizing k start with
  | zero => omega
  | succ left ih =>
    intro ha
    rw [search] at hnone
    by_cases hk : ok k = true
    · rw [if_pos hk] at hnone
      by_cases hlong : cnt ≤ k + 1 - start
      · rw [if_pos hlong] at hnone
        exact Option.some_ne_none _ hnone
      · rw [if_neg hlong] at hnone
        by_cases hlast : a + cnt = k + 1
        · have hfree := ha (start - 1) (by omega) (by omega)
          rcases hbefore with h0 | hused
          · omega
          · rw [hused] at hfree
            exact Bool.false_ne_true hfree
        · exact ih (by omega) hbefore (by omega) hnone (by omega) (by omega) ha
    · rw [if_neg hk] at hnone
      by_cases hak : a ≤ k
      · exact hk (ha k hak hend)
      · exact ih (Nat.le_refl _) (Or.inr (by simpa using hk)) (by omega) hnone (by omega)
          (by omega) ha

/-- A stretch of used slots restarts the run behind it. -/
theorem search_skip {n : ℕ} (hused : ∀ i, k ≤ i → i < k + (n + 1) → ok i = false) :
    search ok cnt (n + 1 + left) k start = search ok cnt left (k + (n + 1)) (k + (n + 1)) := by
  induction n generalizing k start with
  | zero =>
    have hk := hused k (Nat.le_refl k) (by omega)
    rw [Nat.zero_add, Nat.add_comm 1 left, search, if_neg (by simp [hk])]
  | succ n ih =>
    have hk := hused k (Nat.le_refl k) (by omega)
    have hleft : n + 1 + 1 + left = n + 1 + left + 1 := by omega
    have hpos : k + 1 + (n + 1) = k + (n + 1 + 1) := by omega
    rw [hleft, search, if_neg (by simp [hk]),
      ih fun i hlo hhi => hused i (by omega) (by omega), hpos]

end FirstRun
