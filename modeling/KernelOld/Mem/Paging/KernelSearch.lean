import KernelOld.Lib.FirstRun
import KernelOld.Mem.Paging.KernelPages

/-!
# The search of `page_kernel_alloc4k`

The pages of the 512 tables are numbered in one row. The nested loops of the first
pass are a first-fit search in that row, and the second pass is a first-fit search
in the row of tables, for as many tables as the request needs.
-/

namespace KernelOld.Paging
open MachineWord FirstRun

variable {s : KernelPages} {cnt i j k left : ℕ} {v v' : Search}

def pageCount : ℕ := 512 * 512

def page (s : KernelPages) (k : ℕ) : Entry := s.kheapTables (k / 512) (k % 512)

def freePage (s : KernelPages) (k : ℕ) : Bool :=
  present (s.kheapdir (k / 512)) && !large (s.kheapdir (k / 512)) && !present (page s k)

def absentTable (s : KernelPages) (i : ℕ) : Bool := !present (s.kheapdir i)

def Search.start (v : Search) : ℕ := 512 * v.pdoff + v.offset

theorem scanTable_search (rest : ℕ) (hdir : present (s.kheapdir i) = true)
    (hsmall : large (s.kheapdir i) = false) (hi : i < 512) (hj : j + left = 512)
    (hv : v.start + v.counter = 512 * i + j) (hoff : v.offset ≤ 512) (hlt : v.counter < cnt) :
    (∀ v', scanTable (s.kheapTables i) cnt i left j v = .found v' →
      search (freePage s) cnt (left + rest) (512 * i + j) v.start = some v'.start ∧
        v'.counter = cnt ∧ v'.offset ≤ 512) ∧
    ∀ v', scanTable (s.kheapTables i) cnt i left j v = .next v' →
      search (freePage s) cnt (left + rest) (512 * i + j) v.start =
          search (freePage s) cnt rest (512 * (i + 1)) v'.start ∧
        v'.start + v'.counter = 512 * (i + 1) ∧ v'.offset ≤ 512 ∧ v'.counter < cnt := by
  induction left generalizing j v with
  | zero =>
    refine ⟨fun v' h => by simp [scanTable] at h, fun v' h => ?_⟩
    obtain rfl : v = v' := by simpa [scanTable] using h
    have hend : 512 * i + j = 512 * (i + 1) := by omega
    rw [Nat.zero_add, hend]
    exact ⟨rfl, by omega, hoff, hlt⟩
  | succ left ih =>
    have hdiv : (512 * i + j) / 512 = i := by omega
    have hmod : (512 * i + j) % 512 = j := by omega
    have hok : freePage s (512 * i + j) = !present (s.kheapTables i j) := by
      rw [freePage, page, hdiv, hmod, hdir, hsmall]
      rfl
    have hleft : left + 1 + rest = left + rest + 1 := by omega
    rw [scanTable, hleft, search, hok]
    cases hused : present (s.kheapTables i j) with
    | true =>
      simp only [Bool.not_true, Bool.false_eq_true, if_true, if_false]
      exact ih (v := ⟨0, j + 1, i⟩) (by omega) rfl (by simp only; omega) (by simp only; omega)
    | false =>
      have hcount : u32 (v.counter + 1) = v.counter + 1 := u32_of_lt (by omega)
      have hlen : 512 * i + j + 1 - v.start = v.counter + 1 := by omega
      simp only [hcount, hlen, ge_iff_le, Bool.not_false, Bool.false_eq_true, if_true, if_false]
      by_cases hfull : cnt ≤ v.counter + 1
      · simp only [hfull, if_true]
        refine ⟨fun v' h => ?_, fun v' h => by simp at h⟩
        obtain rfl := Outcome.found.inj h
        exact ⟨rfl, by simp only; omega, hoff⟩
      · simp only [hfull, if_false]
        have hv' : v.start + (v.counter + 1) = 512 * i + (j + 1) := by omega
        exact ih (v := ⟨v.counter + 1, v.offset, v.pdoff⟩) (by omega) hv' hoff
          (by simp only; omega)

theorem scanPresent_search (hi : i + left = 512) (hv : v.start + v.counter = 512 * i)
    (hoff : v.offset ≤ 512) (hlt : v.counter < cnt) :
    (scanPresent s cnt left i v).map Search.start =
        search (freePage s) cnt (512 * left) (512 * i) v.start ∧
      ∀ v' ∈ scanPresent s cnt left i v, v'.counter = cnt ∧ v'.offset ≤ 512 := by
  induction left generalizing i v with
  | zero => simp [scanPresent, search]
  | succ left ih =>
    have hleft : 512 * (left + 1) = 511 + 1 + 512 * left := by omega
    rw [scanPresent, hleft]
    by_cases hdir : present (s.kheapdir i) = true ∧ large (s.kheapdir i) = false
    · obtain ⟨hpresent, hsmall⟩ := hdir
      obtain ⟨hfound, hnext⟩ := scanTable_search (512 * left) hpresent hsmall (by omega)
        (Nat.zero_add 512) hv hoff hlt
      simp only [hpresent, hsmall, Bool.not_true, Bool.or_self, Bool.false_eq_true, if_false]
      cases hscan : scanTable (s.kheapTables i) cnt i 512 0 v with
      | found v' =>
        obtain ⟨hsearch, hcount⟩ := hfound v' hscan
        refine ⟨hsearch.symm, fun w hw => ?_⟩
        obtain rfl : v' = w := by simpa using hw
        exact hcount
      | next v' =>
        obtain ⟨hsearch, hv', hoff', hlt'⟩ := hnext v' hscan
        obtain ⟨hmap, hcount⟩ := ih (by omega) hv' hoff' hlt'
        exact ⟨hmap.trans hsearch.symm, hcount⟩
    · have hskip : (!present (s.kheapdir i) || large (s.kheapdir i)) = true := by
        cases hp : present (s.kheapdir i) <;> simp_all
      have hused : ∀ k, 512 * i ≤ k → k < 512 * i + (511 + 1) → freePage s k = false := by
        intro k hlo hhi
        have hk : k / 512 = i := by omega
        rw [freePage, hk]
        cases hp : present (s.kheapdir i) <;> simp_all
      have hpos : 512 * i + (511 + 1) = 512 * (i + 1) := by omega
      rw [if_pos hskip, search_skip hused, hpos]
      exact ih (v := ⟨0, 0, i + 1⟩) (by omega) rfl (by simp) (by simp only; omega)

def tablesFor (cnt : ℕ) : ℕ := (cnt + 511) / 512

theorem tablesFor_le_iff (cnt n : ℕ) : tablesFor cnt ≤ n ↔ cnt ≤ 512 * n := by
  rw [tablesFor]
  omega

theorem tablesFor_pos (hcnt : 1 ≤ cnt) : 0 < tablesFor cnt := by
  rw [tablesFor]
  omega

theorem scanAbsent_search (hi : i + left = 512) (hoff : v.offset = 0) (hle : v.pdoff ≤ i)
    (hv : v.counter = 512 * (i - v.pdoff)) :
    (scanAbsent s cnt left i v).map Search.pdoff =
        search (absentTable s) (tablesFor cnt) left i v.pdoff ∧
      ∀ v' ∈ scanAbsent s cnt left i v, v'.offset = 0 := by
  induction left generalizing i v with
  | zero => simp [scanAbsent, search]
  | succ left ih =>
    rw [scanAbsent, search, absentTable]
    cases hdir : present (s.kheapdir i) with
    | true =>
      simp only [Bool.not_true, Bool.false_eq_true, if_true, if_false]
      exact ih (v := ⟨0, 0, i + 1⟩) (by omega) rfl (Nat.le_refl _) (by simp)
    | false =>
      have hcount : u32 (v.counter + 512) = 512 * (i + 1 - v.pdoff) := by
        rw [u32_of_lt (by omega)]
        omega
      simp only [hcount, ge_iff_le, ← tablesFor_le_iff, Bool.not_false, Bool.false_eq_true,
        if_true, if_false]
      by_cases hfull : tablesFor cnt ≤ i + 1 - v.pdoff
      · simp only [hfull, if_true]
        refine ⟨rfl, fun w hw => ?_⟩
        obtain rfl := Option.some.inj hw
        exact hoff
      · simp only [hfull, if_false]
        exact ih (v := ⟨512 * (i + 1 - v.pdoff), v.offset, v.pdoff⟩) (by omega) hoff
          (Nat.le_succ_of_le hle) rfl

theorem firstPass (s : KernelPages) (hcnt : 1 ≤ cnt) :
    (scanPresent s cnt 512 0 ⟨0, 0, 0⟩).map Search.start = search (freePage s) cnt pageCount 0 0 ∧
      ∀ v ∈ scanPresent s cnt 512 0 ⟨0, 0, 0⟩, v.counter = cnt ∧ v.offset ≤ 512 :=
  scanPresent_search (v := ⟨0, 0, 0⟩) (Nat.zero_add 512) rfl (Nat.zero_le 512) hcnt

theorem secondPass (s : KernelPages) (cnt : ℕ) :
    (scanAbsent s cnt 512 0 ⟨0, 0, 0⟩).map Search.pdoff =
        search (absentTable s) (tablesFor cnt) 512 0 0 ∧
      ∀ v ∈ scanAbsent s cnt 512 0 ⟨0, 0, 0⟩, v.offset = 0 :=
  scanAbsent_search (v := ⟨0, 0, 0⟩) (Nat.zero_add 512) rfl (Nat.le_refl 0) rfl

end KernelOld.Paging
