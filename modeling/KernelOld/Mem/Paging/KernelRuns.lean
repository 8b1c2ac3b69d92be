import Mathlib.Data.List.Basic
import Mathlib.Logic.Relation
import KernelOld.Mem.Paging.KernelSearch

/-!
# Live page ranges of the kernel

What `page_kernel_alloc4k` takes, what `page_kernel_free4k` gives back and what
`page_kernel_map_memory` changes, first for one call and then for every run of calls
that frees and maps only what is live.
-/

namespace KernelOld.Paging
open MachineWord FirstRun Function List

variable {s s' : KernelPages} {cnt i j k n pdoff offset : ℕ} {e : Entry}

/-! ## Effect of the updates -/

def takenEntry : Entry := pagePresent ||| pageWritable

variable {addr o : ℕ}

theorem page_setPage (hj : j < 512) :
    page (s.setPage i j e) k = if k = 512 * i + j then e else page s k := by
  show update s.kheapTables i (update (s.kheapTables i) j e) (k / 512) (k % 512) =
    if k = 512 * i + j then e else s.kheapTables (k / 512) (k % 512)
  by_cases hi : k / 512 = i
  · subst hi
    rw [update_self]
    by_cases hk : k % 512 = j
    · rw [hk, update_self, if_pos (by omega)]
    · rw [update_of_ne hk, if_neg (by omega)]
  · rw [update_of_ne hi, if_neg (by omega)]

theorem ite_run_succ {α : Type} {a : ℕ} (x y : α) :
    (if a + 1 ≤ k ∧ k < a + 1 + n then x else if k = a then x else y) =
      if a ≤ k ∧ k < a + (n + 1) then x else y := by
  by_cases hk : k = a
  · rw [if_neg (by omega), if_pos hk, if_pos (by omega)]
  · rw [if_neg hk]
    by_cases hin : a + 1 ≤ k ∧ k < a + 1 + n
    · rw [if_pos hin, if_pos (by omega)]
    · rw [if_neg hin, if_neg (by omega)]

theorem page_takePages {enter : KernelPages → ℕ → KernelPages}
    (henter : ∀ s i k, page (enter s i) k = page s k) (hoff : offset ≤ 512) :
    page (takePages enter s n pdoff offset) k =
      if 512 * pdoff + offset ≤ k ∧ k < 512 * pdoff + offset + n then takenEntry
      else page s k := by
  induction n generalizing s pdoff offset with
  | zero => rw [takePages, if_neg (by omega)]
  | succ n ih =>
    rw [takePages]
    by_cases hfull : offset ≥ 512
    · have hnext : 512 * pdoff + offset = 512 * (pdoff + 1) := by omega
      rw [if_pos hfull, ih (by omega), page_setPage (by omega), henter, hnext]
      exact ite_run_succ takenEntry (page s k)
    · rw [if_neg hfull, ih (by omega), page_setPage (by omega)]
      exact ite_run_succ takenEntry (page s k)

theorem takePages_keeps {α : Type*} {enter : KernelPages → ℕ → KernelPages} (f : KernelPages → α)
    (henter : ∀ s i, f (enter s i) = f s) (hpage : ∀ s i j e, f (s.setPage i j e) = f s) :
    f (takePages enter s n pdoff offset) = f s := by
  induction n generalizing s pdoff offset with
  | zero => rfl
  | succ n ih =>
    rw [takePages]
    split
    · rw [ih, hpage, henter]
    · rw [ih, hpage]

theorem kheapdir_takePages_stay :
    (takePages (fun s _ => s) s n pdoff offset).kheapdir = s.kheapdir :=
  takePages_keeps KernelPages.kheapdir (fun _ _ => rfl) fun _ _ _ _ => rfl

theorem page_mkPresent : page (s.mkPresent i) k = page s k := rfl

theorem kheapdir_mkPresent :
    (s.mkPresent i).kheapdir = update s.kheapdir i
      (setPageFrame (s.kheapdir i) (s.tablesPhys + BitVec.ofNat 64 (i * 4096)) ||| takenEntry) :=
  rfl

theorem present_mkPresent :
    present ((s.mkPresent i).kheapdir j) = (present (s.kheapdir j) || decide (j = i)) := by
  rw [present_eq, present_eq, kheapdir_mkPresent]
  by_cases hj : j = i
  · have hflag : takenEntry.getLsbD 0 = true := by decide
    rw [hj, update_self, BitVec.getLsbD_or, hflag]
    simp
  · rw [update_of_ne hj, decide_eq_false hj, Bool.or_false]

theorem large_mkPresent : large ((s.mkPresent i).kheapdir j) = large (s.kheapdir j) := by
  rw [large_eq, large_eq, kheapdir_mkPresent]
  by_cases hj : j = i
  · have hflag : takenEntry.getLsbD 7 = false := by decide
    rw [hj, update_self, BitVec.getLsbD_or, hflag, Bool.or_false, getLsbD_setPageFrame]
    rfl
  · rw [update_of_ne hj]

theorem present_takePages (hoff : offset ≤ 512) :
    present ((takePages KernelPages.mkPresent s n pdoff offset).kheapdir i) =
      (present (s.kheapdir i) || decide (pdoff < i ∧ 512 * i < 512 * pdoff + offset + n)) := by
  induction n generalizing s pdoff offset with
  | zero =>
    have hno : ¬(pdoff < i ∧ 512 * i < 512 * pdoff + offset + 0) := by omega
    rw [takePages, decide_eq_false hno, Bool.or_false]
  | succ n ih =>
    rw [takePages]
    by_cases hfull : offset ≥ 512
    · rw [if_pos hfull, ih (by omega)]
      show (present ((s.mkPresent (pdoff + 1)).kheapdir i) || _) = _
      rw [present_mkPresent, Bool.or_assoc, ← Bool.decide_or]
      congr 2
      rw [eq_iff_iff]
      omega
    · rw [if_neg hfull, ih (by omega)]
      show (present (s.kheapdir i) || _) = _
      congr 2
      rw [eq_iff_iff]
      omega

theorem large_takePages :
    large ((takePages KernelPages.mkPresent s n pdoff offset).kheapdir i) =
      large (s.kheapdir i) :=
  takePages_keeps (fun s => large (s.kheapdir i)) (fun _ _ => large_mkPresent)
    fun _ _ _ _ => rfl

/-! ## Addresses -/

def pageAddr (k : ℕ) : ℕ := 0xffffffffc0000000 + k * 4096

theorem kheapAddr_eq (hk : 512 * pdoff + offset < pageCount) :
    kheapAddr pdoff offset = pageAddr (512 * pdoff + offset) := by
  rw [pageCount] at hk
  have hlow : 0x8000000000 * 511 + 511 * 0x40000000 + pdoff * 0x200000 + offset * 4096 <
      2 ^ 48 := by
    omega
  have hor := Nat.two_pow_add_eq_or_of_lt hlow 0xffff
  rw [kheapAddr, u64_of_lt (by omega), Nat.or_comm]
  refine hor.symm.trans ?_
  rw [pageAddr]
  omega

theorem idx_pageAddr (hk : k < pageCount) :
    pdIdx (pageAddr k) = k / 512 ∧ ptIdx (pageAddr k) = k % 512 := by
  rw [pageCount] at hk
  rw [pdIdx_eq, ptIdx_eq, pageAddr]
  omega

/-! ## One call -/

/-- A page can only be taken when its table is in the directory, and no entry of the
directory maps a large page. -/
structure KernelPages.Inv (s : KernelPages) : Prop where
  in_dir : ∀ k < pageCount, present (page s k) = true → present (s.kheapdir (k / 512)) = true
  small : ∀ i < 512, large (s.kheapdir i) = false

/-- The pages from `k` on were free and are taken; all others are as before. -/
structure TakesRun (s s' : KernelPages) (k cnt : ℕ) : Prop where
  bound : k + cnt ≤ pageCount
  free : ∀ n, k ≤ n → n < k + cnt → present (page s n) = false
  taken : ∀ n, k ≤ n → n < k + cnt → present (page s' n) = true
  covered : ∀ n, k ≤ n → n < k + cnt → present (s'.kheapdir (n / 512)) = true
  others : ∀ n, n < k ∨ k + cnt ≤ n → page s' n = page s n

theorem present_takenEntry : present takenEntry = true := by decide

theorem TakesRun.inv (ht : TakesRun s s' k cnt) (I : s.Inv)
    (hmono : ∀ i, present (s.kheapdir i) = true → present (s'.kheapdir i) = true)
    (hlarge : ∀ i, large (s'.kheapdir i) = large (s.kheapdir i)) : s'.Inv := by
  refine ⟨fun n hn hp => ?_, fun i hi => (hlarge i).trans (I.small i hi)⟩
  by_cases hin : k ≤ n ∧ n < k + cnt
  · exact ht.covered n hin.1 hin.2
  · rw [ht.others n (by omega)] at hp
    exact hmono _ (I.in_dir n hn hp)

theorem alloc_present {v : Search} (hcnt : 1 ≤ cnt)
    (hscan : scanPresent s cnt 512 0 ⟨0, 0, 0⟩ = some v) :
    v.counter = cnt ∧ 512 * v.pdoff + v.offset < pageCount ∧
      TakesRun s (takePages (fun s _ => s) s v.counter v.pdoff v.offset)
        (512 * v.pdoff + v.offset) cnt := by
  obtain ⟨hsearch, hend⟩ := firstPass s hcnt
  obtain ⟨hcount, hoff⟩ := hend v hscan
  rw [hscan] at hsearch
  obtain ⟨hrun, hbound⟩ := search_some (Nat.le_refl 0) (fun i _ hi => by omega) hcnt hsearch.symm
  have hpage : ∀ n, v.start ≤ n → n < v.start + cnt →
      present (s.kheapdir (n / 512)) = true ∧ present (page s n) = false := by
    intro n hlo hhi
    have hfree := hrun n hlo hhi
    simp only [freePage, Bool.and_eq_true, Bool.not_eq_true'] at hfree
    exact ⟨hfree.1.1, hfree.2⟩
  simp only [Search.start] at hpage hbound
  refine ⟨hcount, by omega, ⟨by omega, fun n hlo hhi => (hpage n hlo hhi).2, fun n hlo hhi => ?_,
    fun n hlo hhi => ?_, fun n hn => ?_⟩⟩
  · rw [page_takePages (fun _ _ _ => rfl) hoff, hcount, if_pos ⟨hlo, hhi⟩]
    exact present_takenEntry
  · rw [kheapdir_takePages_stay]
    exact (hpage n hlo hhi).1
  · rw [page_takePages (fun _ _ _ => rfl) hoff, hcount, if_neg (by omega)]

theorem alloc_absent {v : Search} (I : s.Inv) (hcnt : 1 ≤ cnt)
    (hscan : scanAbsent s cnt 512 0 ⟨0, 0, 0⟩ = some v) :
    v.offset = 0 ∧ 512 * v.pdoff < pageCount ∧
      TakesRun s (takePages KernelPages.mkPresent (s.mkPresent v.pdoff) cnt v.pdoff 0)
        (512 * v.pdoff) cnt := by
  obtain ⟨hsearch, hend⟩ := secondPass s cnt
  rw [hscan] at hsearch
  obtain ⟨hrun, hbound⟩ :=
    search_some (Nat.le_refl 0) (fun i _ hi => by omega) (tablesFor_pos hcnt) hsearch.symm
  have hfits : cnt ≤ 512 * tablesFor cnt := (tablesFor_le_iff cnt _).mp (Nat.le_refl _)
  have htable : ∀ n, 512 * v.pdoff ≤ n → n < 512 * v.pdoff + cnt →
      present (s.kheapdir (n / 512)) = false := by
    intro n hlo hhi
    have habsent := hrun (n / 512) (by omega) (by omega)
    simpa [absentTable] using habsent
  have hcount : pageCount = 512 * 512 := rfl
  refine ⟨hend v hscan, by omega, ⟨by omega, fun n hlo hhi => ?_, fun n hlo hhi => ?_,
    fun n hlo hhi => ?_, fun n hn => ?_⟩⟩
  · by_contra hp
    have hdir := I.in_dir n (by omega) (by simpa using hp)
    rw [htable n hlo hhi] at hdir
    exact Bool.false_ne_true hdir
  · rw [page_takePages (fun _ _ _ => page_mkPresent) (by omega), if_pos (by omega)]
    exact present_takenEntry
  · rw [present_takePages (by omega), present_mkPresent, Bool.or_eq_true, Bool.or_eq_true,
      decide_eq_true_eq, decide_eq_true_eq]
    omega
  · rw [page_takePages (fun _ _ _ => page_mkPresent) (by omega), if_neg (by omega)]
    rfl

theorem pageKernelAlloc4k_some (I : s.Inv) (hcnt : 1 ≤ cnt)
    (hrun : pageKernelAlloc4k s cnt = some (s', addr)) :
    ∃ k, addr = pageAddr k ∧ TakesRun s s' k cnt ∧ s'.Inv := by
  rw [pageKernelAlloc4k] at hrun
  cases hpresent : scanPresent s cnt 512 0 ⟨0, 0, 0⟩ with
  | some v =>
    rw [hpresent] at hrun
    obtain ⟨rfl, rfl⟩ := Prod.mk.inj (Option.some.inj hrun)
    obtain ⟨-, hlt, ht⟩ := alloc_present hcnt hpresent
    refine ⟨_, kheapAddr_eq hlt, ht, ht.inv I (fun i hp => ?_) fun i => ?_⟩
    · rwa [kheapdir_takePages_stay]
    · rw [kheapdir_takePages_stay]
  | none =>
    cases habsent : scanAbsent s cnt 512 0 ⟨0, 0, 0⟩ with
    | none => simp [hpresent, habsent] at hrun
    | some v =>
      obtain ⟨hoff, hlt, ht⟩ := alloc_absent I hcnt habsent
      rw [hpresent] at hrun
      simp only [habsent, hoff] at hrun
      obtain ⟨rfl, rfl⟩ := Prod.mk.inj (Option.some.inj hrun)
      refine ⟨_, kheapAddr_eq hlt, ht, ht.inv I (fun i hp => ?_) fun i => ?_⟩
      · rw [present_takePages (by omega), present_mkPresent, hp]
        rfl
      · rw [large_takePages, large_mkPresent]

/-- A call that fails has met neither a long enough run of free pages in tables that
are in the directory nor enough tables in a row that are not. -/
theorem pageKernelAlloc4k_none (I : s.Inv) (hcnt : 1 ≤ cnt)
    (hrun : pageKernelAlloc4k s cnt = none) :
    (∀ k, k + cnt ≤ pageCount → ¬∀ n, k ≤ n → n < k + cnt →
      present (s.kheapdir (n / 512)) = true ∧ present (page s n) = false) ∧
    ∀ i, i + tablesFor cnt ≤ 512 → ¬∀ t, i ≤ t → t < i + tablesFor cnt →
      present (s.kheapdir t) = false := by
  rw [pageKernelAlloc4k] at hrun
  cases hpresent : scanPresent s cnt 512 0 ⟨0, 0, 0⟩ with
  | some v => simp [hpresent] at hrun
  | none =>
    cases habsent : scanAbsent s cnt 512 0 ⟨0, 0, 0⟩ with
    | some v => simp [hpresent, habsent] at hrun
    | none =>
      obtain ⟨hsearch₁, -⟩ := firstPass s hcnt
      obtain ⟨hsearch₂, -⟩ := secondPass s cnt
      rw [hpresent] at hsearch₁
      rw [habsent] at hsearch₂
      have hcount : pageCount = 512 * 512 := rfl
      refine ⟨fun k hk hfree => ?_, fun i hi htable => ?_⟩
      · refine search_none (a := k) (Nat.le_refl 0) (Or.inl rfl) hcnt hsearch₁.symm (by omega)
          (by omega) fun n hlo hhi => ?_
        obtain ⟨hdir, hpage⟩ := hfree n hlo hhi
        rw [freePage, hdir, I.small _ (by omega), hpage]
        rfl
      · refine search_none (a := i) (Nat.le_refl 0) (Or.inl rfl) (tablesFor_pos hcnt) hsearch₂.symm
          (by have := tablesFor_pos hcnt; omega)
          (by omega) fun t hlo hhi => ?_
        rw [absentTable, htable t hlo hhi]
        rfl

theorem idx_offset (ho : o < 2 ^ 30) :
    512 * pdIdx (0xffffffffc0000000 + o) + ptIdx (0xffffffffc0000000 + o) = o / 4096 ∧
      ptIdx (0xffffffffc0000000 + o) < 512 := by
  rw [pdIdx_eq, ptIdx_eq]
  omega

theorem next_page {α : Type} (f : ℕ → ℕ → α) (hf : ∀ v v', f v 0 = f v' 0)
    (ho : o + (cnt + 1) * 4096 ≤ 2 ^ 30) :
    f (u64 (0xffffffffc0000000 + o + 4096)) cnt = f (0xffffffffc0000000 + (o + 4096)) cnt := by
  cases cnt with
  | zero => exact hf _ _
  | succ cnt => rw [u64_of_lt (by omega), Nat.add_assoc]

theorem present_mapped (e phys : Entry) :
    present (setPageFrame e phys ||| (pagePresent ||| pageWritable)) = true := by
  have hflag : (pagePresent ||| pageWritable).getLsbD 0 = true := by decide
  rw [present_eq, BitVec.getLsbD_or, hflag, Bool.or_true]

structure SetsRun (s s' : KernelPages) (k cnt : ℕ) (b : Bool) : Prop where
  dir_eq : s'.kheapdir = s.kheapdir
  inside : ∀ n, k ≤ n → n < k + cnt → present (page s' n) = b
  outside : ∀ n, n < k ∨ k + cnt ≤ n → page s' n = page s n

theorem SetsRun.none (s : KernelPages) (k : ℕ) (b : Bool) : SetsRun s s k 0 b :=
  ⟨rfl, fun n hlo hhi => by omega, fun n _ => rfl⟩

theorem SetsRun.cons {b : Bool} (hj : j < 512) (hk : k = 512 * i + j) (he : present e = b)
    (h : SetsRun (s.setPage i j e) s' (k + 1) cnt b) : SetsRun s s' k (cnt + 1) b := by
  refine ⟨h.dir_eq, fun n hlo hhi => ?_, fun n hn => ?_⟩
  · by_cases hfirst : n = k
    · rw [h.outside n (by omega), page_setPage hj, if_pos (hfirst.trans hk)]
      exact he
    · exact h.inside n (by omega) (by omega)
  · rw [h.outside n (by omega), page_setPage hj, if_neg (by omega)]

theorem SetsRun.inv {b : Bool} (h : SetsRun s s' k cnt b) (I : s.Inv)
    (hold : b = true → ∀ n, k ≤ n → n < k + cnt → present (page s n) = true) : s'.Inv := by
  refine ⟨fun n hn hp => ?_, fun i hi => ?_⟩
  · rw [h.dir_eq]
    refine I.in_dir n hn ?_
    by_cases hin : k ≤ n ∧ n < k + cnt
    · rw [h.inside n hin.1 hin.2] at hp
      exact hold hp n hin.1 hin.2
    · rwa [h.outside n (by omega)] at hp
  · rw [h.dir_eq]
    exact I.small i hi

theorem pageKernelMapMemory_spec (s : KernelPages) (phys : Entry) (ho : o + cnt * 4096 ≤ 2 ^ 30) :
    SetsRun s (pageKernelMapMemory s (0xffffffffc0000000 + o) phys cnt) (o / 4096) cnt true := by
  induction cnt generalizing s o phys with
  | zero => exact .none s _ true
  | succ cnt ih =>
    obtain ⟨hidx, hpt⟩ := idx_offset (o := o) (by omega)
    simp only [pageKernelMapMemory]
    rw [next_page (fun v n => pageKernelMapMemory _ v (phys + 4096) n) (fun _ _ => rfl) ho]
    have hrest := fun e => ih (o := o + 4096) (s.setPage (pdIdx (0xffffffffc0000000 + o))
      (ptIdx (0xffffffffc0000000 + o)) e) (phys + 4096) (by omega)
    rw [Nat.add_div_right o (by decide)] at hrest
    exact .cons hpt hidx.symm (present_mapped _ phys) (hrest _)

theorem pageKernelFree4k_spec (s : KernelPages) (ho : o + cnt * 4096 ≤ 2 ^ 30) :
    SetsRun s (pageKernelFree4k s (0xffffffffc0000000 + o) cnt) (o / 4096) cnt false := by
  induction cnt generalizing s o with
  | zero => exact .none s _ false
  | succ cnt ih =>
    obtain ⟨hidx, hpt⟩ := idx_offset (o := o) (by omega)
    rw [pageKernelFree4k, next_page (fun v n => pageKernelFree4k _ v n) (fun _ _ => rfl) ho]
    have hrest := ih (o := o + 4096) (s.setPage (pdIdx (0xffffffffc0000000 + o))
      (ptIdx (0xffffffffc0000000 + o)) 0) (by omega)
    rw [Nat.add_div_right o (by decide)] at hrest
    exact .cons hpt hidx.symm (by decide) hrest

/-! ## Runs -/

/-- The paging structures, and the live ranges with address and number of pages. -/
structure KernelClient where
  pages : KernelPages
  live : List (ℕ × ℕ)

/-- A call for new pages, or one on pages that the client has. -/
inductive KernelStep : KernelClient → KernelClient → Prop
  | alloc {s s' : KernelPages} {live : List (ℕ × ℕ)} {cnt addr : ℕ} (hcnt : 1 ≤ cnt)
      (hrun : pageKernelAlloc4k s cnt = some (s', addr)) :
      KernelStep ⟨s, live⟩ ⟨s', (addr, cnt) :: live⟩
  | map {s : KernelPages} {live : List (ℕ × ℕ)} {addr cnt virt n : ℕ} {phys : Entry}
      (hlive : (addr, cnt) ∈ live) (hlo : addr ≤ virt)
      (hhi : virt + n * 4096 ≤ addr + cnt * 4096) :
      KernelStep ⟨s, live⟩ ⟨pageKernelMapMemory s virt phys n, live⟩
  | free {s : KernelPages} {live : List (ℕ × ℕ)} {addr cnt : ℕ} (hlive : (addr, cnt) ∈ live) :
      KernelStep ⟨s, live⟩ ⟨pageKernelFree4k s addr cnt, live.erase (addr, cnt)⟩

def rangeOf (r : ℕ × ℕ) : ℕ × ℕ := (pageAddr r.1, r.2)

theorem rangeOf_injective : Injective rangeOf := by
  rintro ⟨k, n⟩ ⟨k', n'⟩ h
  simp only [rangeOf, pageAddr, Prod.mk.injEq] at h ⊢
  omega

def Apart (r r' : ℕ × ℕ) : Prop := r.1 + r.2 ≤ r'.1 ∨ r'.1 + r'.2 ≤ r.1

/-- The live ranges are the pages `rs`, all of them taken and no two overlapping. -/
structure KernelClient.Holds (c : KernelClient) (rs : List (ℕ × ℕ)) : Prop where
  inv : c.pages.Inv
  live_eq : c.live = rs.map rangeOf
  bound : ∀ r ∈ rs, 1 ≤ r.2 ∧ r.1 + r.2 ≤ pageCount
  taken : ∀ r ∈ rs, ∀ n, r.1 ≤ n → n < r.1 + r.2 → present (page c.pages n) = true
  apart : rs.Pairwise Apart

theorem KernelClient.Holds.range {c : KernelClient} {rs : List (ℕ × ℕ)} (H : c.Holds rs)
    (hlive : (addr, cnt) ∈ c.live) :
    ∃ k, addr = pageAddr k ∧ (k, cnt) ∈ rs := by
  rw [H.live_eq] at hlive
  obtain ⟨⟨k, n⟩, hmem, heq⟩ := mem_map.mp hlive
  obtain ⟨rfl, rfl⟩ := Prod.mk.inj heq
  exact ⟨k, rfl, hmem⟩

section Step

variable {c c' : KernelClient} {rs : List (ℕ × ℕ)}

theorem KernelClient.Holds.alloc (H : c.Holds rs) (hcnt : 1 ≤ cnt)
    (hrun : pageKernelAlloc4k c.pages cnt = some (s', addr)) :
    ∃ k, KernelClient.Holds ⟨s', (addr, cnt) :: c.live⟩ ((k, cnt) :: rs) := by
  obtain ⟨k, rfl, ht, I'⟩ := pageKernelAlloc4k_some H.inv hcnt hrun
  -- a live page is present, so it is not in the new run
  have hnew : ∀ r ∈ rs, Apart (k, cnt) r := by
    intro r hr
    by_contra hover
    have hpos := (H.bound r hr).1
    simp only [Apart, not_or] at hover
    have hlive := H.taken r hr (max k r.1) (by omega) (by omega)
    rw [ht.free (max k r.1) (by omega) (by omega)] at hlive
    exact Bool.false_ne_true hlive
  refine ⟨k, I', ?_, ?_, ?_, .cons hnew H.apart⟩
  · rw [map_cons, ← H.live_eq]
    rfl
  · intro r hr
    rcases mem_cons.mp hr with rfl | hr
    · exact ⟨hcnt, ht.bound⟩
    · exact H.bound r hr
  · intro r hr n hlo hhi
    rcases mem_cons.mp hr with rfl | hr
    · exact ht.taken n hlo hhi
    · have hapart := hnew r hr
      simp only [Apart] at hapart
      show present (page s' n) = true
      rw [ht.others n (by omega)]
      exact H.taken r hr n hlo hhi

theorem KernelClient.Holds.map {virt n : ℕ} {phys : Entry} (H : c.Holds rs)
    (hlive : (addr, cnt) ∈ c.live) (hlo : addr ≤ virt) (hhi : virt + n * 4096 ≤ addr + cnt * 4096) :
    KernelClient.Holds ⟨pageKernelMapMemory c.pages virt phys n, c.live⟩ rs := by
  obtain ⟨k, rfl, hmem⟩ := H.range hlive
  have hbound : k + cnt ≤ 512 * 512 := (H.bound _ hmem).2
  rw [pageAddr] at hlo hhi
  obtain ⟨o, rfl⟩ := Nat.exists_eq_add_of_le (show 0xffffffffc0000000 ≤ virt by omega)
  have hset := pageKernelMapMemory_spec c.pages phys (show o + n * 4096 ≤ 2 ^ 30 by omega)
  -- the mapped pages were present before
  have hold : ∀ m, o / 4096 ≤ m → m < o / 4096 + n → present (page c.pages m) = true :=
    fun m hlo' hhi' => H.taken _ hmem m (by simp only; omega) (by simp only; omega)
  refine ⟨hset.inv H.inv fun _ => hold, H.live_eq, H.bound, fun r hr m hlo hhi => ?_, H.apart⟩
  by_cases hm : o / 4096 ≤ m ∧ m < o / 4096 + n
  · exact hset.inside m hm.1 hm.2
  · exact (congrArg present (hset.outside m (by omega))).trans (H.taken r hr m hlo hhi)

theorem KernelClient.Holds.free (H : c.Holds rs) (hlive : (addr, cnt) ∈ c.live) :
    ∃ rs', KernelClient.Holds ⟨pageKernelFree4k c.pages addr cnt, c.live.erase (addr, cnt)⟩
      rs' := by
  obtain ⟨k, rfl, hmem⟩ := H.range hlive
  have hbound : k + cnt ≤ 512 * 512 := (H.bound _ hmem).2
  have hset := pageKernelFree4k_spec c.pages (show k * 4096 + cnt * 4096 ≤ 2 ^ 30 by omega)
  rw [Nat.mul_div_cancel k (by omega)] at hset
  have hsymm : ∀ {r r' : ℕ × ℕ}, Apart r r' → Apart r' r := fun h => Or.symm h
  have happart := ((perm_cons_erase hmem).pairwise_iff hsymm).mp H.apart
  rw [pairwise_cons] at happart
  refine ⟨rs.erase (k, cnt), hset.inv H.inv nofun, ?_, fun r hr => ?_, fun r hr m hlo hhi => ?_,
    happart.2⟩
  · rw [map_erase rangeOf_injective, ← H.live_eq]
    rfl
  · exact H.bound r (mem_of_mem_erase hr)
  · have hapart := happart.1 r hr
    simp only [Apart] at hapart
    refine (congrArg present (hset.outside m (by omega))).trans ?_
    exact H.taken r (mem_of_mem_erase hr) m hlo hhi

theorem KernelClient.Holds.step (H : c.Holds rs) (hstep : KernelStep c c') :
    ∃ rs', c'.Holds rs' := by
  cases hstep with
  | alloc hcnt hrun =>
    obtain ⟨k, H'⟩ := H.alloc hcnt hrun
    exact ⟨_, H'⟩
  | map hlive hlo hhi => exact ⟨rs, H.map hlive hlo hhi⟩
  | free hlive => exact H.free hlive

theorem KernelClient.Holds.run (H : c.Holds rs)
    (hrun : Relation.ReflTransGen KernelStep c c') : ∃ rs', c'.Holds rs' := by
  induction hrun with
  | refl => exact ⟨rs, H⟩
  | tail _ hstep ih =>
    obtain ⟨rs', H'⟩ := ih
    exact H'.step hstep

end Step

theorem KernelClient.holds_init (hsmall : ∀ i < 512, large (s.kheapdir i) = false)
    (htables : ∀ i < 512, ∀ j < 512, s.kheapTables i j = 0) :
    KernelClient.Holds ⟨s, []⟩ [] := by
  refine ⟨⟨fun k hk hp => ?_, hsmall⟩, rfl, by simp, by simp, .nil⟩
  rw [pageCount] at hk
  rw [page, htables _ (by omega) _ (by omega)] at hp
  exact absurd hp (by decide)

/-- In every run from empty tables the live ranges are disjoint; the next successful
call takes exactly the pages of a free run and returns its address, and the next
call fails only when neither pass can succeed. -/
theorem kernel_page_ranges {s : KernelPages} {c : KernelClient}
    (hsmall : ∀ i < 512, large (s.kheapdir i) = false)
    (htables : ∀ i < 512, ∀ j < 512, s.kheapTables i j = 0)
    (hrun : Relation.ReflTransGen KernelStep ⟨s, []⟩ c) :
    (c.live.Pairwise fun r r' => r.1 + r.2 * 4096 ≤ r'.1 ∨ r'.1 + r'.2 * 4096 ≤ r.1) ∧
    (∀ cnt s' addr, 1 ≤ cnt → pageKernelAlloc4k c.pages cnt = some (s', addr) →
      ∃ k, addr = pageAddr k ∧ 4096 ∣ addr ∧ pdIdx addr = k / 512 ∧ ptIdx addr = k % 512 ∧
        TakesRun c.pages s' k cnt) ∧
    ∀ cnt, 1 ≤ cnt → pageKernelAlloc4k c.pages cnt = none →
      (∀ k, k + cnt ≤ pageCount → ¬∀ n, k ≤ n → n < k + cnt →
        present (c.pages.kheapdir (n / 512)) = true ∧ present (page c.pages n) = false) ∧
      ∀ i, i + tablesFor cnt ≤ 512 → ¬∀ t, i ≤ t → t < i + tablesFor cnt →
        present (c.pages.kheapdir t) = false := by
  obtain ⟨rs, H⟩ := (KernelClient.holds_init hsmall htables).run hrun
  refine ⟨?_, fun cnt s' addr hcnt hcall => ?_, fun cnt hcnt hcall =>
    pageKernelAlloc4k_none H.inv hcnt hcall⟩
  · rw [H.live_eq, pairwise_map]
    refine H.apart.imp fun {r r'} hrr => ?_
    simp only [Apart, rangeOf, pageAddr] at hrr ⊢
    omega
  · obtain ⟨k, rfl, ht, -⟩ := pageKernelAlloc4k_some H.inv hcnt hcall
    have hk : k < pageCount := by
      have hbound := ht.bound
      omega
    obtain ⟨hpd, hpt⟩ := idx_pageAddr hk
    refine ⟨k, rfl, ?_, hpd, hpt, ht⟩
    rw [pageAddr]
    omega

theorem kernel_page_ranges_two_calls :
    ∃ c, Relation.ReflTransGen KernelStep ⟨⟨fun _ => 0, fun _ _ => 0, 0⟩, []⟩ c ∧
      c.live = [(0xffffffffc0002000, 3), (0xffffffffc0000000, 2)] ∧
        c.live.Pairwise fun r r' => r.1 + r.2 * 4096 ≤ r'.1 ∨ r'.1 + r'.2 * 4096 ≤ r.1 := by
  have hres : ((pageKernelAlloc4k ⟨fun _ => 0, fun _ _ => 0, 0⟩ 2).bind fun r =>
      (pageKernelAlloc4k r.1 3).map fun r' => (r'.2, r.2)) =
        some (0xffffffffc0002000, 0xffffffffc0000000) := by
    decide +kernel
  obtain ⟨⟨s₁, a₁⟩, hcall₁, hrest⟩ := Option.bind_eq_some_iff.mp hres
  obtain ⟨⟨s₂, a₂⟩, hcall₂, heq⟩ := Option.map_eq_some_iff.mp hrest
  obtain ⟨rfl, rfl⟩ := Prod.mk.inj heq
  have hrun : Relation.ReflTransGen KernelStep ⟨⟨fun _ => 0, fun _ _ => 0, 0⟩, []⟩
      ⟨s₂, [(0xffffffffc0002000, 3), (0xffffffffc0000000, 2)]⟩ :=
    .tail (.single (.alloc (by decide) hcall₁)) (.alloc (by decide) hcall₂)
  have hsmall : large 0 = false := by decide
  exact ⟨_, hrun, rfl, (kernel_page_ranges (fun _ _ => hsmall) (fun _ _ _ _ => rfl) hrun).1⟩

end KernelOld.Paging
