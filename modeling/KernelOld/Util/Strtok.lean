import Mathlib.Data.List.TakeWhile
import KernelOld.Lib.ByteMemory
import KernelOld.Util.Strings

/-!
# `strtok` and the memory behind a string

`strtok` of `util/stdlib.c` with any set of delimiters, as it reads memory through its pointer and
writes to its buffer of 1000 bytes. Both are recorded. `Strings.strtok` is the case of the
delimiter `/` in which no byte is written behind the buffer.
-/

namespace KernelOld.Strtok
open ByteMemory Function List
open Strings (Str Ptr slash copied)

inductive Access
  | read (a : ℕ)
  | write (k : ℕ)
deriving DecidableEq

/-- The inner loop for the byte `b`. The last component says whether a delimiter has been found. -/
def tryDelims (b : UInt8) (i : ℕ) : Str → (ℕ → UInt8) → (ℕ → UInt8) × List Access × Bool
  | [], ret => (ret, [], false)
  | d :: ds, ret =>
    if b ≠ d then
      let r := tryDelims b i ds (Function.update ret i b)
      (r.1, .write i :: r.2.1, r.2.2)
    else (ret, [], true)

/-- The outer loop: the index at the end, the buffer, and the accesses. -/
def scan (m : Mem) (s : ℕ) (delim : Str) : ℕ → ℕ → (ℕ → UInt8) →
    Option (ℕ × (ℕ → UInt8) × List Access)
  | 0, _, _ => none
  | fuel + 1, i, ret =>
    if m (s + i) = 0 then some (i, ret, [.read (s + i)])
    else
      let r := tryDelims (m (s + i)) i delim ret
      if r.2.2 then some (i, r.1, .read (s + i) :: r.2.1)
      else (scan m s delim fuel (i + 1) r.1).map fun t =>
        (t.1, t.2.1, .read (s + i) :: (r.2.1 ++ t.2.2))

def tokenOf (ret : ℕ → UInt8) (i : ℕ) : Str :=
  (copied (Function.update ret i 0) 0 (i + 1)).takeWhile (· ≠ 0)

/-- `strtok`: the token, the new value of `olds`, and the accesses. `kmalloc` has cleared the
buffer. -/
def strtok (m : Mem) (delim : Str) (fuel : ℕ) (s olds : Option ℕ) :
    Option (Option Str × Option ℕ × List Access) :=
  match s.or olds with
  | none => some (none, none, [])
  | some s =>
    if m s = 0 then some (none, some s, [.read s])
    else (scan m s delim fuel 0 fun _ => 0).map fun t =>
      (some (tokenOf t.2.1 t.1), some (s + t.1 + 1), .read s :: (t.2.2 ++ [.write t.1]))

def strtokAll (m : Mem) (delim : Str) (fuel : ℕ) : ℕ → Option ℕ → Option ℕ →
    Option (List Str × List Access)
  | 0, _, _ => none
  | calls + 1, s, olds => do
    let (token, olds, log) ← strtok m delim fuel s olds
    match token with
    | none => some ([], log)
    | some t =>
      let (ts, rest) ← strtokAll m delim fuel calls none olds
      some (t :: ts, log ++ rest)

variable {m : Mem} {delim str t : Str} {s olds : Option ℕ} {ret ret' : ℕ → UInt8}
  {log : List Access} {b : UInt8} {a i k n fuel calls : ℕ}

/-! ## One call -/

variable {d : UInt8}

theorem tryDelims_hit (b : UInt8) (i : ℕ) (delim : Str) (ret : ℕ → UInt8) :
    (tryDelims b i delim ret).2.2 = decide (b ∈ delim) := by
  induction delim generalizing ret with
  | nil => rfl
  | cons d ds ih =>
    rw [tryDelims]
    by_cases hd : b = d
    · simp [hd]
    · simp [hd, ih]

theorem tryDelims_ret (hdelim : delim ≠ []) (hb : b ∉ delim) (i : ℕ) (ret : ℕ → UInt8) :
    (tryDelims b i delim ret).1 = update ret i b := by
  induction delim generalizing ret with
  | nil => exact absurd rfl hdelim
  | cons d ds ih =>
    obtain ⟨hd, hds⟩ := not_or.mp (mt mem_cons.mpr hb)
    rw [tryDelims, if_pos hd]
    cases ds with
    | nil => rfl
    | cons d' ds => rw [ih (cons_ne_nil _ _) hds, update_idem]

theorem tryDelims_below (hk : k ≠ i) (b : UInt8) (delim : Str) (ret : ℕ → UInt8) :
    (tryDelims b i delim ret).1 k = ret k := by
  induction delim generalizing ret with
  | nil => rfl
  | cons d ds ih =>
    rw [tryDelims]
    split
    · rw [ih, update_of_ne hk]
    · rfl

theorem mem_tryDelims {x : Access} (hx : x ∈ (tryDelims b i delim ret).2.1) : x = .write i := by
  induction delim generalizing ret with
  | nil => cases hx
  | cons d ds ih =>
    rw [tryDelims] at hx
    split at hx
    · obtain rfl | hx := mem_cons.mp hx
      · rfl
      · exact ih hx
    · cases hx

structure Scanned (m : Mem) (a i n : ℕ) (ret ret' : ℕ → UInt8) (log : List Access) : Prop where
  le : i ≤ n
  nonzero : ∀ k, i ≤ k → k < n → m (a + k) ≠ 0
  stored : ∀ k, i ≤ k → k < n → ret' k = m (a + k)
  kept : ∀ k < i, ret' k = ret k
  reads : ∀ x, .read x ∈ log → a + i ≤ x ∧ x ≤ a + n
  writes : ∀ k, .write k ∈ log → k ≤ n

theorem scan_zero (hzero : m (a + i) = 0) :
    scan m a delim (fuel + 1) i ret = some (i, ret, [.read (a + i)]) := by
  rw [scan, if_pos hzero]

theorem scan_hit (hzero : m (a + i) ≠ 0) (hb : m (a + i) ∈ delim) :
    scan m a delim (fuel + 1) i ret = some (i, (tryDelims (m (a + i)) i delim ret).1,
      .read (a + i) :: (tryDelims (m (a + i)) i delim ret).2.1) := by
  simp only [scan, hzero, tryDelims_hit, hb, decide_true, if_true, if_false]

theorem scan_next (hzero : m (a + i) ≠ 0) (hb : m (a + i) ∉ delim) :
    scan m a delim (fuel + 1) i ret =
      (scan m a delim fuel (i + 1) (tryDelims (m (a + i)) i delim ret).1).map fun t =>
        (t.1, t.2.1, .read (a + i) :: ((tryDelims (m (a + i)) i delim ret).2.1 ++ t.2.2)) := by
  simp only [scan, hzero, tryDelims_hit, hb, decide_false, Bool.false_eq_true, if_false]

theorem mem_round {x : Access} (hx : x ∈ .read (a + i) :: (tryDelims b i delim ret).2.1) :
    x = .read (a + i) ∨ x = .write i :=
  (mem_cons.mp hx).imp_right mem_tryDelims

theorem Scanned.stop (hret : ∀ k < i, ret' k = ret k)
    (hlog : ∀ x ∈ log, x = .read (a + i) ∨ x = .write i) : Scanned m a i i ret ret' log := by
  refine ⟨Nat.le_refl i, fun k hlo hhi => absurd hlo (by omega),
    fun k hlo hhi => absurd hlo (by omega), hret, fun x hx => ?_, fun k hk => ?_⟩
  · obtain heq | heq := hlog _ hx
    · cases heq
      omega
    · cases heq
  · obtain heq | heq := hlog _ hk
    · cases heq
    · cases heq
      exact Nat.le_refl i

theorem Scanned.next {first : List Access}
    (h : Scanned m a (i + 1) n (update ret i (m (a + i))) ret' log)
    (hzero : m (a + i) ≠ 0) (hfirst : ∀ x ∈ first, x = .read (a + i) ∨ x = .write i) :
    Scanned m a i n ret ret' (first ++ log) := by
  have hle := h.le
  refine ⟨by omega, fun k hlo hhi => ?_, fun k hlo hhi => ?_, fun k hk => ?_, fun x hx => ?_,
    fun k hk => ?_⟩
  · obtain rfl | hlt := Nat.eq_or_lt_of_le hlo
    · exact hzero
    · exact h.nonzero k hlt hhi
  · obtain rfl | hlt := Nat.eq_or_lt_of_le hlo
    · rw [h.kept i (Nat.lt_succ_self i), update_self]
    · exact h.stored k hlt hhi
  · rw [h.kept k (by omega), update_of_ne (by omega)]
  · obtain hx | hx := mem_append.mp hx
    · obtain heq | heq := hfirst _ hx
      · cases heq
        omega
      · cases heq
    · have hin := h.reads x hx
      omega
  · obtain hk | hk := mem_append.mp hk
    · obtain heq | heq := hfirst _ hk
      · cases heq
      · cases heq
        omega
    · exact h.writes k hk

theorem scan_scanned (hdelim : delim ≠ [])
    (hscan : scan m a delim fuel i ret = some (n, ret', log)) : Scanned m a i n ret ret' log := by
  induction fuel generalizing i ret n ret' log with
  | zero => cases hscan
  | succ fuel ih =>
    by_cases hzero : m (a + i) = 0
    · rw [scan_zero hzero] at hscan
      cases hscan
      exact .stop (fun _ _ => rfl) fun x hx => Or.inl (mem_singleton.mp hx)
    · by_cases hb : m (a + i) ∈ delim
      · rw [scan_hit hzero hb] at hscan
        cases hscan
        exact .stop (fun k hk => tryDelims_below (Nat.ne_of_lt hk) _ _ _) fun x => mem_round
      · rw [scan_next hzero hb] at hscan
        obtain ⟨⟨n', ret'', log'⟩, hrest, heq⟩ := Option.map_eq_some_iff.mp hscan
        cases heq
        have h := ih hrest
        rw [tryDelims_ret hdelim hb] at h
        exact h.next hzero fun x => mem_round

theorem scan_notMem (hscan : scan m a delim fuel i ret = some (n, ret', log)) (hlo : i ≤ k)
    (hhi : k < n) : m (a + k) ∉ delim := by
  induction fuel generalizing i ret n ret' log with
  | zero => cases hscan
  | succ fuel ih =>
    by_cases hzero : m (a + i) = 0
    · rw [scan_zero hzero] at hscan
      cases hscan
      omega
    · by_cases hb : m (a + i) ∈ delim
      · rw [scan_hit hzero hb] at hscan
        cases hscan
        omega
      · rw [scan_next hzero hb] at hscan
        obtain ⟨⟨n', ret'', log'⟩, hrest, heq⟩ := Option.map_eq_some_iff.mp hscan
        cases heq
        obtain rfl | hlt := Nat.eq_or_lt_of_le hlo
        · exact hb
        · exact ih hrest hlt hhi

theorem takeWhile_copied {buf : ℕ → UInt8} (n : ℕ)
    (hcopy : ∀ k < n, buf (i + k) = m (a + k) ∧ m (a + k) ≠ 0) (hend : buf (i + n) = 0) :
    (copied buf i (n + 1)).takeWhile (· ≠ 0) = copied m a n := by
  induction n generalizing i a with
  | zero =>
    rw [Nat.add_zero] at hend
    simp [copied, hend]
  | succ n ih =>
    obtain ⟨hbyte, hzero⟩ := hcopy 0 (Nat.succ_pos n)
    rw [Nat.add_zero, Nat.add_zero] at hbyte
    rw [Nat.add_zero] at hzero
    have hrest := ih (i := i + 1) (a := a + 1) (fun k hk => ?_) ?_
    · rw [copied, hbyte, takeWhile_cons_of_pos (by simpa using hzero), hrest, copied]
    · have hnext := hcopy (k + 1) (Nat.succ_lt_succ hk)
      rwa [Nat.add_comm k, ← Nat.add_assoc, ← Nat.add_assoc] at hnext
    · rwa [Nat.add_comm n, ← Nat.add_assoc] at hend

theorem Scanned.tokenOf_eq (h : Scanned m a 0 n ret ret' log) :
    tokenOf ret' n = copied m a n := by
  refine takeWhile_copied n (fun k hk => ?_) ?_
  · rw [Nat.zero_add, update_of_ne (Nat.ne_of_lt hk)]
    exact ⟨h.stored k (Nat.zero_le k) hk, h.nonzero k (Nat.zero_le k) hk⟩
  · rw [Nat.zero_add, update_self]

theorem scan_slash (m : Mem) (a room i : ℕ) (ret : ℕ → UInt8) :
    (scan m a [slash] room i ret).map Prod.fst = Strings.scan ⟨m, a⟩ room i := by
  induction room generalizing i ret with
  | zero => rfl
  | succ room ih =>
    rw [Strings.scan]
    by_cases hzero : m (a + i) = 0
    · rw [scan_zero hzero, if_pos (Or.inl hzero)]
      rfl
    · by_cases hb : m (a + i) = slash
      · rw [scan_hit hzero (mem_singleton.mpr hb), if_pos (Or.inr hb)]
        rfl
      · rw [scan_next hzero (mt mem_singleton.mp hb), if_neg (not_or.mpr ⟨hzero, hb⟩), ← ih,
          Option.map_map]
        rfl

/-- With `/` and with room for 1000 bytes it is the function that the path functions call. -/
theorem strtok_slash (m : Mem) (s olds : Option ℕ) :
    (strtok m [slash] 1000 s olds).map (fun r => (r.1, r.2.1.map (Ptr.mk m))) =
      Strings.strtok (s.map (Ptr.mk m)) (olds.map (Ptr.mk m)) := by
  rw [strtok, Strings.strtok]
  have hor : (s.map (Ptr.mk m)).or (olds.map (Ptr.mk m)) = (s.or olds).map (Ptr.mk m) := by
    cases s with
    | none => rfl
    | some s => rfl
  rw [hor]
  cases s.or olds with
  | none => rfl
  | some a =>
    show Option.map _ (if m a = 0 then _ else _) = if m a = 0 then _ else _
    by_cases hzero : m a = 0
    · rw [if_pos hzero, if_pos hzero]
      rfl
    · rw [if_neg hzero, if_neg hzero, ← scan_slash m a 1000 0 fun _ => 0, Option.map_map,
        Option.map_map]
      cases hscan : scan m a [slash] 1000 0 fun _ => 0 with
      | none => rfl
      | some r =>
        have h := scan_scanned (cons_ne_nil _ _) hscan
        show some (some (tokenOf r.2.1 r.1), _) = _
        rw [h.tokenOf_eq]
        rfl

theorem strtok_token {olds' : Option ℕ} (hdelim : delim ≠ []) (hp : s.or olds = some a)
    (hcall : strtok m delim fuel s olds = some (some t, olds', log)) :
    olds' = some (a + t.length + 1) ∧ 0 ∉ t ∧ ∀ b ∈ t, b ∉ delim := by
  rw [strtok, hp] at hcall
  dsimp only at hcall
  split_ifs at hcall with hzero
  · cases hcall
  obtain ⟨⟨n, ret', log'⟩, hscan, heq⟩ := Option.map_eq_some_iff.mp hcall
  have hscanned := scan_scanned hdelim hscan
  have htoken : tokenOf ret' n = t := Option.some.inj (congrArg Prod.fst heq)
  rw [hscanned.tokenOf_eq] at htoken
  subst htoken
  refine ⟨?_, fun hmem => ?_, fun b hb => ?_⟩
  · rw [Strings.length_copied]
    exact (congrArg (fun r => r.2.1) heq).symm
  · obtain ⟨k, hk, hbyte⟩ := Strings.mem_copied hmem
    exact hscanned.nonzero k (Nat.zero_le k) hk hbyte.symm
  · obtain ⟨k, hk, rfl⟩ := Strings.mem_copied hb
    exact scan_notMem hscan (Nat.zero_le k) hk

/-! ## A string in memory -/

/-- A string with its terminator at an address. -/
def CStr (m : Mem) : ℕ → Str → Prop
  | a, [] => m a = 0
  | a, b :: str => m a = b ∧ b ≠ 0 ∧ CStr m (a + 1) str

def word (delim str : Str) : Str := str.takeWhile fun b => b ∉ delim

theorem scan_index (h : CStr m (a + i) str) :
    (scan m a delim fuel i ret).map Prod.fst =
      if (word delim str).length < fuel then some (i + (word delim str).length) else none := by
  induction str generalizing fuel i ret with
  | nil =>
    cases fuel with
    | zero => rfl
    | succ fuel =>
      rw [scan_zero h]
      rfl
  | cons b str ih =>
    obtain ⟨hb, hne, hrest⟩ := h
    cases fuel with
    | zero => rfl
    | succ fuel =>
      have hzero : m (a + i) ≠ 0 := hb ▸ hne
      by_cases hmem : b ∈ delim
      · have hword : word delim (b :: str) = [] := by simp [word, hmem]
        rw [scan_hit hzero (hb ▸ hmem), hword]
        rfl
      · have hword : word delim (b :: str) = b :: word delim str := by simp [word, hmem]
        have hnext : CStr m (a + (i + 1)) str := hrest
        rw [scan_next hzero (hb ▸ hmem), Option.map_map, hword, length_cons]
        refine (ih hnext).trans ?_
        simp only [Nat.add_lt_add_iff_right]
        congr 2
        omega

theorem copied_word (h : CStr m a str) :
    copied m a (word delim str).length = word delim str := by
  induction str generalizing a with
  | nil => rfl
  | cons b str ih =>
    obtain ⟨hb, -, hrest⟩ := h
    by_cases hmem : b ∈ delim
    · simp [word, hmem, copied]
    · have hword : word delim (b :: str) = b :: word delim str := by simp [word, hmem]
      rw [hword, length_cons, copied, hb, ih hrest]

theorem CStr.drop (h : CStr m a str) (hk : k ≤ str.length) : CStr m (a + k) (str.drop k) := by
  induction str generalizing a k with
  | nil =>
    obtain rfl : k = 0 := Nat.le_zero.mp hk
    exact h
  | cons b str ih =>
    cases k with
    | zero => exact h
    | succ k =>
      rw [drop_succ_cons, Nat.add_comm k, ← Nat.add_assoc]
      exact ih h.2.2 (Nat.le_of_succ_le_succ hk)

theorem CStr.ne_zero (h : CStr m a str) (hne : str ≠ []) : m a ≠ 0 := by
  obtain ⟨b, rest, rfl⟩ := exists_cons_of_ne_nil hne
  rw [h.1]
  exact h.2.1

theorem cstr_of_chars (h : Strings.Chars m a str) : CStr m a str ∧ m (a + str.length + 1) = 0 := by
  induction str generalizing a with
  | nil => exact h
  | cons b str ih =>
    obtain ⟨hb, hne, hrest⟩ := h
    obtain ⟨hstr, hbehind⟩ := ih hrest
    rw [length_cons, ← Nat.add_assoc, Nat.add_right_comm a]
    exact ⟨⟨hb, hne, hstr⟩, hbehind⟩

theorem strtok_end (hp : s.or olds = some a) (h : CStr m a []) :
    strtok m delim fuel s olds = some (none, some a, [.read a]) := by
  rw [strtok, hp]
  exact if_pos h

theorem strtok_word (hdelim : delim ≠ []) (hp : s.or olds = some a) (h : CStr m a str)
    (hne : str ≠ []) (hfuel : (word delim str).length < fuel) :
    ∃ log, strtok m delim fuel s olds =
        some (some (word delim str), some (a + (word delim str).length + 1), log) ∧
      (∀ x, .read x ∈ log → a ≤ x ∧ x ≤ a + (word delim str).length) ∧
      (∀ k, .write k ∈ log → k ≤ (word delim str).length) ∧
      .write (word delim str).length ∈ log := by
  have hindex : (scan m a delim fuel 0 fun _ => 0).map Prod.fst =
      some (word delim str).length := by
    rw [scan_index h, if_pos hfuel, Nat.zero_add]
  obtain ⟨⟨n, ret', log⟩, hscan, hn⟩ := Option.map_eq_some_iff.mp hindex
  obtain rfl : n = (word delim str).length := hn
  have hscanned := scan_scanned hdelim hscan
  have hzero : m a ≠ 0 := h.ne_zero hne
  refine ⟨.read a :: (log ++ [.write (word delim str).length]), ?_, fun x hx => ?_, fun k hk => ?_,
    by simp⟩
  · rw [strtok, hp]
    simp only [if_neg hzero, hscan, Option.map_some]
    rw [hscanned.tokenOf_eq, copied_word h]
  · simp only [mem_cons, mem_append, Access.read.injEq, reduceCtorEq, not_mem_nil,
      or_false] at hx
    obtain rfl | hx := hx
    · omega
    · have hin := hscanned.reads x hx
      omega
  · simp only [mem_cons, mem_append, Access.write.injEq, reduceCtorEq, not_mem_nil,
      or_false, false_or] at hk
    obtain hk | rfl := hk
    · exact hscanned.writes k hk
    · exact Nat.le_refl _

theorem strtok_fuel {r : Option Str × Option ℕ × List Access} (hp : s.or olds = some a)
    (h : CStr m a str) (hne : str ≠ []) (hcall : strtok m delim fuel s olds = some r) :
    (word delim str).length < fuel := by
  by_contra hfuel
  have hindex : (scan m a delim fuel 0 fun _ => 0).map Prod.fst = none := by
    rw [scan_index h, if_neg hfuel]
  have hzero : m a ≠ 0 := h.ne_zero hne
  rw [strtok, hp] at hcall
  simp only [if_neg hzero, Option.map_eq_none_iff.mp hindex, Option.map_none] at hcall
  cases hcall

/-! ## All calls -/

def pieces (delim str : Str) : List Str :=
  let ps := str.splitOnP fun b => b ∈ delim
  if ps.getLast? = some [] then ps.dropLast else ps

theorem word_notMem (hb : b ∈ word delim str) : b ∉ delim := by
  simpa using mem_takeWhile_imp hb

theorem word_cases (delim str : Str) :
    word delim str = str ∨ ∃ d rest, d ∈ delim ∧ str = word delim str ++ d :: rest := by
  induction str with
  | nil => exact Or.inl rfl
  | cons b str ih =>
    by_cases hmem : b ∈ delim
    · have hword : word delim (b :: str) = [] := by simp [word, hmem]
      rw [hword]
      exact Or.inr ⟨b, str, hmem, rfl⟩
    · have hword : word delim (b :: str) = b :: word delim str := by simp [word, hmem]
      rw [hword]
      obtain heq | ⟨d, rest, hd, heq⟩ := ih
      · exact Or.inl (congrArg (List.cons b) heq)
      · exact Or.inr ⟨d, rest, hd, congrArg (List.cons b) heq⟩

theorem pieces_of_word (hword : word delim str = str) (hne : str ≠ []) :
    pieces delim str = [str] := by
  have hno : ∀ b ∈ str, decide (b ∈ delim) = false := fun b hb =>
    decide_eq_false (word_notMem (hword.symm ▸ hb))
  rw [pieces, splitOnP_eq_singleton hno, if_neg (by simpa using hne)]

theorem pieces_of_delim {rest : Str} (hd : d ∈ delim) (hstr : str = word delim str ++ d :: rest) :
    pieces delim str = word delim str :: pieces delim rest := by
  have hno : ∀ b ∈ word delim str, decide (b ∈ delim) = false := fun b hb =>
    decide_eq_false (word_notMem hb)
  have hsplit : str.splitOnP (fun b => b ∈ delim) =
      word delim str :: rest.splitOnP fun b => b ∈ delim := by
    conv_lhs => rw [hstr]
    exact splitOnP_append_cons_of_forall_mem hno d (decide_eq_true hd) rest
  have hrest := splitOnP_ne_nil (fun b => decide (b ∈ delim)) rest
  simp only [pieces, hsplit, getLast?_cons_of_ne_nil hrest, dropLast_cons_of_ne_nil hrest]
  split
  · rfl
  · rfl

/-- Induction over the words of a string. -/
theorem word_induction {P : Str → Prop} (delim : Str) (nil : P [])
    (single : ∀ str, str ≠ [] → word delim str = str → P str)
    (cons : ∀ str d rest, d ∈ delim → str = word delim str ++ d :: rest → P rest → P str)
    (str : Str) : P str := by
  induction hlen : str.length using Nat.strong_induction_on generalizing str with
  | _ n ih =>
    by_cases hne : str = []
    · rw [hne]
      exact nil
    · obtain hword | ⟨d, rest, hd, hstr⟩ := word_cases delim str
      · exact single str hne hword
      · refine cons str d rest hd hstr (ih rest.length ?_ rest rfl)
        have hsum := congrArg List.length hstr
        rw [length_append, length_cons] at hsum
        omega

theorem strtokAll_token {olds' : Option ℕ} (hcall : strtok m delim fuel s olds =
      some (some t, olds', log)) (calls : ℕ) :
    strtokAll m delim fuel (calls + 1) s olds =
      (strtokAll m delim fuel calls none olds').map fun r => (t :: r.1, log ++ r.2) := by
  rw [strtokAll, hcall]
  exact Option.map_eq_bind.symm

theorem length_rest {rest : Str} (hstr : str = word delim str ++ d :: rest) :
    str.length = (word delim str).length + 1 + rest.length := by
  have hsum := congrArg List.length hstr
  rw [length_append, length_cons] at hsum
  omega

theorem ne_nil_of_rest {rest : Str} (hstr : str = word delim str ++ d :: rest) :
    str ≠ [] := by
  rintro rfl
  have hlen := length_rest hstr
  rw [length_nil] at hlen
  omega

theorem getLast?_rest {rest : Str} (hstr : str = word delim str ++ d :: rest) :
    str.getLast? = some (rest.getLast?.getD d) := by
  rw [hstr, getLast?_append, getLast?_cons]
  rfl

theorem drop_rest {rest : Str} (hstr : str = word delim str ++ d :: rest) :
    str.drop ((word delim str).length + 1) = rest := by
  rw [← drop_drop]
  refine (congrArg (fun l => (l.drop (word delim str).length).drop 1) hstr).trans ?_
  simp only [drop_left, drop_succ_cons, drop_zero]

theorem CStr.rest {rest : Str} (h : CStr m a str) (hstr : str = word delim str ++ d :: rest) :
    CStr m (a + (word delim str).length + 1) rest := by
  have hlen := length_rest hstr
  have hnext := h.drop (show (word delim str).length + 1 ≤ str.length by omega)
  rwa [drop_rest hstr, ← Nat.add_assoc] at hnext

/-- When there is a zero behind a string that does not end with a delimiter, the calls give out the
pieces. They stay inside the string but for that byte. -/
theorem strtokAll_pieces (hdelim : delim ≠ []) (h : CStr m a str)
    (hbehind : ∀ b ∈ str.getLast?, b ∉ delim → m (a + str.length + 1) = 0)
    (hp : s.or olds = some a) (hfuel : ∀ t ∈ pieces delim str, t.length < fuel)
    (hcalls : str.length < calls) :
    ∃ log, strtokAll m delim fuel calls s olds = some (pieces delim str, log) ∧
      (∀ x, .read x ∈ log → a ≤ x ∧ (x ≤ a + str.length ∨
        x = a + str.length + 1 ∧ ∃ b ∈ str.getLast?, b ∉ delim)) ∧
      ∀ k, .write k ∈ log → ∃ t ∈ pieces delim str, k ≤ t.length := by
  induction str using word_induction delim generalizing a s olds calls with
  | nil =>
    obtain ⟨calls, rfl⟩ := Nat.exists_eq_add_of_lt hcalls
    refine ⟨[.read a], ?_, fun x hx => ?_, fun k hk => ?_⟩
    · rw [strtokAll, strtok_end hp h]
      rfl
    · simp only [mem_singleton, Access.read.injEq] at hx
      simp [hx]
    · simp at hk
  | single str hne hword =>
    -- the last byte of a word is no delimiter, and the call after it is the last one
    obtain ⟨b, hb, hnot⟩ : ∃ b ∈ str.getLast?, b ∉ delim := by
      have hmem : str.getLast hne ∈ word delim str := hword.symm ▸ getLast_mem hne
      exact ⟨_, getLast?_eq_some_getLast hne, word_notMem hmem⟩
    have hend : CStr m (a + str.length + 1) [] := hbehind b hb hnot
    have hpos := length_pos_of_ne_nil hne
    obtain ⟨calls, rfl⟩ := Nat.exists_eq_add_of_le' (show 2 ≤ calls by omega)
    rw [pieces_of_word hword hne, forall_mem_singleton] at hfuel
    obtain ⟨log, hcall, hreads, hwrites, -⟩ :=
      strtok_word hdelim hp h hne (show (word delim str).length < fuel by rwa [hword])
    rw [hword] at hcall hreads hwrites
    rw [pieces_of_word hword hne]
    refine ⟨log ++ [.read (a + str.length + 1)], ?_, fun x hx => ?_, fun k hk => ?_⟩
    · rw [strtokAll_token hcall, strtokAll, strtok_end rfl hend]
      rfl
    · obtain hx | hx := mem_append.mp hx
      · have hin := hreads x hx
        omega
      · obtain rfl : x = a + str.length + 1 := by simpa using hx
        exact ⟨by omega, Or.inr ⟨rfl, b, hb, hnot⟩⟩
    · obtain hk | hk := mem_append.mp hk
      · exact ⟨str, mem_singleton_self str, hwrites k hk⟩
      · simp at hk
  | cons str d rest hd hstr ih =>
    have hlen := length_rest hstr
    have hlast : ∀ b ∈ rest.getLast?, b ∈ str.getLast? := by
      intro b hb
      rw [getLast?_rest hstr, Option.mem_def.mp hb]
      rfl
    have hend : a + (word delim str).length + 1 + rest.length = a + str.length := by omega
    obtain ⟨calls, rfl⟩ : ∃ k, calls = k + 1 := Nat.exists_eq_succ_of_ne_zero (by omega)
    rw [pieces_of_delim hd hstr, forall_mem_cons] at hfuel
    obtain ⟨log, hcall, hreads, hwrites, -⟩ :=
      strtok_word hdelim hp h (ne_nil_of_rest hstr) hfuel.1
    obtain ⟨log', hrest, hreads', hwrites'⟩ :=
      ih (h.rest hstr) (fun b hb => hend ▸ hbehind b (hlast b hb)) (s := none) rfl hfuel.2
        (show rest.length < calls by omega)
    rw [hend] at hreads'
    rw [pieces_of_delim hd hstr]
    refine ⟨log ++ log', ?_, fun x hx => ?_, fun k hk => ?_⟩
    · rw [strtokAll_token hcall, hrest]
      rfl
    · obtain hx | hx := mem_append.mp hx
      · have hin := hreads x hx
        omega
      · obtain ⟨hlo, hin | ⟨hin, b, hb, hnot⟩⟩ := hreads' x hx
        · omega
        · exact ⟨by omega, Or.inr ⟨hin, b, hlast b hb, hnot⟩⟩
    · obtain hk | hk := mem_append.mp hk
      · exact ⟨_, mem_cons_self, hwrites k hk⟩
      · obtain ⟨t, ht, hle⟩ := hwrites' k hk
        exact ⟨t, mem_cons_of_mem _ ht, hle⟩

theorem pieces_slash (str : Str) : pieces [slash] str = Strings.tokens str := by
  have hword (str : Str) : Strings.firstToken str = word [slash] str := by
    simp [Strings.firstToken, word]
  induction str using word_induction [slash] with
  | nil => rfl
  | single str hne hsingle =>
    obtain ⟨b, str, rfl⟩ := exists_cons_of_ne_nil hne
    rw [pieces_of_word hsingle hne, Strings.tokens_cons, hword, hsingle,
      drop_eq_nil_of_le (Nat.le_succ _)]
    rfl
  | cons str d rest hd hstr ih =>
    obtain ⟨b, tail, hcons⟩ := exists_cons_of_ne_nil (ne_nil_of_rest hstr)
    rw [pieces_of_delim hd hstr, ih, hcons, Strings.tokens_cons, ← hcons, hword, drop_rest hstr]

theorem strtokAll_cbuf {rest : Mem} (hstr : 0 ∉ str) (hrest : rest 0 = 0)
    (hoff : i ≤ str.length + 1) (hfuel : ∀ t ∈ Strings.tokens (str.drop i), t.length < fuel)
    (olds : Option ℕ) :
    ∃ calls log, strtokAll (Strings.cbuf str rest) [slash] fuel calls (some i) olds =
      some (Strings.tokens (str.drop i), log) := by
  rw [← pieces_slash] at hfuel ⊢
  have hp : (some i).or olds = some i := rfl
  by_cases hbehind : i = str.length + 1
  · have hnil : str.drop i = [] := drop_eq_nil_of_le (by omega)
    have hend : CStr (Strings.cbuf str rest) i [] := by
      show Strings.cbuf str rest i = 0
      simp [Strings.cbuf, hbehind, hrest]
    rw [hnil]
    exact ⟨1, _, by rw [strtokAll, strtok_end hp hend]; rfl⟩
  · have hchars := cstr_of_chars (Strings.chars_cbuf hstr hrest (show i ≤ str.length by omega))
    obtain ⟨log, hrun, -⟩ := strtokAll_pieces (cons_ne_nil _ _) hchars.1
      (fun _ _ _ => hchars.2) hp hfuel (Nat.lt_succ_self _)
    exact ⟨_, log, hrun⟩

theorem read_mem_strtok {r : Option Str × Option ℕ × List Access} (hp : s.or olds = some a)
    (hcall : strtok m delim fuel s olds = some r) : .read a ∈ r.2.2 := by
  rw [strtok, hp] at hcall
  dsimp only at hcall
  split at hcall
  · obtain rfl := Option.some.inj hcall
    simp
  · obtain ⟨t, -, rfl⟩ := Option.map_eq_some_iff.mp hcall
    simp

theorem read_mem_strtokAll {r : List Str × List Access} (hp : s.or olds = some a)
    (hrun : strtokAll m delim fuel calls s olds = some r) : .read a ∈ r.2 := by
  cases calls with
  | zero => cases hrun
  | succ calls =>
    rw [strtokAll] at hrun
    obtain ⟨⟨token, olds', log⟩, hcall, hrest⟩ := Option.bind_eq_some_iff.mp hrun
    have hmem : .read a ∈ log := read_mem_strtok hp hcall
    cases token with
    | none =>
      obtain rfl := Option.some.inj hrest
      exact hmem
    | some t =>
      obtain ⟨⟨ts, log'⟩, -, heq⟩ := Option.bind_eq_some_iff.mp hrest
      obtain rfl := Option.some.inj heq
      exact mem_append_left _ hmem

/-- Calls that come to an end have read all that is between the first token and the zero behind
the last one. -/
theorem strtokAll_span {ts : List Str} (hdelim : delim ≠ []) (hp : s.or olds = some a)
    (hrun : strtokAll m delim fuel calls s olds = some (ts, log)) :
    .read (a + (ts.map (·.length + 1)).sum) ∈ log ∧ ∀ t ∈ ts, 0 ∉ t ∧ ∀ b ∈ t, b ∉ delim := by
  induction calls generalizing s olds a ts log with
  | zero => cases hrun
  | succ calls ih =>
    have hread := read_mem_strtokAll hp hrun
    rw [strtokAll] at hrun
    obtain ⟨⟨token, olds', first⟩, hcall, hrest⟩ := Option.bind_eq_some_iff.mp hrun
    cases token with
    | none =>
      cases hrest
      exact ⟨hread, fun t ht => absurd ht not_mem_nil⟩
    | some t =>
      obtain ⟨⟨ts', log'⟩, hnext, heq⟩ := Option.bind_eq_some_iff.mp hrest
      cases heq
      obtain ⟨rfl, hfree⟩ := strtok_token hdelim hp hcall
      obtain ⟨hspan, hall⟩ := ih rfl hnext
      refine ⟨mem_append_right _ ?_, forall_mem_cons.mpr ⟨hfree, hall⟩⟩
      rwa [map_cons, sum_cons, ← Nat.add_assoc, ← Nat.add_assoc]

theorem strtokAll_first {r : List Str × List Access} (hdelim : delim ≠ []) (h : CStr m a str)
    (hne : str ≠ []) (hp : s.or olds = some a)
    (hrun : strtokAll m delim fuel calls s olds = some r) :
    ∃ calls' log r', .write (word delim str).length ∈ log ∧
      strtokAll m delim fuel calls' none (some (a + (word delim str).length + 1)) = some r' ∧
      r.2 = log ++ r'.2 := by
  cases calls with
  | zero => cases hrun
  | succ calls =>
    obtain ⟨c, hcall, -⟩ := Option.bind_eq_some_iff.mp hrun
    have hfuel := strtok_fuel hp h hne hcall
    obtain ⟨log, hcall, -, -, hwrite⟩ := strtok_word hdelim hp h hne hfuel
    rw [strtokAll_token hcall] at hrun
    obtain ⟨r', hrest, rfl⟩ := Option.map_eq_some_iff.mp hrun
    exact ⟨calls, log, r', hwrite, hrest, rfl⟩

/-- Whatever the string, calls that come to an end write the terminator of every piece, and read
behind the string if its last byte is no delimiter. -/
theorem strtokAll_accesses {r : List Str × List Access} (hdelim : delim ≠ []) (h : CStr m a str)
    (hp : s.or olds = some a) (hrun : strtokAll m delim fuel calls s olds = some r) :
    (∀ t ∈ pieces delim str, .write t.length ∈ r.2) ∧
      ∀ b ∈ str.getLast?, b ∉ delim → .read (a + str.length + 1) ∈ r.2 := by
  induction str using word_induction delim generalizing a s olds calls r with
  | nil => exact ⟨fun t ht => absurd ht not_mem_nil, fun b hb => by cases hb⟩
  | single str hne hword =>
    obtain ⟨calls', log, r', hwrite, hrest, hlog⟩ := strtokAll_first hdelim h hne hp hrun
    rw [hword] at hwrite hrest
    rw [hlog]
    refine ⟨fun t ht => ?_, fun b hb hnot => ?_⟩
    · rw [pieces_of_word hword hne, mem_singleton] at ht
      rw [ht]
      exact mem_append_left _ hwrite
    · -- the next call starts behind the terminator
      exact mem_append_right _ (read_mem_strtokAll rfl hrest)
  | cons str d rest hd hstr ih =>
    have hlen := length_rest hstr
    obtain ⟨calls', log, r', hwrite, hrest, hlog⟩ :=
      strtokAll_first hdelim h (ne_nil_of_rest hstr) hp hrun
    obtain ⟨hwrites, hread⟩ := ih (h.rest hstr) rfl hrest
    rw [hlog]
    refine ⟨fun t ht => ?_, fun b hb hnot => ?_⟩
    · rw [pieces_of_delim hd hstr] at ht
      obtain rfl | ht := mem_cons.mp ht
      · exact mem_append_left _ hwrite
      · exact mem_append_right _ (hwrites t ht)
    · have hb' : b ∈ rest.getLast? := by
        rw [getLast?_rest hstr] at hb
        obtain rfl := Option.some.inj hb
        cases hlast : rest.getLast? with
        | none =>
          rw [hlast] at hnot
          exact absurd hd hnot
        | some b => rfl
      have hmem := hread b hb' hnot
      rw [show a + str.length + 1 = a + (word delim str).length + 1 + rest.length + 1 by omega]
      exact mem_append_right _ hmem

/-- The calls give out the pieces of the string; nothing is read but the string and its terminator,
or written but the 1000 bytes of each buffer. -/
def Exact (m : Mem) (delim : Str) (a : ℕ) (str : Str) (olds : Option ℕ) : Prop :=
  ∃ fuel calls log, strtokAll m delim fuel calls (some a) olds = some (pieces delim str, log) ∧
    (∀ x, .read x ∈ log → a ≤ x ∧ x ≤ a + str.length) ∧ ∀ k, .write k ∈ log → k < 1000

/-- Whatever is behind the string, this is so if and only if the string is empty or ends with a
delimiter and every piece leaves room for its terminator. -/
theorem strtok_exact_iff (hdelim : delim ≠ []) (h : CStr m a str) (olds : Option ℕ) :
    Exact m delim a str olds ↔
      (∀ b ∈ str.getLast?, b ∈ delim) ∧ ∀ t ∈ pieces delim str, t.length < 1000 := by
  constructor
  · rintro ⟨fuel, calls, log, hrun, hreads, hwrites⟩
    obtain ⟨hterminators, hbehind⟩ := strtokAll_accesses hdelim h rfl hrun
    refine ⟨fun b hb => ?_, fun t ht => hwrites _ (hterminators t ht)⟩
    by_contra hnot
    have hin := hreads _ (hbehind b hb hnot)
    omega
  · rintro ⟨hlast, hshort⟩
    have hp : (some a).or olds = some a := rfl
    obtain ⟨log, hrun, hreads, hwrites⟩ := strtokAll_pieces hdelim h
      (fun b hb hnot => absurd (hlast b hb) hnot) hp hshort (Nat.lt_succ_self _)
    refine ⟨_, _, log, hrun, fun x hx => ?_, fun k hk => ?_⟩
    · obtain ⟨hlo, hhi | ⟨-, b, hb, hnot⟩⟩ := hreads x hx
      · exact ⟨hlo, hhi⟩
      · exact absurd (hlast b hb) hnot
    · obtain ⟨t, ht, hle⟩ := hwrites k hk
      exact Nat.lt_of_le_of_lt hle (hshort t ht)

/-- The string `a/`, with other bytes behind it. -/
theorem strtok_exact_iff_slash :
    ∃ m : Mem, CStr m 4096 [97, 47] ∧ m 4099 = 120 ∧ Exact m [47] 4096 [97, 47] none := by
  have h : CStr (fun x => if x = 4096 then 97 else if x = 4097 then 47 else
      if x = 4098 then 0 else 120) 4096 [97, 47] :=
    ⟨rfl, by decide, rfl, by decide, rfl⟩
  have hlast : ∀ b ∈ ([97, 47] : Str).getLast?, b ∈ ([47] : Str) := fun b hb =>
    mem_singleton.mpr (Option.some.inj hb).symm
  exact ⟨_, h, rfl, (strtok_exact_iff (by decide) h none).mpr ⟨hlast, by decide⟩⟩

/-- The string `a`, with an `x` behind its terminator: the second call reads it and returns it. -/
theorem strtok_reads_behind :
    ∃ (m : Mem) (log : List Access), CStr m 4096 [97] ∧ pieces [47] [97] = [[97]] ∧
      strtokAll m [47] 2 3 (some 4096) none = some ([[97], [120]], log) ∧
      .read 4098 ∈ log ∧ ¬Exact m [47] 4096 [97] none := by
  have h : CStr (fun x => if x = 4096 then 97 else if x = 4098 then 120 else 0) 4096 [97] :=
    ⟨rfl, by decide, rfl⟩
  refine ⟨_, [.read 4096, .read 4096, .write 0, .read 4097, .write 1, .read 4098, .read 4098,
    .write 0, .read 4099, .write 1, .read 4100], h, by decide, by decide +kernel, by decide, ?_⟩
  rintro ⟨fuel, calls, log, hrun, hreads, -⟩
  have hbehind := (strtokAll_accesses (by decide) h rfl hrun).2 97 rfl (by decide)
  exact absurd (hreads _ hbehind).2 (by decide)

end KernelOld.Strtok
