import Mathlib.Data.List.Basic
import KernelOld.Lib.MachineWord

/-!
# Strings and tokens

`strcmp`, `strncmp` and `strtok` of `util/stdlib.c`. A string is the list of its bytes up to the
terminator. `strtok` goes one byte past the terminator when it has found the last token; `Chars`
says that this byte is zero. The three loops of `fs/vfs` that call it are of one shape
(`TokenLoop`).
-/

namespace KernelOld.Strings
open List

abbrev Str := List UInt8

def slash : UInt8 := 47

/-- `strcmp`, which also returns 1 when one of the strings is empty. -/
def strcmp (str1 str2 : Str) : ℤ :=
  if str1 = [] ∨ str2 = [] ∨ str1.length ≠ str2.length then 1
  else
    match (str1.zip str2).find? fun b => b.1 ≠ b.2 with
    | some (b₁, b₂) => b₁.toInt8.toInt - b₂.toInt8.toInt
    | none => 0

/-- `strncmp`, for strings of at least `n` bytes. It does not stop at a terminator. -/
def strncmp (str1 str2 : Str) (n : ℕ) : ℤ :=
  match ((str1.take n).zip (str2.take n)).find? fun b => b.1 ≠ b.2 with
  | some (b₁, b₂) => b₁.toInt8.toInt - b₂.toInt8.toInt
  | none => 0

variable {str1 str2 t : Str} {rest : ℕ → UInt8} {n : ℕ}

theorem toInt8_toInt_inj {b₁ b₂ : UInt8} (h : b₁.toInt8.toInt = b₂.toInt8.toInt) : b₁ = b₂ := by
  have h8 : b₁.toInt8 = b₂.toInt8 := Int8.toInt.inj h
  exact (UInt8.toUInt8_toInt8 b₁).symm.trans ((congrArg Int8.toUInt8 h8).trans b₂.toUInt8_toInt8)

theorem find?_zip_ne (str1 str2 : Str) (hlen : str1.length = str2.length) :
    ((str1.zip str2).find? fun b => b.1 ≠ b.2) = none ↔ str1 = str2 := by
  induction str1 generalizing str2 with
  | nil =>
    obtain rfl := length_eq_zero_iff.mp hlen.symm
    simp
  | cons a str1 ih =>
    cases str2 with
    | nil => simp at hlen
    | cons b str2 =>
      rw [length_cons, length_cons, Nat.add_right_cancel_iff] at hlen
      rw [zip_cons_cons, find?_cons]
      by_cases hab : a = b
      · simpa [hab] using ih str2 hlen
      · simp [hab]

theorem find?_zip_some {b : UInt8 × UInt8} (hlen : str1.length = str2.length)
    (h : ((str1.zip str2).find? fun b => b.1 ≠ b.2) = some b) :
    b.1.toInt8.toInt - b.2.toInt8.toInt ≠ 0 ∧ str1 ≠ str2 := by
  have hdiff : b.1 ≠ b.2 := by simpa using find?_some h
  refine ⟨fun hzero => hdiff (toInt8_toInt_inj (by omega)), fun heq => ?_⟩
  rw [(find?_zip_ne str1 str2 hlen).mpr heq] at h
  cases h

theorem strcmp_eq_zero : strcmp str1 str2 = 0 ↔ str1 = str2 ∧ str1 ≠ [] := by
  rw [strcmp]
  by_cases hne : str1 = [] ∨ str2 = [] ∨ str1.length ≠ str2.length
  · rw [if_pos hne]
    refine iff_of_false (by decide) fun ⟨heq, hnil⟩ => ?_
    subst heq
    simp [hnil] at hne
  · rw [if_neg hne]
    simp only [not_or, not_not] at hne
    obtain ⟨hnil, -, hlen⟩ := hne
    cases hfind : (str1.zip str2).find? fun b => b.1 ≠ b.2 with
    | none => simpa [hnil] using (find?_zip_ne str1 str2 hlen).mp hfind
    | some b =>
      obtain ⟨hdiff, hstr⟩ := find?_zip_some hlen hfind
      exact iff_of_false hdiff fun h => hstr h.1

theorem strncmp_eq_zero (hlen : str1.length = str2.length) :
    strncmp str1 str2 str1.length = 0 ↔ str1 = str2 := by
  rw [strncmp, take_length, hlen, take_length]
  cases hfind : (str1.zip str2).find? fun b => b.1 ≠ b.2 with
  | none => exact iff_of_true rfl ((find?_zip_ne str1 str2 hlen).mp hfind)
  | some b =>
    obtain ⟨hdiff, hstr⟩ := find?_zip_some hlen hfind
    exact iff_of_false hdiff hstr

/-- A pointer into a buffer. -/
structure Ptr where
  buf : ℕ → UInt8
  off : ℕ

variable {p olds : Option Ptr}

/-- The loop of `strtok` with the delimiter `/`, with room for that many bytes in the result. -/
def scan (s : Ptr) : ℕ → ℕ → Option ℕ
  | 0, _ => none
  | room + 1, i =>
    if s.buf (s.off + i) = 0 ∨ s.buf (s.off + i) = slash then some i else scan s room (i + 1)

def copied (buf : ℕ → UInt8) : ℕ → ℕ → Str
  | _, 0 => []
  | off, n + 1 => buf off :: copied buf (off + 1) n

/-- The result has 1000 bytes, and `none` stands for a write behind them. -/
def strtok (s olds : Option Ptr) : Option (Option Str × Option Ptr) :=
  match s.or olds with
  | none => some (none, none)
  | some s =>
    if s.buf s.off = 0 then some (none, some s)
    else (scan s 1000 0).map fun i => (some (copied s.buf s.off i), some ⟨s.buf, s.off + i + 1⟩)

def cbuf (str : Str) (rest : ℕ → UInt8) (i : ℕ) : UInt8 :=
  if i < str.length then str.getD i 0
  else if i = str.length then 0
  else rest (i - str.length - 1)

def tokens : Str → List Str
  | [] => []
  | b :: str =>
    if b = slash then [] :: tokens str
    else
      match tokens str with
      | [] => [[b]]
      | t :: ts => (b :: t) :: ts

def Chars (buf : ℕ → UInt8) : ℕ → Str → Prop
  | off, [] => buf off = 0 ∧ buf (off + 1) = 0
  | off, b :: str => buf off = b ∧ b ≠ 0 ∧ Chars buf (off + 1) str

def Streams (s : Ptr) (ts : List Str) : Prop :=
  (s.buf s.off = 0 ∧ ts = []) ∨ ∃ str, str ≠ [] ∧ Chars s.buf s.off str ∧ ts = tokens str

def firstToken (str : Str) : Str := str.takeWhile fun b => b ≠ slash

theorem tokens_eq_nil {str : Str} : tokens str = [] ↔ str = [] := by
  cases str with
  | nil => simp [tokens]
  | cons b str =>
    rw [tokens]
    split
    · simp
    · split <;> simp

theorem tokens_cons (b : UInt8) (str : Str) : tokens (b :: str) =
    firstToken (b :: str) :: tokens ((b :: str).drop ((firstToken (b :: str)).length + 1)) := by
  induction str generalizing b with
  | nil =>
    by_cases hb : b = slash
    · simp [tokens, firstToken, hb]
    · simp [tokens, firstToken, hb]
  | cons a str ih =>
    by_cases hb : b = slash
    · simp [tokens, firstToken, hb]
    · rw [tokens, if_neg hb, ih a]
      simp [firstToken, hb]

theorem length_tokens_le (str : Str) : (tokens str).length ≤ str.length := by
  induction str with
  | nil => exact Nat.le_refl 0
  | cons b str ih =>
    rw [tokens]
    split
    · exact Nat.succ_le_succ ih
    · split
      · simp
      · rename_i heq
        rw [heq] at ih
        exact Nat.le_succ_of_le ih

theorem exists_mem_tokens_of_drop {str : Str} (ht : t ∈ tokens (str.drop 1)) :
    ∃ t' ∈ tokens str, t.length ≤ t'.length := by
  cases str with
  | nil => cases ht
  | cons b str =>
    rw [drop_succ_cons, drop_zero] at ht
    rw [tokens]
    split
    · exact ⟨t, mem_cons_of_mem _ ht, le_rfl⟩
    · split
      · rename_i heq
        rw [heq] at ht
        cases ht
      · rename_i t' ts heq
        rw [heq] at ht
        obtain rfl | ht := mem_cons.mp ht
        · exact ⟨b :: t, mem_cons_self, Nat.le_succ _⟩
        · exact ⟨t, mem_cons_of_mem _ ht, le_rfl⟩

theorem splitOn_eq_tokens (str : Str) :
    str.splitOn slash = tokens str ∨ str.splitOn slash = tokens str ++ [[]] := by
  induction str with
  | nil => exact Or.inr rfl
  | cons b str ih =>
    rw [splitOn_eq_splitOnP] at ih ⊢
    rw [splitOnP_cons_eq_if_modifyHead, tokens]
    by_cases hb : b = slash
    · rw [if_pos hb, if_pos (beq_iff_eq.mpr hb)]
      exact ih.imp (congrArg _) (congrArg _)
    · rw [if_neg hb, if_neg (mt beq_iff_eq.mp hb)]
      cases htokens : tokens str with
      | nil =>
        obtain rfl := tokens_eq_nil.mp htokens
        exact Or.inl rfl
      | cons t ts =>
        rw [htokens] at ih
        refine ih.imp (fun h => ?_) fun h => ?_
        · rw [h]
          rfl
        · rw [h]
          rfl

theorem mem_splitOn_of_mem_tokens {str : Str} (ht : t ∈ tokens str) :
    t ∈ str.splitOn slash := by
  obtain heq | heq := splitOn_eq_tokens str
  · rwa [heq]
  · rw [heq]
    exact mem_append_left _ ht

theorem tokens_intercalate {cs : List Str} (hslash : ∀ c ∈ cs, slash ∉ c)
    (hnil : ∀ c ∈ cs, c ≠ []) : tokens ([slash].intercalate cs) = cs := by
  by_cases hcs : cs = []
  · rw [hcs]
    rfl
  · have hsplit := splitOn_intercalate slash hslash hcs
    obtain heq | heq := splitOn_eq_tokens ([slash].intercalate cs)
    · rw [← heq, hsplit]
    · rw [hsplit] at heq
      exact absurd rfl (hnil [] (by rw [heq]; simp))

variable {buf : ℕ → UInt8} {s : Ptr} {str : Str} {off i room : ℕ}

theorem chars_cbuf (hstr : 0 ∉ str) (hrest : rest 0 = 0) (hoff : off ≤ str.length) :
    Chars (cbuf str rest) off (str.drop off) := by
  have hgen : ∀ pre suf : Str, pre ++ suf = str → Chars (cbuf str rest) pre.length suf := by
    intro pre suf
    induction suf generalizing pre with
    | nil =>
      rintro rfl
      constructor
      · simp [cbuf]
      · simpa [cbuf] using hrest
    | cons b suf ih =>
      intro heq
      refine ⟨?_, ?_, ?_⟩
      · subst heq
        simp [cbuf]
      · rintro rfl
        exact hstr (heq ▸ mem_append_right _ mem_cons_self)
      · have hnext := ih (pre ++ [b]) (by simpa using heq)
        rwa [length_append, length_singleton] at hnext
  have hcut := hgen (str.take off) (str.drop off) (take_append_drop off str)
  rwa [length_take, Nat.min_eq_left hoff] at hcut

theorem streams_cbuf (hstr : 0 ∉ str) (hrest : rest 0 = 0) (hoff : off ≤ str.length + 1) :
    Streams ⟨cbuf str rest, off⟩ (tokens (str.drop off)) := by
  by_cases hbehind : off = str.length + 1
  · rw [drop_eq_nil_of_le (by omega)]
    refine Or.inl ⟨?_, rfl⟩
    simp [cbuf, hbehind, hrest]
  have hchars := chars_cbuf hstr hrest (show off ≤ str.length by omega)
  by_cases hnil : str.drop off = []
  · rw [hnil] at hchars ⊢
    exact Or.inl ⟨hchars.1, rfl⟩
  · exact Or.inr ⟨_, hnil, hchars, rfl⟩

theorem scan_eq (h : Chars s.buf (s.off + i) str) :
    scan s room i = if (firstToken str).length < room then some (i + (firstToken str).length)
      else none := by
  induction str generalizing room i with
  | nil =>
    cases room with
    | zero => rfl
    | succ room => simp [scan, h.1, firstToken]
  | cons b str ih =>
    obtain ⟨hb, hne, hrest⟩ := h
    cases room with
    | zero => rfl
    | succ room =>
      rw [scan, hb]
      by_cases hslash : b = slash
      · simp [firstToken, hslash]
      · have hlen : (firstToken (b :: str)).length = (firstToken str).length + 1 := by
          simp [firstToken, hslash]
        rw [if_neg (by simp [hne, hslash]), ih (by rwa [Nat.add_assoc] at hrest), hlen]
        simp only [Nat.add_lt_add_iff_right]
        congr 2
        omega

theorem getElem?_copied (buf : ℕ → UInt8) (off n i : ℕ) :
    (copied buf off n)[i]? = if i < n then some (buf (off + i)) else none := by
  induction n generalizing off i with
  | zero => rfl
  | succ n ih =>
    cases i with
    | zero => rfl
    | succ i =>
      rw [copied, getElem?_cons_succ, ih, Nat.add_right_comm, Nat.add_assoc]
      simp only [Nat.add_lt_add_iff_right]

theorem length_copied (buf : ℕ → UInt8) (off n : ℕ) : (copied buf off n).length = n := by
  induction n generalizing off with
  | zero => rfl
  | succ n ih => rw [copied, length_cons, ih]

theorem copied_congr {buf' : ℕ → UInt8} (h : ∀ k < n, buf' (off + k) = buf (off + k)) :
    copied buf' off n = copied buf off n := by
  refine ext_getElem? fun k => ?_
  rw [getElem?_copied, getElem?_copied]
  split
  · rw [h k (by assumption)]
  · rfl

theorem mem_copied {b : UInt8} (hb : b ∈ copied buf off n) :
    ∃ k < n, b = buf (off + k) := by
  obtain ⟨k, hk⟩ := mem_iff_getElem?.mp hb
  rw [getElem?_copied] at hk
  split_ifs at hk with hlt
  exact ⟨k, hlt, (Option.some.inj hk).symm⟩

theorem copied_eq (h : Chars buf off str) :
    copied buf off (firstToken str).length = firstToken str := by
  induction str generalizing off with
  | nil => rfl
  | cons b str ih =>
    obtain ⟨hb, -, hrest⟩ := h
    by_cases hslash : b = slash
    · simp [firstToken, hslash, copied]
    · have htoken : firstToken (b :: str) = b :: firstToken str := by simp [firstToken, hslash]
      rw [htoken, length_cons, copied, hb, ih hrest]

theorem streams_after (h : Chars buf off str) :
    Streams ⟨buf, off + (firstToken str).length + 1⟩
      (tokens (str.drop ((firstToken str).length + 1))) := by
  induction str generalizing off with
  | nil => exact Or.inl ⟨h.2, rfl⟩
  | cons b str ih =>
    obtain ⟨hb, hne, hrest⟩ := h
    by_cases hslash : b = slash
    · simp only [firstToken, hslash, ne_eq, not_true_eq_false, decide_false, Bool.false_eq_true,
        not_false_eq_true, takeWhile_cons_of_neg, length_nil, Nat.zero_add,
        drop_succ_cons, drop_zero, Nat.add_zero]
      cases str with
      | nil => exact Or.inl ⟨hrest.1, rfl⟩
      | cons a str => exact Or.inr ⟨a :: str, cons_ne_nil _ _, hrest, rfl⟩
    · have hlen : (firstToken (b :: str)).length = (firstToken str).length + 1 := by
        simp [firstToken, hslash]
      rw [hlen, drop_succ_cons, ← Nat.add_assoc, Nat.add_right_comm off]
      exact ih hrest

theorem strtok_nil (hp : p.or olds = some s) (h : Streams s []) :
    strtok p olds = some (none, some s) := by
  rw [strtok, hp]
  obtain ⟨hzero, -⟩ | ⟨str, hne, -, htokens⟩ := h
  · exact if_pos hzero
  · exact absurd (tokens_eq_nil.mp htokens.symm) hne

theorem strtok_cons {ts : List Str} (hp : p.or olds = some s) (h : Streams s (t :: ts)) :
    (t.length < 1000 → ∃ s', strtok p olds = some (some t, some s') ∧ Streams s' ts) ∧
      (1000 ≤ t.length → strtok p olds = none) := by
  obtain ⟨-, hnil⟩ | ⟨str, hne, hchars, htokens⟩ := h
  · cases hnil
  obtain ⟨b, str, rfl⟩ := exists_cons_of_ne_nil hne
  rw [tokens_cons] at htokens
  obtain ⟨rfl, rfl⟩ := List.cons.inj htokens
  have hzero : s.buf s.off ≠ 0 := by
    rw [hchars.1]
    exact hchars.2.1
  have hscan : scan s 1000 0 = _ := scan_eq (i := 0) hchars
  rw [strtok, hp]
  simp only [if_neg hzero, hscan]
  refine ⟨fun hlt => ?_, fun hle => ?_⟩
  · rw [if_pos hlt, Nat.zero_add, Option.map_some, copied_eq hchars]
    exact ⟨_, rfl, streams_after hchars⟩
  · rw [if_neg (Nat.not_lt.mpr hle), Option.map_none]

theorem scan_ne_zero (h : scan s room i = some n) :
    ∀ k, i ≤ k → k < n → s.buf (s.off + k) ≠ 0 := by
  induction room generalizing i with
  | zero => cases h
  | succ room ih =>
    intro k hik hkn
    rw [scan] at h
    split_ifs at h with hstop
    · cases h
      omega
    · rcases Nat.eq_or_lt_of_le hik with rfl | hlt
      · exact fun hzero => hstop (Or.inl hzero)
      · exact ih h k hlt hkn

theorem strtok_nul_notMem {olds' : Option Ptr} (h : strtok p olds = some (some t, olds')) :
    0 ∉ t := by
  rw [strtok] at h
  cases hp : p.or olds with
  | none =>
    rw [hp] at h
    cases h
  | some s =>
    rw [hp] at h
    dsimp only at h
    split_ifs at h
    · cases h
    · obtain ⟨n, hscan, heq⟩ := Option.map_eq_some_iff.mp h
      cases heq
      intro hmem
      obtain ⟨k, hk, hbyte⟩ := mem_copied hmem
      exact scan_ne_zero hscan k (Nat.zero_le k) hk hbyte.symm

/-- `step` is the body, and `finish` is what follows when `strtok` has returned null. -/
structure TokenLoop (σ ρ : Type) where
  step : σ → Str → Option (σ ⊕ ρ)
  finish : σ → Option ρ

namespace TokenLoop

variable {σ ρ : Type} (L : TokenLoop σ ρ)

def run : ℕ → σ → Option Ptr → Option Ptr → Option ρ
  | 0, _, _, _ => none
  | calls + 1, st, s, olds => do
    let (token, olds) ← strtok s olds
    match token with
    | none => L.finish st
    | some t =>
      match ← L.step st t with
      | .inl st => run calls st none olds
      | .inr r => some r

def runOn (st : σ) (str : Str) (rest : ℕ → UInt8) (off : ℕ) : Option ρ :=
  L.run (str.length + 1) st (some ⟨cbuf str rest, off⟩) none

def feed : σ → List Str → Option ρ
  | st, [] => L.finish st
  | st, t :: ts =>
    if t.length < 1000 then do
      match ← L.step st t with
      | .inl st => feed st ts
      | .inr r => some r
    else none

variable {L}

theorem run_eq {calls : ℕ} {st : σ} {ts : List Str} (hp : p.or olds = some s) (h : Streams s ts)
    (hcalls : ts.length < calls) :
    L.run calls st p olds = L.feed st ts := by
  induction ts generalizing calls st p olds s with
  | nil =>
    cases calls with
    | zero => exact absurd hcalls (Nat.not_lt_zero _)
    | succ calls =>
      rw [run, strtok_nil hp h, feed]
      rfl
  | cons t ts ih =>
    cases calls with
    | zero => exact absurd hcalls (Nat.not_lt_zero _)
    | succ calls =>
      obtain ⟨hfits, hlong⟩ := strtok_cons hp h
      rw [run, feed]
      by_cases hlt : t.length < 1000
      · obtain ⟨s', htok, hnext⟩ := hfits hlt
        rw [if_pos hlt, htok]
        cases hstep : L.step st t with
        | none => simp [hstep]
        | some next =>
          cases next with
          | inl st' => simpa [hstep] using ih (by simp) hnext (Nat.lt_of_succ_lt_succ hcalls)
          | inr r => simp [hstep]
      · rw [if_neg hlt, hlong (Nat.le_of_not_lt hlt)]
        rfl

theorem runOn_eq {st : σ} (hstr : 0 ∉ str) (hrest : rest 0 = 0) (hoff : off ≤ str.length + 1) :
    L.runOn st str rest off = L.feed st (tokens (str.drop off)) := by
  refine run_eq rfl (streams_cbuf hstr hrest hoff) (Nat.lt_succ_of_le ?_)
  calc (tokens (str.drop off)).length ≤ (str.drop off).length := length_tokens_le _
    _ ≤ str.length := by simp

/-- What every round keeps, and what follows from it when the loop is left, holds of the result,
whatever is in memory. -/
theorem run_induction {I : σ → Prop} {Q : ρ → Prop}
    (hstep : ∀ st t st', I st → 0 ∉ t → L.step st t = some (.inl st') → I st')
    (hreturn : ∀ st t r, I st → 0 ∉ t → L.step st t = some (.inr r) → Q r)
    (hfinish : ∀ st r, I st → L.finish st = some r → Q r) {calls : ℕ} {st : σ} {r : ρ}
    (hst : I st) (hrun : L.run calls st p olds = some r) : Q r := by
  induction calls generalizing st p olds with
  | zero => cases hrun
  | succ calls ih =>
    obtain ⟨⟨token, olds'⟩, hcall, hrest⟩ := Option.bind_eq_some_iff.mp hrun
    cases token with
    | none => exact hfinish st r hst hrest
    | some t =>
      have ht := strtok_nul_notMem hcall
      obtain ⟨next, hnext, hgo⟩ := Option.bind_eq_some_iff.mp hrest
      cases next with
      | inl st' => exact ih (hstep st t st' hst ht hnext) hgo
      | inr r' =>
        cases hgo
        exact hreturn st t r hst ht hnext

end TokenLoop

end KernelOld.Strings
