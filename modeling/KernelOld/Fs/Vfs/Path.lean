import Mathlib.Algebra.Order.BigOperators.Group.List
import Mathlib.Algebra.Order.Ring.Nat
import KernelOld.Util.List
import KernelOld.Util.Strings

/-!
# Canonical paths

`vfs_mk_canonpath` of `fs/vfs/path.c`, with its token loop, the list it uses as a stack and its
count of bytes. `none` stands for an access through a null pointer or to a freed node, and for a
write behind a buffer. The byte behind the terminator of `temppath` is `rest 0`.
-/

namespace KernelOld.Vfs
open LinkedList Strings MachineWord List

def dotdot : Str := [46, 46]

def dot : Str := [46]

structure Canon where
  tokens : ListT Str
  finalsize : ℕ

def canonStep (new : ListT Str → ℕ) (st : Canon) (token : Str) : Option Canon :=
  if token = [] then some st
  else if strcmp token dotdot = 0 then
    if 0 < st.tokens.cnt then do
      let (tokens, val) ← listPopBack st.tokens
      let delToken ← val
      some { tokens, finalsize := sub64 st.finalsize (delToken.length + 1) }
    else some st
  else if strcmp token dot = 0 then some st
  else do
    let tokens ← listPushBackLive st.tokens token (new st.tokens)
    some { tokens, finalsize := u64 (st.finalsize + (token.length + 1)) }

def canonFinish (st : Canon) : Option Str := do
  let finalsize := u64 (st.finalsize + 1)
  let final ←
    if st.tokens.cnt = 0 then some [slash]
    else (listValues st.tokens).map fun vals => vals.flatMap (slash :: ·)
  if final.length < finalsize then do
    let _ ← popAll st.tokens.cnt st.tokens
    some final
  else none

def canonLoop (new : ListT Str → ℕ) : TokenLoop Canon Str where
  step st token := (canonStep new st token).map .inl
  finish := canonFinish

def temppath (path : Str) (working : Option Str) : Str :=
  match working with
  | some dir => if path.head? ≠ some slash then dir ++ slash :: path else path
  | none => path

def vfsMkCanonpath (new : ListT Str → ℕ) (rest : ℕ → UInt8) (path : Str) (working : Option Str) :
    Option Str :=
  (canonLoop new).runOn ⟨listCreate, 1⟩ (temppath path working) rest 0

def IsName (c : Str) : Prop := c ≠ [] ∧ c ≠ dot ∧ c ≠ dotdot

instance (c : Str) : Decidable (IsName c) := inferInstanceAs (Decidable (_ ∧ _))

def keep (kept : List Str) (c : Str) : List Str :=
  if c = dotdot then kept.dropLast
  else if c = [] ∨ c = dot then kept
  else kept ++ [c]

def render (cs : List Str) : Str := slash :: [slash].intercalate cs

def reduced (str : Str) : List Str := (str.splitOn slash).foldl keep []

def canonical (path : Str) (working : Option Str) : Str := render (reduced (temppath path working))

/-- One component of a canonical path. -/
structure Component (c : Str) : Prop where
  isName : IsName c
  slash_notMem : slash ∉ c
  nul_notMem : 0 ∉ c

instance (c : Str) : Decidable (Component c) :=
  decidable_of_iff (IsName c ∧ slash ∉ c ∧ 0 ∉ c)
    ⟨fun ⟨h₁, h₂, h₃⟩ => ⟨h₁, h₂, h₃⟩, fun ⟨h₁, h₂, h₃⟩ => ⟨h₁, h₂, h₃⟩⟩

/-- Some `..` removes the only kept component, and a name follows later. -/
def Refills (kept cs : List Str) : Prop :=
  ∃ i < cs.length, cs[i]? = some dotdot ∧ ((cs.take i).foldl keep kept).length = 1 ∧
    ∃ c ∈ cs.drop (i + 1), IsName c

instance (kept cs : List Str) : Decidable (Refills kept cs) :=
  inferInstanceAs (Decidable (∃ i < cs.length, _ ∧ _))

/-- What `kmalloc` returns for a node is not in use. -/
def Allocates (new : ListT Str → ℕ) : Prop :=
  ∀ l (as : List ℕ), (∀ a ∉ as, l.val a = none) → new l ≠ 0 ∧ l.val (new l) = none

def Passes (hollow : Bool) (kept cs : List Str) : Prop :=
  (∀ c ∈ cs, c.length < 1000) ∧ ¬(hollow = true ∧ ∃ c ∈ cs, IsName c) ∧ ¬Refills kept cs

/-- The list of kept components, or what `list_pop_back` has left of it. -/
structure Keeps (st : Canon) (hollow : Bool) (kept : List Str) : Prop where
  size : st.finalsize = 1 + (kept.map (·.length + 1)).sum
  short : ∀ c ∈ kept, c.length < 1000
  full : hollow = false → ∃ as, Owns st.tokens as kept
  emptied : hollow = true → Hollow st.tokens ∧ kept = []

variable {new : ListT Str → ℕ} {st : Canon} {hollow : Bool} {kept cs ts : List Str} {t : Str}

theorem exists_allocates : ∃ new, Allocates new := by
  have hfree : ∀ l : ListT Str, ∃ a, ∀ as : List ℕ, (∀ b ∉ as, l.val b = none) →
      a ≠ 0 ∧ l.val a = none := by
    intro l
    by_cases h : ∃ as : List ℕ, ∀ b ∉ as, l.val b = none
    · obtain ⟨as, has⟩ := h
      refine ⟨as.sum + 1, fun _ _ => ⟨Nat.succ_ne_zero _, has _ fun hmem => ?_⟩⟩
      exact absurd (le_sum_of_mem hmem) (Nat.not_succ_le_self _)
    · exact ⟨0, fun as has => absurd ⟨as, has⟩ h⟩
  exact ⟨fun l => (hfree l).choose, fun l => (hfree l).choose_spec⟩

theorem length_keep_le (kept : List Str) (c : Str) : (keep kept c).length ≤ kept.length + 1 := by
  rw [keep]
  split
  · simp
    omega
  · split <;> simp

theorem refills_cons : Refills kept (t :: ts) ↔
    (t = dotdot ∧ kept.length = 1 ∧ ∃ c ∈ ts, IsName c) ∨ Refills (keep kept t) ts := by
  rw [Refills, length_cons, Nat.exists_lt_succ_left]
  simp only [getElem?_cons_zero, Option.some.injEq, take_zero, foldl_nil,
    drop_succ_cons, drop_zero, getElem?_cons_succ, take_succ_cons,
    foldl_cons, Refills]

theorem passes_cons : Passes hollow kept (t :: ts) ↔
    t.length < 1000 ∧ ¬(hollow = true ∧ IsName t) ∧
      Passes (hollow || (t = dotdot ∧ kept.length = 1)) (keep kept t) ts := by
  simp only [Passes, refills_cons, forall_mem_cons, exists_mem_cons_iff,
    Bool.or_eq_true, decide_eq_true_eq]
  generalize (∃ c ∈ ts, IsName c) = names
  generalize (∀ c ∈ ts, c.length < 1000) = short
  tauto

theorem passes_append_nil : Passes hollow kept (ts ++ [[]]) ↔ Passes hollow kept ts := by
  induction ts generalizing hollow kept with
  | nil =>
    rw [nil_append, passes_cons]
    simp [Passes, Refills, IsName]
  | cons t ts ih => rw [cons_append, passes_cons, passes_cons, ih]

theorem passes_splitOn (str : Str) :
    Passes hollow kept (str.splitOn slash) ↔ Passes hollow kept (tokens str) := by
  obtain heq | heq := splitOn_eq_tokens str
  · rw [heq]
  · rw [heq, passes_append_nil]

theorem reduced_eq (str : Str) : reduced str = (tokens str).foldl keep [] := by
  rw [reduced]
  obtain heq | heq := splitOn_eq_tokens str
  · rw [heq]
  · rw [heq, foldl_append]
    rfl

theorem mem_foldl_keep {c : Str} (h : c ∈ cs.foldl keep kept) : c ∈ kept ∨ c ∈ cs ∧ IsName c := by
  induction cs generalizing kept with
  | nil => exact Or.inl h
  | cons d cs ih =>
    obtain h | ⟨hmem, hname⟩ := ih h
    · rw [keep] at h
      split at h
      · exact Or.inl (dropLast_subset _ h)
      · rename_i hdots
        split at h
        · exact Or.inl h
        · rename_i hskip
          rw [mem_append, mem_singleton] at h
          obtain h | rfl := h
          · exact Or.inl h
          · exact Or.inr ⟨mem_cons_self, fun h => hskip (.inl h), fun h => hskip (.inr h),
              hdots⟩
    · exact Or.inr ⟨mem_cons_of_mem d hmem, hname⟩

theorem tokens_render (hcs : ∀ c ∈ cs, Component c) : tokens ((render cs).drop 1) = cs :=
  tokens_intercalate (fun c hc => (hcs c hc).slash_notMem) fun c hc => (hcs c hc).isName.1

theorem flatMap_slash {c : Str} :
    (c :: cs).flatMap (slash :: ·) = render (c :: cs) := by
  induction cs generalizing c with
  | nil => simp [render]
  | cons d cs ih =>
    rw [flatMap_cons, ih, render, render, intercalate_cons_cons]
    simp

theorem notMem_render (hcs : ∀ c ∈ cs, Component c) : 0 ∉ render cs := by
  cases cs with
  | nil => decide
  | cons c cs =>
    rw [← flatMap_slash, mem_flatMap]
    rintro ⟨d, hd, hmem⟩
    obtain h | h := mem_cons.mp hmem
    · exact absurd h (by decide)
    · exact (hcs d hd).nul_notMem h

theorem length_flatMap_slash (cs : List Str) :
    (cs.flatMap (slash :: ·)).length = (cs.map (·.length + 1)).sum := by
  rw [length_flatMap]
  rfl

theorem Keeps.size_le (h : Keeps st hollow kept) : st.finalsize ≤ 1 + kept.length * 1000 := by
  have hmem : ∀ n ∈ kept.map (·.length + 1), n ≤ 1000 := by
    intro n hn
    obtain ⟨c, hc, rfl⟩ := mem_map.mp hn
    exact h.short c hc
  have hsum : (kept.map (·.length + 1)).sum ≤ (kept.map (·.length + 1)).length * 1000 :=
    sum_le_card_nsmul _ _ hmem
  rw [length_map] at hsum
  rw [h.size]
  exact Nat.add_le_add_left hsum 1

theorem keep_of_isName (h : IsName t) : keep kept t = kept ++ [t] := by
  rw [keep, if_neg h.2.2, if_neg (not_or.mpr ⟨h.1, h.2.1⟩)]

theorem keep_dotdot : keep kept dotdot = kept.dropLast := rfl

theorem canonStep_dotdot : canonStep new st dotdot =
    if 0 < st.tokens.cnt then do
      let (tokens, val) ← listPopBack st.tokens
      let delToken ← val
      some { tokens, finalsize := sub64 st.finalsize (delToken.length + 1) }
    else some st := by
  rw [canonStep, if_neg (by decide), if_pos (by decide)]

theorem canonStep_of_isName (h : IsName t) : canonStep new st t =
    (listPushBackLive st.tokens t (new st.tokens)).map fun tokens =>
      { tokens, finalsize := u64 (st.finalsize + (t.length + 1)) } := by
  rw [canonStep, if_neg h.1, if_neg (fun hs => h.2.2 (strcmp_eq_zero.mp hs).1),
    if_neg (fun hs => h.2.1 (strcmp_eq_zero.mp hs).1)]
  cases listPushBackLive st.tokens t (new st.tokens) <;> rfl

theorem canonStep_skip (h : t = [] ∨ t = dot) : canonStep new st t = some st := by
  obtain rfl | rfl := h
  · exact if_pos rfl
  · rw [canonStep, if_neg (by decide), if_neg (by decide), if_pos (by decide)]

theorem keep_skip (h : t = [] ∨ t = dot) : keep kept t = kept := by
  rw [keep, if_neg (by rintro rfl; revert h; decide), if_pos h]

theorem token_cases (t : Str) : (t = [] ∨ t = dot) ∨ t = dotdot ∨ IsName t := by
  by_cases hskip : t = [] ∨ t = dot
  · exact Or.inl hskip
  · by_cases hdots : t = dotdot
    · exact Or.inr (Or.inl hdots)
    · exact Or.inr (Or.inr ⟨fun h => hskip (.inl h), fun h => hskip (.inr h), hdots⟩)

theorem Keeps.push (h : Keeps st false kept) (hnew : Allocates new) (hname : IsName t)
    (ht : t.length < 1000) (hlt : kept.length + 1 < 2 ^ 32) :
    ∃ st', canonStep new st t = some st' ∧ Keeps st' false (kept ++ [t]) := by
  obtain ⟨as, howns⟩ := h.full rfl
  obtain ⟨hnode, hfree⟩ := hnew st.tokens as howns.free
  have hsize := h.size_le
  obtain ⟨l', hpush, hl'⟩ :=
    howns.listPushBackLive (v := t) hnode hfree (by rw [howns.length_eq]; exact hlt)
  rw [canonStep_of_isName hname, hpush]
  refine ⟨_, rfl, ?_, ?_, fun _ => ⟨_, hl'⟩, fun hc => nomatch hc⟩
  · show u64 (st.finalsize + (t.length + 1)) = _
    rw [u64_of_lt (by omega), h.size, map_append, sum_append, Nat.add_assoc]
    simp
  · intro c hc
    obtain hc | hc := mem_append.mp hc
    · exact h.short c hc
    · exact mem_singleton.mp hc ▸ ht

theorem Keeps.pop (h : Keeps st hollow kept) (hlt : kept.length < 2 ^ 32) :
    ∃ st', canonStep new st dotdot = some st' ∧
      Keeps st' (hollow || kept.length = 1) kept.dropLast := by
  have hsize := h.size_le
  cases hollow with
  | true =>
    obtain ⟨hempty, rfl⟩ := h.emptied rfl
    rw [canonStep_dotdot, if_neg (by rw [hempty.cnt_eq]; exact Nat.lt_irrefl 0)]
    exact ⟨st, rfl, h⟩
  | false =>
    obtain ⟨as, howns⟩ := h.full rfl
    have hlen := howns.length_eq
    obtain rfl | ⟨front, last, rfl⟩ := eq_nil_or_concat' kept
    · have hcnt : st.tokens.cnt = 0 := by rw [howns.cnt_eq, hlen]; rfl
      rw [canonStep_dotdot, if_neg (by rw [hcnt]; exact Nat.lt_irrefl 0)]
      exact ⟨st, rfl, h⟩
    · have hne : as ≠ [] := by
        rintro rfl
        simp at hlen
      obtain ⟨as, a, rfl⟩ := (eq_nil_or_concat' as).resolve_left hne
      obtain ⟨l', hpop, hhollow, hfull⟩ := howns.listPopBack
      have hfront : as.length = front.length := by simpa using hlen
      rw [canonStep_dotdot, if_pos (by rw [howns.cnt_eq]; simp), hpop]
      refine ⟨_, rfl, ?_, ?_, ?_, ?_⟩
      · show sub64 st.finalsize (last.length + 1) = _
        have hsum := h.size
        rw [map_append, sum_append] at hsum
        simp only [map_cons, map_nil, sum_cons, sum_nil] at hsum
        rw [sub64_of_le (by omega) (by omega), dropLast_concat]
        omega
      · intro c hc
        exact h.short c (dropLast_subset _ hc)
      · intro hone
        rw [dropLast_concat]
        refine ⟨as, hfull ?_⟩
        rintro rfl
        simp [← hfront] at hone
      · intro hone
        have hnil : front = [] := by simpa using hone
        rw [dropLast_concat]
        refine ⟨hhollow ?_, hnil⟩
        rw [hnil] at hfront
        exact length_eq_zero_iff.mp hfront

/-- One round of the loop: it fails only where a name meets the hollow list. -/
theorem Keeps.step (h : Keeps st hollow kept) (hnew : Allocates new) (ht : t.length < 1000)
    (hlt : kept.length + 1 < 2 ^ 32) :
    (hollow = true ∧ IsName t → canonStep new st t = none) ∧
      (¬(hollow = true ∧ IsName t) → ∃ st', canonStep new st t = some st' ∧
        Keeps st' (hollow || (t = dotdot ∧ kept.length = 1)) (keep kept t)) := by
  refine ⟨fun ⟨hhollow, hname⟩ => ?_, fun hok => ?_⟩
  · rw [canonStep_of_isName hname, (h.emptied hhollow).1.listPushBackLive]
    rfl
  · obtain hskip | rfl | hname := token_cases t
    · have hdots : t ≠ dotdot := by
        rintro rfl
        revert hskip
        decide
      rw [canonStep_skip hskip, keep_skip hskip]
      exact ⟨st, rfl, by simpa [hdots] using h⟩
    · simpa [keep_dotdot] using h.pop (Nat.lt_of_succ_lt hlt)
    · obtain rfl : hollow = false := by simpa [hname] using hok
      rw [keep_of_isName hname]
      simpa [hname.2.2] using h.push hnew hname ht hlt

theorem Keeps.finish (h : Keeps st hollow kept) (hlt : kept.length < 2 ^ 32) :
    canonFinish st = some (render kept) := by
  have hsize := h.size_le
  rw [canonFinish]
  by_cases hnil : kept = []
  · have hcnt : st.tokens.cnt = 0 := by
      cases hollow with
      | true => exact (h.emptied rfl).1.cnt_eq
      | false =>
        obtain ⟨as, howns⟩ := h.full rfl
        rw [howns.cnt_eq, howns.length_eq, hnil]
        rfl
    have hone : st.finalsize = 1 := by rw [h.size, hnil]; rfl
    rw [hcnt, hone, hnil]
    rfl
  · have hfull : hollow = false := by
      cases hollow with
      | true => exact absurd (h.emptied rfl).2 hnil
      | false => rfl
    obtain ⟨as, howns⟩ := h.full hfull
    obtain ⟨c, cs, rfl⟩ := exists_cons_of_ne_nil hnil
    have hlen : as.length = (c :: cs).length := howns.length_eq
    have hvals := howns.listValues_eq (by omega)
    have hcnt : as.length ≠ 0 := by
      rw [hlen]
      exact Nat.succ_ne_zero _
    obtain ⟨l', hl'⟩ := Option.isSome_iff_exists.mp howns.popAll
    have hfits : ((c :: cs).flatMap (slash :: ·)).length < u64 (st.finalsize + 1) := by
      rw [u64_of_lt (by omega), length_flatMap_slash, h.size]
      omega
    rw [flatMap_slash] at hfits
    simp only [howns.cnt_eq, if_neg hcnt, hvals, Option.map_some, flatMap_slash,
      Option.bind_eq_bind, Option.bind_some, if_pos hfits, hl']

theorem Keeps.feed (h : Keeps st hollow kept) (hnew : Allocates new)
    (hlt : kept.length + ts.length < 2 ^ 32) :
    (Passes hollow kept ts → (canonLoop new).feed st ts = some (render (ts.foldl keep kept))) ∧
      (¬Passes hollow kept ts → (canonLoop new).feed st ts = none) := by
  induction ts generalizing st hollow kept with
  | nil =>
    refine ⟨fun _ => h.finish hlt, fun hno => absurd ?_ hno⟩
    simp [Passes, Refills]
  | cons t ts ih =>
    rw [passes_cons, TokenLoop.feed]
    rw [length_cons] at hlt
    by_cases ht : t.length < 1000
    · obtain ⟨hbad, hgood⟩ := h.step hnew ht (by omega)
      rw [if_pos ht]
      by_cases hname : hollow = true ∧ IsName t
      · refine ⟨fun hpass => absurd hname hpass.2.1, fun _ => ?_⟩
        simp [canonLoop, hbad hname]
      · obtain ⟨st', hstep, hst'⟩ := hgood hname
        have hnext := ih hst' (by have := length_keep_le kept t; omega)
        simpa [canonLoop, hstep, ht, hname] using hnext
    · rw [if_neg ht]
      exact ⟨fun hpass => absurd hpass.1 ht, fun _ => rfl⟩

theorem keeps_start : Keeps ⟨listCreate, 1⟩ false [] where
  size := rfl
  short _ hc := absurd hc not_mem_nil
  full _ := ⟨[], owns_listCreate⟩
  emptied h := nomatch h

theorem notMem_temppath {path : Str} {working : Option Str} (hpath : 0 ∉ path)
    (hworking : ∀ dir ∈ working, 0 ∉ dir) : 0 ∉ temppath path working := by
  cases working with
  | none => exact hpath
  | some dir =>
    rw [temppath]
    split
    · rw [mem_append, mem_cons, not_or, not_or]
      exact ⟨hworking dir rfl, by decide, hpath⟩
    · exact hpath

variable {rest : ℕ → UInt8} {path : Str} {working : Option Str}

theorem vfsMkCanonpath_eq (hnew : Allocates new) (hrest : rest 0 = 0) (hpath : 0 ∉ path)
    (hworking : ∀ dir ∈ working, 0 ∉ dir) (hlen : (temppath path working).length < 2 ^ 32) :
    (Passes false [] ((temppath path working).splitOn slash) →
        vfsMkCanonpath new rest path working = some (canonical path working)) ∧
      (¬Passes false [] ((temppath path working).splitOn slash) →
        vfsMkCanonpath new rest path working = none) := by
  have hrun : vfsMkCanonpath new rest path working = _ :=
    TokenLoop.runOn_eq (notMem_temppath hpath hworking) hrest (Nat.zero_le _)
  have hle := length_tokens_le (temppath path working)
  rw [hrun, drop_zero, passes_splitOn, canonical, reduced_eq]
  refine keeps_start.feed hnew ?_
  rw [length_nil, Nat.zero_add]
  exact Nat.lt_of_le_of_lt hle hlen

def Canon.NulFree (st : Canon) : Prop := ∀ a str, st.tokens.val a = some str → 0 ∉ str

theorem Canon.NulFree.step {st' : Canon} (h : st.NulFree) (ht : 0 ∉ t)
    (hstep : canonStep new st t = some st') : st'.NulFree := by
  rw [canonStep] at hstep
  split_ifs at hstep
  · cases hstep
    exact h
  · obtain ⟨⟨tokens, val⟩, hpop, hrest⟩ := Option.bind_eq_some_iff.mp hstep
    obtain ⟨delToken, -, heq⟩ := Option.bind_eq_some_iff.mp hrest
    cases heq
    exact fun a str hval => h a str (listPopBack_val hpop hval)
  · cases hstep
    exact h
  · cases hstep
    exact h
  · obtain ⟨tokens, hpush, heq⟩ := Option.bind_eq_some_iff.mp hstep
    cases heq
    obtain ⟨-, hpush⟩ := Option.ite_none_right_eq_some.mp hpush
    cases hpush
    intro a str hval
    rw [listPushBack_val] at hval
    by_cases ha : a = new st.tokens
    · rw [ha, Function.update_self] at hval
      cases hval
      exact ht
    · rw [Function.update_of_ne ha] at hval
      exact h a str hval

theorem Canon.NulFree.finish {final : Str} (h : st.NulFree)
    (hfinish : canonFinish st = some final) : 0 ∉ final := by
  -- both branches end with the same check, which gives their string back
  have hcheck : ∀ str : Str, (if str.length < u64 (st.finalsize + 1) then
      (popAll st.tokens.cnt st.tokens).bind fun _ => some str else none) = some final →
        str = final := by
    intro str hstr
    obtain ⟨-, hpop⟩ := Option.ite_none_right_eq_some.mp hstr
    obtain ⟨_, -, heq⟩ := Option.bind_eq_some_iff.mp hpop
    exact Option.some.inj heq
  rw [canonFinish] at hfinish
  split_ifs at hfinish
  · rw [← hcheck _ hfinish]
    decide
  · obtain ⟨str, hstr, hrest⟩ := Option.bind_eq_some_iff.mp hfinish
    rw [← hcheck _ hrest]
    obtain ⟨vals, hvals, rfl⟩ := Option.map_eq_some_iff.mp hstr
    obtain ⟨nodes, -, hvals⟩ := Option.bind_eq_some_iff.mp hvals
    rw [mem_flatMap]
    rintro ⟨val, hval, hmem⟩
    obtain ⟨node, hnode⟩ := exists_of_mem_mapM hvals hval
    rcases mem_cons.mp hmem with hslash | hmem
    · cases hslash
    · exact h node val hnode hmem

theorem vfsMkCanonpath_nul_notMem {final : Str}
    (h : vfsMkCanonpath new rest path working = some final) : 0 ∉ final := by
  refine TokenLoop.run_induction (I := Canon.NulFree) (Q := (0 ∉ ·))
    (fun st t st' hst ht hstep => ?_) (fun st t r _ _ hstep => ?_)
    (fun st r hst hfinish => hst.finish hfinish) ?_ h
  · obtain ⟨next, hnext, heq⟩ := Option.map_eq_some_iff.mp hstep
    cases heq
    exact hst.step ht hnext
  · obtain ⟨next, -, heq⟩ := Option.map_eq_some_iff.mp hstep
    cases heq
  · intro a str hval
    cases hval

/-- With components that fit into the tokens, `vfs_mk_canonpath` returns the canonical path
exactly if it need not fill the list again. -/
theorem vfsMkCanonpath_canonical (hnew : Allocates new) (hrest : rest 0 = 0) (hpath : 0 ∉ path)
    (hworking : ∀ dir ∈ working, 0 ∉ dir) (hlen : (temppath path working).length < 2 ^ 32)
    (hshort : ∀ c ∈ (temppath path working).splitOn slash, c.length < 1000) :
    vfsMkCanonpath new rest path working = some (canonical path working) ↔
      ¬Refills [] ((temppath path working).splitOn slash) := by
  obtain ⟨hpass, hfail⟩ := vfsMkCanonpath_eq hnew hrest hpath hworking hlen
  refine ⟨fun hsome hrefills => ?_, fun hrefills => hpass ⟨hshort, by simp, hrefills⟩⟩
  rw [hfail fun h => h.2.2 hrefills] at hsome
  cases hsome

-- The path `../b/./..//c` from `/x/y` gives `/x/c`.
theorem vfsMkCanonpath_canonical_relative : ∃ new, Allocates new ∧
    vfsMkCanonpath new (fun _ => 0) [46, 46, 47, 98, 47, 46, 47, 46, 46, 47, 47, 99]
      (some [47, 120, 47, 121]) = some [47, 120, 47, 99] := by
  obtain ⟨new, hnew⟩ := exists_allocates
  refine ⟨new, hnew, ?_⟩
  exact (vfsMkCanonpath_canonical hnew rfl (by decide) (by decide) (by decide) (by decide)).mpr
    (by decide)

/-- The path `/a/../b`: the second name goes on a list whose tail is null. -/
theorem vfsMkCanonpath_refill : ∃ new, Allocates new ∧
    vfsMkCanonpath new (fun _ => 0) [47, 97, 47, 46, 46, 47, 98] none = none ∧
      canonical [47, 97, 47, 46, 46, 47, 98] none = [47, 98] := by
  obtain ⟨new, hnew⟩ := exists_allocates
  refine ⟨new, hnew, ?_, by decide⟩
  exact (vfsMkCanonpath_eq hnew rfl (by decide) (by decide) (by decide)).2 fun h =>
    h.2.2 (by decide)

end KernelOld.Vfs
