import Mathlib.Data.List.GetD
import KernelOld.Fs.Vfs.Resolve
import KernelOld.Lib.Trace
import KernelOld.Util.Strtok

/-!
# The buffer of a canonical path

The bytes that `vfs_mk_canonpath` of `fs/vfs/path.c` writes to `final`. `finalsize` is 2 more than
the bytes of the components with their slashes (`Counted`). `tokenTrace` is a loop over the tokens
of a string with the bytes that `strtok` reads.
-/

namespace KernelOld.Vfs
open ByteMemory MachineWord Strings Strtok Trace List

/-! ## The model -/

variable {σ ρ : Type}

/-- There is no result when a token has `fuel` bytes. -/
def tokenTrace (L : TokenLoop σ ρ) (m : Mem) (fuel : ℕ) :
    ℕ → σ → Option ℕ → Option ℕ → Traced Access ρ
  | 0, _, _, _ => .lift none
  | calls + 1, st, s, olds => do
    let (token, olds, log) ← .lift (Strtok.strtok m [slash] fuel s olds)
    let _ ← ⟨log, some PUnit.unit⟩
    match token with
    | none => .lift (L.finish st)
    | some t =>
      match ← .lift (L.step st t) with
      | .inl st => tokenTrace L m fuel calls st none olds
      | .inr r => pure r

structure CanonSeq where
  tokens : List Str
  finalsize : ℕ

def canonSeqStep (st : CanonSeq) (token : Str) : CanonSeq :=
  if token = [] then st
  else if strcmp token dotdot = 0 then
    match st.tokens.getLast? with
    | some delToken =>
      { tokens := st.tokens.dropLast, finalsize := sub64 st.finalsize (delToken.length + 1) }
    | none => st
  else if strcmp token dot = 0 then st
  else
    { tokens := st.tokens ++ [token], finalsize := u64 (st.finalsize + (token.length + 1)) }

def canonSeqLoop : TokenLoop CanonSeq CanonSeq where
  step st token := some (.inl (canonSeqStep st token))
  finish := some

def canonTokens (m : Mem) (fuel calls temppath : ℕ) (olds : Option ℕ) : Traced Access CanonSeq :=
  tokenTrace canonSeqLoop m fuel calls ⟨[], 1⟩ (some temppath) olds

def strlen (str : Mem) : ℕ → ℕ → Option ℕ
  | 0, _ => none
  | fuel + 1, s => if str s = 0 then some s else strlen str fuel (s + 1)

def strcpy (buf : Mem) (dst : ℕ) (src : Str) : Traced ℕ Mem :=
  ⟨(List.range (src.length + 1)).map (dst + ·),
    some (blit buf dst (fun i => src.getD i 0) 0 (src.length + 1))⟩

/-- `strcpy(final + strlen(final), src)`. There is no result when `strlen` reads behind the
buffer. -/
def strcpyEnd (size : ℕ) (final : Mem) (src : Str) : Traced ℕ Mem := do
  let n ← .lift (strlen final size 0)
  strcpy final n src

def appendTokens (size : ℕ) : List Str → Mem → Traced ℕ Mem
  | [], final => pure final
  | token :: tokens, final => do
    let final ← strcpyEnd size final [slash]
    let final ← strcpyEnd size final token
    appendTokens size tokens final

def CanonSeq.size (st : CanonSeq) : ℕ := u64 (st.finalsize + 1)

def canonFill (st : CanonSeq) (final : Mem) : Traced ℕ Mem :=
  if st.tokens.length = 0 then strcpy final 0 [slash]
  else appendTokens st.size st.tokens final

/-! ## What the buffer is to be -/

def textSize (cs : List Str) : ℕ := (cs.map (·.length + 1)).sum

structure CanonBuffer (size : ℕ) (kept : List Str) (final : Mem) : Prop where
  path : CStr final 0 (render kept)
  spare : kept ≠ [] → (render kept).length + 1 < size ∧ final ((render kept).length + 1) = 0
  /-- The loops of `vfs_get_mountpoint` and `vfs_resolve_path` are such loops. -/
  reads : kept ≠ [] → ∀ {σ ρ : Type} (L : TokenLoop σ ρ) (st : σ) (fuel calls : ℕ)
    (olds : Option ℕ), (∀ c ∈ kept, c.length < fuel) →
      ∀ x, .read x ∈ (tokenTrace L final fuel calls st (some 1) olds).events → x < size

/-- The size is what the components need and one byte more, and every cleared block of that size is
large enough. -/
structure Fits (st : CanonSeq) : Prop where
  size : st.size = 2 + textSize st.tokens
  filled : ∀ block : Mem, (∀ i < st.size, block i = 0) →
    (canonFill st block).Ensures (· < st.size) (CanonBuffer st.size st.tokens)

/-! ## The loops over tokens -/

variable {m block final final' : Mem} {s olds : Option ℕ} {log : List Access} {st st' : CanonSeq}
  {ts kept : List Str} {str src t : Str} {a fuel calls size : ℕ}

/-- With room for 1000 bytes this is the loop with the `strtok` of the path functions. -/
theorem result_tokenTrace (L : TokenLoop σ ρ) (m : Mem) (calls : ℕ) (st : σ) (s olds : Option ℕ) :
    (tokenTrace L m 1000 calls st s olds).result =
      L.run calls st (s.map (Ptr.mk m)) (olds.map (Ptr.mk m)) := by
  induction calls generalizing st s olds with
  | zero => rfl
  | succ calls ih =>
    rw [tokenTrace, TokenLoop.run, ← strtok_slash]
    cases hcall : Strtok.strtok m [slash] 1000 s olds with
    | none => rfl
    | some r =>
      obtain ⟨_ | t, olds', log⟩ := r
      · rfl
      · cases hstep : L.step st t with
        | none => simp [hstep]
        | some next =>
          cases next with
          | inl st' => simp [hstep, ih]
          | inr r => simp [hstep]

theorem mem_tokenTrace (L : TokenLoop σ ρ)
    (hrun : strtokAll m [slash] fuel calls s olds = some (ts, log)) (calls' : ℕ) (st : σ) :
    ∀ e ∈ (tokenTrace L m fuel calls' st s olds).events, e ∈ log := by
  induction calls generalizing calls' st s olds ts log with
  | zero => cases hrun
  | succ calls ih =>
    cases calls' with
    | zero => exact fun e he => absurd he not_mem_nil
    | succ calls' =>
      obtain ⟨⟨token, olds', first⟩, hcall, hrest⟩ := Option.bind_eq_some_iff.mp hrun
      rw [tokenTrace, hcall]
      cases token with
      | none =>
        cases hrest
        simp [Traced.lift]
      | some t =>
        obtain ⟨⟨ts', log'⟩, hnext, heq⟩ := Option.bind_eq_some_iff.mp hrest
        cases heq
        cases hstep : L.step st t with
        | none => simp +contextual [hstep]
        | some next =>
          cases next with
          | inl st' =>
            have hmem := ih hnext calls' st'
            simp only [Traced.lift_some_bind, Traced.bind_some, hstep]
            intro e he
            exact mem_append.mpr ((mem_append.mp he).imp_right (hmem e))
          | inr r => simp +contextual [hstep]

theorem tokenTrace_canonSeqLoop (st : CanonSeq)
    (hrun : strtokAll m [slash] fuel calls s olds = some (ts, log)) :
    tokenTrace canonSeqLoop m fuel calls st s olds = ⟨log, some (ts.foldl canonSeqStep st)⟩ := by
  induction calls generalizing st s olds ts log with
  | zero => cases hrun
  | succ calls ih =>
    obtain ⟨⟨token, olds', first⟩, hcall, hrest⟩ := Option.bind_eq_some_iff.mp hrun
    rw [tokenTrace, hcall]
    cases token with
    | none =>
      cases hrest
      simp [Traced.lift, canonSeqLoop]
    | some t =>
      obtain ⟨⟨ts', log'⟩, hnext, heq⟩ := Option.bind_eq_some_iff.mp hrest
      cases heq
      have hstep : canonSeqLoop.step st t = some (.inl (canonSeqStep st t)) := rfl
      simp only [Traced.lift_some_bind, Traced.bind_some, hstep, ih _ hnext]
      rfl

theorem exists_strtokAll
    (hrun : (tokenTrace canonSeqLoop m fuel calls st s olds).result = some st') :
    ∃ ts log, strtokAll m [slash] fuel calls s olds = some (ts, log) := by
  induction calls generalizing st s olds with
  | zero => cases hrun
  | succ calls ih =>
    rw [tokenTrace] at hrun
    cases hcall : Strtok.strtok m [slash] fuel s olds with
    | none =>
      rw [hcall] at hrun
      cases hrun
    | some r =>
      rw [hcall] at hrun
      obtain ⟨_ | t, olds', first⟩ := r
      · exact ⟨[], first, by rw [strtokAll, hcall]; rfl⟩
      · obtain ⟨ts, log, hnext⟩ := ih hrun
        exact ⟨t :: ts, first ++ log, by rw [strtokAll_token hcall, hnext]; rfl⟩

/-! ## The count of the bytes -/

theorem textSize_concat (cs : List Str) (c : Str) :
    textSize (cs ++ [c]) = textSize cs + (c.length + 1) := by
  rw [textSize, map_append, sum_append]
  rfl

/-- The size is that of the text and the terminator of the empty path. -/
def CanonSeq.Counted (st : CanonSeq) : Prop := st.finalsize = 1 + textSize st.tokens

theorem canonSeqStep_skip (h : t = [] ∨ t = dot) : canonSeqStep st t = st := by
  obtain rfl | rfl := h
  · exact if_pos rfl
  · rw [canonSeqStep, if_neg (by decide), if_neg (by decide), if_pos (by decide)]

theorem canonSeqStep_of_isName (h : IsName t) : canonSeqStep st t =
    { tokens := st.tokens ++ [t], finalsize := u64 (st.finalsize + (t.length + 1)) } := by
  rw [canonSeqStep, if_neg h.1, if_neg (fun hs => h.2.2 (strcmp_eq_zero.mp hs).1),
    if_neg (fun hs => h.2.1 (strcmp_eq_zero.mp hs).1)]

theorem canonSeqStep_dotdot : canonSeqStep st dotdot =
    match st.tokens.getLast? with
    | some delToken =>
      { tokens := st.tokens.dropLast, finalsize := sub64 st.finalsize (delToken.length + 1) }
    | none => st := by
  rw [canonSeqStep, if_neg (by decide), if_pos (by decide)]

/-- A round does to the sequence what is to be done to the components, and the count goes along
with it: what `..` subtracts has been added for the token that it takes off. -/
theorem CanonSeq.Counted.step (h : st.Counted)
    (hlt : 1 + textSize st.tokens + (t.length + 1) < 2 ^ 64) :
    (canonSeqStep st t).tokens = keep st.tokens t ∧ (canonSeqStep st t).Counted ∧
      textSize (keep st.tokens t) ≤ textSize st.tokens + (t.length + 1) := by
  obtain hskip | rfl | hname := token_cases t
  · rw [canonSeqStep_skip hskip, keep_skip hskip]
    exact ⟨rfl, h, Nat.le_add_right _ _⟩
  · rw [canonSeqStep_dotdot, keep_dotdot]
    obtain hnil | ⟨front, last, hlast⟩ := eq_nil_or_concat' st.tokens
    · rw [hnil]
      exact ⟨hnil, h, Nat.zero_le _⟩
    · have hsize := textSize_concat front last
      rw [← hlast] at hsize
      have hcount : st.finalsize = 1 + textSize st.tokens := h
      rw [hlast, getLast?_concat, dropLast_concat, ← hlast]
      refine ⟨rfl, ?_, by omega⟩
      show sub64 st.finalsize (last.length + 1) = 1 + textSize front
      rw [sub64_of_le (by omega) (by omega)]
      omega
  · have hcount : st.finalsize = 1 + textSize st.tokens := h
    rw [canonSeqStep_of_isName hname, keep_of_isName hname, textSize_concat]
    refine ⟨rfl, ?_, le_rfl⟩
    show u64 (st.finalsize + (t.length + 1)) = 1 + textSize (st.tokens ++ [t])
    rw [textSize_concat, u64_of_lt (by omega)]
    omega

theorem CanonSeq.Counted.foldl (h : st.Counted)
    (hlt : 1 + textSize st.tokens + textSize ts < 2 ^ 64) :
    (ts.foldl canonSeqStep st).tokens = ts.foldl keep st.tokens ∧
      (ts.foldl canonSeqStep st).Counted ∧
      textSize (ts.foldl keep st.tokens) ≤ textSize st.tokens + textSize ts := by
  induction ts generalizing st with
  | nil => exact ⟨rfl, h, Nat.le_add_right _ _⟩
  | cons t ts ih =>
    have hcons : textSize (t :: ts) = t.length + 1 + textSize ts := rfl
    obtain ⟨htokens, hcounted, hsize⟩ := h.step (t := t) (by omega)
    have hrest := ih hcounted (by rw [htokens]; omega)
    rw [htokens] at hrest
    exact ⟨hrest.1, hrest.2.1, by rw [foldl_cons]; omega⟩

/-! ## The bytes of the buffer -/

def Padded (size : ℕ) (str : Str) (buf : Mem) : Prop := ∀ i < size, buf i = str.getD i 0

theorem cstr_of_getD (hstr : 0 ∉ str) (h : ∀ i ≤ str.length, m (a + i) = str.getD i 0) :
    CStr m a str := by
  induction str generalizing a with
  | nil => exact h 0 le_rfl
  | cons b str ih =>
    rw [mem_cons, not_or] at hstr
    refine ⟨h 0 (Nat.zero_le _), Ne.symm hstr.1, ih hstr.2 fun i hi => ?_⟩
    rw [Nat.add_right_comm, Nat.add_assoc]
    exact h (i + 1) (Nat.succ_le_succ hi)

theorem Padded.cstr (h : Padded size str final) (hstr : 0 ∉ str) (hlt : str.length < size) :
    CStr final 0 str := by
  refine cstr_of_getD hstr fun i hi => ?_
  rw [Nat.zero_add]
  exact h i (by omega)

theorem strlen_eq (h : CStr m a str) (hfuel : str.length < fuel) :
    strlen m fuel a = some (a + str.length) := by
  induction str generalizing a fuel with
  | nil =>
    obtain ⟨fuel, rfl⟩ := Nat.exists_eq_succ_of_ne_zero (Nat.ne_of_gt hfuel)
    exact if_pos h
  | cons b str ih =>
    obtain ⟨fuel, rfl⟩ := Nat.exists_eq_succ_of_ne_zero (Nat.ne_of_gt (Nat.zero_lt_of_lt hfuel))
    have hb : m a ≠ 0 := h.ne_zero (cons_ne_nil _ _)
    rw [strlen, if_neg hb, ih h.2.2 (Nat.lt_of_succ_lt_succ hfuel), length_cons,
      Nat.add_assoc, Nat.add_comm 1]

theorem cstr_iff : CStr m a str ↔
    0 ∉ str ∧ ∀ i ≤ str.length, m (a + i) = str.getD i 0 := by
  refine ⟨fun h => ?_, fun ⟨hstr, hbytes⟩ => cstr_of_getD hstr hbytes⟩
  induction str generalizing a with
  | nil =>
    refine ⟨not_mem_nil, fun i hi => ?_⟩
    rw [Nat.le_zero.mp hi]
    exact h
  | cons b str ih =>
    obtain ⟨hb, hne, hrest⟩ := h
    obtain ⟨hnul, hbytes⟩ := ih hrest
    refine ⟨?_, fun i hi => ?_⟩
    · rw [mem_cons, not_or]
      exact ⟨Ne.symm hne, hnul⟩
    · cases i with
      | zero => exact hb
      | succ i =>
        rw [← Nat.add_assoc, Nat.add_right_comm]
        exact hbytes i (Nat.le_of_succ_le_succ hi)

theorem cstr_congr {m' : Mem} (h : CStr m a str)
    (hsame : ∀ i ≤ str.length, m' (a + i) = m (a + i)) :
    CStr m' a str := by
  obtain ⟨hnul, hbytes⟩ := cstr_iff.mp h
  exact cstr_iff.mpr ⟨hnul, fun i hi => (hsame i hi).trans (hbytes i hi)⟩

theorem copied_of_cstr (h : CStr m a str) : copied m a str.length = str := by
  induction str generalizing a with
  | nil => rfl
  | cons b str ih => rw [length_cons, copied, h.1, ih h.2.2]

theorem cstr_unique {str' : Str} (h : CStr m a str) (h' : CStr m a str') : str = str' := by
  have hlen := strlen_eq h (show str.length < str.length + str'.length + 1 by omega)
  rw [strlen_eq h' (by omega), Option.some.injEq, Nat.add_left_cancel_iff] at hlen
  rw [← copied_of_cstr h, ← hlen, copied_of_cstr h']

theorem Padded.strcpy (h : Padded size str final) (hfit : str.length + src.length < size) :
    (strcpy final str.length src).Ensures (· < size) (Padded size (str ++ src)) := by
  refine ⟨fun i hi => ?_, _, rfl, fun i hi => ?_⟩
  · obtain ⟨k, hk, rfl⟩ := mem_map.mp hi
    have := mem_range.mp hk
    omega
  · by_cases hbelow : i < str.length
    · rw [blit_apply_of_notMem (Or.inl hbelow), h i hi, getD_append _ _ _ _ hbelow]
    rw [getD_append_right _ _ _ _ (Nat.le_of_not_lt hbelow)]
    by_cases hin : i < str.length + (src.length + 1)
    · rw [blit_apply_of_mem (Nat.le_of_not_lt hbelow) hin, Nat.zero_add]
    · rw [blit_apply_of_notMem (Or.inr (Nat.le_of_not_lt hin)), h i hi,
        getD_eq_default _ _ (Nat.le_of_not_lt hbelow), getD_eq_default _ _ (by omega)]

theorem Padded.strcpyEnd (h : Padded size str final) (hstr : 0 ∉ str)
    (hfit : str.length + src.length < size) :
    (strcpyEnd size final src).Ensures (· < size) (Padded size (str ++ src)) := by
  have hlt : str.length < size := by omega
  rw [Vfs.strcpyEnd, strlen_eq (h.cstr hstr hlt) hlt, Nat.zero_add, Traced.lift_some_bind]
  exact h.strcpy hfit

theorem Padded.appendTokens (h : Padded size str final) (hstr : 0 ∉ str) (hts : ∀ t ∈ ts, 0 ∉ t)
    (hfit : str.length + textSize ts < size) :
    (appendTokens size ts final).Ensures (· < size)
      (Padded size (str ++ ts.flatMap (slash :: ·))) := by
  induction ts generalizing str final with
  | nil =>
    rw [flatMap_nil, append_nil]
    exact Traced.ensures_pure h
  | cons t ts ih =>
    obtain ⟨ht, hts⟩ := forall_mem_cons.mp hts
    have hcons : textSize (t :: ts) = t.length + 1 + textSize ts := rfl
    have hslash : 0 ∉ str ++ [slash] := by
      rw [mem_append, not_or]
      exact ⟨hstr, by decide⟩
    have htoken : 0 ∉ str ++ [slash] ++ t := by
      rw [mem_append, not_or]
      exact ⟨hslash, ht⟩
    have hlen₁ : (str ++ [slash]).length = str.length + 1 := by simp
    have hlen₂ : (str ++ [slash] ++ t).length = str.length + 1 + t.length := by
      rw [length_append, hlen₁]
    have hflat : str ++ (t :: ts).flatMap (slash :: ·) =
        str ++ [slash] ++ t ++ ts.flatMap (slash :: ·) := by simp
    rw [hflat]
    refine (h.strcpyEnd hstr (show str.length + [slash].length < size by simp; omega)).bind
      fun final₁ h₁ => ?_
    refine (h₁.strcpyEnd hslash (by omega)).bind fun final₂ h₂ => ?_
    exact ih h₂ htoken hts (by omega)

theorem canonFill_padded (hts : ∀ t ∈ st.tokens, 0 ∉ t)
    (hsize : st.size = 2 + textSize st.tokens) (hblock : ∀ i < st.size, block i = 0) :
    (canonFill st block).Ensures (· < st.size) (Padded st.size (render st.tokens)) := by
  have hempty : Padded st.size [] block := hblock
  rw [canonFill]
  split_ifs with hnil
  · rw [length_eq_zero_iff.mp hnil]
    exact hempty.strcpy (show [].length + [slash].length < st.size by simp; omega)
  · obtain ⟨c, cs, hcons⟩ := exists_cons_of_ne_nil (mt length_eq_zero_iff.mpr hnil)
    have happend := hempty.appendTokens not_mem_nil hts (by simp; omega)
    rwa [nil_append, hcons, flatMap_slash, ← hcons] at happend

theorem length_render (hne : kept ≠ []) : (render kept).length = textSize kept := by
  obtain ⟨c, cs, rfl⟩ := exists_cons_of_ne_nil hne
  rw [← flatMap_slash, length_flatMap_slash]
  rfl

theorem Padded.canonBuffer (h : Padded size (render kept) final)
    (hkept : ∀ c ∈ kept, Component c) (hsize : size = 2 + textSize kept) :
    CanonBuffer size kept final := by
  have hnul := notMem_render hkept
  have hspare (hne : kept ≠ []) :
      (render kept).length + 1 < size ∧ final ((render kept).length + 1) = 0 := by
    have hlen := length_render hne
    refine ⟨by omega, ?_⟩
    rw [h _ (by omega), getD_eq_default _ _ (Nat.le_succ _)]
  have hpath : CStr final 0 (render kept) := by
    refine h.cstr hnul ?_
    by_cases hne : kept = []
    · subst hne
      rw [hsize]
      decide
    · have := (hspare hne).1
      omega
  refine ⟨hpath, hspare, fun hne σ ρ L st fuel calls olds hfuel x hx => ?_⟩
  obtain ⟨hroom, hzero⟩ := hspare hne
  have hcons : (render kept).length = ((render kept).drop 1).length + 1 := rfl
  have hbehind : final (1 + ((render kept).drop 1).length + 1) = 0 := by
    rw [← hzero, hcons, Nat.add_comm 1]
  have htail : CStr final 1 ((render kept).drop 1) := by
    have hdrop := hpath.drop (show 1 ≤ (render kept).length by omega)
    rwa [Nat.zero_add] at hdrop
  have hpieces : pieces [slash] ((render kept).drop 1) = kept := by
    rw [pieces_slash, tokens_render hkept]
  obtain ⟨log, hrun, hreads, -⟩ := strtokAll_pieces (cons_ne_nil _ _) htail
    (fun _ _ _ => hbehind) (show (some 1).or olds = some 1 from rfl) (hpieces.symm ▸ hfuel)
    (Nat.lt_succ_self _)
  have hin := hreads x (mem_tokenTrace L hrun calls st _ hx)
  omega

/-! ## The function -/

theorem Fits.of_strtokAll (ha : 2 ≤ a) (hp : s.or olds = some a)
    (hrun : strtokAll m [slash] fuel calls s olds = some (ts, log))
    (hmem : ∀ x, .read x ∈ log → x < 2 ^ 64) :
    (ts.foldl canonSeqStep ⟨[], 1⟩).tokens = ts.foldl keep [] ∧
      Fits (ts.foldl canonSeqStep ⟨[], 1⟩) := by
  obtain ⟨hspan, hfree⟩ := strtokAll_span (cons_ne_nil _ _) hp hrun
  have hlt : a + textSize ts < 2 ^ 64 := hmem _ hspan
  have hstart : (⟨[], 1⟩ : CanonSeq).Counted := rfl
  have hnil : textSize [] = 0 := rfl
  have hbound : 1 + textSize [] + textSize ts < 2 ^ 64 := by omega
  obtain ⟨htokens, hcounted, hle⟩ := hstart.foldl hbound
  generalize ts.foldl canonSeqStep ⟨[], 1⟩ = st at htokens hcounted ⊢
  dsimp only at htokens hle
  have hkept : ∀ c ∈ st.tokens, Component c := by
    intro c hc
    rw [htokens] at hc
    obtain ⟨hmem, hname⟩ := (mem_foldl_keep hc).resolve_left not_mem_nil
    obtain ⟨hnul, hdelim⟩ := hfree c hmem
    exact ⟨hname, fun h => hdelim _ h (mem_singleton_self _), hnul⟩
  have hsize : st.size = 2 + textSize st.tokens := by
    have hcount : st.finalsize = 1 + textSize st.tokens := hcounted
    rw [← htokens] at hle
    rw [CanonSeq.size, u64_of_lt (by omega)]
    omega
  refine ⟨htokens, hsize, fun block hblock => ?_⟩
  obtain ⟨hwrites, final, hresult, hpadded⟩ :=
    canonFill_padded (fun c hc => (hkept c hc).nul_notMem) hsize hblock
  exact ⟨hwrites, final, hresult, hpadded.canonBuffer hkept hsize⟩

/-- Whatever the tokens that `strtok` finds at `temppath`, the buffer is large enough for the
components that are kept, with a zero byte to spare. The components are those of the canonical path
when the byte behind `temppath` is zero. -/
theorem canonpath_buffer (path : Str) (working : Option Str) (m : Mem) (a : ℕ) (ha : 2 ≤ a)
    (htemp : CStr m a (temppath path working)) (fuel calls : ℕ) (olds : Option ℕ) :
    (∀ st, (canonTokens m fuel calls a olds).result = some st →
      (∀ x, .read x ∈ (canonTokens m fuel calls a olds).events → x < 2 ^ 64) → Fits st) ∧
    (m (a + (temppath path working).length + 1) = 0 →
      a + (temppath path working).length + 1 < 2 ^ 64 →
      (∀ c ∈ (temppath path working).splitOn slash, c.length < fuel) →
      (temppath path working).length < calls →
      ∃ st, (canonTokens m fuel calls a olds).result = some st ∧
        st.tokens = reduced (temppath path working) ∧ Fits st) := by
  have hp : (some a).or olds = some a := rfl
  constructor
  · intro st hrun hmem
    obtain ⟨ts, log, hall⟩ := exists_strtokAll hrun
    have htrace : canonTokens m fuel calls a olds = _ := tokenTrace_canonSeqLoop ⟨[], 1⟩ hall
    rw [htrace] at hrun hmem
    obtain rfl := Option.some.inj hrun
    exact (Fits.of_strtokAll ha hp hall hmem).2
  · intro hbehind hspace hfuel hcalls
    have htokens : ∀ t ∈ pieces [slash] (temppath path working), t.length < fuel := by
      intro t ht
      rw [pieces_slash] at ht
      exact hfuel t (mem_splitOn_of_mem_tokens ht)
    obtain ⟨log, hall, hreads, -⟩ := strtokAll_pieces (cons_ne_nil _ _) htemp
      (fun _ _ _ => hbehind) hp htokens hcalls
    have htrace : canonTokens m fuel calls a olds = _ := tokenTrace_canonSeqLoop ⟨[], 1⟩ hall
    have hmem : ∀ x, .read x ∈ log → x < 2 ^ 64 := by
      intro x hx
      have hin := hreads x hx
      omega
    obtain ⟨hkept, hfits⟩ := Fits.of_strtokAll ha hp hall hmem
    refine ⟨_, congrArg Traced.result htrace, ?_, hfits⟩
    rw [hkept, reduced_eq, pieces_slash]

/-- The path `../b` from `/x`: one name is taken off, and one is kept. -/
theorem canonpath_buffer_relative :
    ∃ m : Mem, CStr m 4096 (temppath [46, 46, 47, 98] (some [47, 120])) ∧
      ∃ st, (canonTokens m 1000 8 4096 none).result = some st ∧ st.tokens = [[98]] ∧ Fits st := by
  let str := temppath [46, 46, 47, 98] (some [47, 120])
  let m : Mem := fun x => str.getD (x - 4096) 0
  have hbytes (i : ℕ) : m (4096 + i) = str.getD i 0 := by
    show str.getD (4096 + i - 4096) 0 = str.getD i 0
    rw [Nat.add_sub_cancel_left]
  have htemp : CStr m 4096 str := cstr_of_getD (by decide) fun i _ => hbytes i
  obtain ⟨st, hrun, htokens, hfits⟩ := (canonpath_buffer [46, 46, 47, 98] (some [47, 120]) m 4096
    (by decide) htemp 1000 8 none).2 (hbytes (str.length + 1)) (by decide) (by decide) (by decide)
  exact ⟨m, htemp, st, hrun, htokens.trans (by decide), hfits⟩

end KernelOld.Vfs
