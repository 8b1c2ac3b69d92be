import KernelOld.Fs.Vfs.Mount
import KernelOld.Lib.Trace
import KernelOld.Util.Strtok

/-!
# `strsplit` and its buffers

`strsplit` of `fs/vfs/path.c` with the bytes that it writes: to the buffer of the current token, and
to the copy of each token. Neither request counts the terminator. It fits where `kmalloc` rounds the
request up.
-/

namespace KernelOld.Vfs
open ByteMemory Strings Trace Function List

/-! ## The model -/

inductive SplitWrite
  | token (i : ℕ)
  | copy (size i : ℕ)
  deriving DecidableEq

def flushToken (token : Mem) (tokSize : ℕ) : Traced SplitWrite (List Str × Mem) :=
  if tokSize ≠ 0 then do
    .emit (.token tokSize)
    let token := Function.update token tokSize 0
    -- `strcpy` copies up to the first zero byte, and writes a zero byte
    let src := (copied token 0 (tokSize + 1)).takeWhile (· ≠ 0)
    let _ ← ⟨(List.range (src.length + 1)).map (.copy tokSize), some PUnit.unit⟩
    return ([src], token)
  else pure ([], token)

/-- The loop over the rest of the string. `tok_size` is an `int`: there is no result when it
overflows. -/
def splitLoop (c : UInt8) : Str → Mem → ℕ → Traced SplitWrite (List Str)
  | [], token, tokSize => do
    let (new, _) ← flushToken token tokSize
    return new
  | b :: str, token, tokSize =>
    if b = c ∨ b = 0 then do
      let (new, token) ← flushToken token tokSize
      let list ← splitLoop c str token 0
      return new ++ list
    else do
      .emit (.token tokSize)
      if tokSize + 1 < 2 ^ 31 then splitLoop c str (Function.update token tokSize b) (tokSize + 1)
      else .lift none

def strsplitTraced (str : Str) (c : UInt8) (token : Mem) : Traced SplitWrite (List Str) :=
  splitLoop c str token 0

def blockSize (k : ℕ) : ℕ := (k + 15) / 16 * 16

def SplitWrite.Inside (len : ℕ) : SplitWrite → Prop
  | .token i => i < blockSize len
  | .copy size i => i < blockSize size

/-- `strsplit` returns the components of the string, and every byte that it writes lies inside
its block. -/
def SplitsInside (str : Str) (c : UInt8) : Prop :=
  ∀ token, (strsplitTraced str c token).result = some (components str c) ∧
    ∀ e ∈ (strsplitTraced str c token).events, e.Inside str.length

variable {c b : UInt8} {str cur : Str} {token : Mem} {e : SplitWrite} {len k n : ℕ}

/-! ## Buffers -/

theorem le_blockSize (k : ℕ) : k ≤ blockSize k := by
  rw [blockSize]
  omega

theorem lt_blockSize_iff (k : ℕ) : k < blockSize k ↔ k % 16 ≠ 0 := by
  rw [blockSize]
  omega

theorem blockSize_mono (h : k ≤ n) : blockSize k ≤ blockSize n :=
  Nat.mul_le_mul_right 16 (Nat.div_le_div_right (by omega))

def Holds (token : Mem) (cur : Str) : Prop := ∀ i < cur.length, cur[i]? = some (token i)

theorem holds_nil (token : Mem) : Holds token [] := fun i hi => absurd hi (Nat.not_lt_zero i)

theorem Holds.push (h : Holds token cur) (b : UInt8) :
    Holds (update token cur.length b) (cur ++ [b]) := by
  intro i hi
  rw [length_append, length_singleton] at hi
  by_cases hlast : i = cur.length
  · rw [hlast, getElem?_concat_length, update_self]
  · rw [getElem?_append_left (by omega), h i (by omega), update_of_ne hlast]

theorem Holds.copied_eq (h : Holds token cur) : copied token 0 cur.length = cur := by
  apply ext_getElem?
  intro i
  rw [getElem?_copied, Nat.zero_add]
  split_ifs with hi
  · exact (h i hi).symm
  · exact (getElem?_eq_none (Nat.le_of_not_lt hi)).symm

def flushWrites (n : ℕ) : List SplitWrite := .token n :: (List.range (n + 1)).map (.copy n)

theorem flushToken_eq (h : Holds token cur) (hzero : 0 ∉ cur) (hne : cur ≠ []) :
    flushToken token cur.length =
      ⟨flushWrites cur.length, some ([cur], update token cur.length 0)⟩ := by
  have hsrc : (copied (update token cur.length 0) 0 (cur.length + 1)).takeWhile (· ≠ 0) =
      cur := by
    rw [Strtok.takeWhile_copied (m := token) (a := 0) cur.length ?_ ?_, h.copied_eq]
    · intro k hk
      rw [Nat.zero_add, update_of_ne (Nat.ne_of_lt hk)]
      refine ⟨rfl, fun hbyte => hzero (mem_of_getElem? ((h k hk).trans ?_))⟩
      rw [hbyte]
    · rw [Nat.zero_add, update_self]
  rw [flushToken, if_pos (mt length_eq_zero_iff.mp hne)]
  simp only [hsrc, Traced.emit_bind, Traced.bind_some, Traced.pure_eq, append_nil]
  rfl

/-- The terminator of a token fits into the two blocks unless it is behind a multiple of 16
bytes. -/
theorem flushWrites_inside (hn : n ≤ len) :
    (∀ e ∈ flushWrites n, e.Inside len) ↔ n % 16 ≠ 0 := by
  have hmono := blockSize_mono hn
  rw [← lt_blockSize_iff]
  constructor
  · intro h
    refine h (.copy n n) (mem_cons_of_mem _ (mem_map.mpr ⟨n, ?_, rfl⟩))
    exact mem_range.mpr (Nat.lt_succ_self n)
  · intro h e he
    rcases mem_cons.mp he with rfl | he
    · exact lt_of_lt_of_le h hmono
    · obtain ⟨i, hi, rfl⟩ := mem_map.mp he
      have hle := Nat.le_of_lt_succ (mem_range.mp hi)
      exact lt_of_le_of_lt hle h

/-! ## The loop -/

theorem exists_mem_strsplitLoop (c : UInt8) (str : Str) (hne : cur ≠ []) :
    ∃ t ∈ strsplitLoop c cur str, cur.length ≤ t.length := by
  induction str generalizing cur with
  | nil => exact ⟨cur, by simp [strsplitLoop, hne], le_rfl⟩
  | cons b str ih =>
    rw [strsplitLoop]
    by_cases hb : b = c
    · exact ⟨cur, by simp [hb, hne], le_rfl⟩
    · obtain ⟨t, ht, hle⟩ := ih (show cur ++ [b] ≠ [] by simp)
      rw [length_append] at hle
      exact ⟨t, by rwa [if_neg hb], by omega⟩

def LoopInside (c : UInt8) (len : ℕ) (cur str : Str) (token : Mem) : Prop :=
  (splitLoop c str token cur.length).result = some (strsplitLoop c cur str) ∧
    ∀ e ∈ (splitLoop c str token cur.length).events, e.Inside len

theorem loopInside_nil_iff (hcur : Holds token cur) (hzero : 0 ∉ cur) (hlen : cur.length ≤ len)
    (hint : cur.length < 2 ^ 31) :
    LoopInside c len cur [] token ↔ ∀ t ∈ strsplitLoop c cur [], FitsBlock t := by
  rw [LoopInside, splitLoop, strsplitLoop]
  by_cases hne : cur = []
  · subst hne
    simp [flushToken]
  · rw [flushToken_eq hcur hzero hne, if_pos hne]
    simp only [Traced.bind_some, Traced.pure_eq, append_nil, true_and, mem_singleton,
      forall_eq]
    rw [flushWrites_inside hlen]
    exact ⟨fun h => ⟨hint, h⟩, And.right⟩

theorem loopInside_sep_iff (hcur : Holds token cur) (hzero : 0 ∉ cur) (hlen : cur.length ≤ len)
    (hint : cur.length < 2 ^ 31)
    (ih : ∀ token, LoopInside c len [] str token ↔ ∀ t ∈ strsplitLoop c [] str, FitsBlock t) :
    LoopInside c len cur (c :: str) token ↔ ∀ t ∈ strsplitLoop c cur (c :: str), FitsBlock t := by
  rw [LoopInside, splitLoop, strsplitLoop, if_pos (Or.inl rfl), if_pos rfl]
  by_cases hne : cur = []
  · subst hne
    have hflush : flushToken token 0 = ⟨[], some ([], token)⟩ := rfl
    rw [if_neg (by simp), ← ih token, LoopInside, length_nil, hflush]
    simp only [Traced.bind_some]
    obtain ⟨events, _ | list⟩ := splitLoop c str token 0 <;> simp
  · have hrest := ih (update token cur.length 0)
    rw [flushToken_eq hcur hzero hne, if_pos hne, forall_mem_cons, ← hrest, LoopInside,
      length_nil]
    simp only [Traced.bind_some]
    obtain ⟨events, _ | list⟩ := splitLoop c str (update token cur.length 0) 0
    · simp
    · simp only [Traced.bind_some, Traced.pure_eq, append_nil, cons_append,
        nil_append, Option.some.injEq, List.cons.injEq, true_and, forall_mem_append,
        flushWrites_inside hlen, FitsBlock, hint]
      exact ⟨fun h => ⟨h.2.1, h.1, h.2.2⟩, fun h => ⟨h.2.1, h.1, h.2.2⟩⟩

theorem loopInside_iff (hstr : 0 ∉ str) (hcur : Holds token cur) (hzero : 0 ∉ cur)
    (hlen : cur.length + str.length ≤ len) (hint : cur.length < 2 ^ 31) :
    LoopInside c len cur str token ↔ ∀ t ∈ strsplitLoop c cur str, FitsBlock t := by
  induction str generalizing cur token with
  | nil => exact loopInside_nil_iff hcur hzero hlen hint
  | cons b str ih =>
    rw [mem_cons, not_or] at hstr
    rw [length_cons] at hlen
    by_cases hb : b = c
    · subst hb
      refine loopInside_sep_iff hcur hzero (by omega) hint fun token => ?_
      exact ih hstr.2 (holds_nil token) not_mem_nil (by simp; omega) (by simp)
    · rw [LoopInside, splitLoop, strsplitLoop, if_neg hb, if_neg (not_or.mpr ⟨hb, Ne.symm hstr.1⟩)]
      have hwrite : (SplitWrite.token cur.length).Inside len := by
        show cur.length < blockSize len
        have := le_blockSize len
        omega
      by_cases hnext : cur.length + 1 < 2 ^ 31
      · have hrest := ih hstr.2 (hcur.push b) ?_ ?_ ?_
        · rw [← hrest, LoopInside, length_append, length_singleton]
          simp only [if_pos hnext, Traced.emit_bind, forall_mem_cons, hwrite, true_and]
        · simp [hzero, hstr.1]
        · rw [length_append, length_singleton]
          omega
        · rwa [length_append]
      · -- the counter overflows, and the component is too long
        obtain ⟨t, ht, hle⟩ := exists_mem_strsplitLoop c str (show cur ++ [b] ≠ [] by simp)
        rw [length_append, length_singleton] at hle
        refine iff_of_false (fun h => ?_) fun h => ?_
        · have hresult := h.1
          simp only [if_neg hnext, Traced.emit_bind, Traced.lift, reduceCtorEq] at hresult
        · have hlt := (h t ht).1
          omega

/-- `strsplit` stays inside its buffers exactly when the length of no component is a multiple of
16, for components that the counter of the token's bytes can count. -/
theorem strsplit_inside_iff (str : Str) (c : UInt8) (hstr : 0 ∉ str) :
    SplitsInside str c ↔
      ∀ t ∈ components str c, t.length < 2 ^ 31 ∧ t.length % 16 ≠ 0 := by
  have hloop (token : Mem) : LoopInside c str.length [] str token ↔ _ :=
    loopInside_iff hstr (holds_nil token) not_mem_nil (by simp) (by simp)
  constructor
  · intro h
    exact (hloop fun _ => 0).mp (h fun _ => 0)
  · intro h token
    exact (hloop token).mpr h

/-- The string `/bin/ls`. -/
theorem strsplit_inside_short :
    strsplit [47, 98, 105, 110, 47, 108, 115] slash = some [[98, 105, 110], [108, 115]] ∧
      SplitsInside [47, 98, 105, 110, 47, 108, 115] slash := by
  refine ⟨by decide, (strsplit_inside_iff _ slash (by decide)).mpr ?_⟩
  decide

/-- A name of 16 bytes: the terminator is written behind both blocks. -/
theorem strsplit_overruns :
    (strsplitTraced (List.replicate 16 97) slash fun _ => 0).events =
        (List.range 16).map .token ++ .token 16 :: (List.range 17).map (.copy 16) ∧
      blockSize 16 = 16 ∧ ¬ SplitsInside (List.replicate 16 97) slash := by
  refine ⟨rfl, rfl, fun h => ?_⟩
  have hwrite : (SplitWrite.token 16).Inside 16 := (h fun _ => 0).2 (.token 16) (by decide)
  exact absurd hwrite (Nat.lt_irrefl 16)

/-! ## The other tokenizer -/

theorem components_eq_tokens (str : Str) :
    components str slash = (Strings.tokens str).filter (· ≠ []) := by
  rw [components_eq]
  obtain heq | heq := splitOn_eq_tokens str
  · rw [heq]
  · rw [heq, filter_append]
    simp

theorem strsplit_eq_some_iff (hshort : ∀ t ∈ Strings.tokens str, t.length < 1000) :
    strsplit str slash = some (components str slash) ↔
      ∀ t ∈ components str slash, t.length % 16 ≠ 0 := by
  have hfit : (∀ t ∈ components str slash, FitsBlock t) ↔
      ∀ t ∈ components str slash, t.length % 16 ≠ 0 := by
    refine forall₂_congr fun t ht => and_iff_right ?_
    rw [components_eq_tokens] at ht
    exact lt_trans (hshort t (mem_of_mem_filter ht)) (by decide)
  rw [strsplit_eq, ← hfit]
  exact Option.ite_none_right_eq_some.trans (and_iff_left rfl)

/-- `strsplit` returns the tokens of `strtok` that are not empty exactly if the length of none is a
multiple of 16. Under the same condition on the path behind its first byte, a mount goes along the
tokens of the path that are not empty, and the lookup of the same path along all of them. -/
theorem strtok_agrees_strsplit (str : Str) (rest : ℕ → UInt8) (hstr : 0 ∉ str)
    (hrest : rest 0 = 0) (hshort : ∀ c ∈ str.splitOn slash, c.length < 1000) (olds : Option ℕ) :
    ((∃ calls ts log,
      Strtok.strtokAll (cbuf str rest) [slash] 1000 calls (some 0) olds = some (ts, log) ∧
        strsplit str slash = some (ts.filter (· ≠ []))) ↔
      ∀ t ∈ components str slash, t.length % 16 ≠ 0) ∧
    ((∃ calls ts log,
      Strtok.strtokAll (cbuf str rest) [slash] 1000 calls (some 1) olds = some (ts, log) ∧
        vfsMkpath str none = some (ts.filter (· ≠ [])) ∧
        ∀ {δ : Type} (tree : MountTree δ) (dev : δ),
          vfsMount tree dev str = some (vfsMountRecur dev (ts.filter (· ≠ [])) tree) ∧
          vfsGetMountpoint tree rest str = mountpointLoop.feed tree ts) ↔
      ∀ t ∈ components (str.drop 1) slash, t.length % 16 ≠ 0) := by
  have htokens : ∀ t ∈ Strings.tokens str, t.length < 1000 := fun t ht =>
    hshort t (mem_splitOn_of_mem_tokens ht)
  have hdrop : ∀ t ∈ Strings.tokens (str.drop 1), t.length < 1000 := by
    intro t ht
    obtain ⟨t', ht', hle⟩ := exists_mem_tokens_of_drop ht
    exact lt_of_le_of_lt hle (htokens t' ht')
  constructor
  · rw [← strsplit_eq_some_iff htokens]
    constructor
    · rintro ⟨calls, ts, log, -, hsplit⟩
      exact strsplit_eq_some hsplit
    · intro hsplit
      obtain ⟨calls, log, hrun⟩ := Strtok.strtokAll_cbuf hstr hrest (Nat.zero_le _) htokens olds
      exact ⟨calls, _, log, hrun, by rw [hsplit, components_eq_tokens, drop_zero]⟩
  · rw [← strsplit_eq_some_iff hdrop]
    have hparts : vfsMkpath str none = strsplit (str.drop 1) slash := vfsMkpath_eq str none
    constructor
    · rintro ⟨calls, ts, log, -, hsplit, -⟩
      exact strsplit_eq_some (hparts.symm.trans hsplit)
    · intro hsplit
      have hone : 1 ≤ str.length + 1 := Nat.succ_le_succ (Nat.zero_le _)
      obtain ⟨calls, log, hrun⟩ := Strtok.strtokAll_cbuf hstr hrest hone hdrop olds
      rw [components_eq_tokens] at hsplit
      refine ⟨calls, _, log, hrun, hparts.trans hsplit, fun tree dev => ⟨?_, ?_⟩⟩
      · rw [vfsMount_eq, hsplit]
        rfl
      · exact vfsGetMountpoint_eq tree hstr hrest

/-- The string `/a//b/`: the second token behind the first slash is empty. -/
theorem strtok_agrees_strsplit_double :
    strsplit [47, 97, 47, 47, 98, 47] slash = some [[97], [98]] ∧
      ∃ calls ts log, Strtok.strtokAll (cbuf [47, 97, 47, 47, 98, 47] fun _ => 0) [slash] 1000
          calls (some 0) none = some (ts, log) ∧
        strsplit [47, 97, 47, 47, 98, 47] slash = some (ts.filter (· ≠ [])) :=
  ⟨by decide, (strtok_agrees_strsplit _ (fun _ => 0) (by decide) rfl (by decide) none).1.mpr
    (by decide)⟩

/-- A name of 16 bytes: `strtok` returns it, and the copy of `strsplit` loses its terminator. -/
theorem strtok_disagrees_strsplit :
    (∃ calls log, Strtok.strtokAll (cbuf (List.replicate 16 97) fun _ => 0) [slash] 1000 calls
        (some 0) none = some ([List.replicate 16 97], log)) ∧
      strsplit (List.replicate 16 97) slash = none ∧
      (SplitWrite.copy 16 16) ∈
        (strsplitTraced (List.replicate 16 97) slash fun _ => 0).events ∧
      ¬ (SplitWrite.copy 16 16).Inside 16 := by
  refine ⟨?_, by decide, by decide, Nat.lt_irrefl 16⟩
  exact Strtok.strtokAll_cbuf (by decide) rfl (Nat.zero_le _) (by decide) none

end KernelOld.Vfs
