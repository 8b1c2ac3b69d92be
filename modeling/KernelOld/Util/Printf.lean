import KernelOld.Lib.Trace
import KernelOld.Util.Numerals

/-!
# Formatted output

`vsnprintf` of `util/printf.c` with the format, the strings, its local array `buffer` and the result
in memory. The arguments are the words that `va_arg` takes. An event is a byte of the format that is
read or of the result that is written. The scan steps over the character behind a `%` whatever it
is, also over the terminator.
-/

namespace KernelOld.Printf
open ByteMemory MachineWord Strings Strtok Vfs Numerals Trace Function List

inductive Event
  | fmt (a : ℕ)
  | out (a : ℕ)
deriving DecidableEq

def put (str : ℕ) (c : UInt8) (s : Mem × ℕ) : Traced Event (Mem × ℕ) :=
  ⟨[.out (str + s.2)], some (update s.1 (str + s.2) c, u32 (s.2 + 1))⟩

def copyOut (str src : ℕ) : ℕ → ℕ → Mem × ℕ → Traced Event (Mem × ℕ)
  | 0, _, s => pure s
  | left + 1, j, s => do
    let s ← put str (s.1 (src + j)) s
    copyOut str src left (j + 1) s

def copyString (fuel str src : ℕ) (s : Mem × ℕ) : Traced Event (Mem × ℕ) := do
  let last ← .lift (strlen s.1 fuel src)
  copyOut str src (last - src) 0 s

def vaArg : List ℕ → Traced Event (ℕ × List ℕ)
  | [] => .lift none
  | arg :: list => pure (arg, list)

def directive (fuel buffer str : ℕ) (c : UInt8) (list : List ℕ) (s : Mem × ℕ) :
    Traced Event (List ℕ × Mem × ℕ) :=
  if c = 37 then do
    return (list, ← put str 37 s)
  else if c = 99 then do
    let (arg, list) ← vaArg list
    return (list, ← put str (UInt8.ofNat arg) s)
  else if c = 105 ∨ c = 100 then do
    let (arg, list) ← vaArg list
    let m ← .lift (itoa fuel s.1 (toInt32 (u32 arg)) buffer 10)
    return (list, ← copyString fuel str buffer (m, s.2))
  else if c = 115 then do
    let (arg, list) ← vaArg list
    return (list, ← copyString fuel str arg s)
  else if c = 120 then do
    let (arg, list) ← vaArg list
    let m ← .lift (ultoa fuel s.1 (u64 arg) buffer 16)
    return (list, ← copyString fuel str buffer (m, s.2))
  else if c = 108 then do
    let (arg, list) ← vaArg list
    let m ← .lift (ultoa fuel s.1 (u64 arg) buffer 10)
    return (list, ← copyString fuel str buffer (m, s.2))
  else
    return (list, s)

def scan (fuel buffer str : ℕ) : ℕ → ℕ → List ℕ → Mem × ℕ → Traced Event (Mem × ℕ)
  | 0, _, _, _ => .lift none
  | rounds + 1, format, list, s => do
    .emit (.fmt format)
    if s.1 format = 0 then
      return s
    else if s.1 format = 37 then
      .emit (.fmt (format + 1))
      let (list, s) ← directive fuel buffer str (s.1 (format + 1)) list s
      scan fuel buffer str rounds (format + 2) list s
    else
      let s ← put str (s.1 format) s
      scan fuel buffer str rounds (format + 1) list s

def vsnprintf (fuel buffer : ℕ) (m : Mem) (str format : ℕ) (list : List ℕ) :
    Traced Event (Mem × ℤ) := do
  let s ← scan fuel buffer str fuel format list (m, 0)
  .emit (.out (str + s.2))
  return (update s.1 (str + s.2) 0, toInt32 s.2)

/-! ## What a format stands for -/

/-- A number, or the address of a string. -/
inductive Arg
  | word (w : ℕ)
  | string (a : ℕ) (s : Str)

def Arg.bits : Arg → ℕ
  | .word w => w
  | .string a _ => a

inductive Piece
  | text (s : Str)
  | int (v : ℤ)

def Piece.render (itoa : ℤ → Str) : Piece → Str
  | .text s => s
  | .int v => itoa v

def output (itoa : ℤ → Str) (ps : List Piece) : Str := ps.flatMap (Piece.render itoa)

def numeral (base n : ℕ) : Str := (digitText base 1 n).reverse

def decimal (v : ℤ) : Str := (if v < 0 then [45] else []) ++ numeral 10 v.natAbs

inductive Directive : UInt8 → List Arg → Piece → List Arg → Prop
  | percent (args : List Arg) : Directive 37 args (.text [37]) args
  | char (a : Arg) (args : List Arg) : Directive 99 (a :: args) (.text [UInt8.ofNat a.bits]) args
  | int {c : UInt8} (hc : c = 105 ∨ c = 100) (a : Arg) (args : List Arg) :
    Directive c (a :: args) (.int (toInt32 (u32 a.bits))) args
  | string (a : ℕ) (s : Str) (args : List Arg) :
    Directive 115 (.string a s :: args) (.text s) args
  | hex (a : Arg) (args : List Arg) :
    Directive 120 (a :: args) (.text (numeral 16 (u64 a.bits))) args
  | long (a : Arg) (args : List Arg) :
    Directive 108 (a :: args) (.text (numeral 10 (u64 a.bits))) args
  | unknown {c : UInt8} (hc : c ∉ [37, 99, 105, 100, 115, 120, 108]) (args : List Arg) :
    Directive c args (.text []) args

/-- The pieces that a format and its arguments stand for, and the arguments left over. -/
inductive Expands : Str → List Arg → List Piece → List Arg → Prop
  | nil (args : List Arg) : Expands [] args [] args
  | literal {c : UInt8} {fmt : Str} {args rest : List Arg} {ps : List Piece} (hzero : c ≠ 0)
    (hpercent : c ≠ 37) (h : Expands fmt args ps rest) :
    Expands (c :: fmt) args (.text [c] :: ps) rest
  | directive {c : UInt8} {fmt : Str} {args args' rest : List Arg} {p : Piece} {ps : List Piece}
    (hc : Directive c args p args') (h : Expands fmt args' ps rest) :
    Expands (37 :: c :: fmt) args (p :: ps) rest

/-! ## Writing the result -/

/-- The characters `cs` at the index `i`, which is taken modulo `2 ^ 32`. -/
def putWrap (str : ℕ) : Mem → ℕ → Str → Mem
  | m, _, [] => m
  | m, i, c :: cs => putWrap str (update m (str + u32 i) c) (i + 1) cs

def outs (str i n : ℕ) : List Event := (List.range n).map fun k => .out (str + u32 (i + k))

def fmts (format n : ℕ) : List Event := (List.range n).map fun k => .fmt (format + k)

def SameOff (buffer : ℕ) (m m' : Mem) : Prop := ∀ a, a < buffer ∨ buffer + 100 ≤ a → m' a = m a

variable {m m' : Mem} {str src buffer room fuel format i j n a : ℕ} {cs t pre : Str}
  {c : UInt8} {p : Piece} {ps : List Piece} {args rest : List Arg}

theorem outs_add (str i n n' : ℕ) : outs str i (n + n') = outs str i n ++ outs str (i + n) n' := by
  simp [outs, range_add, Nat.add_assoc]

theorem fmts_add (format n n' : ℕ) :
    fmts format (n + n') = fmts format n ++ fmts (format + n) n' := by
  simp [fmts, range_add, Nat.add_assoc]

theorem u32_succ (i : ℕ) : u32 (u32 i + 1) = u32 (i + 1) := by
  rw [u32, u32, u32]
  omega

theorem putWrap_append (str : ℕ) (m : Mem) (i : ℕ) (cs t : Str) :
    putWrap str m i (cs ++ t) = putWrap str (putWrap str m i cs) (i + cs.length) t := by
  induction cs generalizing m i with
  | nil => rfl
  | cons c cs ih =>
    rw [cons_append, putWrap, ih, putWrap, length_cons, Nat.add_assoc i, Nat.add_comm 1]

theorem SameOff.putWrap (h : SameOff buffer m m') (str i : ℕ) (cs : Str) :
    SameOff buffer (putWrap str m i cs) (putWrap str m' i cs) := by
  induction cs generalizing m m' i with
  | nil => exact h
  | cons c cs ih =>
    refine ih (fun a ha => ?_) (i + 1)
    rw [update_apply, update_apply, h a ha]

theorem putWrap_of_notMem (hroom : ∀ k < cs.length, u32 (i + k) < room)
    (ha : a < str ∨ str + room ≤ a) : putWrap str m i cs a = m a := by
  induction cs generalizing m i with
  | nil => rfl
  | cons c cs ih =>
    have hfirst := hroom 0 (Nat.succ_pos _)
    rw [Nat.add_zero] at hfirst
    rw [putWrap, ih fun k hk => ?_, update_of_ne (by omega)]
    rw [Nat.add_assoc, Nat.add_comm 1]
    exact hroom (k + 1) (Nat.succ_lt_succ hk)

theorem putWrap_eq (h : i + cs.length ≤ 2 ^ 32) :
    putWrap str m i cs = putBytes m (str + i) cs := by
  induction cs generalizing m i with
  | nil => rfl
  | cons c cs ih =>
    rw [length_cons] at h
    rw [putWrap, putBytes, ih (by omega), u32_of_lt (by omega), Nat.add_assoc]

theorem copyOut_eq (hcs : copied m (src + j) cs.length = cs)
    (hroom : ∀ k < cs.length, u32 (i + k) < room)
    (hsrc : ∀ k < cs.length, src + (j + k) < str ∨ str + room ≤ src + (j + k)) :
    copyOut str src cs.length j (m, u32 i) =
      ⟨outs str i cs.length, some (putWrap str m i cs, u32 (i + cs.length))⟩ := by
  induction cs generalizing m i j with
  | nil => rfl
  | cons c cs ih =>
    rw [length_cons, copied] at hcs
    obtain ⟨hc, hcs⟩ := List.cons.inj hcs
    have hroom' (k : ℕ) (hk : k < cs.length) : u32 (i + 1 + k) < room := by
      rw [Nat.add_assoc, Nat.add_comm 1]
      exact hroom (k + 1) (Nat.succ_lt_succ hk)
    have hsrc' (k : ℕ) (hk : k < cs.length) :
        src + (j + 1 + k) < str ∨ str + room ≤ src + (j + 1 + k) := by
      rw [Nat.add_assoc j, Nat.add_comm 1]
      exact hsrc (k + 1) (Nat.succ_lt_succ hk)
    have hfirst := hroom 0 (Nat.succ_pos _)
    rw [Nat.add_zero] at hfirst
    -- what is copied next has not been overwritten
    have hnext : copied (update m (str + u32 i) c) (src + (j + 1)) cs.length = cs := by
      refine (copied_congr fun k hk => update_of_ne ?_ _ _).trans hcs
      have := hsrc' k hk
      omega
    rw [length_cons, copyOut, put]
    dsimp only
    rw [hc, Traced.bind_some, u32_succ, ih hnext hroom' hsrc', Nat.add_comm cs.length, outs_add,
      putWrap, Nat.add_assoc i]
    rfl

/-- Byte `a` is neither in the result nor in the local array. -/
def Kept (buffer str room a : ℕ) : Prop :=
  (a < str ∨ str + room ≤ a) ∧ (a < buffer ∨ buffer + 100 ≤ a)

/-- The strings among the arguments are there and stay as they are. -/
def Readable (fuel buffer str room : ℕ) (m : Mem) (args : List Arg) : Prop :=
  ∀ a s, .string a s ∈ args →
    CStr m a s ∧ s.length < fuel ∧ ∀ k ≤ s.length, Kept buffer str room (a + k)

theorem Readable.congr (h : Readable fuel buffer str room m args)
    (hsame : ∀ a, Kept buffer str room a → m' a = m a) : Readable fuel buffer str room m' args := by
  intro a s hmem
  obtain ⟨hstr, hfuel, hkept⟩ := h a s hmem
  exact ⟨cstr_congr hstr fun k hk => hsame _ (hkept k hk), hfuel, hkept⟩

theorem copyString_eq (hstr : CStr m src t) (hfuel : t.length < fuel)
    (hroom : ∀ k < t.length, u32 (i + k) < room)
    (hsrc : ∀ k < t.length, src + k < str ∨ str + room ≤ src + k) :
    copyString fuel str src (m, u32 i) =
      ⟨outs str i t.length, some (putWrap str m i t, u32 (i + t.length))⟩ := by
  rw [copyString, strlen_eq hstr hfuel, Traced.lift_some_bind, Nat.add_sub_cancel_left]
  exact copyOut_eq (copied_of_cstr hstr) hroom (by simpa using hsrc)

theorem copyString_buffer (hnul : 0 ∉ t) (hlen : t.length ≤ 64) (hfuel : 64 < fuel)
    (hbuf : Apart buffer 100 str room) (hroom : ∀ k < t.length, u32 (i + k) < room) :
    copyString fuel str buffer (putBytes m buffer (t ++ [0]), u32 i) =
        ⟨outs str i t.length, some (putWrap str (putBytes m buffer (t ++ [0])) i t,
          u32 (i + t.length))⟩ ∧
      SameOff buffer (putWrap str m i t) (putWrap str (putBytes m buffer (t ++ [0])) i t) := by
  rw [Apart] at hbuf
  refine ⟨copyString_eq (cstr_putBytes hnul) (by omega) hroom fun k hk => by omega, ?_⟩
  refine SameOff.putWrap (fun a ha => putBytes_of_notMem ?_) str i t
  rw [length_append, length_singleton]
  omega

/-! ## The scan -/

theorem toInt32_bounds (x : ℕ) : -2 ^ 31 ≤ toInt32 (u32 x) ∧ toInt32 (u32 x) < 2 ^ 31 := by
  have hlt := u32_lt x
  rw [toInt32]
  split <;> omega

theorem ultoa_copied {base : ℕ} (m : Mem) (x : ℕ) (hlo : 1 < base) (hhi : base ≤ 32)
    (hfuel : 64 < fuel) (hbuf : Apart buffer 100 str room)
    (hroom : ∀ k < (numeral base (u64 x)).length, u32 (i + k) < room) :
    ∃ m₁ m', ultoa fuel m (u64 x) buffer base = some m₁ ∧
      copyString fuel str buffer (m₁, u32 i) = ⟨outs str i (numeral base (u64 x)).length,
        some (m', u32 (i + (numeral base (u64 x)).length))⟩ ∧
      SameOff buffer (putWrap str m i (numeral base (u64 x))) m' := by
  have hlen : (digitText base 1 (u64 x)).length ≤ 64 :=
    length_digitText_le hlo (Nat.mod_lt x (by decide))
  have hnul : 0 ∉ numeral base (u64 x) := by
    rw [numeral, mem_reverse]
    exact nul_notMem_digitText hlo hhi (Or.inl rfl)
  obtain ⟨hcopy, hsame⟩ := copyString_buffer (m := m) hnul
    (length_reverse.trans_le hlen) hfuel hbuf hroom
  exact ⟨_, _, ultoa_eq hlo hhi (hlen.trans_lt hfuel) (hlen.trans_lt (by decide)), hcopy, hsame⟩

theorem directive_eq (h : Directive c args p rest) (hargs : Readable fuel buffer str room m args)
    (hfuel : 64 < fuel) (hbuf : Apart buffer 100 str room)
    (hroom : ∀ k < (p.render itoaText).length, u32 (i + k) < room) :
    ∃ m', directive fuel buffer str c (args.map Arg.bits) (m, u32 i) =
        ⟨outs str i (p.render itoaText).length,
          some (rest.map Arg.bits, m', u32 (i + (p.render itoaText).length))⟩ ∧
      SameOff buffer (putWrap str m i (p.render itoaText)) m' := by
  cases h with
  | percent =>
    refine ⟨putWrap str m i [37], ?_, fun _ _ => rfl⟩
    simp [directive, put, putWrap, u32_succ, outs, Piece.render]
  | char a =>
    refine ⟨putWrap str m i [UInt8.ofNat a.bits], ?_, fun _ _ => rfl⟩
    simp [directive, vaArg, put, putWrap, u32_succ, outs, Piece.render]
  | int hc a =>
    obtain ⟨hlo, hhi⟩ := toInt32_bounds a.bits
    obtain ⟨hcopy, hsame⟩ := copyString_buffer (m := m) (nul_notMem_itoaText _)
      ((length_itoaText hlo hhi).trans (by decide)) hfuel hbuf hroom
    refine ⟨_, ?_, hsame⟩
    have hne : c ≠ 37 ∧ c ≠ 99 := by rcases hc with rfl | rfl <;> decide
    simp [directive, hne, hc, vaArg, itoa_eq hlo hhi (show 11 < fuel by omega), hcopy,
      Piece.render]
  | string a s =>
    obtain ⟨hstr, hlen, hkept⟩ := hargs a s mem_cons_self
    have hcopy := copyString_eq hstr hlen hroom fun k hk => (hkept k hk.le).1
    refine ⟨_, ?_, fun _ _ => rfl⟩
    simp [directive, vaArg, Arg.bits, hcopy, Piece.render]
  | hex a =>
    obtain ⟨m₁, m', hultoa, hcopy, hsame⟩ :=
      ultoa_copied m a.bits (show 1 < 16 by decide) (by decide) hfuel hbuf hroom
    rw [Nat.cast_ofNat] at hultoa
    refine ⟨m', ?_, hsame⟩
    simp [directive, vaArg, hultoa, hcopy, Piece.render]
  | long a =>
    obtain ⟨m₁, m', hultoa, hcopy, hsame⟩ :=
      ultoa_copied m a.bits (show 1 < 10 by decide) (by decide) hfuel hbuf hroom
    rw [Nat.cast_ofNat] at hultoa
    refine ⟨m', ?_, hsame⟩
    simp [directive, vaArg, hultoa, hcopy, Piece.render]
  | unknown hc =>
    simp only [mem_cons, not_mem_nil, or_false, not_or] at hc
    refine ⟨m, ?_, fun _ _ => rfl⟩
    simp [directive, hc, outs, Piece.render]

def Rounds (fuel buffer str rounds format : ℕ) (list : List ℕ) (m : Mem) (i w n : ℕ)
    (list' : List ℕ) (m' : Mem) : Prop :=
  ∀ (r : ℕ) (P : Event → Prop) (Q : Mem × ℕ → Prop),
    (scan fuel buffer str (rounds + r) format list (m, u32 i)).Ensures P Q ↔
      (∀ e ∈ fmts format w, P e) ∧ (∀ e ∈ outs str i n, P e) ∧
      (scan fuel buffer str r (format + w) list' (m', u32 (i + n))).Ensures P Q

section
variable {r rounds rounds' w w' n' : ℕ} {list list' list'' : List ℕ} {m₁ m'' : Mem}
  {P : Event → Prop} {Q : Mem × ℕ → Prop} {args' : List Arg}

theorem Rounds.trans (h : Rounds fuel buffer str rounds format list m i w n list' m')
    (h' : Rounds fuel buffer str rounds' (format + w) list' m' (i + n) w' n' list'' m'') :
    Rounds fuel buffer str (rounds + rounds') format list m i (w + w') (n + n') list'' m'' := by
  intro r P Q
  rw [Nat.add_assoc, h, h', fmts_add, outs_add, forall_mem_append, forall_mem_append,
    Nat.add_assoc format, Nat.add_assoc i]
  tauto

theorem ensures_scan_nul (h : m format = 0) :
    (scan fuel buffer str (r + 1) format list (m, i)).Ensures P Q ↔
      P (.fmt format) ∧ Q (m, i) := by
  rw [scan, Traced.ensures_emit_bind, if_pos (show (m, i).1 format = 0 from h),
    Traced.ensures_pure_iff]

theorem ensures_scan_percent (h : m format = 37) :
    (scan fuel buffer str (r + 1) format list (m, i)).Ensures P Q ↔
      P (.fmt format) ∧ P (.fmt (format + 1)) ∧
        (directive fuel buffer str (m (format + 1)) list (m, i) >>= fun x =>
          scan fuel buffer str r (format + 2) x.1 x.2).Ensures P Q := by
  have hzero : m format ≠ 0 := by
    rw [h]
    decide
  rw [scan, Traced.ensures_emit_bind, if_neg (show ¬(m, i).1 format = 0 from hzero),
    if_pos (show (m, i).1 format = 37 from h), Traced.ensures_emit_bind]

theorem rounds_literal (hfirst : m format = c) (hzero : c ≠ 0) (hpercent : c ≠ 37) :
    Rounds fuel buffer str 1 format list m i 1 1 list (putWrap str m i [c]) := by
  subst hfirst
  intro r P Q
  rw [Nat.add_comm 1, scan, Traced.ensures_emit_bind,
    if_neg (show ¬(m, u32 i).1 format = 0 from hzero),
    if_neg (show ¬(m, u32 i).1 format = 37 from hpercent), put, Traced.ensures_bind_some, u32_succ]
  simp [fmts, outs, putWrap]

theorem rounds_directive (hc : Directive c args p args') (hfirst : m format = 37)
    (hsecond : m (format + 1) = c) (hargs : Readable fuel buffer str room m args)
    (hfuel : 64 < fuel) (hbuf : Apart buffer 100 str room)
    (hroom : ∀ k < (p.render itoaText).length, u32 (i + k) < room) :
    ∃ m₁, SameOff buffer (putWrap str m i (p.render itoaText)) m₁ ∧
      Rounds fuel buffer str 1 format (args.map Arg.bits) m i 2 (p.render itoaText).length
        (args'.map Arg.bits) m₁ := by
  obtain ⟨m₁, hstep, hm₁⟩ := directive_eq hc hargs hfuel hbuf hroom
  refine ⟨m₁, hm₁, fun r P Q => ?_⟩
  rw [Nat.add_comm 1, ensures_scan_percent hfirst, hsecond, hstep, Traced.ensures_bind_some]
  simp [fmts, range_succ, and_assoc]

theorem output_cons (itoa : ℤ → Str) (p : Piece) (ps : List Piece) :
    output itoa (p :: ps) = p.render itoa ++ output itoa ps := flatMap_cons

def Scanned (fuel buffer str : ℕ) (m : Mem) (format i : ℕ) (pre : Str) (args : List Arg)
    (ps : List Piece) (rest : List Arg) : Prop :=
  ∃ m', SameOff buffer (putWrap str m i (output itoaText ps)) m' ∧
    Rounds fuel buffer str ps.length format (args.map Arg.bits) m i pre.length
      (output itoaText ps).length (rest.map Arg.bits) m'

/-- A round does not change the rest of the format nor the arguments, so that the scan can go on
with these. -/
theorem Rounds.cons (first : Str) {fmt : Str}
    (hround : Rounds fuel buffer str 1 format (args.map Arg.bits) m i first.length
      (p.render itoaText).length (args'.map Arg.bits) m₁)
    (hm₁ : SameOff buffer (putWrap str m i (p.render itoaText)) m₁)
    (hroom : ∀ k < i + (output itoaText (p :: ps)).length, u32 k < room)
    (hargs : Readable fuel buffer str room m args')
    (hpre : copied m (format + first.length) fmt.length = fmt)
    (hkept : ∀ k < (first ++ fmt).length, Kept buffer str room (format + k))
    (ih : Readable fuel buffer str room m₁ args' →
      (∀ k < i + (p.render itoaText).length + (output itoaText ps).length, u32 k < room) →
      copied m₁ (format + first.length) fmt.length = fmt →
      (∀ k < fmt.length, Kept buffer str room (format + first.length + k)) →
      Scanned fuel buffer str m₁ (format + first.length) (i + (p.render itoaText).length) fmt args'
        ps rest) :
    Scanned fuel buffer str m format i (first ++ fmt) args (p :: ps) rest := by
  rw [output_cons, length_append, ← Nat.add_assoc] at hroom
  rw [length_append] at hkept
  have hsame (a : ℕ) (ha : Kept buffer str room a) : m₁ a = m a :=
    (hm₁ a ha.2).trans (putWrap_of_notMem (fun k hk => hroom _ (by omega)) ha.1)
  have hkept' (k : ℕ) (hk : k < fmt.length) :
      Kept buffer str room (format + first.length + k) := by
    rw [Nat.add_assoc]
    exact hkept _ (by omega)
  obtain ⟨m', hm', hrest⟩ := ih (hargs.congr hsame) hroom
    ((copied_congr fun k hk => hsame _ (hkept' k hk)).trans hpre) hkept'
  refine ⟨m', fun a ha => ?_, ?_⟩
  · rw [hm' a ha, output_cons, putWrap_append]
    exact hm₁.putWrap _ _ _ a ha
  · rw [output_cons, length_append, length_append, length_cons,
      Nat.add_comm ps.length]
    exact hround.trans hrest

end

theorem Directive.subset (h : Directive c args p rest) : rest ⊆ args := by
  cases h with
  | percent => exact List.Subset.refl _
  | unknown => exact List.Subset.refl _
  | _ => exact subset_cons_self _ _

theorem Expands.scanned (h : Expands pre args ps rest) (hfuel : 64 < fuel)
    (hbuf : Apart buffer 100 str room) (hargs : Readable fuel buffer str room m args)
    (hroom : ∀ k < i + (output itoaText ps).length, u32 k < room)
    (hpre : copied m format pre.length = pre)
    (hkept : ∀ k < pre.length, Kept buffer str room (format + k)) :
    Scanned fuel buffer str m format i pre args ps rest := by
  induction h generalizing m i format with
  | nil =>
    refine ⟨m, fun _ _ => rfl, fun r P Q => ?_⟩
    simp [fmts, outs, output]
  | @literal c fmt args rest ps hzero hpercent _ ih =>
    obtain ⟨hfirst, hpre⟩ := List.cons.inj hpre
    exact (rounds_literal hfirst hzero hpercent).cons [c] (p := .text [c]) (fun _ _ => rfl) hroom
      hargs hpre hkept ih
  | @directive c fmt args args' rest p ps hc _ ih =>
    obtain ⟨hfirst, hpre⟩ := List.cons.inj hpre
    obtain ⟨hsecond, hpre⟩ := List.cons.inj hpre
    have hroom' (k : ℕ) (hk : k < (p.render itoaText).length) : u32 (i + k) < room := by
      rw [output_cons, length_append] at hroom
      exact hroom _ (by omega)
    obtain ⟨m₁, hm₁, hround⟩ := rounds_directive hc hfirst hsecond hargs hfuel hbuf hroom'
    exact hround.cons [37, c] hm₁ hroom (fun a s hmem => hargs a s (hc.subset hmem)) hpre hkept ih

/-! ## The whole call -/

theorem Expands.length_le (h : Expands pre args ps rest) : ps.length ≤ pre.length := by
  induction h with
  | nil => rfl
  | literal _ _ _ ih => exact Nat.succ_le_succ ih
  | directive _ _ ih => exact Nat.succ_le_succ (ih.trans (Nat.le_succ _))

section
variable (h : Expands pre args ps rest) (hfuel : 64 < fuel) (hlen : pre.length + 1 < fuel)
  (hbuf : Apart buffer 100 str room) (hargs : Readable fuel buffer str room m args)
  (hroom : ∀ k ≤ (output itoaText ps).length, u32 k < room)
  (hpre : copied m format pre.length = pre)
include h hfuel hlen hbuf hargs hroom hpre

theorem ensures_vsnprintf (hkept : ∀ k ≤ pre.length, Kept buffer str room (format + k))
    (hnul : m (format + pre.length) = 0) :
    ∃ m', SameOff buffer (putWrap str m 0 (output itoaText ps ++ [0])) m' ∧
      ∀ (P : Event → Prop) (Q : Mem × ℤ → Prop),
        (vsnprintf fuel buffer m str format (args.map Arg.bits)).Ensures P Q ↔
          (∀ e ∈ fmts format (pre.length + 1), P e) ∧
          (∀ e ∈ outs str 0 ((output itoaText ps).length + 1), P e) ∧
          Q (m', toInt32 (u32 (output itoaText ps).length)) := by
  obtain ⟨m', hm', hscan⟩ := h.scanned (i := 0) hfuel hbuf hargs
    (fun k hk => hroom k (by omega)) hpre fun k hk => hkept k hk.le
  obtain ⟨r, hr⟩ : ∃ r, fuel = ps.length + (r + 1) :=
    ⟨fuel - ps.length - 1, by have := h.length_le; omega⟩
  have hend : m' (format + pre.length) = 0 := by
    have hkept := hkept _ (Nat.le_refl _)
    rw [hm' _ hkept.2, putWrap_of_notMem (fun k hk => hroom _ (by omega)) hkept.1, hnul]
  refine ⟨update m' (str + u32 (output itoaText ps).length) 0, fun a ha => ?_, fun P Q => ?_⟩
  · rw [putWrap_append, Nat.zero_add, putWrap, putWrap, update_apply, update_apply, hm' a ha]
  · rw [vsnprintf, Traced.ensures_bind_iff]
    nth_rewrite 2 [hr]
    rw [show ((m, 0) : Mem × ℕ) = (m, u32 0) from rfl, hscan, ensures_scan_nul hend,
      Traced.ensures_emit_bind, Traced.ensures_pure_iff, fmts_add, outs_add, Nat.zero_add,
      forall_mem_append, forall_mem_append]
    simp only [fmts, outs, range_one, map_singleton, forall_mem_singleton,
      Nat.add_zero]
    tauto

theorem reads_behind (hkept : ∀ k ≤ pre.length + 1, Kept buffer str room (format + k))
    (hpercent : m (format + pre.length) = 37) (hnul : m (format + pre.length + 1) = 0)
    {P : Event → Prop} {Q : Mem × ℤ → Prop}
    (hensures : (vsnprintf fuel buffer m str format (args.map Arg.bits)).Ensures P Q) :
    P (.fmt (format + pre.length + 2)) := by
  obtain ⟨m', hm', hscan⟩ := h.scanned (i := 0) hfuel hbuf hargs
    (fun k hk => hroom k (by omega)) hpre fun k hk => hkept k (by omega)
  obtain ⟨r, hr⟩ : ∃ r, fuel = ps.length + (r + 1 + 1) :=
    ⟨fuel - ps.length - 2, by have := h.length_le; omega⟩
  have hsame (k : ℕ) (hk : k ≤ pre.length + 1) : m' (format + k) = m (format + k) := by
    rw [hm' _ (hkept k hk).2, putWrap_of_notMem (fun k hk => hroom _ (by omega)) (hkept k hk).1]
  rw [vsnprintf, Traced.ensures_bind_iff] at hensures
  nth_rewrite 2 [hr] at hensures
  rw [show ((m, 0) : Mem × ℕ) = (m, u32 0) from rfl, hscan,
    ensures_scan_percent ((hsame _ (by omega)).trans hpercent), Nat.add_assoc format,
    (hsame _ (Nat.le_refl _)).trans hnul] at hensures
  obtain ⟨-, -, -, -, hrest⟩ := hensures
  rw [show directive fuel buffer str 0 (rest.map Arg.bits) _ = pure _ from rfl, pure_bind, scan,
    Traced.ensures_emit_bind] at hrest
  exact hrest.1

end

/-! ## The text -/

theorem itoaText_eq_iff (v : ℤ) : itoaText v = decimal v ↔ v ≠ -2 ^ 31 := by
  constructor
  · rintro heq rfl
    revert heq
    decide +kernel
  · intro hne
    rw [itoaText, absSign, if_neg hne, decimal, numeral]

theorem length_render (p : Piece) : (p.render itoaText).length = (p.render decimal).length := by
  cases p with
  | text => rfl
  | int v =>
    simp only [Piece.render, itoaText, decimal, numeral, digitText, length_append,
      length_reverse]
    congr 1
    split
    · rfl
    · rw [length_map, length_map]

theorem length_output (ps : List Piece) :
    (output itoaText ps).length = (output decimal ps).length := by
  induction ps with
  | nil => rfl
  | cons p ps ih =>
    rw [output_cons, output_cons, length_append, length_append, ih, length_render]

theorem output_eq_iff (ps : List Piece) :
    output itoaText ps = output decimal ps ↔ ∀ v, .int v ∈ ps → v ≠ -2 ^ 31 := by
  induction ps with
  | nil => simp [output]
  | cons p ps ih =>
    have hsplit : output itoaText (p :: ps) = output decimal (p :: ps) ↔
        p.render itoaText = p.render decimal ∧ output itoaText ps = output decimal ps := by
      rw [output_cons, output_cons]
      exact ⟨fun heq => append_inj heq (length_render p), fun heq => by rw [heq.1, heq.2]⟩
    rw [hsplit, ih]
    cases p with
    | text => simp [Piece.render]
    | int v => simp [Piece.render, itoaText_eq_iff, or_imp, forall_and]

theorem copied_putBytes (m : Mem) (a : ℕ) (bs : Str) :
    copied (putBytes m a bs) a bs.length = bs := by
  induction bs generalizing m a with
  | nil => rfl
  | cons b bs ih =>
    rw [length_cons, copied, putBytes, ih, putBytes_of_notMem (by omega), update_self]

theorem cstr_append {s : Str} (h : CStr m a (s ++ t)) :
    copied m a s.length = s ∧ CStr m (a + s.length) t := by
  induction s generalizing a with
  | nil => exact ⟨rfl, h⟩
  | cons b s ih =>
    obtain ⟨hb, -, hrest⟩ := h
    obtain ⟨hcopied, hrest⟩ := ih hrest
    rw [length_cons, copied, hb, hcopied, Nat.add_comm s.length, ← Nat.add_assoc]
    exact ⟨rfl, hrest⟩

/-- The result is `out` with a terminator, its length is returned, and no byte behind the
terminator of the format is read. -/
def ScansRight (fuel buffer : ℕ) (m : Mem) (str format : ℕ) (fmt : Str) (args : List Arg)
    (out : Str) : Prop :=
  (vsnprintf fuel buffer m str format (args.map Arg.bits)).Ensures
    (fun e => ∀ a, e = .fmt a → a ≤ format + fmt.length)
    (fun r => copied r.1 str (out.length + 1) = out ++ [0] ∧ r.2 = (out.length : ℤ))

def loneAtEnd (lone : Bool) : Str := if lone then [37] else []

theorem exists_directive (c : UInt8) (rest : List Arg) : ∃ args p, Directive c args p rest := by
  by_cases hc : c ∈ [37, 99, 105, 100, 115, 120, 108]
  · simp only [mem_cons, not_mem_nil, or_false] at hc
    rcases hc with rfl | rfl | rfl | rfl | rfl | rfl | rfl
    · exact ⟨_, _, .percent rest⟩
    · exact ⟨_, _, .char (.word 0) rest⟩
    · exact ⟨_, _, .int (Or.inl rfl) (.word 0) rest⟩
    · exact ⟨_, _, .int (Or.inr rfl) (.word 0) rest⟩
    · exact ⟨_, _, .string 0 [] rest⟩
    · exact ⟨_, _, .hex (.word 0) rest⟩
    · exact ⟨_, _, .long (.word 0) rest⟩
  · exact ⟨_, _, .unknown hc rest⟩

/-- Every format can be taken apart, up to a `%` at its end. -/
theorem exists_expands (fmt : Str) (hnul : 0 ∉ fmt) :
    ∃ pre lone args ps, fmt = pre ++ loneAtEnd lone ∧ Expands pre args ps [] := by
  induction fmt using List.twoStepInduction with
  | nil => exact ⟨[], false, [], [], rfl, .nil []⟩
  | singleton c =>
    by_cases hc : c = 37
    · exact ⟨[], true, [], [], by rw [hc]; rfl, .nil []⟩
    · exact ⟨[c], false, [], _, rfl, .literal (by simpa [eq_comm] using hnul) hc (.nil [])⟩
  | cons_cons c d fmt ih ih' =>
    rw [mem_cons, not_or] at hnul
    by_cases hc : c = 37
    · obtain ⟨pre, lone, args, ps, rfl, h⟩ := ih (mt (mem_cons_of_mem d) hnul.2)
      obtain ⟨args', p, hd⟩ := exists_directive d args
      exact ⟨37 :: d :: pre, lone, args', _, by rw [hc]; rfl, .directive hd h⟩
    · obtain ⟨pre, lone, args, ps, heq, h⟩ := ih' d hnul.2
      exact ⟨c :: pre, lone, args, _, by rw [heq]; rfl, .literal (Ne.symm hnul.1) hc h⟩

/-- `vsnprintf` is right if and only if the format does not end with a lone `%`, the least `int` is
not printed, and the length of the result is an `int`. -/
theorem vsnprintf_scansRight_iff (h : Expands pre args ps rest) (lone : Bool)
    (hstr : CStr m format (pre ++ loneAtEnd lone))
    (hkept : ∀ k ≤ (pre ++ loneAtEnd lone).length, Kept buffer str room (format + k))
    (hbuf : Apart buffer 100 str room) (hargs : Readable fuel buffer str room m args)
    (hroom : ∀ k ≤ (output decimal ps).length, u32 k < room)
    (hfuel : 64 < fuel) (hlen : pre.length + 1 < fuel) :
    ScansRight fuel buffer m str format (pre ++ loneAtEnd lone) args (output decimal ps) ↔
      lone = false ∧ (∀ v, .int v ∈ ps → v ≠ -2 ^ 31) ∧ (output decimal ps).length < 2 ^ 31 := by
  obtain ⟨hpre, hstr⟩ := cstr_append hstr
  rw [← length_output] at hroom
  cases lone with
  | true =>
    obtain ⟨hpercent, -, hnul⟩ := hstr
    refine iff_of_false (fun hright => ?_) (by simp)
    have hbehind := reads_behind h hfuel hlen hbuf hargs hroom hpre
      (fun k hk => hkept k (by simpa [loneAtEnd] using hk)) hpercent hnul hright _ rfl
    rw [length_append, show (loneAtEnd true).length = 1 from rfl] at hbehind
    omega
  | false =>
    rw [show pre ++ loneAtEnd false = pre from append_nil pre] at hkept ⊢
    obtain ⟨m', hm', hcall⟩ := ensures_vsnprintf h hfuel hlen hbuf hargs hroom hpre hkept hstr
    have hfmts : ∀ e ∈ fmts format (pre.length + 1), ∀ a, e = .fmt a → a ≤ format + pre.length := by
      rintro e he a rfl
      obtain ⟨k, hk, hka⟩ := mem_map.mp he
      have := mem_range.mp hk
      obtain rfl := Event.fmt.inj hka
      omega
    have houts : ∀ e ∈ outs str 0 ((output itoaText ps).length + 1), ∀ a, e = .fmt a →
        a ≤ format + pre.length := by
      rintro e he a rfl
      obtain ⟨k, -, hka⟩ := mem_map.mp he
      cases hka
    rw [ScansRight, hcall, and_iff_right hfmts, and_iff_right houts, ← output_eq_iff,
      eq_self_iff_true, true_and]
    have hlength := length_output ps
    by_cases hint : (output decimal ps).length < 2 ^ 31
    · -- the result lies in memory as it was put there
      have hstored :
          copied m' str ((output decimal ps).length + 1) = output itoaText ps ++ [0] := by
        have hput := copied_putBytes m str (output itoaText ps ++ [0])
        rw [length_append, length_singleton, hlength] at hput
        refine (copied_congr fun k hk => ?_).trans hput
        rw [Apart] at hbuf
        have hk' := hroom k (by omega)
        rw [u32_of_lt (by omega)] at hk'
        rw [hm' _ (by omega), putWrap_eq, Nat.add_zero]
        rw [length_append, length_singleton]
        omega
      rw [hstored, append_left_inj, hlength, u32_of_lt (by omega), toInt32_of_lt hint]
      exact and_congr_right fun _ => iff_of_true rfl hint
    · have hbounds := (toInt32_bounds (output itoaText ps).length).2
      exact iff_of_false (fun hright => by have := hright.2; omega) fun hright => hint hright.2

def formats : Mem := putBytes (fun _ => 0) 4096 [97, 37, 100, 0, 37, 0, 120]

theorem expands_formats : Expands [97, 37, 100] [.word 42] [.text [97], .int 42] [] :=
  .literal (by decide) (by decide) (.directive (.int (Or.inr rfl) (.word 42) []) (.nil []))

theorem readable_formats : Readable 65 8192 12288 100 formats [.word 42] := by
  intro a s hmem
  simp at hmem

theorem kept_formats {k : ℕ} (hk : k ≤ 3) : Kept 8192 12288 100 (4096 + k) := by
  rw [Kept]
  omega

theorem vsnprintf_scansRight_decimal :
    CStr formats 4096 [97, 37, 100] ∧
      ScansRight 65 8192 formats 12288 4096 [97, 37, 100] [.word 42] [97, 52, 50] := by
  have hstr : CStr formats 4096 [97, 37, 100] :=
    ⟨rfl, by decide, rfl, by decide, rfl, by decide, rfl⟩
  exact ⟨hstr, (vsnprintf_scansRight_iff expands_formats false hstr (fun _ hk => kept_formats hk)
    (by decide) readable_formats (by decide) (by decide) (by decide)).mpr
      ⟨rfl, by simp, by decide⟩⟩

theorem vsnprintf_reads_behind_terminator :
    CStr formats 4100 [37] ∧ ¬ScansRight 65 8192 formats 12288 4100 [37] [] [] := by
  refine ⟨⟨rfl, by decide, rfl⟩, fun hright => ?_⟩
  have hread := hright.1 (.fmt 4102) (by decide +kernel) 4102 rfl
  exact absurd hread (by decide)

/-! ## The size of the result -/

/-- `snprintf`. Nothing looks at `n`. -/
def snprintf (fuel buffer : ℕ) (m : Mem) (s _n format : ℕ) (list : List ℕ) :
    Traced Event Mem := do
  let r ← vsnprintf fuel buffer m s format list
  return r.1

def serialPrintf (fuel buffer : ℕ) (m : Mem) (str format : ℕ) (list : List ℕ) :
    Traced Event Mem := do
  let r ← vsnprintf fuel buffer m str format list
  return r.1

def consolePrintf (fuel buffer : ℕ) (m : Mem) (str format : ℕ) (list : List ℕ) :
    Traced Event Mem := do
  let r ← vsnprintf fuel buffer m str format list
  return r.1

/-- Every byte that is written is one of the `n` at `str`. -/
def WritesWithin (str n : ℕ) (x : Traced Event Mem) : Prop :=
  x.Ensures (fun e => ∀ a, e = .out a → str ≤ a ∧ a < str + n) fun _ => True

theorem outs_within_iff {n k : ℕ} :
    (∀ e ∈ outs str 0 (k + 1), ∀ a, e = .out a → str ≤ a ∧ a < str + n) ↔
      min (k + 1) (2 ^ 32) ≤ n := by
  constructor
  · intro hwithin
    by_contra hlt
    -- the character with the index `n` is written too
    have hmem : .out (str + u32 (0 + n)) ∈ outs str 0 (k + 1) :=
      mem_map.mpr ⟨n, mem_range.mpr (by omega), rfl⟩
    have hn := (hwithin _ hmem _ rfl).2
    rw [Nat.zero_add, u32_of_lt (by omega)] at hn
    omega
  · rintro hle e he a rfl
    obtain ⟨j, hj, hja⟩ := mem_map.mp he
    have := mem_range.mp hj
    obtain rfl := Event.out.inj hja
    rw [u32]
    omega

section
variable (h : Expands pre args ps rest) (hfuel : 64 < fuel) (hlen : pre.length + 1 < fuel)
  (hbuf : Apart buffer 100 str room) (hargs : Readable fuel buffer str room m args)
  (hroom : ∀ k ≤ (output decimal ps).length, u32 k < room)
  (hpre : copied m format pre.length = pre) (hnul : m (format + pre.length) = 0)
  (hkept : ∀ k ≤ pre.length, Kept buffer str room (format + k))
include h hfuel hlen hbuf hargs hroom hpre hnul hkept

theorem writesWithin_iff (n : ℕ) :
    WritesWithin str n (snprintf fuel buffer m str n format (args.map Arg.bits)) ↔
      min ((output decimal ps).length + 1) (2 ^ 32) ≤ n := by
  rw [← length_output] at hroom ⊢
  obtain ⟨m', -, hcall⟩ := ensures_vsnprintf h hfuel hlen hbuf hargs hroom hpre hkept hnul
  have hfmts : ∀ e ∈ fmts format (pre.length + 1), ∀ a, e = .out a → str ≤ a ∧ a < str + n := by
    rintro e he a rfl
    obtain ⟨k, -, hka⟩ := mem_map.mp he
    cases hka
  rw [WritesWithin, snprintf, Traced.ensures_bind_iff]
  simp only [Traced.ensures_pure_iff]
  rw [hcall, and_iff_right hfmts, and_true, outs_within_iff]

/-- The writes of `snprintf` stay in its `n` bytes, those of `serial_printf` in 100 and those of
`console_printf` in 4096 bytes, if and only if the text and its terminator fit. The scan is that of
the bytes `pre` up to the terminator at which it ends. -/
theorem printf_bounded_iff :
    (∀ n, WritesWithin str n (snprintf fuel buffer m str n format (args.map Arg.bits)) ↔
        min ((output decimal ps).length + 1) (2 ^ 32) ≤ n) ∧
      (WritesWithin str 100 (serialPrintf fuel buffer m str format (args.map Arg.bits)) ↔
        (output decimal ps).length < 100) ∧
      (WritesWithin str 4096 (consolePrintf fuel buffer m str format (args.map Arg.bits)) ↔
        (output decimal ps).length < 4096) := by
  have hiff := writesWithin_iff h hfuel hlen hbuf hargs hroom hpre hnul hkept
  refine ⟨hiff, (hiff 100).trans ?_, (hiff 4096).trans ?_⟩
  · omega
  · omega

end

theorem printf_bounded_fits :
    WritesWithin 12288 4 (snprintf 65 8192 formats 12288 4 4096 [42]) ∧
      WritesWithin 12288 100 (serialPrintf 65 8192 formats 12288 4096 [42]) ∧
      WritesWithin 12288 4096 (consolePrintf 65 8192 formats 12288 4096 [42]) := by
  obtain ⟨hsnprintf, hserial, hconsole⟩ := printf_bounded_iff expands_formats
    (by decide) (by decide) (by decide) readable_formats (by decide)
    (show copied formats 4096 3 = _ by decide) rfl fun _ hk => kept_formats hk
  exact ⟨(hsnprintf 4).mpr (by decide), hserial.mpr (by decide), hconsole.mpr (by decide)⟩

theorem snprintf_writes_past_end :
    ¬WritesWithin 12288 2 (snprintf 65 8192 formats 12288 2 4096 [42]) := by
  intro hwithin
  have hthird := (hwithin.1 (.out 12290) (by decide +kernel) 12290 rfl).2
  omega

end KernelOld.Printf
