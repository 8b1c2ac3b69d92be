import KernelOld.Fs.Fat.ReadChain
import KernelOld.Fs.Vfs.CanonBuffer

/-!
# FAT directories

`fat_finddir` of `fs/fat/file.c` and `fat_get_lfn` of `fs/fat/fatent.c`. The loop goes over as many
entries as there are bytes in the buffer. The entries of a long name stay in an array of 10 until a
deleted entry or a label comes: the array and the name grow with every file (`Roomy`).
-/

namespace KernelOld.Fat
open ByteMemory MachineWord Trace List
open Strings (Str strcmp strcmp_eq_zero copied)
open Strtok (CStr)
open Vfs (strlen strlen_eq cstr_of_getD copied_of_cstr)
open Ext2 (newBuf)

/-! ## The model -/

def attrLfn : ℕ := 0x0f
def attrVolId : ℕ := 0x08
def attrDir : ℕ := 0x10

def entName0 (dirs : Mem) (i : ℕ) : UInt8 := dirs (32 * i)
def entAttr (dirs : Mem) (i : ℕ) : ℕ := (dirs (32 * i + 11)).toNat
def entCluster (dirs : Mem) (i : ℕ) : ℕ :=
  load dirs (32 * i + 20) 2 <<< 16 ||| load dirs (32 * i + 26) 2
def entFileSz (dirs : Mem) (i : ℕ) : ℕ := load dirs (32 * i + 28) 4

def lfnChars (dirs : Mem) (i : ℕ) : Str :=
  ((List.range 5).map fun j => UInt8.ofNat (load dirs (32 * i + (1 + 2 * j)) 2)) ++
    ((List.range 6).map fun j => UInt8.ofNat (load dirs (32 * i + (14 + 2 * j)) 2)) ++
      [UInt8.ofNat (load dirs (32 * i + 28) 2), UInt8.ofNat (load dirs (32 * i + 30) 2)]

structure LfnEntries where
  entries : ℕ → ℕ
  cnt : ℕ

def LfnEntries.push (lfn : LfnEntries) (i : ℕ) : LfnEntries where
  entries := Function.update lfn.entries lfn.cnt i
  cnt := lfn.cnt + 1

/-- What `fat_get_lfn` writes in front of the terminator, from the last entry to the first. -/
def fatGetLfn (dirs : Mem) (lfn : LfnEntries) : Str :=
  (List.range lfn.cnt).reverse.flatMap fun i => lfnChars dirs (lfn.entries i)

inductive Event
  | entry (i : ℕ)
  | lfn (k : ℕ)
  | name (k : ℕ)

inductive FileType
  | file
  | directory
  deriving DecidableEq

inductive Ret
  | node (inodeNum size : ℕ) (flags : FileType)
  | invalid
  deriving DecidableEq

def putName (buf : Mem) (dst : ℕ) (text : Str) : Traced Event Mem :=
  ⟨(List.range (text.length + 1)).map fun k => .name (dst + k),
    some (blit buf dst (fun k => text.getD k 0) 0 (text.length + 1))⟩

def readStr (m : Mem) (fuel a : ℕ) : Option Str :=
  (strlen m fuel a).map fun e => copied m a (e - a)

def nameOf (dirs : Mem) (fuel i : ℕ) (lfn : LfnEntries) (buf : Mem) : Traced Event Mem :=
  if lfn.cnt ≠ 0 then putName buf 0 (fatGetLfn dirs lfn)
  else do
    let name ← .lift (readStr dirs fuel (32 * i))
    let buf ← putName buf 0 name
    let ext ← .lift (readStr dirs fuel (32 * i + 8))
    let buf ← putName buf 8 ext
    .emit (.name 11)
    pure (Function.update buf 11 0)

def nodeOf (dirs : Mem) (i : ℕ) : Ret :=
  .node (entCluster dirs i) (entFileSz dirs i)
    (if entAttr dirs i &&& attrDir ≠ 0 then .directory else .file)

/-- `named` says whether the memory can be written that the unset pointer `file.name` points to. -/
def finddirLoop (dirs : Mem) (name : Str) (named : Bool) (bound fuel : ℕ) :
    ℕ → ℕ → LfnEntries → Mem → Traced Event Ret
  | 0, _, _, _ => .lift none
  | rounds + 1, i, lfn, buf =>
    if i < bound then do
      .emit (.entry i)
      if entName0 dirs i = 0 then
        finddirLoop dirs name named bound fuel rounds (u32 (i + 1)) lfn buf
      else if entName0 dirs i = 0xe5 then
        finddirLoop dirs name named bound fuel rounds (u32 (i + 1)) { lfn with cnt := 0 } buf
      else if entAttr dirs i = attrLfn then do
        .emit (.lfn lfn.cnt)
        finddirLoop dirs name named bound fuel rounds (u32 (i + 1)) (lfn.push i) buf
      else if entAttr dirs i &&& attrVolId ≠ 0 then
        finddirLoop dirs name named bound fuel rounds (u32 (i + 1)) { lfn with cnt := 0 } buf
      else do
        let buf ← nameOf dirs fuel i lfn buf
        let str ← .lift (readStr buf fuel 0)
        if strcmp name str = 0 then
          if named then pure (nodeOf dirs i) else .lift none
        else finddirLoop dirs name named bound fuel rounds (u32 (i + 1)) lfn buf
    else pure .invalid

/-- `block` is memory from the buffer for the clusters on, `stack` what is in `_name` at first. -/
def fatFinddir (vol : FatMount) (disk : Mem) (flags : FileType) (inodeNum : ℕ) (name : Str)
    (named : Bool) (block stack : Mem) (fuel : ℕ) : Traced Event Ret :=
  if flags ≠ .directory then pure .invalid
  else do
    let (dirs, numClusters) ← .lift (fatReadClusterChain vol disk inodeNum fuel block)
    finddirLoop dirs name named (numClusters * 512) fuel fuel 0 ⟨fun _ => 0, 0⟩ stack

/-! ## Directories -/

def charOff (j : ℕ) : ℕ :=
  if j < 5 then 1 + 2 * j else if j < 11 then 14 + 2 * (j - 5) else 28 + 2 * (j - 11)

structure IsGap (dir : Mem) (i : ℕ) : Prop where
  used : entName0 dir i ≠ 0
  gap : entName0 dir i = 0xe5 ∨ entAttr dir i ≠ attrLfn ∧ entAttr dir i &&& attrVolId ≠ 0

/-- `k` long-name entries and the 8.3 entry behind them. The last part of the name comes first. -/
structure IsEntries (dir : Mem) (i k : ℕ) (lname : Str) : Prop where
  pos : 0 < k
  le : k ≤ 9
  order : ∀ j < k, entName0 dir (i + j) = UInt8.ofNat (if j = 0 then 0x40 + k else k - j)
  attr : ∀ j < k, entAttr dir (i + j) = attrLfn
  ascii : ∀ b ∈ lname, b ≠ 0 ∧ b < 128
  length_lt : lname.length < 13 * k
  /-- Character `t` of the name, and behind the last one the terminator. -/
  chars : ∀ t ≤ lname.length,
    load dir (32 * (i + (k - 1 - t / 13)) + charOff (t % 13)) 2 = (lname.getD t 0).toNat
  short : entName0 dir (i + k) ≠ 0 ∧ entName0 dir (i + k) ≠ 0xe5
  not_volId : entAttr dir (i + k) &&& attrVolId = 0

inductive Item
  | gap
  | file (k : ℕ) (lname : Str)

def Item.width : Item → ℕ
  | .gap => 1
  | .file k _ => k + 1

def used (items : List Item) : ℕ := (items.map Item.width).sum

def Layout (dir : Mem) : ℕ → List Item → Prop
  | _, [] => True
  | i, .gap :: items => IsGap dir i ∧ Layout dir (i + 1) items
  | i, .file k lname :: items => IsEntries dir i k lname ∧ Layout dir (i + (k + 1)) items

def lookup (name : Str) : ℕ → List Item → Option ℕ
  | _, [] => none
  | i, .gap :: items => lookup name (i + 1) items
  | i, .file k lname :: items =>
    if lname = name then some (i + k) else lookup name (i + (k + 1)) items

def Right (dir : Mem) (items : List Item) (name : Str) (ret : Ret) : Prop :=
  match lookup name 0 items with
  | some i => ret = nodeOf dir i
  | none => ret = .invalid

def Inside (n : ℕ) : Event → Prop
  | .entry i => i < 16 * n
  | .lfn k => k < 10
  | .name k => k < 128

/-- Up to a file with the name, no more than 9 long-name entries are collected between one gap and
the next, when `c` of them are there. -/
def Roomy (name : Str) : ℕ → List Item → Prop
  | _, [] => False
  | _, .gap :: items => Roomy name 0 items
  | c, .file k lname :: items => c + k ≤ 9 ∧ (lname = name ∨ Roomy name (c + k) items)

/-! ## Names -/

variable {dirs dir buf disk : Mem} {name lname text str : Str} {named : Bool}
  {bound fuel rounds i j k n t a : ℕ} {lfn : LfnEntries} {items : List Item} {Q : Ret → Prop}

theorem readStr_eq (h : CStr buf a str) (hfuel : str.length < fuel) :
    readStr buf fuel a = some str := by
  rw [readStr, strlen_eq h hfuel, Option.map_some, Nat.add_sub_cancel_left, copied_of_cstr h]

theorem length_lfnChars (dirs : Mem) (i : ℕ) : (lfnChars dirs i).length = 13 := rfl

theorem getD_lfnChars (dirs : Mem) (i : ℕ) (hj : j < 13) :
    (lfnChars dirs i).getD j 0 = UInt8.ofNat (load dirs (32 * i + charOff j) 2) := by
  interval_cases j <;> rfl

theorem getD_flatMap_chars (dirs : Mem) (es : List ℕ) (f : ℕ → ℕ) (ht : t < 13 * es.length) :
    (es.flatMap fun i => lfnChars dirs (f i)).getD t 0 =
      (lfnChars dirs (f (es.getD (t / 13) 0))).getD (t % 13) 0 := by
  induction es generalizing t with
  | nil => exact absurd ht (Nat.not_lt_zero t)
  | cons e es ih =>
    rw [flatMap_cons]
    by_cases hlt : t < 13
    · rw [getD_append _ _ _ _ (by rwa [length_lfnChars]), Nat.div_eq_of_lt hlt,
        Nat.mod_eq_of_lt hlt, getD_cons_zero]
    · obtain ⟨t, rfl⟩ := Nat.exists_eq_add_of_le' (Nat.le_of_not_lt hlt)
      rw [length_cons] at ht
      rw [getD_append_right _ _ _ _ (by rw [length_lfnChars]; omega), length_lfnChars,
        Nat.add_sub_cancel, ih (by omega), Nat.add_div_right t (by decide), getD_cons_succ,
        Nat.add_mod_right]

theorem length_fatGetLfn (dirs : Mem) (lfn : LfnEntries) :
    (fatGetLfn dirs lfn).length = 13 * lfn.cnt := by
  rw [fatGetLfn, length_flatMap]
  simp only [length_lfnChars, map_const', length_reverse, length_range,
    sum_replicate_nat, Nat.mul_comm]

theorem getD_fatGetLfn (ht : t < 13 * lfn.cnt) :
    (fatGetLfn dirs lfn).getD t 0 =
      UInt8.ofNat (load dirs (32 * lfn.entries (lfn.cnt - 1 - t / 13) + charOff (t % 13)) 2) := by
  have hlen : t < 13 * (List.range lfn.cnt).reverse.length := by
    rwa [length_reverse, length_range]
  have hpiece : (List.range lfn.cnt).reverse.getD (t / 13) 0 = lfn.cnt - 1 - t / 13 := by
    rw [getD_eq_getElem _ _ (by simpa using by omega), getElem_reverse,
      getElem_range, length_range]
  rw [fatGetLfn, getD_flatMap_chars dirs _ _ hlen, hpiece,
    getD_lfnChars dirs _ (Nat.mod_lt t (by decide))]

def pushes (lfn : LfnEntries) (i : ℕ) : ℕ → LfnEntries
  | 0 => lfn
  | k + 1 => (pushes lfn i k).push (i + k)

theorem cnt_pushes (lfn : LfnEntries) (i k : ℕ) : (pushes lfn i k).cnt = lfn.cnt + k := by
  induction k with
  | zero => rfl
  | succ k ih => rw [pushes, LfnEntries.push, ih, Nat.add_assoc]

theorem entries_pushes (lfn : LfnEntries) (i : ℕ) (hj : j < k) :
    (pushes lfn i k).entries (lfn.cnt + j) = i + j := by
  induction k with
  | zero => exact absurd hj (Nat.not_lt_zero j)
  | succ k ih =>
    rw [pushes, LfnEntries.push, cnt_pushes]
    dsimp only
    by_cases hjk : j = k
    · rw [hjk, Function.update_self]
    · rw [Function.update_of_ne (by omega), ih (by omega)]

theorem IsEntries.putName_eq (h : IsEntries dirs i k lname) (lfn : LfnEntries) (buf : Mem) :
    ∃ buf', putName buf 0 (fatGetLfn dirs (pushes lfn i k)) =
        ⟨(List.range (13 * (pushes lfn i k).cnt + 1)).map fun k => .name (0 + k), some buf'⟩ ∧
      CStr buf' 0 lname := by
  have hzero : 0 ∉ lname := fun hmem => (h.ascii 0 hmem).1 rfl
  have hlt := h.length_lt
  refine ⟨_, by rw [putName, length_fatGetLfn], cstr_of_getD hzero fun t ht => ?_⟩
  have hin : t < 13 * (pushes lfn i k).cnt := by
    rw [cnt_pushes]
    omega
  have hpiece : lfn.cnt + k - 1 - t / 13 = lfn.cnt + (k - 1 - t / 13) := by omega
  rw [blit_apply_add (by omega), Nat.zero_add, getD_fatGetLfn hin, cnt_pushes, hpiece,
    entries_pushes lfn i (by omega), h.chars t ht]
  exact UInt8.ofNat_toNat

/-! ## The rounds -/

section Rounds

variable (hn : n ≤ 1000) (hi : i < 16 * n)
include hn hi

theorem lt_bound : i < n * 512 ∧ u32 (i + 1) = i + 1 := by
  constructor
  · omega
  · exact u32_of_lt (by omega)

theorem ensures_gap (hgap : IsGap dirs i) :
    (finddirLoop dirs name named (n * 512) fuel (rounds + 1) i lfn buf).Ensures (Inside n) Q ↔
      (finddirLoop dirs name named (n * 512) fuel rounds (i + 1) { lfn with cnt := 0 } buf).Ensures
        (Inside n) Q := by
  obtain ⟨hlt, hnext⟩ := lt_bound hn hi
  rw [finddirLoop, if_pos hlt, Traced.ensures_emit_bind, if_neg hgap.used, hnext]
  refine (and_iff_right hi).trans ?_
  by_cases hdel : entName0 dirs i = 0xe5
  · rw [if_pos hdel]
  · obtain ⟨hattr, hvol⟩ := hgap.gap.resolve_left hdel
    rw [if_neg hdel, if_neg hattr, if_pos hvol]

theorem ensures_lfn (hused : entName0 dirs i ≠ 0) (hdel : entName0 dirs i ≠ 0xe5)
    (hattr : entAttr dirs i = attrLfn) :
    (finddirLoop dirs name named (n * 512) fuel (rounds + 1) i lfn buf).Ensures (Inside n) Q ↔
      lfn.cnt < 10 ∧
        (finddirLoop dirs name named (n * 512) fuel rounds (i + 1) (lfn.push i) buf).Ensures
          (Inside n) Q := by
  obtain ⟨hlt, hnext⟩ := lt_bound hn hi
  rw [finddirLoop, if_pos hlt, Traced.ensures_emit_bind, if_neg hused, if_neg hdel, if_pos hattr,
    Traced.ensures_emit_bind, hnext]
  exact and_iff_right hi

omit hn hi in
theorem name_inside_iff (cnt : ℕ) :
    (∀ e ∈ (List.range (13 * cnt + 1)).map fun k => Event.name (0 + k), Inside n e) ↔
      cnt ≤ 9 := by
  rw [forall_mem_map]
  simp only [mem_range, Nat.zero_add, Inside]
  constructor
  · intro h
    have hlast := h (13 * cnt) (Nat.lt_succ_self _)
    omega
  · intro h k hk
    omega

theorem ensures_short (hname : name ≠ []) (hused : entName0 dirs i ≠ 0)
    (hdel : entName0 dirs i ≠ 0xe5) (hvol : entAttr dirs i &&& attrVolId = 0)
    (hcnt : lfn.cnt ≠ 0) {buf' : Mem}
    (hput : putName buf 0 (fatGetLfn dirs lfn) =
      ⟨(List.range (13 * lfn.cnt + 1)).map fun k => .name (0 + k), some buf'⟩)
    (hstr : CStr buf' 0 lname) (hfuel : lname.length < fuel) :
    (finddirLoop dirs name named (n * 512) fuel (rounds + 1) i lfn buf).Ensures (Inside n) Q ↔
      lfn.cnt ≤ 9 ∧
        if lname = name then named = true ∧ Q (nodeOf dirs i)
        else (finddirLoop dirs name named (n * 512) fuel rounds (i + 1) lfn buf').Ensures
          (Inside n) Q := by
  obtain ⟨hlt, hnext⟩ := lt_bound hn hi
  have hattr : entAttr dirs i ≠ attrLfn := by
    intro hattr
    rw [hattr] at hvol
    exact absurd hvol (by decide)
  have hcmp : strcmp name lname = 0 ↔ lname = name := by
    rw [strcmp_eq_zero]
    exact ⟨fun h => h.1.symm, fun h => ⟨h.symm, hname⟩⟩
  rw [finddirLoop, if_pos hlt, Traced.ensures_emit_bind, if_neg hused, if_neg hdel, if_neg hattr,
    if_neg (not_not_intro hvol), nameOf, if_pos hcnt, hput, Traced.ensures_bind_some,
    name_inside_iff, readStr_eq hstr hfuel, Traced.lift_some_bind, hnext]
  refine (and_iff_right hi).trans (and_congr_right fun _ => ?_)
  by_cases heq : lname = name
  · rw [if_pos heq, if_pos (hcmp.mpr heq)]
    cases named with
    | false => exact iff_of_false Traced.not_ensures_none fun h => Bool.false_ne_true h.1
    | true => simp only [if_true, Traced.ensures_pure_iff, true_and]
  · rw [if_neg heq, if_neg (mt hcmp.mp heq)]

end Rounds

theorem IsEntries.lfn_used (h : IsEntries dirs i k lname) (hj : j < k) :
    entName0 dirs (i + j) ≠ 0 ∧ entName0 dirs (i + j) ≠ 0xe5 := by
  have hle := h.le
  rw [h.order j hj]
  generalize hx : (if j = 0 then 0x40 + k else k - j) = x
  have hrange : 0 < x ∧ x < 0x50 := by
    split_ifs at hx <;> omega
  have hval : (UInt8.ofNat x).toNat = x := by
    rw [UInt8.toNat_ofNat']
    omega
  constructor
  · intro heq
    rw [heq] at hval
    have : (0 : UInt8).toNat = 0 := rfl
    omega
  · intro heq
    rw [heq] at hval
    have : (0xe5 : UInt8).toNat = 0xe5 := rfl
    omega

theorem IsEntries.ensures_lfns (h : IsEntries dirs i k lname) (hn : n ≤ 1000)
    (hi : i + k < 16 * n) (rounds : ℕ) {m : ℕ} (hm : m ≤ k) :
    (finddirLoop dirs name named (n * 512) fuel (rounds + m) i lfn buf).Ensures (Inside n) Q ↔
      (∀ j < m, lfn.cnt + j < 10) ∧
        (finddirLoop dirs name named (n * 512) fuel rounds (i + m) (pushes lfn i m) buf).Ensures
          (Inside n) Q := by
  induction m generalizing rounds with
  | zero => exact (and_iff_right fun j hj => absurd hj (Nat.not_lt_zero j)).symm
  | succ m ih =>
    have hlt : m < k := hm
    obtain ⟨hused, hdel⟩ := h.lfn_used hlt
    have hin : i + m < 16 * n := by omega
    rw [Nat.add_comm m 1, ← Nat.add_assoc, ih (rounds + 1) hlt.le,
      ensures_lfn hn hin hused hdel (h.attr m hlt), cnt_pushes, ← and_assoc]
    refine and_congr ?_ ?_
    · constructor
      · rintro ⟨hbefore, hlast⟩ j hj
        rcases Nat.lt_or_eq_of_le (Nat.le_of_lt_succ (Nat.add_comm 1 m ▸ hj)) with hj | rfl
        · exact hbefore j hj
        · exact hlast
      · intro hall
        exact ⟨fun j hj => hall j (by omega), hall m (by omega)⟩
    · rw [Nat.add_comm 1 m]
      rfl

/-- A file: the loop takes its entries with what has been collected before, and goes on with all of
them if it is not the one. -/
theorem IsEntries.ensures_file (h : IsEntries dirs i k lname) (hn : n ≤ 1000)
    (hi : i + (k + 1) ≤ 16 * n) (hname : name ≠ []) (hfuel : 128 ≤ fuel) (named : Bool)
    (Q : Ret → Prop) (rounds : ℕ) (lfn : LfnEntries) (buf : Mem) :
    ∃ lfn' buf', lfn'.cnt = lfn.cnt + k ∧
      ((finddirLoop dirs name named (n * 512) fuel (rounds + (k + 1)) i lfn buf).Ensures
          (Inside n) Q ↔
        lfn.cnt + k ≤ 9 ∧
          if lname = name then named = true ∧ Q (nodeOf dirs (i + k))
          else (finddirLoop dirs name named (n * 512) fuel rounds (i + (k + 1)) lfn' buf').Ensures
            (Inside n) Q) := by
  have hcnt := cnt_pushes lfn i k
  have hpos := h.pos
  have hle := h.le
  have hlength := h.length_lt
  obtain ⟨buf', hput, hstr⟩ := h.putName_eq lfn buf
  refine ⟨pushes lfn i k, buf', hcnt, ?_⟩
  rw [Nat.add_comm k 1, ← Nat.add_assoc, h.ensures_lfns hn (by omega) (rounds + 1) le_rfl,
    ensures_short hn (by omega) hname h.short.1 h.short.2 h.not_volId (by omega) hput hstr
      (by omega), hcnt, ← and_assoc, ← Nat.add_assoc i, Nat.add_right_comm i]
  refine and_congr_left fun _ => ⟨fun hroom => hroom.2, fun hroom => ⟨fun j hj => ?_, hroom⟩⟩
  omega

/-- A lookup that stays inside the data ends with a match, which is stored through the unset
pointer. -/
theorem exists_of_ensures (hn : n ≤ 1000) (hpos : 0 < n) (hi : i ≤ 16 * n)
    (h : (finddirLoop dirs name named (n * 512) fuel rounds i lfn buf).Ensures (Inside n) Q) :
    named = true ∧ ∃ e, Q (nodeOf dirs e) := by
  induction rounds generalizing i lfn buf with
  | zero => exact absurd h Traced.not_ensures_none
  | succ rounds ih =>
    rw [finddirLoop, if_pos (by omega), Traced.ensures_emit_bind] at h
    obtain ⟨hlt, h⟩ := h
    have hlt : i < 16 * n := hlt
    rw [u32_of_lt (show i + 1 < 2 ^ 32 by omega)] at h
    by_cases hfree : entName0 dirs i = 0
    · rw [if_pos hfree] at h
      exact ih hlt h
    by_cases hdel : entName0 dirs i = 0xe5
    · rw [if_neg hfree, if_pos hdel] at h
      exact ih hlt h
    by_cases hlfn : entAttr dirs i = attrLfn
    · rw [if_neg hfree, if_neg hdel, if_pos hlfn] at h
      exact ih hlt (Traced.ensures_emit_bind.mp h).2
    by_cases hvol : entAttr dirs i &&& attrVolId ≠ 0
    · rw [if_neg hfree, if_neg hdel, if_neg hlfn, if_pos hvol] at h
      exact ih hlt h
    rw [if_neg hfree, if_neg hdel, if_neg hlfn, if_neg hvol] at h
    obtain ⟨-, buf', -, h⟩ := Traced.ensures_bind_iff.mp h
    obtain ⟨-, str, -, h⟩ := Traced.ensures_bind_iff.mp h
    split_ifs at h with hcmp hnamed
    · exact ⟨hnamed, i, Traced.ensures_pure_iff.mp h⟩
    · exact absurd h Traced.not_ensures_none
    · exact ih hlt h

/-! ## The entries up to a match -/

def SameEntries (dirs dir : Mem) (n : ℕ) : Prop := ∀ x < 32 * n, dirs x = dir x

section SameEntries

variable (h : SameEntries dirs dir n) (hi : i < n)
include h hi

theorem SameEntries.name0 : entName0 dirs i = entName0 dir i := h (32 * i) (by omega)

theorem SameEntries.attr : entAttr dirs i = entAttr dir i :=
  congrArg UInt8.toNat (h (32 * i + 11) (by omega))

theorem SameEntries.load {o w : ℕ} (how : o + w ≤ 32) :
    load dirs (32 * i + o) w = load dir (32 * i + o) w :=
  load_congr fun x _ hx => h x (by omega)

theorem SameEntries.nodeOf : nodeOf dirs i = nodeOf dir i := by
  rw [Fat.nodeOf, Fat.nodeOf, entCluster, entCluster, entFileSz, entFileSz, h.attr hi,
    h.load hi (by decide), h.load hi (by decide), h.load hi (by decide)]

end SameEntries

theorem charOff_le (hj : j < 13) : charOff j + 2 ≤ 32 := by
  rw [charOff]
  split_ifs <;> omega

theorem IsGap.of_same (hgap : IsGap dir i) (h : SameEntries dirs dir n) (hi : i < n) :
    IsGap dirs i := by
  constructor
  · rw [h.name0 hi]
    exact hgap.used
  · rw [h.name0 hi, h.attr hi]
    exact hgap.gap

theorem IsEntries.of_same (hdir : IsEntries dir i k lname) (h : SameEntries dirs dir n)
    (hi : i + (k + 1) ≤ n) : IsEntries dirs i k lname where
  pos := hdir.pos
  le := hdir.le
  order j hj := (h.name0 (by omega)).trans (hdir.order j hj)
  attr j hj := (h.attr (by omega)).trans (hdir.attr j hj)
  ascii := hdir.ascii
  length_lt := hdir.length_lt
  chars t ht := by
    rw [h.load (by omega) (charOff_le (Nat.mod_lt t (by decide)))]
    exact hdir.chars t ht
  short := by
    rw [h.name0 (by omega)]
    exact hdir.short
  not_volId := by
    rw [h.attr (by omega)]
    exact hdir.not_volId

theorem le_of_lookup {e : ℕ} (h : lookup name i items = some e) : i ≤ e := by
  induction items generalizing i with
  | nil => cases h
  | cons item items ih =>
    cases item with
    | gap => exact Nat.le_of_succ_le (ih h)
    | file k lname =>
      rw [lookup] at h
      split_ifs at h with heq
      · cases h
        exact Nat.le_add_right i k
      · exact (Nat.le_add_right i (k + 1)).trans (ih h)

theorem le_of_lookup_file {e : ℕ} (h : lookup name i (.file k lname :: items) = some e) :
    i + k ≤ e := by
  rw [lookup] at h
  split_ifs at h with heq
  · cases h
    exact Nat.le_refl _
  · exact Nat.le_of_succ_le (le_of_lookup h)

theorem lookup_lt {e : ℕ} (h : lookup name i items = some e) : e < i + used items := by
  induction items generalizing i with
  | nil => cases h
  | cons item items ih =>
    rw [used, map_cons, sum_cons, ← used, ← Nat.add_assoc]
    cases item with
    | gap => exact ih h
    | file k lname =>
      rw [lookup] at h
      split_ifs at h with heq
      · cases h
        exact Nat.lt_add_right _ (Nat.lt_succ_self _)
      · exact ih h

/-- The loop on a buffer that holds the directory up to the first match, at entry `e`. -/
theorem Layout.ensures_iff {e : ℕ} (hlayout : Layout dir i items)
    (hfound : lookup name i items = some e) (hsame : SameEntries dirs dir (e + 1)) (hn : n ≤ 1000)
    (he : e < 16 * n) (hname : name ≠ []) (hfuel : 128 ≤ fuel) (hrounds : e < i + rounds)
    (hQ : Q (nodeOf dirs e)) :
    (finddirLoop dirs name named (n * 512) fuel rounds i lfn buf).Ensures (Inside n) Q ↔
      named = true ∧ Roomy name lfn.cnt items := by
  induction items generalizing i lfn buf rounds with
  | nil => cases hfound
  | cons item items ih =>
    have hle := le_of_lookup hfound
    cases item with
    | gap =>
      obtain ⟨hgap, hrest⟩ := hlayout
      obtain ⟨rounds, rfl⟩ := Nat.exists_eq_add_of_le' (show 1 ≤ rounds by omega)
      rw [ensures_gap hn (by omega) (hgap.of_same hsame (by omega))]
      exact ih hrest hfound (by omega)
    | file k lname =>
      obtain ⟨hfile, hrest⟩ := hlayout
      have hend : i + (k + 1) ≤ e + 1 := Nat.succ_le_succ (le_of_lookup_file hfound)
      obtain ⟨rounds, rfl⟩ := Nat.exists_eq_add_of_le' (show k + 1 ≤ rounds by omega)
      obtain ⟨lfn', buf', hcnt, hiff⟩ := (hfile.of_same hsame hend).ensures_file hn (by omega) hname
        hfuel named Q rounds lfn buf
      rw [hiff, Roomy]
      rw [lookup] at hfound
      by_cases heq : lname = name
      · rw [if_pos heq] at hfound
        cases hfound
        simp only [heq, if_true, hQ, and_true, true_or]
        exact and_comm
      · rw [if_neg heq] at hfound
        rw [if_neg heq, ih hrest hfound (by omega), hcnt]
        simp only [heq, false_or]
        exact and_left_comm

/-! ## Directories on a volume -/

/-- A directory on a volume: a chain of `n` clusters whose data are the items, and empty entries
behind them. -/
structure IsDir (disk : Mem) (first n : ℕ) (items : List Item) : Prop where
  file : IsFile disk first n (n * (512 * perCluster disk))
  layout : Layout (fileByte disk first) 0 items
  fits : used items ≤ n * (16 * perCluster disk)
  empty : ∀ i, used items ≤ i → i < n * (16 * perCluster disk) →
    entName0 (fileByte disk first) i = 0

/-- The call returns the right node and stays inside the data and the two arrays. -/
def FindsSafely (disk : Mem) (first n : ℕ) (items : List Item) (name : Str) (named : Bool) :
    Prop :=
  ∀ block stack, ∃ vol, fatMount disk = some vol ∧ ∃ enough, ∀ fuel ≥ enough,
    (fatFinddir vol disk .directory first name named block stack fuel).Ensures
      (Inside n) (Right (fileByte disk first) items name)

namespace IsDir

variable {first e : ℕ} (h : IsDir disk first n items)
include h

theorem sameEntries (hfound : lookup name 0 items = some e) (hbuf : perCluster disk = 1 ∨ e < 16)
    (hdirs : ∀ x < 512 * n, dirs x = firstSectorByte disk first x) :
    e < 16 * n ∧ SameEntries dirs (fileByte disk first) (e + 1) := by
  have hpos := h.file.chain.pos
  have hlt := lookup_lt hfound
  have hfits := h.fits
  have he : e < 16 * n := by
    rcases hbuf with hone | hfirst
    · rw [hone] at hfits
      omega
    · omega
  refine ⟨he, fun x hx => ?_⟩
  rw [hdirs x (by omega)]
  exact h.file.firstSectorByte_eq (hbuf.imp_right fun _ => by omega)

theorem exists_finddir :
    ∃ enough, ∀ fuel ≥ enough, ∀ block, ∃ dirs : Mem,
      (∀ x < 512 * n, dirs x = firstSectorByte disk first x) ∧ ∀ name named stack,
        fatFinddir (mountInf disk) disk .directory first name named block stack fuel =
          finddirLoop dirs name named (n * 512) fuel fuel 0 ⟨fun _ => 0, 0⟩ stack := by
  obtain ⟨enough, hchain⟩ := h.file.exists_readClusterChain
  refine ⟨enough, fun fuel hfuel block => ?_⟩
  obtain ⟨⟨dirs, m⟩, hrun⟩ := hchain fuel hfuel block
  obtain ⟨rfl, hdirs⟩ := h.file.readClusterChain_eq hrun
  refine ⟨dirs, fun x hx => (hdirs x).trans (if_pos hx), fun name named stack => ?_⟩
  rw [fatFinddir, if_neg (not_not_intro rfl), hrun, Traced.lift_some_bind]

theorem finds_of_roomy (hfound : lookup name 0 items = some e)
    (hbuf : perCluster disk = 1 ∨ e < 16) (hname : name ≠ []) (hroomy : Roomy name 0 items) :
    FindsSafely disk first n items name true := by
  obtain ⟨enough, hfinddir⟩ := h.exists_finddir
  refine fun block stack => ⟨_, h.file.fatMount_eq, enough + 128 + e + 1, fun fuel hfuel => ?_⟩
  obtain ⟨dirs, hdirs, hrun⟩ := hfinddir fuel (by omega) block
  obtain ⟨he, hsame⟩ := h.sameEntries hfound hbuf hdirs
  rw [hrun]
  refine (h.layout.ensures_iff hfound hsame h.file.length_le he hname (by omega) (by omega) ?_).mpr
    ⟨rfl, hroomy⟩
  rw [Right, hfound]
  exact hsame.nodeOf (Nat.lt_succ_self e)

/-- A lookup that is right is one of the loop, on the first sectors. -/
theorem exists_ensures (hfinds : FindsSafely disk first n items name named) (least : ℕ) :
    ∃ (dirs : Mem) (fuel : ℕ), least ≤ fuel ∧
      (∀ x < 512 * n, dirs x = firstSectorByte disk first x) ∧
      (finddirLoop dirs name named (n * 512) fuel fuel 0 ⟨fun _ => 0, 0⟩ newBuf).Ensures
        (Inside n) (Right (fileByte disk first) items name) := by
  obtain ⟨enough, hfinddir⟩ := h.exists_finddir
  obtain ⟨vol, hvol, enough', hright⟩ := hfinds newBuf newBuf
  obtain rfl := Option.some.inj (h.file.fatMount_eq.symm.trans hvol)
  obtain ⟨dirs, hdirs, hrun⟩ := hfinddir (enough + enough' + least) (by omega) newBuf
  refine ⟨dirs, enough + enough' + least, Nat.le_add_left _ _, hdirs, ?_⟩
  rw [← hrun]
  exact hright _ (by omega)

theorem named_of_finds (hfinds : FindsSafely disk first n items name named) :
    named = true ∧ lookup name 0 items ≠ none := by
  obtain ⟨dirs, fuel, -, -, hens⟩ := h.exists_ensures hfinds 0
  obtain ⟨hnamed, e, hright⟩ :=
    exists_of_ensures h.file.length_le h.file.chain.pos (Nat.zero_le _) hens
  refine ⟨hnamed, fun hnone => ?_⟩
  rw [Right, hnone] at hright
  cases hright

theorem roomy_of_finds (hfinds : FindsSafely disk first n items name named)
    (hfound : lookup name 0 items = some e) (hbuf : perCluster disk = 1 ∨ e < 16)
    (hname : name ≠ []) : Roomy name 0 items := by
  obtain ⟨dirs, fuel, hfuel, hdirs, hens⟩ := h.exists_ensures hfinds (128 + e + 1)
  obtain ⟨he, hsame⟩ := h.sameEntries hfound hbuf hdirs
  refine ((h.layout.ensures_iff hfound hsame h.file.length_le he hname (by omega) (by omega)
    ?_).mp hens).2
  rw [Right, hfound]
  exact hsame.nodeOf (Nat.lt_succ_self e)

end IsDir

/-- A lookup is right and stays inside its buffers only if the unset pointer can be written and
there is a file with the name. If its entry is in the first sector, or a cluster is one sector,
what is left is that there is room for all that is collected up to it. -/
theorem fatFinddir_finds_iff (disk : Mem) (first n : ℕ) (items : List Item) (name : Str)
    (named : Bool) (h : IsDir disk first n items) (hname : name ≠ []) :
    (FindsSafely disk first n items name named → named = true ∧ lookup name 0 items ≠ none) ∧
      ∀ e, lookup name 0 items = some e → perCluster disk = 1 ∨ e < 16 →
        (FindsSafely disk first n items name named ↔ named = true ∧ Roomy name 0 items) := by
  refine ⟨h.named_of_finds, fun e hfound hbuf => ⟨fun hfinds => ?_, ?_⟩⟩
  · exact ⟨(h.named_of_finds hfinds).1, h.roomy_of_finds hfinds hfound hbuf hname⟩
  · rintro ⟨rfl, hroomy⟩
    exact h.finds_of_roomy hfound hbuf hname hroomy

def oneFile : Mem :=
  let lfn := store (store (store (oneCluster 1) 1024 1 0x41) 1025 2 97) 1035 1 0x0f
  store (store (store (store lfn 1056 1 65) 1067 1 0x20) 1082 2 5) 1084 4 100

theorem oneFile_isDir : IsDir oneFile 2 1 [.file 1 [97]] := by
  have hper : perCluster oneFile = 1 := by decide +kernel
  have hempty : ∀ i < 16, 2 ≤ i → entName0 (fileByte oneFile 2) i = 0 := by decide +kernel
  refine ⟨⟨?_, ⟨0, by decide, hper⟩, ⟨Nat.one_pos, ?_, fun k hpos hlt => by omega⟩, by decide, ?_,
    ?_, ?_, by rw [hper]⟩, ⟨⟨by decide, by decide, ?_, ?_, ?_, by decide, ?_, ?_, ?_⟩, trivial⟩,
    by rw [hper]; decide, fun i hi hlt => hempty i (by rwa [hper] at hlt) hi⟩
  all_goals decide +kernel

/-- The file is found, if the unset pointer can be written. -/
theorem fatFinddir_finds_a :
    nodeOf (fileByte oneFile 2) 1 = .node 5 100 .file ∧
      FindsSafely oneFile 2 1 [.file 1 [97]] [97] true :=
  ⟨by decide +kernel,
    ((fatFinddir_finds_iff oneFile 2 1 [.file 1 [97]] [97] true oneFile_isDir (by decide)).2 1 rfl
      (Or.inr (by decide))).mpr ⟨rfl, by decide, Or.inl rfl⟩⟩

def longNames : Mem := fun x =>
  let i := (x - 1024) / 32
  let o := x % 32
  if x < 1024 ∨ 12 ≤ i then oneCluster 1 x
  else if i % 6 = 5 then if o = 0 then 65 else if o = 11 then 0x20 else 0
  else if o = 0 then UInt8.ofNat (if i % 6 = 0 then 0x45 else 5 - i % 6)
  else if o = 11 then 0x0f
  else
    match (List.range 13).find? fun c => charOff c = o with
    | some c => if 13 * (4 - i % 6) + c < 60 then UInt8.ofNat (97 + i / 6) else 0
    | none => 0

def longItems : List Item := [.file 5 (.replicate 60 97), .file 5 (.replicate 60 98)]

theorem longNames_isDir : IsDir longNames 2 1 longItems := by
  have hper : perCluster longNames = 1 := by decide +kernel
  have hempty : ∀ i < 16, 12 ≤ i → entName0 (fileByte longNames 2) i = 0 := by decide +kernel
  refine ⟨⟨?_, ⟨0, by decide, hper⟩, ⟨Nat.one_pos, ?_, fun k hpos hlt => by omega⟩, by decide, ?_,
    ?_, ?_, by rw [hper]⟩, ⟨⟨by decide, by decide, ?_, ?_, ?_, by decide, ?_, ?_, ?_⟩,
      ⟨by decide, by decide, ?_, ?_, ?_, by decide, ?_, ?_, ?_⟩, trivial⟩,
    by rw [hper]; decide, fun i hi hlt => hempty i (by rwa [hper] at hlt) hi⟩
  all_goals decide +kernel

/-- The second file is not found inside the buffers: when it comes to it, 10 entries have been
collected, and their characters are more than `_name` holds. And a name that is not there is looked
for behind the data. -/
theorem fatFinddir_leaves_buffers :
    lookup (.replicate 60 98) 0 longItems = some 11 ∧
      ¬FindsSafely longNames 2 1 longItems (.replicate 60 98) true ∧
      lookup [99] 0 longItems = none ∧ ¬FindsSafely longNames 2 1 longItems [99] true := by
  refine ⟨by decide, fun h => ?_, by decide, fun h => ?_⟩
  · obtain ⟨-, hmatch⟩ :=
      longNames_isDir.roomy_of_finds h (show _ = some 11 by decide) (Or.inr (by decide)) (by decide)
    rcases hmatch with heq | ⟨hroom, -⟩
    · exact absurd heq (by decide)
    · exact absurd hroom (by decide)
  · exact (longNames_isDir.named_of_finds h).2 (by decide)

end KernelOld.Fat
