import KernelOld.Lib.StackBlocks
import KernelOld.Mem.Space.PrivatePages
import KernelOld.Sys.MmapRuns
import KernelOld.Util.Strings

/-!
# The first stack of a process

`prepstack` of `src/sched/sched.c`, and what it finds after the stack loop of `sched_mkelfproc`.
It pushes the path and the arguments, and then the addresses of these strings, the last one first.
Each push writes one block (`argBlocks`).
-/

namespace KernelOld.Exec
open ByteMemory MachineWord Strings LinkedList CountedLoop Space Mmap StackBlocks List

def writeBytes (map : PageMap) : ℕ → List UInt8 → Machine → Option Machine
  | _, [], s => some s
  | v, b :: bs, s => do
    let s ← userWrite s map v b
    writeBytes map (u64 (v + 1)) bs s

def pushStr (map : PageMap) (st : Machine × ℕ × List ℕ) (str : Str) :
    Option (Machine × ℕ × List ℕ) := do
  let stack := sub64 st.2.1 (str.length + 1)
  let s ← writeBytes map stack (str ++ [0]) st.1
  some (s, stack, stack :: st.2.2)

def pushWord (map : PageMap) (st : Machine × ℕ) (w : ℕ) : Option (Machine × ℕ) := do
  let stack := sub64 st.2 8
  let s ← writeBytes map stack ((List.range 8).map fun i => UInt8.ofNat (w / 256 ^ i)) st.1
  some (s, stack)

/-- `tmp_argv` is kept with its last element first, as the second loop pushes it. -/
def prepstack (map : PageMap) (s : Machine) (rsp : ℕ) (file : Str) (argv : List Str) :
    Option (Machine × ℕ) := do
  let (s, stack, tmpArgv) ← (file :: argv).foldlM (pushStr map) (s, rsp, [])
  tmpArgv.foldlM (pushWord map) (s, stack)

/-! ## The blocks that are written -/

def wordBytes (w : ℕ) : List UInt8 := (List.range 8).map fun i => UInt8.ofNat (w / 256 ^ i)

def stringBlocks : ℕ → List Str → List (Block UInt8)
  | _, [] => []
  | sp, str :: strs =>
    ⟨sub64 sp (str.length + 1), str ++ [0]⟩ :: stringBlocks (sub64 sp (str.length + 1)) strs

def wordBlocks : ℕ → List ℕ → List (Block UInt8)
  | _, [] => []
  | sp, w :: ws => ⟨sub64 sp 8, wordBytes w⟩ :: wordBlocks (sub64 sp 8) ws

def pointers (top : ℕ) (strs : List Str) : List ℕ := (stringBlocks top strs).map Block.base

def argBlocks (top : ℕ) (strs : List Str) : List (Block UInt8) :=
  stringBlocks top strs ++
    wordBlocks (bottom top (stringBlocks top strs)) (pointers top strs).reverse

def writeBlock (map : PageMap) (s : Machine) (x : Block UInt8) : Option Machine :=
  writeBytes map x.base x.bytes s

variable {s₀ s s' : Machine} {map : PageMap} {byte : ℕ → Option UInt8} {st st' : Machine × PageMap}
  {strs args : List Str} {path str : Str} {ws ptrs : List ℕ} {x : Block UInt8}
  {xs : List (Block UInt8)} {bs : List UInt8} {b e i j v sp top stack back new : ℕ}

theorem foldlM_pushStr (map : PageMap) (s : Machine) (sp : ℕ) (ptrs : List ℕ) (strs : List Str) :
    strs.foldlM (pushStr map) (s, sp, ptrs) =
      ((stringBlocks sp strs).foldlM (writeBlock map) s).map fun s =>
        (s, bottom sp (stringBlocks sp strs), (pointers sp strs).reverse ++ ptrs) := by
  induction strs generalizing s sp ptrs with
  | nil => rfl
  | cons str strs ih =>
    rw [foldlM_cons, stringBlocks, foldlM_cons, pushStr, writeBlock]
    cases writeBytes map (sub64 sp (str.length + 1)) (str ++ [0]) s with
    | none => rfl
    | some s₁ =>
      have hptrs : (pointers sp (str :: strs)).reverse ++ ptrs =
          (pointers (sub64 sp (str.length + 1)) strs).reverse ++
            sub64 sp (str.length + 1) :: ptrs := by
        rw [pointers, stringBlocks, map_cons, reverse_cons, append_assoc]
        rfl
      simp only [Option.bind_eq_bind, Option.bind_some, ih, hptrs]
      rfl

theorem foldlM_pushWord (map : PageMap) (s : Machine) (sp : ℕ) (ws : List ℕ) :
    ws.foldlM (pushWord map) (s, sp) =
      ((wordBlocks sp ws).foldlM (writeBlock map) s).map fun s =>
        (s, bottom sp (wordBlocks sp ws)) := by
  induction ws generalizing s sp with
  | nil => rfl
  | cons w ws ih =>
    rw [foldlM_cons, wordBlocks, foldlM_cons, pushWord, writeBlock]
    show (writeBytes map (sub64 sp 8) (wordBytes w) s >>= _) >>= _ = _
    cases writeBytes map (sub64 sp 8) (wordBytes w) s with
    | none => rfl
    | some s₁ => simp only [Option.bind_eq_bind, Option.bind_some, ih, bottom]

theorem prepstack_eq (map : PageMap) (s : Machine) (top : ℕ) (path : Str) (args : List Str) :
    prepstack map s top path args =
      ((argBlocks top (path :: args)).foldlM (writeBlock map) s).map fun s =>
        (s, bottom top (argBlocks top (path :: args))) := by
  rw [prepstack, foldlM_pushStr, argBlocks, bottom_append, foldlM_append]
  cases (stringBlocks top (path :: args)).foldlM (writeBlock map) s with
  | none => rfl
  | some s₁ =>
    simp only [Option.map_some, Option.bind_eq_bind, Option.bind_some, foldlM_pushWord,
      append_nil]

def room (strs : List Str) : ℕ := (strs.map fun str => str.length + 1).sum

theorem room_cons (str : Str) (strs : List Str) :
    room (str :: strs) = str.length + 1 + room strs := rfl

theorem wordBytes_length (w : ℕ) : (wordBytes w).length = 8 := by
  rw [wordBytes, length_map, length_range]

theorem stringBlocks_length (sp : ℕ) (strs : List Str) :
    (stringBlocks sp strs).length = strs.length := by
  induction strs generalizing sp with
  | nil => rfl
  | cons str strs ih => rw [stringBlocks, length_cons, length_cons, ih]

theorem pointers_length (top : ℕ) (strs : List Str) : (pointers top strs).length = strs.length := by
  rw [pointers, length_map, stringBlocks_length]

theorem stringBlocks_descends (strs : List Str) (hsp : sp < 2 ^ 64) (hroom : room strs ≤ sp) :
    Descends sp (stringBlocks sp strs) ∧ bottom sp (stringBlocks sp strs) = sp - room strs := by
  induction strs generalizing sp with
  | nil => exact ⟨trivial, rfl⟩
  | cons str strs ih =>
    rw [room_cons] at hroom ⊢
    have hsub : sub64 sp (str.length + 1) = sp - (str.length + 1) := sub64_of_le hsp (by omega)
    obtain ⟨hdesc, hbottom⟩ := ih (show sp - (str.length + 1) < 2 ^ 64 by omega) (by omega)
    rw [stringBlocks, hsub]
    refine ⟨⟨?_, hdesc⟩, ?_⟩
    · rw [Block.stop, length_append, length_singleton]
      exact Nat.sub_add_cancel (by omega)
    · rw [bottom, hbottom]
      omega

theorem wordBlocks_descends (ws : List ℕ) (hsp : sp < 2 ^ 64) (hroom : ws.length * 8 ≤ sp) :
    Descends sp (wordBlocks sp ws) ∧ bottom sp (wordBlocks sp ws) = sp - ws.length * 8 := by
  induction ws generalizing sp with
  | nil => exact ⟨trivial, rfl⟩
  | cons w ws ih =>
    rw [length_cons] at hroom ⊢
    have hsub : sub64 sp 8 = sp - 8 := sub64_of_le hsp (by omega)
    obtain ⟨hdesc, hbottom⟩ := ih (show sp - 8 < 2 ^ 64 by omega) (by omega)
    rw [wordBlocks, hsub]
    refine ⟨⟨?_, hdesc⟩, ?_⟩
    · rw [Block.stop, wordBytes_length]
      exact Nat.sub_add_cancel (by omega)
    · rw [bottom, hbottom]
      omega

def pushed (strs : List Str) : ℕ := room strs + strs.length * 8

theorem argBlocks_descends (htop : top < 2 ^ 64) (hroom : pushed strs ≤ top) :
    Descends top (argBlocks top strs) ∧ bottom top (argBlocks top strs) = top - pushed strs := by
  rw [pushed] at hroom ⊢
  have hlen : (pointers top strs).reverse.length = strs.length := by
    rw [length_reverse, pointers_length]
  obtain ⟨hstrs, hmid⟩ := stringBlocks_descends strs htop (by omega)
  obtain ⟨hwords, hbottom⟩ := wordBlocks_descends (pointers top strs).reverse
    (show top - room strs < 2 ^ 64 by omega) (by omega)
  rw [argBlocks, bottom_append, descends_append, hmid, hbottom, hlen]
  exact ⟨⟨hstrs, hwords⟩, by omega⟩

/-! ## The stack after `prepstack` -/

theorem pages_writeBytes (h : Pages s₀ (s, map) byte) (hreach : InReach s)
    (hend : v + bs.length ≤ 2 ^ 39) (hmapped : ∀ j < bs.length, byte (v + j) ≠ none) :
    ∃ s', writeBytes map v bs s = some s' ∧ InReach s' ∧
      Pages s₀ (s', map) (write byte ⟨v, bs⟩) := by
  induction bs generalizing s v byte with
  | nil =>
    rw [write_nil]
    exact ⟨s, rfl, hreach, h⟩
  | cons b bs ih =>
    rw [length_cons] at hend hmapped
    obtain ⟨s₁, hwrite, hreach₁, h₁⟩ :=
      h.userWrite hreach (show v < 2 ^ 39 by omega) (hmapped 0 (Nat.succ_pos _)) b
    have hnext : ∀ j < bs.length, Function.update byte v (some b) (v + 1 + j) ≠ none := by
      intro j hj
      rw [Function.update_of_ne (by omega), Nat.add_assoc, Nat.add_comm 1 j]
      exact hmapped (j + 1) (Nat.succ_lt_succ hj)
    obtain ⟨s', hrest, hreach', h'⟩ := ih h₁ hreach₁ (by omega) hnext
    refine ⟨s', ?_, hreach', ?_⟩
    · rw [writeBytes, hwrite, ← hrest, u64_of_lt (show v + 1 < 2 ^ 64 by omega)]
      rfl
    · rw [write_cons]
      exact h'

theorem pages_writeBlocks (h : Pages s₀ (s, map) byte) (hreach : InReach s)
    (hmapped : ∀ x ∈ xs, x.stop ≤ 2 ^ 39 ∧ ∀ v, x.Covers v → byte v ≠ none) :
    ∃ s', xs.foldlM (writeBlock map) s = some s' ∧ InReach s' ∧
      Pages s₀ (s', map) (xs.foldl write byte) := by
  induction xs generalizing s byte with
  | nil => exact ⟨s, rfl, hreach, h⟩
  | cons x xs ih =>
    obtain ⟨⟨hstop, hx⟩, hxs⟩ := forall_mem_cons.mp hmapped
    obtain ⟨s₁, hwrite, hreach₁, h₁⟩ := pages_writeBytes h hreach hstop fun j hj =>
      hx (x.base + j) ⟨Nat.le_add_right _ _, Nat.add_lt_add_left hj _⟩
    obtain ⟨s', hrest, hreach', h'⟩ := ih h₁ hreach₁ fun y hy =>
      ⟨(hxs y hy).1, fun v hv => write_ne_none ((hxs y hy).2 v hv)⟩
    refine ⟨s', ?_, hreach', h'⟩
    rw [foldlM_cons, writeBlock, hwrite]
    exact hrest

def Reads (st : Machine × PageMap) (v : ℕ) (bs : List UInt8) : Prop :=
  ∀ j < bs.length, userRead st.1 st.2 (v + j) = bs[j]?

def IsString (st : Machine × PageMap) (p : ℕ) (str : Str) : Prop :=
  Reads st p (str ++ [0]) ∧ 0 ∉ str

def argRanges (rsp : ℕ) (ptrs : List ℕ) (strs : List Str) : List (ℕ × ℕ) :=
  (rsp, 8 * ptrs.length) :: List.zipWith (fun p str => (p, str.length + 1)) ptrs strs

structure Arrived (st : Machine × PageMap) (top rsp : ℕ) (strs : List Str) (ptrs : List ℕ) :
    Prop where
  words : ∀ i (h : i < ptrs.length), Reads st (rsp + 8 * i) (wordBytes ptrs[i])
  strings : List.Forall₂ (IsString st) ptrs strs
  apart : (argRanges rsp ptrs strs).Pairwise fun x y => Apart x.1 x.2 y.1 y.2
  between : ∀ x ∈ argRanges rsp ptrs strs, rsp ≤ x.1 ∧ x.1 + x.2 ≤ top

theorem forall₂_pointers {R : ℕ → Str → Prop}
    (h : ∀ p, ∀ str ∈ strs, ⟨p, str ++ [0]⟩ ∈ stringBlocks sp strs → R p str) :
    List.Forall₂ R (pointers sp strs) strs := by
  induction strs generalizing sp with
  | nil => exact List.Forall₂.nil
  | cons str strs ih =>
    refine List.Forall₂.cons (h _ str mem_cons_self mem_cons_self) (ih ?_)
    intro p s hs hx
    exact h p s (mem_cons_of_mem _ hs) (mem_cons_of_mem _ hx)

theorem zipWith_pointers (sp : ℕ) (strs : List Str) :
    List.zipWith (fun p str => (p, str.length + 1)) (pointers sp strs) strs =
      (stringBlocks sp strs).map fun x => (x.base, x.bytes.length) := by
  induction strs generalizing sp with
  | nil => rfl
  | cons str strs ih =>
    have hrest := ih (sub64 sp (str.length + 1))
    rw [pointers] at hrest ⊢
    rw [stringBlocks, map_cons, map_cons, zipWith_cons_cons, hrest,
      length_append]
    rfl

theorem wordBlocks_concat (sp : ℕ) (ws : List ℕ) (w : ℕ) :
    wordBlocks sp (ws ++ [w]) = wordBlocks sp ws ++
      [⟨sub64 (bottom sp (wordBlocks sp ws)) 8, wordBytes w⟩] := by
  induction ws generalizing sp with
  | nil => rfl
  | cons w' ws ih =>
    rw [cons_append, wordBlocks, wordBlocks, ih, bottom, cons_append]

theorem mem_wordBlocks (hsp : sp < 2 ^ 64) (hroom : ptrs.length * 8 ≤ sp) (hi : i < ptrs.length) :
    ⟨sp - ptrs.length * 8 + 8 * i, wordBytes ptrs[i]⟩ ∈ wordBlocks sp ptrs.reverse := by
  induction ptrs generalizing i with
  | nil => cases hi
  | cons p ptrs ih =>
    rw [length_cons] at hroom hi ⊢
    have hlen : ptrs.reverse.length * 8 ≤ sp := by
      rw [length_reverse]
      omega
    have hbottom := (wordBlocks_descends ptrs.reverse hsp hlen).2
    rw [length_reverse] at hbottom
    rw [reverse_cons, wordBlocks_concat, hbottom, sub64_of_le (by omega) (by omega)]
    cases i with
    | zero =>
      refine mem_append_right _ (mem_singleton.mpr ?_)
      congr 1
      omega
    | succ i =>
      refine mem_append_left _ ?_
      have hmem := ih (by omega) (Nat.lt_of_succ_lt_succ hi)
      have hbase : sp - (ptrs.length + 1) * 8 + 8 * (i + 1) = sp - ptrs.length * 8 + 8 * i := by
        omega
      rw [hbase]
      exact hmem

theorem argBlocks_between (htop : top < 2 ^ 64) (hroom : pushed strs ≤ top)
    (hx : x ∈ argBlocks top strs) : top - pushed strs ≤ x.base ∧ x.stop ≤ top := by
  obtain ⟨hdesc, hbottom⟩ := argBlocks_descends htop hroom
  rw [← hbottom]
  exact hdesc.between hx

theorem argBlocks_written (h : Pages s₀ (s, map) byte) (hreach : InReach s) (htop : top ≤ 2 ^ 39)
    (hroom : pushed strs ≤ top)
    (hmapped : ∀ v, top - pushed strs ≤ v → v < top → byte v ≠ none) :
    ∃ s', (argBlocks top strs).foldlM (writeBlock map) s = some s' ∧ InReach s' ∧
      ∀ x ∈ argBlocks top strs, Reads (s', map) x.base x.bytes := by
  have hword : top < 2 ^ 64 := by omega
  have hbetween := fun x (hx : x ∈ argBlocks top strs) => argBlocks_between hword hroom hx
  obtain ⟨s', hwrites, hreach', h'⟩ := pages_writeBlocks h hreach fun x hx =>
    ⟨(hbetween x hx).2.trans htop, fun v hv =>
      hmapped v ((hbetween x hx).1.trans hv.1) (Nat.lt_of_lt_of_le hv.2 (hbetween x hx).2)⟩
  refine ⟨s', hwrites, hreach', fun x hx j hj => ?_⟩
  have hcovers : x.Covers (x.base + j) := ⟨Nat.le_add_right _ _, Nat.add_lt_add_left hj _⟩
  have hlt : x.base + j < 2 ^ 39 :=
    Nat.lt_of_lt_of_le hcovers.2 ((hbetween x hx).2.trans htop)
  rw [h'.userRead_eq hreach' hlt,
    (argBlocks_descends hword hroom).1.writes_of_mem hx hcovers, Nat.add_sub_cancel_left]

theorem arrived_of_reads (htop : top < 2 ^ 64) (hroom : pushed strs ≤ top)
    (hreads : ∀ x ∈ argBlocks top strs, Reads st x.base x.bytes)
    (hnul : ∀ str ∈ strs, 0 ∉ str) :
    Arrived st top (top - pushed strs) strs (pointers top strs) := by
  have hlen := pointers_length top strs
  obtain ⟨hstrs, hmid⟩ := stringBlocks_descends strs htop
    (show room strs ≤ top by rw [pushed] at hroom; omega)
  have hrsp : top - pushed strs + 8 * strs.length = top - room strs := by
    rw [pushed] at hroom ⊢
    omega
  have hstring : ∀ x ∈ stringBlocks top strs, top - room strs ≤ x.base ∧ x.stop ≤ top :=
    fun x hx => hmid ▸ hstrs.between hx
  refine ⟨?_, ?_, ?_, ?_⟩
  · intro i hi
    have hmem := mem_wordBlocks (show top - room strs < 2 ^ 64 by omega) (by omega) hi
    have hbase : top - room strs - (pointers top strs).length * 8 + 8 * i =
        top - pushed strs + 8 * i := by
      rw [hlen, pushed]
      omega
    rw [hbase] at hmem
    refine hreads ⟨top - pushed strs + 8 * i, wordBytes (pointers top strs)[i]⟩
      (mem_append_right _ ?_)
    rw [hmid]
    exact hmem
  · refine forall₂_pointers fun p str hstr hx => ⟨?_, hnul str hstr⟩
    exact hreads _ (mem_append_left _ hx)
  · rw [argRanges, zipWith_pointers, pairwise_cons, pairwise_map, hlen]
    refine ⟨fun y hy => Or.inl ?_, hstrs.pairwise.imp Or.inr⟩
    obtain ⟨x, hx, rfl⟩ := mem_map.mp hy
    rw [hrsp]
    exact (hstring x hx).1
  · rw [argRanges, zipWith_pointers, hlen, forall_mem_cons]
    refine ⟨⟨Nat.le_refl _, ?_⟩, fun y hy => ?_⟩
    · rw [hrsp]
      exact Nat.sub_le _ _
    · obtain ⟨x, hx, rfl⟩ := mem_map.mp hy
      exact ⟨(argBlocks_between htop hroom (mem_append_left _ hx)).1, (hstring x hx).2⟩

theorem ne_none_of_writeBytes (h : Pages s₀ (s, map) byte) (hreach : InReach s)
    (hend : v + bs.length ≤ 2 ^ 39) (hwrite : writeBytes map v bs s = some s')
    (hj : j < bs.length) : byte (v + j) ≠ none := by
  induction bs generalizing s v j byte with
  | nil => cases hj
  | cons b bs ih =>
    rw [length_cons] at hend hj
    obtain ⟨s₁, hfirst, hrest⟩ := Option.bind_eq_some_iff.mp hwrite
    have hv : v < 2 ^ 39 := by omega
    have hbyte : byte v ≠ none := h.ne_none_of_write hreach hv hfirst
    obtain ⟨s₂, hsame, hreach₂, h₂⟩ := h.userWrite hreach hv hbyte b
    obtain rfl := Option.some.inj (hfirst.symm.trans hsame)
    cases j with
    | zero => exact hbyte
    | succ j =>
      rw [u64_of_lt (show v + 1 < 2 ^ 64 by omega)] at hrest
      have hnext := ih h₂ hreach₂ (by omega) hrest (Nat.lt_of_succ_lt_succ hj)
      rwa [Function.update_of_ne (by omega), Nat.add_assoc, Nat.add_comm 1 j] at hnext

theorem last_ne_none_of_prepstack (h : Pages s₀ (s, map) byte) (hreach : InReach s)
    (htop : top ≤ 2 ^ 39) (hroom : path.length + 1 ≤ top)
    (hprep : prepstack map s top path args = some (s', sp)) : byte (top - 1) ≠ none := by
  rw [prepstack_eq, argBlocks, stringBlocks, sub64_of_le (by omega) hroom] at hprep
  obtain ⟨s₂, hwrites, -⟩ := Option.map_eq_some_iff.mp hprep
  rw [cons_append, foldlM_cons] at hwrites
  obtain ⟨s₁, hfirst, -⟩ := Option.bind_eq_some_iff.mp hwrites
  have hlen : (path ++ [0]).length = path.length + 1 := by
    rw [length_append, length_singleton]
  have hlast := ne_none_of_writeBytes h hreach
    (show top - (path.length + 1) + (path ++ [0]).length ≤ 2 ^ 39 by omega) hfirst
    (show path.length < (path ++ [0]).length by omega)
  rwa [show top - (path.length + 1) + path.length = top - 1 by omega] at hlast

/-! ## The single writes -/

def bytesAt : ℕ → List UInt8 → List (ℕ × UInt8)
  | _, [] => []
  | v, b :: bs => (v, b) :: bytesAt (u64 (v + 1)) bs

def argWrites (top : ℕ) (strs : List Str) : List (ℕ × UInt8) :=
  (argBlocks top strs).flatMap fun x => bytesAt x.base x.bytes

theorem writeBytes_eq (map : PageMap) (v : ℕ) (bs : List UInt8) (s : Machine) :
    writeBytes map v bs s = (bytesAt v bs).foldlM (fun s w => userWrite s map w.1 w.2) s := by
  induction bs generalizing v s with
  | nil => rfl
  | cons b bs ih =>
    rw [writeBytes, bytesAt, foldlM_cons]
    exact congrArg _ (funext fun s => ih (u64 (v + 1)) s)

theorem foldlM_writeBlock (map : PageMap) (xs : List (Block UInt8)) (s : Machine) :
    xs.foldlM (writeBlock map) s =
      (xs.flatMap fun x => bytesAt x.base x.bytes).foldlM
        (fun s w => userWrite s map w.1 w.2) s := by
  induction xs generalizing s with
  | nil => rfl
  | cons x xs ih =>
    rw [foldlM_cons, flatMap_cons, foldlM_append, writeBlock, writeBytes_eq]
    exact congrArg _ (funext ih)

theorem map_fst_bytesAt (hv : v < 2 ^ 64) (bs : List UInt8) :
    (bytesAt v bs).map Prod.fst = (List.range bs.length).map fun j => u64 (v + j) := by
  induction bs generalizing v with
  | nil => rfl
  | cons b bs ih =>
    have hnext : u64 (v + 1) < 2 ^ 64 := Nat.mod_lt _ (by decide)
    rw [bytesAt, map_cons, ih hnext, length_cons,
      range_succ_eq_map, map_cons, map_map, show u64 (v + 0) = v from u64_of_lt hv]
    congr 1
    apply map_congr_left
    intro j _
    rw [Function.comp_apply, u64, u64, u64, Nat.mod_add_mod, Nat.add_assoc, Nat.add_comm 1 j]

def Within (b e : ℕ) (bs : List UInt8) (v : ℕ) : Prop :=
  ∀ w ∈ bytesAt v bs, b ≤ w.1 ∧ w.1 < e

theorem within_iff (hv : v < 2 ^ 64) :
    Within b e bs v ↔ ∀ j < bs.length, b ≤ u64 (v + j) ∧ u64 (v + j) < e := by
  have hmap : Within b e bs v ↔ ∀ a ∈ (bytesAt v bs).map Prod.fst, b ≤ a ∧ a < e := by
    rw [forall_mem_map, Within]
  rw [hmap, map_fst_bytesAt hv, forall_mem_map]
  simp only [mem_range]

theorem within_push_iff (bs : List UInt8) (hsp : sp ≤ e) (hb : b ≤ sp) (he : e < 2 ^ 63)
    (hpos : 0 < bs.length) : Within b e bs (sub64 sp bs.length) ↔ b + bs.length ≤ sp := by
  have hword : sub64 sp bs.length < 2 ^ 64 := Nat.mod_lt _ (by decide)
  rw [within_iff hword]
  constructor
  · intro hin
    obtain ⟨hlo, hhi⟩ := hin 0 hpos
    rw [Nat.add_zero, u64_of_lt hword] at hlo hhi
    -- the block ends at or below `e`: otherwise its byte for `e` is outside
    have hend : sub64 sp bs.length + bs.length ≤ e := by
      by_contra hover
      have hout := (hin (e - sub64 sp bs.length) (by omega)).2
      rw [Nat.add_sub_cancel' hhi.le, u64_of_lt (by omega)] at hout
      exact Nat.lt_irrefl e hout
    rw [sub64, u64] at hlo hend
    omega
  · intro hroom j hj
    rw [sub64_of_le (by omega) (by omega), u64_of_lt (by omega)]
    omega

theorem within_cons_iff {rest : ℕ → Prop} {m : ℕ} (bs : List UInt8) (hsp : sp ≤ e) (hb : b ≤ sp)
    (he : e < 2 ^ 63) (hpos : 0 < bs.length)
    (hrest : ∀ sp', sp' ≤ e → b ≤ sp' → (rest sp' ↔ b + m ≤ sp')) :
    Within b e bs (sub64 sp bs.length) ∧ rest (sub64 sp bs.length) ↔
      b + (bs.length + m) ≤ sp := by
  rw [within_push_iff bs hsp hb he hpos]
  constructor
  · rintro ⟨hfits, hothers⟩
    rw [sub64_of_le (by omega) (by omega), hrest _ (by omega) (by omega)] at hothers
    omega
  · intro hroom
    rw [sub64_of_le (by omega) (by omega), hrest _ (by omega) (by omega)]
    omega

theorem stringBlocks_within_iff (hsp : sp ≤ e) (hb : b ≤ sp) (he : e < 2 ^ 63) :
    (∀ x ∈ stringBlocks sp strs, Within b e x.bytes x.base) ↔ b + room strs ≤ sp := by
  induction strs generalizing sp with
  | nil => exact iff_of_true (fun x hx => absurd hx not_mem_nil) hb
  | cons str strs ih =>
    have hlen : (str ++ [0]).length = str.length + 1 := by
      rw [length_append, length_singleton]
    have hpush := within_cons_iff (str ++ [0]) hsp hb he (by omega) fun sp' => ih
    rw [hlen] at hpush
    rw [stringBlocks, forall_mem_cons]
    exact hpush

theorem wordBlocks_within_iff (hsp : sp ≤ e) (hb : b ≤ sp) (he : e < 2 ^ 63) :
    (∀ x ∈ wordBlocks sp ws, Within b e x.bytes x.base) ↔ b + ws.length * 8 ≤ sp := by
  induction ws generalizing sp with
  | nil => exact iff_of_true (fun x hx => absurd hx not_mem_nil) hb
  | cons w ws ih =>
    have hlen := wordBytes_length w
    have hpush := within_cons_iff (wordBytes w) hsp hb he (by omega) fun sp' => ih
    rw [hlen] at hpush
    rw [wordBlocks, forall_mem_cons, length_cons, Nat.succ_mul, Nat.add_comm _ 8]
    exact hpush

theorem argWrites_within_iff (hb : b ≤ top) (htop : top < 2 ^ 63) (strs : List Str) :
    (∀ w ∈ argWrites top strs, b ≤ w.1 ∧ w.1 < top) ↔ b + pushed strs ≤ top := by
  have hblocks : (∀ w ∈ argWrites top strs, b ≤ w.1 ∧ w.1 < top) ↔
      ∀ x ∈ argBlocks top strs, Within b top x.bytes x.base := by
    simp only [argWrites, mem_flatMap, Within]
    exact ⟨fun h x hx w hw => h w ⟨x, hx, hw⟩, fun h w ⟨x, hx, hw⟩ => h x hx w hw⟩
  have hlen : (pointers top strs).reverse.length = strs.length := by
    rw [length_reverse, pointers_length]
  rw [hblocks, argBlocks, forall_mem_append, stringBlocks_within_iff (Nat.le_refl _) hb htop,
    pushed]
  constructor
  · rintro ⟨hstrs, hwords⟩
    rw [(stringBlocks_descends strs (by omega) (by omega)).2] at hwords
    have hbelow := (wordBlocks_within_iff (Nat.sub_le _ _) (by omega) htop).mp hwords
    omega
  · intro hroom
    rw [(stringBlocks_descends strs (by omega) (by omega)).2]
    exact ⟨by omega, (wordBlocks_within_iff (Nat.sub_le _ _) (by omega) htop).mpr (by omega)⟩

/-! ## The stack loop -/

theorem pages_setRegions (h : Pages s₀ st byte) (regions : ListT Region) :
    Pages s₀ (setRegions st regions) byte := by
  obtain ⟨o, view, frame, hp⟩ := h
  exact ⟨o, view, frame, { hp with toSeen := seen_setRegions hp.toSeen regions }⟩

theorem pages_firstStack (h : Pages s₀ st byte)
    (hcall : firstStack back new st = some (st', stack)) (hlow : stack + 0x4000 < 2 ^ 32) :
    ∃ byte', Pages s₀ st' byte' ∧ (∀ v, OnPages stack 4 v → byte' v ≠ none) ∧
      (∀ v, ¬OnPages stack 4 v → byte' v = byte v) ∧ st'.1.frames ≤ st.1.frames + 8 := by
  obtain ⟨⟨regions, stack⟩, -, hrest⟩ := Option.bind_eq_some_iff.mp hcall
  obtain ⟨pages, hpages, hst⟩ := Option.bind_eq_some_iff.mp hrest
  cases hst
  rw [stackPages_low hlow] at hpages
  obtain rfl := Option.some.inj hpages
  exact (pages_setRegions h regions).mapNews 4 (by omega)

end KernelOld.Exec
