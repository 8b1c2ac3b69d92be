import KernelOld.Fs.Vfs.CanonBuffer

/-!
# `sys_chdir` and `sys_getcwd`

The two calls of `sys/syscall/syscall.c`, with `strcpy` and `strncpy` of `util/stdlib.c` on the
memory of the machine. `strncpy` stops at the terminator and does not write one.
-/

namespace KernelOld.Getcwd
open ByteMemory Strings Strtok Vfs LinkedList Function

def strncpy (m : Mem) (dst src : ℕ) : ℕ → Mem
  | 0 => m
  | n + 1 => if m src ≠ 0 then strncpy (update m dst (m src)) (dst + 1) (src + 1) n else m

def strcpy (fuel : ℕ) (m : Mem) (dst src : ℕ) : Option Mem := do
  let last ← strlen m fuel src
  let len := last - src
  some (update (strncpy m dst src len) (dst + len) 0)

def cstring (m : Mem) (fuel a : ℕ) : Option Str :=
  (strlen m fuel a).map fun last => copied m a (last - a)

def putStr (m : Mem) (a : ℕ) (str : Str) : Mem :=
  blit m a (fun i => str.getD i 0) 0 (str.length + 1)

structure Proc where
  mem : Mem
  workingDir : ℕ

/-- What `sys_chdir` finds on the heap, and the blocks that it is given. -/
structure Heap where
  new : ListT Str → ℕ
  rest : ℕ → UInt8
  newPath : ℕ
  dir : ℕ

def Proc.working (fuel : ℕ) (p : Proc) : Option (Option Str) :=
  if p.workingDir = 0 then some none else (cstring p.mem fuel p.workingDir).map some

def sysChdir (fuel : ℕ) (h : Heap) (p : Proc) (path : ℕ) : Option (Proc × ℕ) := do
  let pathStr ← cstring p.mem fuel path
  let working ← p.working fuel
  let final ← vfsMkCanonpath h.new h.rest pathStr working
  let mem := putStr p.mem h.newPath final
  let mem ← strcpy fuel mem h.dir h.newPath
  some ({ mem, workingDir := h.dir }, 0)

def sysGetcwd (p : Proc) (buf size : ℕ) : Mem × ℕ :=
  if p.workingDir ≠ 0 then (strncpy p.mem buf p.workingDir size, buf)
  else (putStr p.mem buf [slash], buf)

/-- The working directory of the process, if it has one. -/
def Proc.HasCwd (p : Proc) : Option Str → Prop
  | none => p.workingDir = 0
  | some dir => p.workingDir ≠ 0 ∧ CStr p.mem p.workingDir dir

/-- Two blocks of `n` bytes that do not overlap. -/
structure Heap.Blocks (h : Heap) (n : ℕ) : Prop where
  dir_ne : h.dir ≠ 0
  apart : Apart h.dir n h.newPath n

/-- The buffer holds the string, and nothing behind the buffer has changed. -/
structure GetsCwd (p : Proc) (buf size : ℕ) (str : Str) : Prop where
  stored : CStr (sysGetcwd p buf size).1 buf str
  behind : ∀ x, buf + size ≤ x → (sysGetcwd p buf size).1 x = p.mem x

/-! ## Copies of strings -/

variable {m m' : Mem} {a dst src n fuel : ℕ} {str : Str}

theorem blit_update_succ (h : ∀ i < n, src + 1 + i ≠ dst) :
    blit (update m dst (m src)) (dst + 1) (update m dst (m src)) (src + 1) n =
      blit m dst m src (n + 1) := by
  funext x
  rcases Nat.lt_trichotomy x dst with hlt | rfl | hgt
  · rw [blit_apply_of_notMem (Or.inl (Nat.lt_succ_of_lt hlt)),
      blit_apply_of_notMem (Or.inl hlt), update_of_ne (Nat.ne_of_lt hlt)]
  · rw [blit_apply_of_notMem (Or.inl (Nat.lt_succ_self x)), update_self,
      blit_apply_of_mem le_rfl (Nat.lt_add_of_pos_right (Nat.succ_pos n)), Nat.sub_self,
      Nat.add_zero]
  · by_cases hin : x < dst + (n + 1)
    · have hne := h (x - (dst + 1)) (by omega)
      rw [blit_apply_of_mem hgt (by omega), blit_apply_of_mem (Nat.le_of_lt hgt) hin,
        update_of_ne hne]
      congr 1
      omega
    · rw [blit_apply_of_notMem (Or.inr (by omega)), blit_apply_of_notMem (Or.inr (by omega)),
        update_of_ne (Nat.ne_of_gt hgt)]

theorem strncpy_eq (h : CStr m src str)
    (hapart : Apart dst (min n str.length) src (str.length + 1)) :
    strncpy m dst src n = blit m dst m src (min n str.length) := by
  induction n generalizing m dst src str with
  | zero =>
    rw [Nat.zero_min]
    funext x
    exact (blit_apply_of_notMem (by omega)).symm
  | succ n ih =>
    cases str with
    | nil =>
      have hzero : m src = 0 := h
      rw [strncpy, if_neg (not_not_intro hzero), List.length_nil, Nat.min_zero]
      funext x
      exact (blit_apply_of_notMem (by omega)).symm
    | cons b str =>
      obtain ⟨hb, hne, hrest⟩ := h
      rw [List.length_cons, Nat.succ_min_succ] at hapart ⊢
      have hother : ∀ i ≤ str.length, src + 1 + i ≠ dst := by
        intro i hi heq
        rcases hapart with hbelow | habove <;> omega
      have hnext : CStr (update m dst (m src)) (src + 1) str :=
        cstr_congr hrest fun i hi => update_of_ne (hother i hi) _ _
      rw [strncpy, if_pos (by rwa [hb]), ih hnext (hapart.imp (by omega) (by omega))]
      exact blit_update_succ fun i hi =>
        hother i (Nat.le_of_lt (Nat.lt_of_lt_of_le hi (Nat.min_le_right _ _)))

theorem strcpy_eq (h : CStr m src str) (hfuel : str.length < fuel)
    (hapart : Apart dst (str.length + 1) src (str.length + 1)) :
    ∃ m', strcpy fuel m dst src = some m' ∧ CStr m' dst str ∧
      ∀ x, x < dst ∨ dst + (str.length + 1) ≤ x → m' x = m x := by
  have hcopy : strncpy m dst src str.length = blit m dst m src str.length := by
    rw [strncpy_eq h (by rw [Nat.min_self]; exact hapart.imp (by omega) id), Nat.min_self]
  obtain ⟨hnul, hbytes⟩ := cstr_iff.mp h
  refine ⟨update (blit m dst m src str.length) (dst + str.length) 0, ?_,
    cstr_iff.mpr ⟨hnul, fun i hi => ?_⟩, fun x hx => ?_⟩
  · rw [strcpy, strlen_eq h hfuel]
    dsimp only [Option.bind_eq_bind, Option.bind_some]
    rw [Nat.add_sub_cancel_left, hcopy]
  · rcases Nat.eq_or_lt_of_le hi with rfl | hlt
    · rw [update_self, List.getD_eq_default _ _ le_rfl]
    · rw [update_of_ne (by omega), blit_apply_of_mem (by omega) (by omega),
        Nat.add_sub_cancel_left]
      exact hbytes i hi
  · rw [update_of_ne (by omega), blit_apply_of_notMem (by omega)]

theorem cstring_eq (h : CStr m a str) (hfuel : str.length < fuel) :
    cstring m fuel a = some str := by
  obtain ⟨-, hbytes⟩ := cstr_iff.mp h
  rw [cstring, strlen_eq h hfuel, Option.map_some, Nat.add_sub_cancel_left]
  congr 1
  refine List.ext_getElem? fun i => ?_
  rw [getElem?_copied]
  split_ifs with hi
  · rw [hbytes i (Nat.le_of_lt hi), List.getD_eq_getElem?_getD, List.getElem?_eq_getElem hi]
    rfl
  · exact (List.getElem?_eq_none (Nat.le_of_not_lt hi)).symm

theorem cstr_putStr (hnul : 0 ∉ str) : CStr (putStr m a str) a str := by
  refine cstr_iff.mpr ⟨hnul, fun i hi => ?_⟩
  rw [putStr, blit_apply_of_mem (by omega) (by omega), Nat.zero_add, Nat.add_sub_cancel_left]

theorem putStr_of_notMem {x : ℕ} (h : x < a ∨ a + (str.length + 1) ≤ x) :
    putStr m a str x = m x := blit_apply_of_notMem h

/-! ## The two calls -/

variable {p : Proc} {h : Heap} {path buf size : ℕ} {pathStr final : Str} {working : Option Str}

theorem sysChdir_eq (hpath : CStr p.mem path pathStr) (hworking : p.HasCwd working)
    (hfinal : vfsMkCanonpath h.new h.rest pathStr working = some final)
    (hblocks : h.Blocks (final.length + 1))
    (hfuel : ∀ str ∈ pathStr :: final :: working.toList, str.length < fuel) :
    ∃ p', sysChdir fuel h p path = some (p', 0) ∧ p'.workingDir = h.dir ∧
      CStr p'.mem h.dir final ∧
      ∀ x, x < h.dir ∨ h.dir + (final.length + 1) ≤ x →
        p'.mem x = putStr p.mem h.newPath final x := by
  have hcwd : p.working fuel = some working := by
    rw [Proc.working]
    cases working with
    | none => exact if_pos hworking
    | some dir =>
      obtain ⟨hne, hdir⟩ := hworking
      rw [if_neg hne, cstring_eq hdir (hfuel dir (by simp)), Option.map_some]
  obtain ⟨mem, hcopy, hstr, hframe⟩ := strcpy_eq
    (cstr_putStr (m := p.mem) (a := h.newPath) (vfsMkCanonpath_nul_notMem hfinal))
    (hfuel final (by simp)) hblocks.apart
  refine ⟨⟨mem, h.dir⟩, ?_, rfl, hstr, hframe⟩
  simp only [sysChdir, cstring_eq hpath (hfuel pathStr (by simp)), hcwd, hfinal, hcopy,
    Option.bind_eq_bind, Option.bind_some]

theorem sysGetcwd_fst (hdir : p.workingDir ≠ 0) (hstr : CStr p.mem p.workingDir str)
    (hapart : Apart buf size p.workingDir (str.length + 1)) (hsize : str.length + 1 ≤ size) :
    (sysGetcwd p buf size).1 = blit p.mem buf p.mem p.workingDir str.length := by
  have hmin : min size str.length = str.length := Nat.min_eq_right (by omega)
  rw [sysGetcwd, if_pos hdir]
  show strncpy p.mem buf p.workingDir size = _
  rw [strncpy_eq hstr (by rw [hmin]; exact hapart.imp (by omega) id), hmin]

theorem getsCwd_iff (hdir : p.workingDir ≠ 0) (hstr : CStr p.mem p.workingDir str)
    (hapart : Apart buf size p.workingDir (str.length + 1)) (hsize : str.length + 1 ≤ size) :
    GetsCwd p buf size str ↔ p.mem (buf + str.length) = 0 := by
  have hcopy := sysGetcwd_fst hdir hstr hapart hsize
  obtain ⟨hnul, hbytes⟩ := cstr_iff.mp hstr
  constructor
  · intro hgets
    have hlast := (cstr_iff.mp hgets.stored).2 str.length le_rfl
    rwa [hcopy, blit_apply_of_notMem (Or.inr le_rfl), List.getD_eq_default _ _ le_rfl] at hlast
  · intro hzero
    refine ⟨cstr_iff.mpr ⟨hnul, fun i hi => ?_⟩, fun x hx => ?_⟩
    · rw [hcopy]
      rcases Nat.eq_or_lt_of_le hi with rfl | hlt
      · rw [blit_apply_of_notMem (Or.inr le_rfl), hzero, List.getD_eq_default _ _ le_rfl]
      · rw [blit_apply_of_mem (by omega) (by omega), Nat.add_sub_cancel_left]
        exact hbytes i hi
    · rw [hcopy, blit_apply_of_notMem (Or.inr (by omega))]

def pathA : Str := [97]

def slashA : Str := [47, 97]

def startProc (fill : UInt8) : Proc := ⟨putStr (fun _ => fill) 4096 pathA, 0⟩

def startHeap (new : ListT Str → ℕ) : Heap := ⟨new, fun _ => 0, 8192, 12288⟩

variable {new : ListT Str → ℕ} {fill : UInt8}

theorem startProc_path : CStr (startProc fill).mem 4096 pathA := cstr_putStr (by decide)

theorem startProc_hasCwd : (startProc fill).HasCwd none := rfl

theorem startHeap_final (hnew : Allocates new) :
    vfsMkCanonpath (startHeap new).new (startHeap new).rest pathA none = some slashA :=
  (vfsMkCanonpath_eq hnew rfl (by decide) (by decide) (by decide)).1
    ⟨by decide, by simp, by decide⟩

theorem startHeap_blocks : (startHeap new).Blocks (slashA.length + 1) :=
  ⟨Nat.succ_ne_zero 12287, Or.inr (by simp [startHeap, slashA])⟩

theorem sysChdir_start (hnew : Allocates new) (fill : UInt8) :
    ∃ p', sysChdir 10 (startHeap new) (startProc fill) 4096 = some (p', 0) ∧
      p'.workingDir = 12288 ∧ CStr p'.mem 12288 slashA ∧
      p'.mem (16384 + slashA.length) = fill := by
  have hfuel : ∀ str ∈ pathA :: slashA :: (none : Option Str).toList, str.length < 10 := by
    decide
  obtain ⟨p', hchdir, hdir, hstr, hframe⟩ :=
    sysChdir_eq startProc_path startProc_hasCwd (startHeap_final hnew) startHeap_blocks hfuel
  refine ⟨p', hchdir, hdir, hstr, ?_⟩
  have hmem : (startProc fill).mem = putStr (fun _ => fill) 4096 pathA := rfl
  rw [hframe _ (Or.inr (by simp [startHeap, slashA])),
    putStr_of_notMem (Or.inr (by simp [startHeap, slashA])), hmem,
    putStr_of_notMem (Or.inr (by decide))]

/-- After a `sys_chdir` for which `vfs_mk_canonpath` returned `final`, `sys_getcwd` puts `final`
into a buffer that is large enough if and only if the byte of the buffer behind the path is zero
already. -/
theorem getcwd_reports_iff (h : Heap) (p : Proc) (path fuel : ℕ) (pathStr final : Str)
    (working : Option Str) (hpath : CStr p.mem path pathStr) (hworking : p.HasCwd working)
    (hfinal : vfsMkCanonpath h.new h.rest pathStr working = some final)
    (hblocks : h.Blocks (final.length + 1))
    (hfuel : ∀ str ∈ pathStr :: final :: working.toList, str.length < fuel) :
    ∃ p', sysChdir fuel h p path = some (p', 0) ∧
      (∀ (q : Proc) (buf size : ℕ), q.workingDir = p'.workingDir →
        (∀ i ≤ final.length, q.mem (p'.workingDir + i) = p'.mem (p'.workingDir + i)) →
        Apart buf size p'.workingDir (final.length + 1) → final.length + 1 ≤ size →
        (GetsCwd q buf size final ↔ q.mem (buf + final.length) = 0)) ∧
      (Allocates h.new → h.rest 0 = 0 → (temppath pathStr working).length < 2 ^ 32 →
        final = canonical pathStr working) := by
  obtain ⟨p', hchdir, hdir, hstr, -⟩ := sysChdir_eq hpath hworking hfinal hblocks hfuel
  refine ⟨p', hchdir, fun q buf size hq hsame hapart hsize => ?_, fun hnew hrest hlen => ?_⟩
  · rw [← hdir] at hstr
    rw [← hq] at hstr hsame hapart
    exact getsCwd_iff (by rw [hq, hdir]; exact hblocks.dir_ne) (cstr_congr hstr hsame) hapart hsize
  · have hnul : ∀ dir ∈ working, 0 ∉ dir := by
      rintro dir hmem
      obtain rfl := Option.mem_def.mp hmem
      exact (cstr_iff.mp hworking.2).1
    obtain ⟨hpass, hfail⟩ := vfsMkCanonpath_eq hnew hrest (cstr_iff.mp hpath).1 hnul hlen
    by_cases hp : Passes false [] ((temppath pathStr working).splitOn slash)
    · exact Option.some.inj (hfinal.symm.trans (hpass hp))
    · rw [hfail hp] at hfinal
      cases hfinal

/-- A cleared buffer gets the path. -/
theorem getcwd_reports_cleared : ∃ new p', Allocates new ∧
    sysChdir 10 (startHeap new) (startProc 0) 4096 = some (p', 0) ∧
    canonical pathA none = slashA ∧ GetsCwd p' 16384 3 slashA := by
  obtain ⟨new, hnew⟩ := exists_allocates
  obtain ⟨p', hchdir, hgets, hcanon⟩ := getcwd_reports_iff (startHeap new) (startProc 0) 4096 10
    pathA slashA none startProc_path startProc_hasCwd (startHeap_final hnew) startHeap_blocks
    (by decide)
  obtain ⟨p₁, hchdir₁, hdir, -, hzero⟩ := sysChdir_start hnew 0
  rw [hchdir] at hchdir₁
  cases hchdir₁
  refine ⟨new, p', hnew, hchdir, (hcanon hnew rfl (by decide)).symm, ?_⟩
  refine (hgets p' 16384 3 rfl (fun _ _ => rfl) ?_ le_rfl).mpr hzero
  rw [hdir]
  exact Or.inr (by decide)

/-- In a buffer full of the letter `x` there is no terminator behind the path. -/
theorem getcwd_unterminated : ∃ new p', Allocates new ∧
    sysChdir 10 (startHeap new) (startProc 120) 4096 = some (p', 0) ∧
    canonical pathA none = slashA ∧ (sysGetcwd p' 16384 3).1 (16384 + slashA.length) = 120 ∧
    ¬GetsCwd p' 16384 3 slashA := by
  obtain ⟨new, hnew⟩ := exists_allocates
  obtain ⟨p', hchdir, hdir, hstr, hbyte⟩ := sysChdir_start hnew 120
  have hne : p'.workingDir ≠ 0 := by
    rw [hdir]
    decide
  have hapart : Apart 16384 3 p'.workingDir (slashA.length + 1) := by
    rw [hdir]
    exact Or.inr (by decide)
  rw [← hdir] at hstr
  refine ⟨new, p', hnew, hchdir, by decide, ?_, fun hgets => ?_⟩
  · rw [sysGetcwd_fst hne hstr hapart le_rfl, blit_apply_of_notMem (Or.inr le_rfl)]
    exact hbyte
  · have hzero := (getsCwd_iff hne hstr hapart le_rfl).mp hgets
    rw [hbyte] at hzero
    cases hzero

end KernelOld.Getcwd
