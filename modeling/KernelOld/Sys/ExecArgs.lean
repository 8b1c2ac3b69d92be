import KernelOld.Sys.ElfAlias
import KernelOld.Sys.Exec

/-!
# Arguments of a new program

What `prepstack` does to the process that `sched_mkelfproc` has made. The stack is reserved to the
byte and mapped page by page, so that the end of a stack that does not start on a page is not
mapped. And nothing looks at the length of the strings.
-/

namespace KernelOld.Exec
open ByteMemory MachineWord Strings LinkedList CountedLoop Function Space Mmap Elf StackBlocks Vfs
open FileDescs (FsFd minusOne)

variable {fs : Files} {a : Found} {k k' : Kernel} {c p t node console rip stack top : ℕ}
  {path : Str} {data : Mem} {args strs : List Str} {s s₀ : Machine} {allocs : ℕ → Alloc}
  {st st' : Machine × PageMap} {byte : ℕ → Option UInt8}

/-! ## The pages of a loaded file -/

theorem pages_loadHeader {i : ℕ} (h : ∃ byte, Pages s₀ st byte)
    (htmp : ∀ n, s₀.pageAt n ≠ (allocs i).tmp) (hload : loadHeader data allocs st i = some st') :
    ∃ byte, Pages s₀ st' byte := by
  obtain ⟨byte, h⟩ := h
  rcases loadHeader_cases hload with ⟨-, regions, -, rfl⟩ | ⟨-, rfl⟩
  · rw [pagesTo]
    refine loop_induction (I := fun _ st => ∃ byte, Pages s₀ st byte) _
      ⟨byte, pages_setRegions h regions⟩ ?_
    rintro i st' - ⟨byte', h'⟩
    exact ⟨_, h'.loadPage _ htmp _⟩
  · exact ⟨byte, h⟩

theorem pages_loadelf (hs : Supplies s) (htmp : ∀ i n, s.pageAt n ≠ (a.elf i).tmp)
    (hload : loadelf data a (pageMkMap s) = some (st, rip)) : ∃ byte, Pages s st byte := by
  obtain ⟨⟨st', ret, info⟩, helf, hst⟩ := Option.bind_eq_some_iff.mp hload
  obtain ⟨rfl, -⟩ := Prod.mk.inj (Option.some.inj hst)
  rw [elfLoad] at helf
  split at helf
  · cases helf
    exact ⟨_, pages_pageMkMap hs⟩
  · obtain ⟨st₁, hheaders, hret⟩ := Option.bind_eq_some_iff.mp helf
    cases hret
    exact foldlM_induction (I := fun st => ∃ byte, Pages s st byte)
      (fun _ i _ h hheader => pages_loadHeader h (htmp i) hheader) ⟨_, pages_pageMkMap hs⟩ hheaders

/-! ## The new process -/

def started (k : Kernel) (console rip : ℕ) (map : PageMap) (top : ℕ) (r : Machine × ℕ) : Kernel :=
  let fd : FsFd := { node := console, pos := 0, flags := 0, mode := 0 }
  { sched := k.sched.mkProc.1
    machine := r.1
    procs := update k.procs k.sched.nextProc
      { addrSpace := map, fileDescs := [fd, fd], workingDir := some [slash] }
    regs := update k.regs k.sched.mkProc.2
      { rip, rflags := 0x202, cs := 0x1b, ss := 0x23, rbp := top, rsp := r.2, rsi := r.2 } }

theorem schedMkelfproc_eq (hconsole : fs.resolve consolePath none = some (some console))
    (hload : loadelf data a (pageMkMap k.machine) = some (st, rip))
    (hstack : firstStack a.back a.new st = some (st', stack)) :
    schedMkelfproc fs a k path data args =
      (prepstack st'.2 st'.1 (u64 (stack + 0x4000)) path args).map fun r =>
        (started k console rip st'.2 (u64 (stack + 0x4000)) r, k.sched.mkProc.2) := by
  rw [schedMkelfproc, hconsole]
  simp only [Option.bind_eq_bind, Option.bind_some, hload, hstack]
  exact Option.map_eq_bind.symm

/-- `rbp` is the stack pointer before `prepstack`. -/
def ArgsArrive (k : Kernel) (proc t : ℕ) (strs : List Str) : Prop :=
  (k.regs t).rsi = (k.regs t).rsp ∧ ∃ ptrs,
    Arrived (k.machine, (k.procs proc).addrSpace) (k.regs t).rbp (k.regs t).rsp strs ptrs

theorem argsArrive_started {r : Machine × ℕ} {ptrs : List ℕ} {map : PageMap}
    (h : Arrived (r.1, map) top r.2 strs ptrs) :
    ArgsArrive (started k console rip map top r) k.sched.nextProc k.sched.mkProc.2 strs := by
  rw [ArgsArrive, started]
  simp only [update_self]
  exact ⟨trivial, ptrs, h⟩

theorem stack_mapped (h : Pages s₀ st byte) (hlow : stack + 0x4000 < 2 ^ 32)
    (hpages : ∀ v, OnPages stack 4 v → byte v ≠ none) (hlast : byte (stack + 0x3fff) ≠ none)
    {v : ℕ} (hlo : stack ≤ v) (hhi : v < stack + 0x4000) : byte v ≠ none := by
  by_cases hon : OnPages stack 4 v
  · exact hpages v hon
  · rw [OnPages] at hon
    exact fun hnone => hlast (h.none_of_page (by omega) (by omega) (by omega) hnone)

/-- Strings that fit on the stack arrive in the new process if and only if the last byte of the
stack is mapped. -/
theorem schedMkelfproc_args_iff (hs : Supplies k.machine)
    (htmp : ∀ i n, k.machine.pageAt n ≠ (a.elf i).tmp)
    (hconsole : fs.resolve consolePath none = some (some console))
    (hload : loadelf data a (pageMkMap k.machine) = some (st, rip))
    (hstack : firstStack a.back a.new st = some (st', stack)) (hlow : stack + 0x4000 < 2 ^ 32)
    (hreach : InReach st'.1) (hnul : ∀ str ∈ path :: args, 0 ∉ str)
    (hroom : room (path :: args) + 8 * (args.length + 1) ≤ 0x4000) :
    (∃ k' t, schedMkelfproc fs a k path data args = some (k', t) ∧
      ArgsArrive k' k.sched.nextProc t (path :: args)) ↔
        userRead st'.1 st'.2 (stack + 0x3fff) ≠ none := by
  have hpushed : pushed (path :: args) ≤ 0x4000 := by
    rw [pushed, List.length_cons]
    omega
  obtain ⟨byte₀, h₀⟩ := pages_loadelf hs htmp hload
  obtain ⟨byte, h, hpages, -, -⟩ := pages_firstStack h₀ hstack hlow
  rw [schedMkelfproc_eq hconsole hload hstack, u64_of_lt (show stack + 0x4000 < 2 ^ 64 by omega),
    h.userRead_eq hreach (by omega)]
  constructor
  · rintro ⟨k', t, hmk, -⟩
    obtain ⟨⟨s', rsp⟩, hprep, -⟩ := Option.map_eq_some_iff.mp hmk
    have hpath : path.length + 1 ≤ stack + 0x4000 := by
      rw [room_cons] at hroom
      omega
    exact last_ne_none_of_prepstack h hreach (by omega) hpath hprep
  · intro hlast
    have hfits : pushed (path :: args) ≤ stack + 0x4000 := by omega
    obtain ⟨s', hwrites, -, hreads⟩ := argBlocks_written (show Pages k.machine (st'.1, st'.2) byte
      from h) hreach (show stack + 0x4000 ≤ 2 ^ 39 by omega) hfits
      fun v hlo hhi => stack_mapped h hlow hpages hlast (by omega) hhi
    have hbottom := (argBlocks_descends (show stack + 0x4000 < 2 ^ 64 by omega) hfits).2
    have harrived := arrived_of_reads (show stack + 0x4000 < 2 ^ 64 by omega) hfits hreads hnul
    rw [← hbottom] at harrived
    rw [prepstack_eq, hwrites]
    exact ⟨_, _, rfl, argsArrive_started harrived⟩

/-! ## Two files of one page -/

def loaderShell : Kernel := { shell with machine := loaderStart }

def loaderFound : Found := { shellFound with back := 3, new := 4 }

theorem spaceAllocRegion_behind {list : ListT Region} {r : Region} {n : ℕ}
    (hholds : Holds list [n] [r]) (hbase : r.base < 0x5000) (hproper : r.base < r.stop)
    (hlow : 4096 < r.stop) (hhigh : r.stop < 2 ^ 32) (back new : ℕ) :
    ∃ list', spaceAllocRegion 0x4000 list back new = some (list', r.stop) := by
  have hskip : skip 0x4000 r ⟨4096, 4096 + 0x4000⟩ = ⟨r.stop, r.stop + 0x4000⟩ := by
    rw [skip_eq hproper.le (by omega) rfl (Nat.not_le.mpr hbase), if_pos hlow]
  have hplace : place (skip 0x4000) 0 ⟨4096, 4096 + 0x4000⟩ [r] =
      (none, ⟨r.stop, r.stop + 0x4000⟩) := by
    rw [place, if_neg (Nat.not_le.mpr hbase), hskip]
    rfl
  have hfull : ¬(kernelVirtualAddr ≤ r.stop + 0x4000) := by
    rw [kernelVirtualAddr]
    omega
  rw [spaceAllocRegion, hholds.listValues_eq (show 1 < 2 ^ 64 by decide), u64_of_lt (by decide)]
  simp only [Option.bind_eq_bind, Option.bind_some, hplace]
  rw [if_neg fun h => hfull h.2]
  exact ⟨_, rfl⟩

theorem loadelf_onePage {p : Phdr} (hcheck : checkElfHdr data = true) (hnum : phNum data = 1)
    (hphdr : phdr data 0 = p) (htype : p.type = ptLoad) (hsize : segmentSize p.memSz = 4096)
    (hlow : p.vaddr + 4096 < 2 ^ 64) :
    ∃ bytes regions, Holds regions [1] [⟨p.vaddr, p.vaddr + 4096⟩] ∧
      loadelf data loaderFound (pageMkMap loaderShell.machine) =
        some (loadPage 4096 p.vaddr bytes (setRegions (pageMkMap loaderStart) regions),
          entry data) := by
  obtain ⟨bytes, helf⟩ := elfLoad_onePage hcheck hnum hphdr htype hsize
  rw [Nat.zero_mul, Nat.add_zero, u64_of_lt (show p.vaddr < 2 ^ 64 by omega), u64_of_lt hlow]
    at helf
  refine ⟨bytes, _, holds_listCreate.listPushBack Nat.one_ne_zero (by simp), ?_⟩
  show loadelf data loaderFound (pageMkMap loaderStart) = _
  rw [loadelf, show loaderFound.elf = loaderAllocs from rfl, helf]
  rfl

theorem exists_stack_onePage {p : Phdr} (hcheck : checkElfHdr data = true) (hnum : phNum data = 1)
    (hphdr : phdr data 0 = p) (htype : p.type = ptLoad) (hsize : segmentSize p.memSz = 4096)
    (hlow : 4096 ≤ p.vaddr) (hhigh : p.vaddr < 0x5000) :
    ∃ st st' byte,
      loadelf data loaderFound (pageMkMap loaderShell.machine) = some (st, entry data) ∧
      firstStack loaderFound.back loaderFound.new st = some (st', p.vaddr + 4096) ∧
      InReach st'.1 ∧ Pages loaderStart st' byte ∧
      ∀ v, byte v ≠ none ↔ OnPages (p.vaddr + 4096) 4 v ∨ v / 4096 = p.vaddr / 4096 := by
  obtain ⟨bytes, regions, hholds, hload⟩ :=
    loadelf_onePage hcheck hnum hphdr htype hsize (by omega)
  have htmp : ∀ n, loaderStart.pageAt n ≠ 4096 := loaderAllocs_tmp 0
  have hnew := pages_setRegions (pages_pageMkMap supplies_loaderStart) regions
  have hloaded := hnew.loadPage bytes htmp p.vaddr
  obtain ⟨o, view, frame, hprivate⟩ := hnew
  have htook := (mapsNew_loadPage p.vaddr bytes (fun n _ => htmp n) _ o view hprivate.toSeen
    (Nat.le_refl _)).1
  obtain ⟨list', halloc⟩ := spaceAllocRegion_behind hholds hhigh
    (Nat.lt_add_of_pos_right (by decide)) (by simp only; omega) (by simp only; omega)
    loaderFound.back loaderFound.new
  have hlow' : p.vaddr + 4096 + 0x4000 < 2 ^ 32 := by omega
  obtain ⟨st', hstack⟩ : ∃ st', firstStack loaderFound.back loaderFound.new
      (loadPage 4096 p.vaddr bytes (setRegions (pageMkMap loaderStart) regions)) =
        some (st', p.vaddr + 4096) := by
    rw [show regions = (setRegions (pageMkMap loaderStart) regions).2.regions from rfl,
      ← htook.regions_eq] at halloc
    rw [firstStack_eq halloc, stackPages_low hlow']
    exact ⟨_, rfl⟩
  obtain ⟨byte, hp, hin, hout, hframes⟩ := pages_firstStack hloaded hstack hlow'
  refine ⟨_, st', byte, hload, hstack, ?_, hp, fun v => ?_⟩
  · obtain ⟨o', view', frame', hprivate'⟩ := hp
    have hmk : (setRegions (pageMkMap loaderStart) regions).1.frames = 0 + 517 :=
      pageMkMap_frames loaderStart
    have hle := htook.frames_le
    refine inReach_of_start (show _ = (startMachine 0).frameAt from hprivate'.frameAt_eq) ?_
    omega
  · by_cases hon : OnPages (p.vaddr + 4096) 4 v
    · exact iff_of_true (hin v hon) (Or.inl hon)
    · rw [hout v hon, lowPage_of_lt (show p.vaddr < 2 ^ 39 by omega)]
      by_cases hpage : v / 4096 = p.vaddr / 4096
      · rw [if_pos hpage]
        exact iff_of_true (Option.some_ne_none _) (Or.inr hpage)
      · rw [if_neg hpage]
        exact iff_of_false (fun h => h rfl) fun h => h.elim hon hpage

theorem supplies_loaderShell : Supplies loaderShell.machine := supplies_loaderStart

theorem loaderFound_tmp (i n : ℕ) : loaderShell.machine.pageAt n ≠ (loaderFound.elf i).tmp :=
  loaderAllocs_tmp i n

/-- The path `/a` and the argument `b`, for a file with its segment at `0x1000`. -/
theorem schedMkelfproc_args_iff_tiny : ∃ new k' t,
    schedMkelfproc (scriptFiles new) loaderFound loaderShell [47, 97] (tinyElf 1) [[98]] =
        some (k', t) ∧
      ArgsArrive k' loaderShell.sched.nextProc t [[47, 97], [98]] := by
  obtain ⟨new, hnew⟩ := exists_allocates
  obtain ⟨st, st', byte, hload, hstack, hreach, hp, hmapped⟩ :=
    exists_stack_onePage tiny_one.checks tiny_one.num tiny_one.phdr_eq rfl tiny_one.size_eq
      (show 4096 ≤ 0x1000 by decide) (show 0x1000 < 0x5000 by decide)
  refine ⟨new, (schedMkelfproc_args_iff supplies_loaderShell loaderFound_tmp
    (scriptFiles_console hnew) hload hstack (by decide) hreach (by decide) (by decide)).mpr ?_⟩
  rw [hp.userRead_eq hreach (by decide), hmapped]
  exact Or.inl (by rw [OnPages]; decide)

def skewElf : Mem := update (tinyElf 1) 81 0x18

def skewPhdr : Phdr := { type := 1, offset := 0, vaddr := 0x1800, fileSz := 1, memSz := 1 }

/-- The stack is from `0x2800` to `0x6800`, and the pages from `0x2000` to `0x6000` are mapped for
it: the path `/a` cannot be copied. -/
theorem schedMkelfproc_faults : ∃ new st st',
    (scriptFiles new).resolve consolePath none = some (some 1) ∧
      checkElfHdr skewElf = true ∧ segments skewElf = [skewPhdr] ∧
      loadelf skewElf loaderFound (pageMkMap loaderShell.machine) = some (st, entry skewElf) ∧
      firstStack loaderFound.back loaderFound.new st = some (st', 0x2800) ∧ InReach st'.1 ∧
      room [[47, 97]] + 8 * 1 ≤ 0x4000 ∧
      schedMkelfproc (scriptFiles new) loaderFound loaderShell [47, 97] skewElf [] = none := by
  obtain ⟨new, hnew⟩ := exists_allocates
  have hcheck : checkElfHdr skewElf = true := by decide +kernel
  have hnum : phNum skewElf = 1 := by decide +kernel
  have hphdr : phdr skewElf 0 = skewPhdr := by decide +kernel
  have hconsole := scriptFiles_console hnew
  obtain ⟨st, st', byte, hload, hstack, hreach, hp, hmapped⟩ :=
    exists_stack_onePage hcheck hnum hphdr rfl rfl (show 4096 ≤ 0x1800 by decide)
      (show 0x1800 < 0x5000 by decide)
  refine ⟨new, st, st', hconsole, hcheck, segments_single hnum hphdr rfl, hload, hstack, hreach,
    by decide, ?_⟩
  rw [schedMkelfproc_eq hconsole hload hstack, Option.map_eq_none_iff,
    Option.eq_none_iff_forall_ne_some]
  rintro ⟨s', sp⟩ hprep
  have hprep : prepstack st'.2 st'.1 0x6800 [47, 97] [] = some (s', sp) := hprep
  have hlast : byte 0x67ff ≠ none :=
    last_ne_none_of_prepstack hp hreach (by decide) (by decide) hprep
  rcases (hmapped 0x67ff).mp hlast with hon | hpage
  · rw [OnPages] at hon
    exact absurd hon (by decide)
  · exact absurd hpage (by decide)

/-! ## The writes of `execve` -/

def replaced (k : Kernel) (p console rip : ℕ) (map : PageMap) (top : ℕ) (r : Machine × ℕ) :
    Kernel :=
  { started k console rip map top r with
    sched := (k.sched.mkProc.1.threadSpawn k.sched.mkProc.2).schedKill p }

theorem sysExecve_eq_prepstack (argv envp : ℕ → Option Str)
    (hcurr : schedGetCurrproc k c = some p)
    (hfile : fs.resolve path (k.procs p).workingDir = some (some node))
    (hmany : countArgs argv 128 0 ≠ 128)
    (hargs : args = (List.range (countArgs argv 128 0)).filterMap argv)
    (hconsole : fs.resolve consolePath none = some (some console))
    (hload : loadelf (fs.buffer node a.heap) a (pageMkMap k.machine) = some (st, rip))
    (hstack : firstStack a.back a.new st = some (st', stack)) (hlow : stack + 0x4000 < 2 ^ 32) :
    sysExecve fs a k c (some path) (some argv) (some envp) =
      (prepstack st'.2 st'.1 (stack + 0x4000) path args).map fun r =>
        .yields (replaced k p console rip st'.2 (stack + 0x4000) r) := by
  rw [sysExecve_eq hcurr hfile, if_neg hmany, ← hargs, schedExec_eq hcurr hfile,
    schedMkelfproc_eq hconsole hload hstack, u64_of_lt (show stack + 0x4000 < 2 ^ 64 by omega),
    Option.map_map, Option.map_map]
  rfl

/-- However long the strings are, a call with fewer than 128 of them is not refused. What it writes
is on the stack if and only if they fit. -/
theorem sysExecve_writes_iff (argv envp : ℕ → Option Str)
    (hcurr : schedGetCurrproc k c = some p)
    (hfile : fs.resolve path (k.procs p).workingDir = some (some node))
    (hmany : countArgs argv 128 0 ≠ 128)
    (hargs : args = (List.range (countArgs argv 128 0)).filterMap argv)
    (hconsole : fs.resolve consolePath none = some (some console))
    (hload : loadelf (fs.buffer node a.heap) a (pageMkMap k.machine) = some (st, rip))
    (hstack : firstStack a.back a.new st = some (st', stack)) (hlow : stack + 0x4000 < 2 ^ 32) :
    (∃ f : Machine → Kernel, (∀ s, (f s).machine = s) ∧
      sysExecve fs a k c (some path) (some argv) (some envp) =
        ((argWrites (stack + 0x4000) (path :: args)).foldlM
          (fun s w => userWrite s st'.2 w.1 w.2) st'.1).map fun s => .yields (f s)) ∧
    ((∀ w ∈ argWrites (stack + 0x4000) (path :: args), stack ≤ w.1 ∧ w.1 < stack + 0x4000) ↔
      room (path :: args) + 8 * (args.length + 1) ≤ 0x4000) := by
  constructor
  · refine ⟨fun s => replaced k p console rip st'.2 (stack + 0x4000)
      (s, bottom (stack + 0x4000) (argBlocks (stack + 0x4000) (path :: args))), fun s => rfl, ?_⟩
    rw [sysExecve_eq_prepstack argv envp hcurr hfile hmany hargs hconsole hload hstack hlow,
      prepstack_eq, foldlM_writeBlock, Option.map_map]
    rfl
  · rw [argWrites_within_iff (Nat.le_add_right _ _) (by omega), pushed, List.length_cons]
    omega

def elfFiles (new : ListT Str → ℕ) (bytes : List UInt8) : Files :=
  { scriptFiles new with content := fun _ => bytes }

theorem loaderShell_currproc : schedGetCurrproc loaderShell 0 = some 0 := shell_currproc

theorem elfFiles_resolve {new : ListT Str → ℕ} (hnew : Allocates new) (bytes : List UInt8) :
    (elfFiles new bytes).resolve [47, 97] (loaderShell.procs 0).workingDir = some (some 1) :=
  scriptFiles_resolve hnew

theorem elfFiles_console {new : ListT Str → ℕ} (hnew : Allocates new) (bytes : List UInt8) :
    (elfFiles new bytes).resolve consolePath none = some (some 1) :=
  scriptFiles_console hnew

/-- The path `/a` without an argument, for the file with its segment at `0x1000`. -/
theorem sysExecve_writes_iff_path : ∃ st st',
    loadelf (tinyElf 1) loaderFound (pageMkMap loaderShell.machine) =
        some (st, entry (tinyElf 1)) ∧
      firstStack loaderFound.back loaderFound.new st = some (st', 0x2000) ∧
      ∀ w ∈ argWrites (0x2000 + 0x4000) [[47, 97]], 0x2000 ≤ w.1 ∧ w.1 < 0x2000 + 0x4000 := by
  obtain ⟨new, hnew⟩ := exists_allocates
  obtain ⟨st, st', byte, hload, hstack, -⟩ :=
    exists_stack_onePage tiny_one.checks tiny_one.num tiny_one.phdr_eq rfl tiny_one.size_eq
      (show 4096 ≤ 0x1000 by decide) (show 0x1000 < 0x5000 by decide)
  have hbuffer : (elfFiles new (tinyBytes 1)).buffer 1 loaderFound.heap = tinyElf 1 := rfl
  have hload' := hload
  rw [← hbuffer] at hload'
  exact ⟨st, st', hload, hstack, (sysExecve_writes_iff (fun _ => none) (fun _ => none)
    loaderShell_currproc (elfFiles_resolve hnew _) (by decide) rfl (elfFiles_console hnew _) hload'
    hstack (by decide)).2.mpr (by decide)⟩

def pageBytes : List UInt8 := (tinyBytes 0).set 105 0x10

theorem tiny_page : Tiny (fun n => pageBytes[n]?.getD 0) 0x1000 := by
  refine ⟨?_, ?_, ?_, ?_, by decide, by decide⟩
  all_goals decide +kernel

def longArg : Str := List.replicate 0x4000 97

def longArgv (i : ℕ) : Option Str := if i = 0 then some longArg else none

theorem countArgs_longArgv : countArgs longArgv 128 0 = 1 := by
  show countArgs longArgv (126 + 1 + 1) 0 = 1
  rw [countArgs, countArgs]
  rfl

/-- The stack is from `0x2000` to `0x6000`. The segment below it, from `0x1000` on, gets the first
four bytes of the argument. -/
theorem sysExecve_overruns : ∃ new st st' k',
    segments ((elfFiles new pageBytes).buffer 1 loaderFound.heap) = [tinyPhdr 0x1000] ∧
      loadelf ((elfFiles new pageBytes).buffer 1 loaderFound.heap) loaderFound
        (pageMkMap loaderShell.machine) =
          some (st, entry ((elfFiles new pageBytes).buffer 1 loaderFound.heap)) ∧
      firstStack loaderFound.back loaderFound.new st = some (st', 0x2000) ∧
      sysExecve (elfFiles new pageBytes) loaderFound loaderShell 0 (some [47, 97])
        (some longArgv) (some fun _ => none) = some (.yields k') ∧
      userRead k'.machine (k'.procs loaderShell.sched.nextProc).addrSpace 0x1fff = some 97 := by
  obtain ⟨new, hnew⟩ := exists_allocates
  obtain ⟨st, st', byte, hload, hstack, hreach, hp, hmapped⟩ :=
    exists_stack_onePage tiny_page.checks tiny_page.num tiny_page.phdr_eq rfl tiny_page.size_eq
      (show 4096 ≤ 0x1000 by decide) (show 0x1000 < 0x5000 by decide)
  have hstack : firstStack loaderFound.back loaderFound.new st = some (st', 0x2000) := hstack
  have hload : loadelf ((elfFiles new pageBytes).buffer 1 loaderFound.heap) loaderFound
      (pageMkMap loaderShell.machine) =
        some (st, entry ((elfFiles new pageBytes).buffer 1 loaderFound.heap)) := hload
  have hargs : [longArg] = (List.range (countArgs longArgv 128 0)).filterMap longArgv := by
    rw [countArgs_longArgv]
    rfl
  have hlong : longArg.length = 0x4000 := List.length_replicate
  have hpushed : pushed [[47, 97], longArg] = 0x4014 := by
    rw [pushed, room_cons, room_cons, hlong]
    rfl
  have hfits : pushed [[47, 97], longArg] ≤ 0x6000 := by omega
  obtain ⟨s', hwrites, -, hreads⟩ := argBlocks_written hp hreach (show 0x6000 ≤ 2 ^ 39 by decide)
    hfits fun v hlow hhigh => by
      rw [hmapped, OnPages]
      show 0x2000 / 4096 ≤ v / 4096 ∧ v / 4096 < 0x2000 / 4096 + 4 ∨ v / 4096 = 0x1000 / 4096
      omega
  have hblock : (⟨0x1ffc, longArg ++ [0]⟩ : Block UInt8) ∈
      argBlocks 0x6000 [[47, 97], longArg] := by
    refine List.mem_append_left _ (List.mem_cons_of_mem _ ?_)
    rw [stringBlocks, hlong]
    exact List.mem_cons_self
  have hexec := sysExecve_eq_prepstack longArgv (fun _ => none) loaderShell_currproc
    (elfFiles_resolve hnew _) (by rw [countArgs_longArgv]; decide) hargs (elfFiles_console hnew _)
    hload hstack (by decide)
  rw [prepstack_eq, show argBlocks (0x2000 + 0x4000) [[47, 97], longArg] =
    argBlocks 0x6000 [[47, 97], longArg] from rfl, hwrites] at hexec
  have hread := hreads _ hblock 3 (by rw [List.length_append, hlong]; decide)
  have hbyte : (longArg ++ [0])[3]? = some 97 := by
    rw [List.getElem?_append_left (by omega), longArg, List.getElem?_replicate_of_lt (by decide)]
  exact ⟨new, st, st', _, tiny_page.segments_eq, hload, hstack, hexec, hread.trans hbyte⟩

end KernelOld.Exec
