import KernelOld.Fs.Vfs.Resolve
import KernelOld.Mem.Space.CloneRegions
import KernelOld.Sched.Steps
import KernelOld.Sys.Elf
import KernelOld.Sys.FileDescs
import KernelOld.Sys.Prepstack

/-!
# `execve`

`sys_execve` of `src/sys/syscall/syscall.c`, with `sched_exec`, `sched_mkelfproc` and `loadelf` of
`src/sched/sched.c` and `vfs_stat` of `src/fs/vfs/vfs.c`. `loadelf` drops what `elf_load` returns.
The file system is given by what `vfs_resolve_path` reads and by the content of each node.
`sched_exec` does not come back from its first yield unless the calling thread is missing in the
list of its process, so its effect is the state at that yield.
-/

namespace KernelOld.Exec
open ByteMemory MachineWord Strings LinkedList CountedLoop Function Space Mmap Elf Vfs
open Sched (Scheduler ThreadState)
open FileDescs (FsFd minusOne)

/-- What `vfs_resolve_path` depends on, and what the files hold. -/
structure Files where
  new : ListT Str → ℕ
  rest : ℕ → UInt8
  flags : ℕ → ℕ
  finddir : ℕ → Str → Option ℕ
  tree : MountTree ℕ
  content : ℕ → List UInt8

def Files.resolve (fs : Files) (path : Str) (workingDir : Option Str) : Option (Option ℕ) :=
  vfsResolvePath fs.new fs.rest fs.flags fs.finddir fs.tree path workingDir

/-- `heap` is what was there before, and what stays behind the end of the file. -/
def Files.buffer (fs : Files) (node : ℕ) (heap : Mem) : Mem := fun n =>
  (fs.content node)[n]?.getD (heap n)

structure Regs where
  rip : ℕ
  rflags : ℕ
  cs : ℕ
  ss : ℕ
  rbp : ℕ
  rsp : ℕ
  rsi : ℕ

structure ProcData where
  addrSpace : PageMap
  fileDescs : List FsFd
  workingDir : Option Str

structure Kernel where
  sched : Scheduler
  machine : Machine
  procs : ℕ → ProcData
  regs : ℕ → Regs

def schedGetCurrproc (k : Kernel) (c : ℕ) : Option ℕ :=
  (k.sched.current c).map fun t => (k.sched.thread t).parent

/-- What a call finds in memory that it has not written, and what the kernel hands out for the
segments and for the stack. -/
structure Found where
  heap : Mem
  inf : ℕ
  elf : ℕ → Alloc
  back : ℕ
  new : ℕ

/-- `vfs_stat`. It does not write to `stat`. -/
def vfsStat (fs : Files) (workingDir : Option Str) (path : Str) : Option ℤ := do
  let node ← fs.resolve path workingDir
  match node with
  | none => some (-1)
  | some _ => some 0

def loadelf (data : Mem) (a : Found) (st : Machine × PageMap) :
    Option ((Machine × PageMap) × ℕ) := do
  let (st, _, entry) ← elfLoad data a.elf st
  some (st, entry.getD a.inf)

def consolePath : Str := [47, 100, 101, 118, 47, 99, 111, 110, 115, 111, 108, 101]

/-- `sched_mkelfproc`, with the first thread of the new process. `vfs_open` reads through the node
of the console. -/
def schedMkelfproc (fs : Files) (a : Found) (k : Kernel) (path : Str) (data : Mem)
    (argv : List Str) : Option (Kernel × ℕ) := do
  let proc := k.sched.nextProc
  let (sched, thread) := k.sched.mkProc
  let node ← fs.resolve consolePath none
  let console ← node
  let fd : FsFd := { node := console, pos := 0, flags := 0, mode := 0 }
  let (st, rip) ← loadelf data a (pageMkMap k.machine)
  let (st, stack) ← firstStack a.back a.new st
  let top := u64 (stack + 0x4000)
  let (machine, rsp) ← prepstack st.2 st.1 top path argv
  let regs : Regs := { rip, rflags := 0x202, cs := 0x1b, ss := 0x23, rbp := top, rsp, rsi := rsp }
  let data : ProcData := { addrSpace := st.2, fileDescs := [fd, fd], workingDir := some [slash] }
  some ({ sched, machine, procs := update k.procs proc data, regs := update k.regs thread regs },
    thread)

def schedExec (fs : Files) (a : Found) (k : Kernel) (c : ℕ) (path : Str) (argv : List Str) :
    Option Kernel := do
  let curr ← schedGetCurrproc k c
  let found ← fs.resolve path (k.procs curr).workingDir
  let node ← found
  let (k, thread) ← schedMkelfproc fs a k path (fs.buffer node a.heap) argv
  some { k with sched := (k.sched.threadSpawn thread).schedKill curr }

def countArgs (argv : ℕ → Option Str) : ℕ → ℕ → ℕ
  | 0, argc => argc
  | left + 1, argc => if argv argc ≠ none then countArgs argv left (argc + 1) else argc

/-- A call that succeeds does not return: its threads are killed, and it yields. -/
inductive Outcome
  | returns (k : Kernel) (ret : ℕ)
  | yields (k : Kernel)

def sysExecve (fs : Files) (a : Found) (k : Kernel) (c : ℕ) (path : Option Str)
    (argv envp : Option (ℕ → Option Str)) : Option Outcome :=
  match path, argv, envp with
  | some path, some argv, some _ => do
    let curr ← schedGetCurrproc k c
    let ret ← vfsStat fs (k.procs curr).workingDir path
    if ret ≠ 0 then some (.returns k minusOne)
    else
      let argc := countArgs argv 128 0
      if argc = 128 then some (.returns k minusOne)
      else (schedExec fs a k c path ((List.range argc).filterMap argv)).map .yields
  | _, _, _ => some (.returns k minusOne)

/-! ## What a call leaves behind -/

structure Quiet (k : Kernel) (p : ℕ) (k' : Kernel) : Prop where
  nextProc_eq : k'.sched.nextProc = k.sched.nextProc
  nextThread_eq : k'.sched.nextThread = k.sched.nextThread
  cpu_eq : k'.sched.cpu = k.sched.cpu
  proc_eq : k'.sched.proc p = k.sched.proc p
  data_eq : k'.procs p = k.procs p
  thread_eq : ∀ t, (k.sched.thread t).parent = p → k'.sched.thread t = k.sched.thread t

/-- The call returns -1, and the caller is as it was. -/
def FailsCleanly (k : Kernel) (p : ℕ) (out : Option Outcome) : Prop :=
  ∃ k', out = some (.returns k' minusOne) ∧ Quiet k p k'

/-- A new process starts at `rip`, and the threads of the caller are killed. -/
structure Replaced (k : Kernel) (p rip : ℕ) (k' : Kernel) : Prop where
  spawned : k'.sched.nextProc = k.sched.nextProc + 1
  queued : ∃ c, k.sched.nextThread ∈ (k'.sched.cpu c).runQueue
  rip_eq : (k'.regs k.sched.nextThread).rip = rip
  killed : ∀ t ∈ (k.sched.proc p).threads, k'.sched.state t = .killed

variable {fs : Files} {a : Found} {k k' : Kernel} {c p t node : ℕ} {path : Str} {data : Mem}
  {args : List Str} {argv envp : Option (ℕ → Option Str)}

theorem countArgs_eq_iff (argv : ℕ → Option Str) (left argc : ℕ) :
    countArgs argv left argc = argc + left ↔ ∀ i < left, argv (argc + i) ≠ none := by
  induction left generalizing argc with
  | zero => exact iff_of_true rfl fun i hi => absurd hi (Nat.not_lt_zero i)
  | succ left ih =>
    rw [countArgs]
    by_cases hnull : argv argc = none
    · rw [if_neg (not_not.mpr hnull)]
      refine iff_of_false (by omega) fun hall => hall 0 (Nat.succ_pos _) hnull
    · have hsum : argc + (left + 1) = argc + 1 + left := by omega
      rw [if_pos hnull, hsum, ih]
      constructor
      · intro hrest i hi
        cases i with
        | zero => exact hnull
        | succ i =>
          have hi' := hrest i (Nat.lt_of_succ_lt_succ hi)
          rwa [Nat.add_right_comm] at hi'
      · intro hall i hi
        rw [Nat.add_right_comm]
        exact hall (i + 1) (Nat.succ_lt_succ hi)

theorem loadelf_refused (hcheck : checkElfHdr data = false) (st : Machine × PageMap) :
    loadelf data a st = some (st, a.inf) := by
  rw [loadelf, elfLoad, hcheck]
  rfl

theorem schedMkelfproc_some (h : schedMkelfproc fs a k path data args = some (k', t)) :
    t = k.sched.nextThread ∧ k'.sched = k.sched.mkProc.1 ∧
      (checkElfHdr data = false → (k'.regs t).rip = a.inf) := by
  obtain ⟨console, -, h⟩ := Option.bind_eq_some_iff.mp h
  obtain ⟨console, -, h⟩ := Option.bind_eq_some_iff.mp h
  obtain ⟨⟨st, rip⟩, hload, h⟩ := Option.bind_eq_some_iff.mp h
  obtain ⟨⟨st', stack⟩, -, h⟩ := Option.bind_eq_some_iff.mp h
  obtain ⟨⟨machine, rsp⟩, -, h⟩ := Option.bind_eq_some_iff.mp h
  obtain ⟨rfl, rfl⟩ := Prod.mk.inj (Option.some.inj h)
  refine ⟨rfl, rfl, fun hcheck => ?_⟩
  have hrip : rip = a.inf := by
    rw [loadelf_refused hcheck] at hload
    exact (congrArg Prod.snd (Option.some.inj hload)).symm
  show (update k.regs k.sched.nextThread _ k.sched.nextThread).rip = a.inf
  rw [update_self]
  exact hrip

theorem schedExec_eq (hcurr : schedGetCurrproc k c = some p)
    (hfile : fs.resolve path (k.procs p).workingDir = some (some node)) :
    schedExec fs a k c path args =
      (schedMkelfproc fs a k path (fs.buffer node a.heap) args).map fun r =>
        { r.1 with sched := (r.1.sched.threadSpawn r.2).schedKill p } := by
  rw [schedExec, hcurr]
  show (fs.resolve path (k.procs p).workingDir).bind _ = _
  rw [hfile]
  exact Option.map_eq_bind.symm

theorem schedExec_some (h : schedExec fs a k c path args = some k')
    (hcurr : schedGetCurrproc k c = some p) (hp : p < k.sched.nextProc)
    (hfile : fs.resolve path (k.procs p).workingDir = some (some node))
    (hcheck : checkElfHdr (fs.buffer node a.heap) = false) : Replaced k p a.inf k' := by
  rw [schedExec_eq hcurr hfile] at h
  obtain ⟨⟨k₁, t⟩, hmk, rfl⟩ := Option.map_eq_some_iff.mp h
  obtain ⟨rfl, hsched, hrip⟩ := schedMkelfproc_some hmk
  have hsame := Sched.Scheduler.schedKill_same (k₁.sched.threadSpawn k.sched.nextThread) p
  refine ⟨?_, ⟨k₁.sched.leastLoaded, ?_⟩, hrip hcheck, fun t ht => ?_⟩
  · rw [hsame.nextProc_eq]
    show k₁.sched.nextProc = _
    rw [hsched]
    rfl
  · rw [hsame.cpu_eq]
    show _ ∈ (update k₁.sched.cpu k₁.sched.leastLoaded _ k₁.sched.leastLoaded).runQueue
    rw [update_self]
    exact List.mem_append_right _ List.mem_cons_self
  · rw [Sched.Scheduler.schedKill_state, if_pos]
    show t ∈ (k₁.sched.proc p).threads
    rw [hsched]
    show t ∈ (update k.sched.proc k.sched.nextProc _ p).threads
    rw [update_of_ne (Nat.ne_of_lt hp)]
    exact ht

theorem sysExecve_eq {argv envp : ℕ → Option Str} (hcurr : schedGetCurrproc k c = some p)
    (hfile : fs.resolve path (k.procs p).workingDir = some (some node)) :
    sysExecve fs a k c (some path) (some argv) (some envp) =
      if countArgs argv 128 0 = 128 then some (.returns k minusOne)
      else (schedExec fs a k c path ((List.range (countArgs argv 128 0)).filterMap argv)).map
        Outcome.yields := by
  rw [sysExecve, hcurr]
  show (vfsStat fs (k.procs p).workingDir path).bind _ = _
  rw [vfsStat, hfile]
  rfl

theorem replaced_of_yields {argv envp : ℕ → Option Str} (hcurr : schedGetCurrproc k c = some p)
    (hp : p < k.sched.nextProc)
    (hfile : fs.resolve path (k.procs p).workingDir = some (some node))
    (hyields : sysExecve fs a k c (some path) (some argv) (some envp) = some (.yields k'))
    (hcheck : checkElfHdr (fs.buffer node a.heap) = false) : Replaced k p a.inf k' := by
  rw [sysExecve_eq hcurr hfile] at hyields
  split at hyields
  · cases hyields
  · obtain ⟨k₁, hexec, hout⟩ := Option.map_eq_some_iff.mp hyields
    obtain rfl := Outcome.yields.inj hout
    exact schedExec_some hexec hcurr hp hfile hcheck

/-- For a file that exists `sys_execve` fails without an effect exactly if one of the arrays is
missing or there are too many arguments. Otherwise, if it gets to its end, there is a new process in
place of the caller. -/
theorem sysExecve_failsCleanly_iff (hcurr : schedGetCurrproc k c = some p)
    (hp : p < k.sched.nextProc)
    (hfile : fs.resolve path (k.procs p).workingDir = some (some node)) :
    (FailsCleanly k p (sysExecve fs a k c (some path) argv envp) ↔
      argv = none ∨ envp = none ∨ ∃ args, argv = some args ∧ ∀ i < 128, args i ≠ none) ∧
    ∀ k', sysExecve fs a k c (some path) argv envp = some (.yields k') →
      checkElfHdr (fs.buffer node a.heap) = false → Replaced k p a.inf k' := by
  have hreturns : FailsCleanly k p (some (.returns k minusOne)) :=
    ⟨k, rfl, rfl, rfl, rfl, rfl, rfl, fun _ _ => rfl⟩
  cases argv with
  | none => exact ⟨iff_of_true hreturns (Or.inl rfl), nofun⟩
  | some argv =>
    cases envp with
    | none => exact ⟨iff_of_true hreturns (Or.inr (Or.inl rfl)), nofun⟩
    | some envp =>
      have hcount := countArgs_eq_iff argv 128 0
      simp only [Nat.zero_add] at hcount
      refine ⟨?_, fun k' => replaced_of_yields hcurr hp hfile⟩
      rw [sysExecve_eq hcurr hfile]
      by_cases hmany : countArgs argv 128 0 = 128
      · rw [if_pos hmany]
        exact iff_of_true hreturns (Or.inr (Or.inr ⟨argv, rfl, hcount.mp hmany⟩))
      · rw [if_neg hmany]
        refine iff_of_false ?_ ?_
        · rintro ⟨k', hret, -⟩
          obtain ⟨k₁, -, hout⟩ := Option.map_eq_some_iff.mp hret
          cases hout
        · rintro (hnone | hnone | ⟨args, hargs, hall⟩)
          · cases hnone
          · cases hnone
          · exact hmany (hcount.mpr (Option.some.inj hargs ▸ hall))

def scriptFiles (new : ListT Str → ℕ) : Files where
  new := new
  rest _ := 0
  flags _ := 2
  finddir _ _ := some 1
  tree := mountTree [⟨0, [slash], rfl⟩]
  content _ := [0x23, 0x21]

def shell : Kernel where
  sched :=
    { cpuCount := 1
      cpu := fun _ => ⟨some 0, [0], [], false⟩
      thread := fun _ => ⟨0, .running, 0, 0⟩
      proc := fun _ => ⟨[0], 1, [], fun _ => 0⟩
      sem := fun _ => ⟨1, 0, []⟩
      nextThread := 1
      nextProc := 1 }
  machine := (pageMkMap (startMachine 0)).1
  procs _ := ⟨(pageMkMap (startMachine 0)).2, [], some [slash]⟩
  regs _ := ⟨0, 0, 0, 0, 0, 0, 0⟩

def shellFound : Found where
  heap _ := 0
  inf := 0x1234
  elf := loaderAllocs
  back := 1
  new := 2

theorem shell_currproc : schedGetCurrproc shell 0 = some 0 := rfl

theorem scriptFiles_resolve {new : ListT Str → ℕ} (hnew : Allocates new) :
    (scriptFiles new).resolve [47, 97] (shell.procs 0).workingDir = some (some 1) := by
  have hcanon : vfsMkCanonpath new (fun _ => 0) [47, 97] (some [slash]) = some (render [[97]]) :=
    And.left (vfsMkCanonpath_eq hnew rfl (by decide) (by decide) (by decide))
      ⟨by decide, by decide, by decide⟩
  exact vfsResolvePath_eq hcanon (by decide) (by decide)

/-- Without a list of arguments nothing happens. -/
theorem sysExecve_failsCleanly_iff_null : ∃ new,
    (scriptFiles new).resolve [47, 97] (shell.procs 0).workingDir = some (some 1) ∧
      FailsCleanly shell 0 (sysExecve (scriptFiles new) shellFound shell 0 (some [47, 97]) none
        (some fun _ => none)) := by
  obtain ⟨new, hnew⟩ := exists_allocates
  have hfile := scriptFiles_resolve hnew
  exact ⟨new, hfile,
    (sysExecve_failsCleanly_iff shell_currproc (by decide) hfile).1.mpr (Or.inl rfl)⟩

/-! ## A call that gets to its end -/

variable {s₀ s : Machine} {map : PageMap} {st : Machine × PageMap}

theorem exists_firstStack (hs : Supplies s) (hreach : ∀ n < s.frames + 525, s.frameAt n < 2 ^ 52)
    (back new : ℕ) :
    ∃ st byte, firstStack back new (pageMkMap s) = some (st, 4096) ∧ InReach st.1 ∧
      Pages s st byte ∧ ∀ v, 4096 ≤ v → v < 0x5000 → byte v ≠ none := by
  obtain ⟨st, hstack⟩ : ∃ st, firstStack back new (pageMkMap s) = some (st, 4096) := by
    have halloc := spaceAllocRegion_create back new
      (show 4096 + 0x4000 < kernelVirtualAddr by decide)
    rw [← pageMkMap_regions s] at halloc
    rw [firstStack_eq halloc, stackPages_low (by decide)]
    exact ⟨_, rfl⟩
  obtain ⟨byte, hp, hmapped, -, hframes⟩ :=
    pages_firstStack (pages_pageMkMap hs) hstack (by decide)
  have hmk : (pageMkMap s).1.frames = s.frames + 517 := pageMkMap_frames s
  refine ⟨st, byte, hstack, fun n hn => ?_, hp, fun v hlo hhi => hmapped v ?_⟩
  · obtain ⟨o, view, frame, hprivate⟩ := hp
    rw [hprivate.frameAt_eq]
    exact hreach n (by omega)
  · rw [OnPages]
    omega

/-- With a console and with arguments that fit on the stack, a file that `check_elf_hdr` refuses
takes the place of the caller. -/
theorem sysExecve_yields {console : ℕ} (argv envp : ℕ → Option Str)
    (hcurr : schedGetCurrproc k c = some p)
    (hfile : fs.resolve path (k.procs p).workingDir = some (some node))
    (hcheck : checkElfHdr (fs.buffer node a.heap) = false)
    (hmany : countArgs argv 128 0 ≠ 128)
    (hconsole : fs.resolve consolePath none = some (some console)) (hs : Supplies k.machine)
    (hreach : ∀ n < k.machine.frames + 525, k.machine.frameAt n < 2 ^ 52)
    (hargs : args = (List.range (countArgs argv 128 0)).filterMap argv)
    (hroom : room (path :: args) + (args.length + 1) * 8 ≤ 0x4000) :
    ∃ k', sysExecve fs a k c (some path) (some argv) (some envp) = some (.yields k') := by
  obtain ⟨st, byte, hstack, hreach', hp, hmapped⟩ := exists_firstStack hs hreach a.back a.new
  have hpushed : pushed (path :: args) ≤ 0x4000 := hroom
  obtain ⟨⟨machine, rsp⟩, hprep⟩ : ∃ st', prepstack st.2 st.1 (u64 (4096 + 0x4000)) path args =
      some st' := by
    obtain ⟨s', hwrites, -⟩ := argBlocks_written (show Pages k.machine (st.1, st.2) byte from hp)
      hreach' (show 4096 + 0x4000 ≤ 2 ^ 39 by decide) (hpushed.trans (by decide))
      fun v hlo hhi => hmapped v (by omega) hhi
    rw [prepstack_eq, u64_of_lt (by decide), hwrites]
    exact ⟨_, rfl⟩
  have hload := loadelf_refused (a := a) hcheck (pageMkMap k.machine)
  obtain ⟨r, hmk⟩ : ∃ r, schedMkelfproc fs a k path (fs.buffer node a.heap) args = some r := by
    rw [schedMkelfproc, hconsole]
    simp only [Option.bind_eq_bind, Option.bind_some, hload, hstack]
    rw [hprep]
    exact ⟨_, rfl⟩
  rw [sysExecve_eq hcurr hfile, if_neg hmany, ← hargs, schedExec_eq hcurr hfile, hmk]
  exact ⟨_, rfl⟩

theorem scriptFiles_console {new : ListT Str → ℕ} (hnew : Allocates new) :
    (scriptFiles new).resolve consolePath none = some (some 1) := by
  have hcanon : vfsMkCanonpath new (fun _ => 0) consolePath none =
      some (render [[100, 101, 118], [99, 111, 110, 115, 111, 108, 101]]) :=
    And.left (vfsMkCanonpath_eq hnew rfl (by decide) (by decide) (by decide))
      ⟨by decide, by decide, by decide⟩
  exact vfsResolvePath_eq hcanon (by decide) (by decide)

/-- The file is refused, and still the caller is killed and a process spawned that starts at what
was left on the stack. -/
theorem refused_exec_replaces : ∃ new k',
    (scriptFiles new).resolve [47, 97] (shell.procs 0).workingDir = some (some 1) ∧
      checkElfHdr ((scriptFiles new).buffer 1 shellFound.heap) = false ∧
      sysExecve (scriptFiles new) shellFound shell 0 (some [47, 97]) (some fun _ => none)
        (some fun _ => none) = some (.yields k') ∧
      Replaced shell 0 0x1234 k' ∧ shell.sched.state 0 = .running ∧
      k'.sched.state 0 = .killed ∧ ¬Quiet shell 0 k' := by
  obtain ⟨new, hnew⟩ := exists_allocates
  have hfile := scriptFiles_resolve hnew
  have hcheck : checkElfHdr ((scriptFiles new).buffer 1 shellFound.heap) = false := rfl
  obtain ⟨o, hc⟩ := contents_pageMkMap (supplies_start : Supplies (startMachine 0))
  have hframes : shell.machine.frames = 0 + 517 := pageMkMap_frames (startMachine 0)
  have hreach : ∀ n < shell.machine.frames + 525, shell.machine.frameAt n < 2 ^ 52 := by
    intro n hn
    rw [show shell.machine.frameAt = (startMachine 0).frameAt from hc.frameAt_eq]
    show (n + 256) * 4096 < 2 ^ 52
    omega
  obtain ⟨k', hyields⟩ := sysExecve_yields (fun _ => none) (fun _ => none) shell_currproc
    hfile hcheck (by decide) (scriptFiles_console hnew) hc.valid.toSupplies hreach rfl
    (by decide)
  have hreplaced : Replaced shell 0 0x1234 k' :=
    replaced_of_yields shell_currproc (by decide) hfile hyields hcheck
  refine ⟨new, k', hfile, hcheck, hyields, hreplaced, rfl, hreplaced.killed 0 List.mem_cons_self,
    fun hquiet => ?_⟩
  exact absurd (hreplaced.spawned.symm.trans hquiet.nextProc_eq) (by decide)

end KernelOld.Exec
