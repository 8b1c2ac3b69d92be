import KernelOld.Lib.MachineWord

/-!
# The scheduler

`sched/sched.c`, `sched/thread.c`, `sched/signal.c` and `kernel_proc` of `sys/kmain.c`, one
definition for each section that runs under the lock of a CPU and for each single step outside.
Threads, processes and semaphores are numbered in the order in which they are made; the queues are
lists. A CPU with no `currthread` that is not dead is still in the loop of `sched_start` or
`smp_entry`. `none` stands for a null pointer or an array bound that is missed, and for a lock that
is never released.
-/

namespace KernelOld.Sched
open MachineWord Function

inductive ThreadState
  | running
  | ready
  | waiting
  | waitLock
  | paused
  | asleep
  | killed
deriving DecidableEq

structure Thread where
  parent : ℕ
  state : ThreadState
  sleepexp : ℕ
  tid : ℕ
deriving DecidableEq

structure Signal where
  signo : ℕ
  handler : ℕ
deriving DecidableEq

structure Proc where
  threads : List ℕ
  nexttid : ℕ
  sigstack : List Signal
  signals : ℕ → ℕ

structure Sem where
  maxCnt : ℕ
  currCnt : ℕ
  waitlst : List ℕ
deriving DecidableEq

/-- `cpu_t`. `dead` is set in the last loop of `schedule`. -/
structure Cpu where
  currthread : Option ℕ
  threads : List ℕ
  runQueue : List ℕ
  dead : Bool
deriving DecidableEq

/-- Threads and processes go by numbers; new ones get the next. -/
structure Scheduler where
  cpuCount : ℕ
  cpu : ℕ → Cpu
  thread : ℕ → Thread
  proc : ℕ → Proc
  sem : ℕ → Sem
  nextThread : ℕ
  nextProc : ℕ

namespace Scheduler

variable (s : Scheduler)

def Alive (c : ℕ) : Prop := c < s.cpuCount ∧ (s.cpu c).dead = false

instance (c : ℕ) : Decidable (s.Alive c) := inferInstanceAs (Decidable (_ ∧ _))

def current (c : ℕ) : Option ℕ :=
  if c < s.cpuCount ∧ (s.cpu c).dead = false then (s.cpu c).currthread else none

def state (t : ℕ) : ThreadState := (s.thread t).state

def setCpu (c : ℕ) (cpu : Cpu) : Scheduler := { s with cpu := update s.cpu c cpu }

def setThread (t : ℕ) (thread : Thread) : Scheduler := { s with thread := update s.thread t thread }

def setProc (p : ℕ) (proc : Proc) : Scheduler := { s with proc := update s.proc p proc }

def setSem (k : ℕ) (sem : Sem) : Scheduler := { s with sem := update s.sem k sem }

def setState (t : ℕ) (state : ThreadState) : Scheduler :=
  s.setThread t { s.thread t with state }

def enqueue (c t : ℕ) : Scheduler :=
  s.setCpu c { s.cpu c with runQueue := (s.cpu c).runQueue ++ [t] }

def leastOf : ℕ → ℕ
  | 0 => 0
  | k + 1 =>
    if (s.cpu (k + 1)).threads.length < (s.cpu (leastOf k)).threads.length then k + 1
    else leastOf k

def leastLoaded : ℕ := s.leastOf (s.cpuCount - 1)

def spawnOn (c t : ℕ) : Scheduler :=
  s.setCpu c
    { s.cpu c with
      threads := (s.cpu c).threads ++ [t]
      runQueue := (s.cpu c).runQueue ++ [t] }

def threadSpawn (t : ℕ) : Scheduler := s.spawnOn s.leastLoaded t

def threadCreat (parent : ℕ) : Scheduler × ℕ :=
  let tid := (s.proc parent).nexttid
  let t := s.nextThread
  let s := s.setThread t { parent, state := .ready, sleepexp := 0, tid }
  let s := s.setProc parent { s.proc parent with nexttid := tid + 1 }
  ({ s with nextThread := t + 1 }, t)

/-- What the three functions that make a process do for the scheduler. -/
def mkProc : Scheduler × ℕ :=
  let p := s.nextProc
  let t := s.nextThread
  let s := s.setThread t { parent := p, state := .ready, sleepexp := 0, tid := 0 }
  let s := s.setProc p { threads := [t], nexttid := 1, sigstack := [], signals := fun _ => 0 }
  ({ s with nextThread := t + 1, nextProc := p + 1 }, t)

def schedKill (p : ℕ) : Scheduler := (s.proc p).threads.foldl (fun s t => s.setState t .killed) s

inductive SigAct
  | term
  | ign
  | stop

def sigacts : ℕ → Option SigAct
  | 0 => some .term
  | 1 => some .stop
  | 2 => some .stop
  | _ => none

/-- With a handler it writes `regs.rip` through the head node of `proc->threads` instead of the
thread, past the end of the node. The yields find the lock taken and return. -/
def signalHandle (p : ℕ) (sig : Signal) : Option Scheduler :=
  if (s.proc p).signals sig.signo ≠ 0 then none
  else
    match sigacts sig.signo with
    | some .ign => some s
    | some .term | some .stop => some (s.schedKill p)
    | none => none

def saveCurrent (c : ℕ) : Scheduler :=
  match (s.cpu c).currthread with
  | none => s
  | some t => if s.state t = .running then (s.setState t .ready).enqueue c t else s

def deliver (t : ℕ) : Option Scheduler :=
  let p := (s.thread t).parent
  if (s.thread t).tid = 0 then
    match (s.proc p).sigstack with
    | [] => some s
    | sig :: sigstack => (s.setProc p { s.proc p with sigstack }).signalHandle p sig
  else some s

def schedule (c : ℕ) : Option Scheduler :=
  if s.Alive c then
    let s := s.saveCurrent c
    match (s.cpu c).runQueue with
    | [] => some (s.setCpu c { s.cpu c with dead := true })
    | t :: runQueue =>
      let s := s.setCpu c { s.cpu c with currthread := some t, runQueue }
      (s.setState t .running).deliver t
  else none

/-- A thread of the CPU `i` that has slept long enough is spawned again, with `i`'s lock held. -/
def sweepRound (i now j : ℕ) : Option Scheduler := do
  let t ← (s.cpu i).threads[j]?
  let s' := if s.state t = .killed then
      s.setCpu i { s.cpu i with threads := (s.cpu i).threads.eraseIdx j }
    else s
  if s'.state t = .asleep ∧ (s'.thread t).sleepexp ≤ now then
    let s' := s'.setState t .ready
    -- `thread_spawn` would wait for the lock that its caller holds
    if s'.leastLoaded = i then none else some (s'.threadSpawn t)
  else some s'

def sweepFrom (i now : ℕ) : ℕ → ℕ → Scheduler → Option Scheduler
  | 0, _, s => some s
  | rounds + 1, j, s =>
    if j < (s.cpu i).threads.length then do
      let s ← s.sweepRound i now j
      sweepFrom i now rounds (j + 1) s
    else some s

def sweep (i now : ℕ) : Option Scheduler := sweepFrom i now (s.cpu i).threads.length 0 s

end Scheduler

/-- The steps of the scheduler. The first argument of most is the CPU that takes the step. -/
inductive Act
  | schedule (c : ℕ)
  /-- `sched_spawn` of a new process. -/
  | spawnProc (c : ℕ)
  /-- `thread_creat` in the current process, and `thread_spawn`. -/
  | createThread (c : ℕ)
  /-- The section of `thread_block`. -/
  | block (c : ℕ) (state : ThreadState)
  /-- The section of `thread_sleepuntil`. -/
  | sleep (c timepoint : ℕ)
  /-- The section of `thread_unblock`. -/
  | unblock (c t : ℕ)
  | semAcquire (c k : ℕ)
  | semRelease (c k : ℕ)
  /-- `kernel_proc` with the lock of the CPU `i`. -/
  | sweep (c i now : ℕ)
  | threadKill (t : ℕ)
  | schedKill (p : ℕ)
  | sysKillThread (c tid : ℕ)
  | signalSend (p signo : ℕ)
  | sigaction (c signum handler : ℕ)

def Act.exec (s : Scheduler) : Act → Option Scheduler
  | .schedule c => s.schedule c
  | .spawnProc c =>
    if s.Alive c then
      let (s, t) := s.mkProc
      some (s.threadSpawn t)
    else none
  | .createThread c => do
    let curr ← s.current c
    let (s, t) := s.threadCreat (s.thread curr).parent
    some (s.threadSpawn t)
  | .block c state => do
    let curr ← s.current c
    some (s.setState curr state)
  | .sleep c timepoint => do
    let curr ← s.current c
    some (s.setThread curr { s.thread curr with sleepexp := timepoint })
  | .unblock c t => if s.Alive c then some ((s.setState t .running).enqueue c t) else none
  | .semAcquire c k => do
    let curr ← s.current c
    let sem := s.sem k
    if sem.currCnt < sem.maxCnt then some (s.setSem k { sem with currCnt := sem.currCnt + 1 })
    else some (s.setSem k { sem with waitlst := sem.waitlst ++ [curr] })
  | .semRelease c k => do
    let _ ← s.current c
    let sem := s.sem k
    match sem.waitlst with
    | [] => some (s.setSem k { sem with currCnt := u32 (sem.currCnt + 2 ^ 32 - 1) })
    | _ :: waitlst => some (s.setSem k { sem with waitlst })
  | .sweep c i now => do
    let _ ← s.current c
    if i < s.cpuCount then s.sweep i now else none
  | .threadKill t => if t < s.nextThread then some (s.setState t .killed) else none
  | .schedKill p => some (s.schedKill p)
  | .sysKillThread c tid => do
    let curr ← s.current c
    match (s.proc (s.thread curr).parent).threads.find? fun t => (s.thread t).tid = tid with
    | none => some s
    | some t => some (s.setState t .killed)
  | .signalSend p signo =>
    if signo < 3 then
      let sig := { signo, handler := (s.proc p).signals signo }
      some (s.setProc p { s.proc p with sigstack := (s.proc p).sigstack ++ [sig] })
    else none
  | .sigaction c signum handler => do
    let curr ← s.current c
    let p := (s.thread curr).parent
    if signum < 3 then
      some (s.setProc p { s.proc p with signals := update (s.proc p).signals signum handler })
    else none

def smpInit (n : ℕ) (maxCnt : ℕ → ℕ) : Scheduler where
  cpuCount := n
  cpu _ := ⟨none, [], [], false⟩
  thread _ := ⟨0, .ready, 0, 0⟩
  proc _ := ⟨[], 0, [], fun _ => 0⟩
  sem k := ⟨maxCnt k, 0, []⟩
  nextThread := 0
  nextProc := 0

/-- An admitted step that gets to its end. -/
inductive Step (admits : Scheduler → Act → Prop) : Scheduler → Scheduler → Prop
  | act {s s' : Scheduler} {a : Act} (hadmits : admits s a) (hexec : a.exec s = some s') :
      Step admits s s'

end KernelOld.Sched
