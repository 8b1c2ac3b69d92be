import KernelOld.Lib.MachineWord
import Mathlib.Data.List.Basic
import Mathlib.Logic.Function.Basic

/-!
# System call numbers and signal numbers

`syscall_handler`, `sys_kill` and `sys_sigaction` of `src/sys/syscall/syscall.c`, `signal_send` of
`src/sched/signal.c`, and `signal_handle` and its call in `schedule`. Every function returns, next
to its result, the table entries it used. `near` is what lies around `sigacts`.
-/

namespace KernelOld.Signals
open MachineWord Function

def sigcnt : ℕ := 3

def sigseg : ℤ := 1

inductive SigAct where
  | term | ign | stop
  deriving DecidableEq

def sigacts : List SigAct := [.term, .stop, .stop]

def sigstrs : List String := ["SIGINT", "SIGSEG", "SIGABRT"]

inductive Sysno where
  | read | write | «open» | close | mmap | ioctl | stat | fork | execve | waitid | exit
  | nanosleep | lseek | createThread | exitThread | killThread | joinThread | kill | getpid
  | sigaction | chdir | getcwd
  deriving DecidableEq

def syscalls : List Sysno :=
  [.read, .write, .open, .close, .mmap, .ioctl, .stat, .fork, .execve, .waitid, .exit,
    .nanosleep, .lseek, .createThread, .exitThread, .killThread, .joinThread, .kill, .getpid,
    .sigaction, .chdir, .getcwd]

inductive Table where
  | syscalls | signals | sigacts | sigstrs
  deriving DecidableEq

def Table.size : Table → ℕ
  | syscalls => 22
  | signals => sigcnt
  | sigacts => sigcnt
  | sigstrs => sigcnt

/-- An access to one of the tables. -/
structure Access where
  table : Table
  index : ℤ
  deriving DecidableEq

/-- The index is one of the table. -/
def Access.InRange (a : Access) : Prop := 0 ≤ a.index ∧ a.index < a.table.size

instance (a : Access) : Decidable a.InRange := inferInstanceAs (Decidable (_ ∧ _))

structure Signal where
  signo : ℤ
  handler : ℕ

structure Proc where
  signals : ℤ → ℕ
  sigstack : List Signal

/-- The processes by `pid`, the current one, and the `sa_handler` at each address. -/
structure Kernel where
  procs : ℕ → Proc
  curr : ℕ
  saHandler : ℕ → ℕ

structure Regs where
  rax : ℕ
  rdi : ℕ
  rsi : ℕ
  rdx : ℕ
  rcx : ℕ
  rbx : ℕ

def intArg (reg : ℕ) : ℤ := toInt32 (u32 reg)

def signalSend (k : Kernel) (proc : ℕ) (signal : ℤ) : List Access × Kernel :=
  let p := k.procs proc
  let sig : Signal := { signo := signal, handler := p.signals signal }
  ([⟨.signals, signal⟩],
    { k with procs := update k.procs proc { p with sigstack := p.sigstack ++ [sig] } })

/-- `sched_procfrompid` returns the current process for every `pid`. -/
def schedProcfrompid (k : Kernel) (_pid : ℤ) : ℕ := k.curr

def sysKill (k : Kernel) (pid signal : ℤ) : List Access × Kernel :=
  signalSend k (schedProcfrompid k pid) signal

def sysSigaction (k : Kernel) (signum : ℤ) (act old : ℕ) : List Access × Kernel :=
  let p := k.procs k.curr
  let prev := p.signals signum
  let procs :=
    if act ≠ 0 then
      update k.procs k.curr { p with signals := update p.signals signum (k.saHandler act) }
    else k.procs
  let saHandler := if old ≠ 0 then update k.saHandler old prev else k.saHandler
  (if act ≠ 0 then [⟨.signals, signum⟩, ⟨.signals, signum⟩] else [⟨.signals, signum⟩],
    { k with procs := procs, saHandler := saHandler })

/-- `none` when it calls what lies behind the table. The other calls use none of the signal tables.
-/
def syscallHandler (k : Kernel) (regs : Regs) : List Access × Option Kernel :=
  let number : Access := ⟨.syscalls, regs.rax⟩
  match syscalls[regs.rax]? with
  | none => ([number], none)
  | some .kill =>
    let r := sysKill k (intArg regs.rdi) (intArg regs.rsi)
    (number :: r.1, some r.2)
  | some .sigaction =>
    let r := sysSigaction k (intArg regs.rdi) regs.rsi regs.rdx
    (number :: r.1, some r.2)
  | some _ => ([number], some k)

inductive Outcome where
  | enters (rip : ℕ)
  | nothing
  | killed (name : Option String)

section Handle

variable (near : ℤ → Option SigAct)

def sigactAt (signo : ℤ) : Option SigAct :=
  if 0 ≤ signo ∧ signo < sigcnt then sigacts[signo.toNat]? else near signo

def signalHandle (p : Proc) (sig : Signal) : List Access × Outcome :=
  if p.signals sig.signo ≠ 0 then ([⟨.signals, sig.signo⟩], .enters sig.handler)
  else
    match sigactAt near sig.signo with
    | some .term | some .stop =>
      ([⟨.signals, sig.signo⟩, ⟨.sigacts, sig.signo⟩, ⟨.sigstrs, sig.signo⟩],
        .killed sigstrs[sig.signo.toNat]?)
    | some .ign | none => ([⟨.signals, sig.signo⟩, ⟨.sigacts, sig.signo⟩], .nothing)

def schedule (k : Kernel) (next tid : ℕ) : List Access × Kernel :=
  let k := { k with curr := next }
  let p := k.procs next
  if tid = 0 then
    match p.sigstack with
    | [] => ([], k)
    | sig :: rest =>
      ((signalHandle near p sig).1,
        { k with procs := update k.procs next { p with sigstack := rest } })
  else ([], k)

inductive Event where
  | int80 (regs : Regs)
  | fault
  | schedules (next tid : ℕ)

def Event.exec (k : Kernel) : Event → List Access × Option Kernel
  | int80 regs => syscallHandler k regs
  | fault =>
    let r := signalSend k k.curr sigseg
    (r.1, some r.2)
  | schedules next tid =>
    let r := schedule near k next tid
    (r.1, some r.2)

def accesses : Kernel → List Event → List Access
  | _, [] => []
  | k, event :: events =>
    (event.exec near k).1 ++
      match (event.exec near k).2 with
      | none => []
      | some k => accesses k events

end Handle

def IsSignal (signo : ℤ) : Prop := 0 ≤ signo ∧ signo < sigcnt

instance (signo : ℤ) : Decidable (IsSignal signo) := inferInstanceAs (Decidable (_ ∧ _))

/-- A system call with its number in the table and signals that exist. -/
def Event.Valid : Event → Prop
  | int80 regs => regs.rax < 22 ∧ (regs.rax = 17 → IsSignal (intArg regs.rsi)) ∧
      (regs.rax = 19 → IsSignal (intArg regs.rdi))
  | fault => True
  | schedules _ _ => True

/-- Only signals that exist are queued. -/
def Queued (k : Kernel) : Prop := ∀ proc, ∀ sig ∈ (k.procs proc).sigstack, IsSignal sig.signo

variable {near : ℤ → Option SigAct} {k : Kernel}

theorem inRange_iff {t : Table} {signo : ℤ} (ht : t ≠ .syscalls) :
    (Access.mk t signo).InRange ↔ IsSignal signo := by
  cases t with
  | syscalls => exact absurd rfl ht
  | signals => exact Iff.rfl
  | sigacts => exact Iff.rfl
  | sigstrs => exact Iff.rfl

theorem sigseg_isSignal : IsSignal sigseg := by decide

theorem inRange_number {rax : ℕ} : (Access.mk .syscalls rax).InRange ↔ rax < 22 := by
  constructor
  · rintro ⟨-, hlt⟩
    exact Int.ofNat_lt.mp hlt
  · intro hlt
    exact ⟨Int.natCast_nonneg rax, Int.ofNat_lt.mpr hlt⟩

theorem syscalls_eq_some {no : Sysno} {n rax : ℕ} (hn : n < 22)
    (htable : ∀ m < 22, syscalls[m]? = some no ↔ m = n) :
    syscalls[rax]? = some no ↔ rax = n := by
  by_cases hlt : rax < 22
  · exact htable rax hlt
  · rw [List.getElem?_eq_none (Nat.le_of_not_lt hlt)]
    exact iff_of_false nofun fun heq => hlt (heq ▸ hn)

theorem syscalls_eq_kill {rax : ℕ} : syscalls[rax]? = some .kill ↔ rax = 17 :=
  syscalls_eq_some (by decide) (by decide)

theorem syscalls_eq_sigaction {rax : ℕ} : syscalls[rax]? = some .sigaction ↔ rax = 19 :=
  syscalls_eq_some (by decide) (by decide)

theorem syscalls_eq_none {rax : ℕ} : syscalls[rax]? = none ↔ ¬rax < 22 := by
  rw [List.getElem?_eq_none_iff, Nat.not_lt]
  rfl

theorem Queued.update {proc : ℕ} {p : Proc} (h : Queued k)
    (hp : ∀ sig ∈ p.sigstack, IsSignal sig.signo) :
    Queued { k with procs := update k.procs proc p } := by
  intro proc' sig hmem
  by_cases hproc : proc' = proc
  · have hself : Function.update k.procs proc p proc' = p := by rw [hproc, update_self]
    exact hp sig (hself ▸ hmem)
  · have hother : Function.update k.procs proc p proc' = k.procs proc' := update_of_ne hproc ..
    exact h proc' sig (hother ▸ hmem)

theorem Queued.signalSend {proc : ℕ} {signal : ℤ} (h : Queued k) (hsig : IsSignal signal) :
    Queued (signalSend k proc signal).2 := by
  refine h.update fun sig hmem => ?_
  rcases List.mem_append.mp hmem with hold | hnew
  · exact h proc sig hold
  · obtain rfl := List.mem_singleton.mp hnew
    exact hsig

theorem Queued.sysSigaction {signum : ℤ} {act old : ℕ} (h : Queued k) :
    Queued (sysSigaction k signum act old).2 := by
  show Queued { k with procs := if act ≠ 0 then Function.update k.procs k.curr _ else k.procs
                       saHandler := _ }
  by_cases hact : act ≠ 0
  · rw [if_pos hact]
    exact h.update (h k.curr)
  · rw [if_neg hact]
    exact h

theorem sysSigaction_inRange {signum : ℤ} {act old : ℕ} :
    (∀ a ∈ (sysSigaction k signum act old).1, a.InRange) ↔ IsSignal signum := by
  show (∀ a ∈ if act ≠ 0 then [Access.mk .signals signum, ⟨.signals, signum⟩]
    else [Access.mk .signals signum], a.InRange) ↔ _
  split <;> simp [inRange_iff]

theorem syscallHandler_inRange {regs : Regs} :
    (∀ a ∈ (syscallHandler k regs).1, a.InRange) ↔ (Event.int80 regs).Valid := by
  rw [syscallHandler, Event.Valid, ← inRange_number, ← syscalls_eq_kill, ← syscalls_eq_sigaction]
  cases hno : syscalls[regs.rax]? with
  | none =>
    have hout := mt inRange_number.mp (syscalls_eq_none.mp hno)
    simp [hout]
  | some no =>
    cases no with
    | kill => simp [sysKill, Signals.signalSend, inRange_iff]
    | sigaction => simp [sysSigaction_inRange]
    | _ => simp

theorem signalHandle_inRange {p : Proc} {sig : Signal} (hsig : IsSignal sig.signo) :
    ∀ a ∈ (signalHandle near p sig).1, a.InRange := by
  rw [signalHandle]
  split
  · simp [inRange_iff, hsig]
  · split <;> simp [inRange_iff, hsig]

theorem schedule_inRange {next tid : ℕ} (h : Queued k) :
    ∀ a ∈ (schedule near k next tid).1, a.InRange := by
  rw [schedule]
  split
  · split
    · simp
    · rename_i sig rest hstack
      refine signalHandle_inRange (h next sig ?_)
      rw [hstack]
      exact List.mem_cons_self
  · simp

theorem Queued.schedule {next tid : ℕ} (h : Queued k) : Queued (schedule near k next tid).2 := by
  rw [Signals.schedule]
  split
  · split
    · exact h
    · rename_i sig rest hstack
      refine Queued.update h fun sig' hmem => h next sig' ?_
      rw [hstack]
      exact List.mem_cons_of_mem sig hmem
  · exact h

theorem Event.exec_inRange {event : Event} (h : Queued k) :
    (∀ a ∈ (event.exec near k).1, a.InRange) ↔ event.Valid := by
  cases event with
  | int80 regs => exact syscallHandler_inRange
  | fault => exact iff_of_true (by simp [exec, signalSend, inRange_iff, sigseg_isSignal]) trivial
  | schedules next tid => exact iff_of_true (schedule_inRange h) trivial

theorem Queued.exec {event : Event} (h : Queued k) (hvalid : event.Valid) :
    ∃ k', (event.exec near k).2 = some k' ∧ Queued k' := by
  cases event with
  | int80 regs =>
    obtain ⟨hrax, hkill, -⟩ := hvalid
    rw [Event.exec, syscallHandler]
    cases hno : syscalls[regs.rax]? with
    | none => exact absurd hrax (syscalls_eq_none.mp hno)
    | some no =>
      cases no with
      | kill => exact ⟨_, rfl, h.signalSend (hkill (syscalls_eq_kill.mp hno))⟩
      | sigaction => exact ⟨_, rfl, h.sysSigaction⟩
      | _ => exact ⟨k, rfl, h⟩
  | fault => exact ⟨_, rfl, h.signalSend sigseg_isSignal⟩
  | schedules next tid => exact ⟨_, rfl, h.schedule⟩

/-- In a run from empty queues, or from queues of signals in range, every index is in range
exactly when every register content is. -/
theorem accesses_inRange_iff (h : Queued k) (events : List Event) :
    (∀ a ∈ accesses near k events, a.InRange) ↔ ∀ event ∈ events, event.Valid := by
  induction events generalizing k with
  | nil => simp [accesses]
  | cons event events ih =>
    rw [accesses, List.forall_mem_append, Event.exec_inRange h, List.forall_mem_cons]
    refine and_congr_right fun hvalid => ?_
    obtain ⟨k', hexec, h'⟩ := h.exec hvalid
    rw [hexec]
    exact ih h'

def quiet : Kernel :=
  { procs := fun _ => { signals := fun _ => 0, sigstack := [] }
    curr := 1
    saHandler := fun _ => 4096 }

theorem queued_quiet : Queued quiet := by
  intro proc sig hmem
  cases hmem

/-- A program installs a handler for `SIGABRT`, sends itself the signal, and it is handled. -/
theorem accesses_inRange_iff_quiet :
    (∀ a ∈ accesses (fun _ => none) quiet
      [.int80 ⟨19, 2, 8192, 0, 0, 0⟩, .int80 ⟨17, 1, 2, 0, 0, 0⟩, .schedules 1 0], a.InRange) ↔
      ∀ event ∈ [Event.int80 ⟨19, 2, 8192, 0, 0, 0⟩, .int80 ⟨17, 1, 2, 0, 0, 0⟩,
        .schedules 1 0], event.Valid :=
  accesses_inRange_iff queued_quiet _

/-- The number 22, and the signal 3 passed to `sys_kill` and to `sys_sigaction`. -/
theorem syscall_out_of_range :
    ¬(∀ a ∈ accesses (fun _ => none) quiet [.int80 ⟨22, 0, 0, 0, 0, 0⟩], a.InRange) ∧
      ¬(∀ a ∈ accesses (fun _ => none) quiet [.int80 ⟨17, 1, 3, 0, 0, 0⟩], a.InRange) ∧
      ¬∀ a ∈ accesses (fun _ => none) quiet [.int80 ⟨19, 3, 8192, 0, 0, 0⟩], a.InRange := by
  decide

end KernelOld.Signals
