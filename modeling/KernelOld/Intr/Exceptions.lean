import Mathlib.Data.List.Induction
import Mathlib.Data.List.Perm.Basic

/-!
# Exceptions

`isr_handler` of `intr/idt.c` and the handlers of `intr/isr.c`, as far as they decide how an
exception ends. `nestisr` is meant to count the exceptions that were entered and not left, over
all CPUs, but nothing takes it down again.
-/

namespace KernelOld.Exceptions
open List

structure Exception where
  cpu : ℕ
  num : ℕ
  ss : ℕ
  deriving DecidableEq

inductive Outcome
  /-- `panic`, which loops. -/
  | panic (msg : String)
  /-- The fault is the kernel's: the other CPUs are sent `IPI_HALT`, and this one loops. -/
  | halt (err : String)
  /-- `sched_kill` of the current process. -/
  | kill (err : String)
  /-- `signal_send` of `SIGSEG` to the current process. -/
  | signal
  /-- A line is printed, and the handler returns. -/
  | resume (msg : String)
  deriving DecidableEq

/-- A CPU that loops takes no further exception and leaves none. -/
def Outcome.loops : Outcome → Bool
  | .panic _ => true
  | .halt _ => true
  | _ => false

def genericIsr (err : String) (ss : ℕ) : Outcome :=
  if ss &&& 3 ≠ 0 then .kill err else .halt err

def pagefaultHandler (ss : ℕ) : Outcome :=
  if ss &&& 3 ≠ 0 then .signal else .halt "Page fault\n"

def generalProtectionFaultHandler (ss : ℕ) : Outcome :=
  if ss &&& 3 ≠ 0 then .signal else .halt "General protection fault\n"

def dispatch (num ss : ℕ) : Outcome :=
  match num with
  | 0 => genericIsr "Divide by zero error" ss
  | 1 => .resume "Debug\n"
  | 2 => genericIsr "Non-maskable interrupt" ss
  | 3 => .resume "Breakpoint\n"
  | 4 => genericIsr "Overflow error" ss
  | 5 => genericIsr "Bound range exceeded" ss
  | 6 => genericIsr "Invalid opcode" ss
  | 7 => genericIsr "Device not available" ss
  | 8 => genericIsr "Double fault" ss
  | 9 => genericIsr "Coprocessor segment overrun" ss
  | 10 => genericIsr "Invalid TSS" ss
  | 11 => genericIsr "Segment not present" ss
  | 12 => genericIsr "Stack-segment fault" ss
  | 13 => generalProtectionFaultHandler ss
  | 14 => pagefaultHandler ss
  | 16 => genericIsr "x87 Floating-point exception" ss
  | 17 => genericIsr "Alignment check" ss
  | 18 => genericIsr "Machine check" ss
  | 19 => genericIsr "SIMD Floating-point exception" ss
  | 20 => genericIsr "Virtualization exception" ss
  | 30 => genericIsr "Security exception" ss
  | _ => genericIsr "An error with unknown error code has occurred." ss

def isrHandler (nestisr : ℕ) (e : Exception) : ℕ × Outcome :=
  (nestisr + 1,
    if 5 < nestisr then .panic "Maximum nested exceptions reached" else dispatch e.num e.ss)

/-! ## Runs -/

/-- The counter, and the handlers that have not returned. -/
structure Nest where
  nestisr : ℕ
  active : List (Exception × Outcome)

inductive Step
  | enter (e : Exception)
  | leave (x : Exception × Outcome)

def Step.exec (s : Nest) : Step → Nest
  | .enter e =>
    { nestisr := (isrHandler s.nestisr e).1
      active := (e, (isrHandler s.nestisr e).2) :: s.active }
  | .leave x => { s with active := s.active.erase x }

/-- An exception may come on any CPU that does not loop, also inside a handler; handlers are left in
any order. -/
def Step.Allowed (cpuCount : ℕ) (s : Nest) : Step → Prop
  | .enter e => e.cpu < cpuCount ∧ ∀ x ∈ s.active, x.1.cpu = e.cpu → x.2.loops = false
  | .leave x => x ∈ s.active ∧ x.2.loops = false

def run (steps : List Step) : Nest := steps.foldl Step.exec ⟨0, []⟩

/-- Each step is one that can follow the steps before it. -/
inductive Legal (cpuCount : ℕ) : List Step → Prop
  | nil : Legal cpuCount []
  | concat {steps : List Step} {step : Step} (h : Legal cpuCount steps)
      (hallowed : step.Allowed cpuCount (run steps)) : Legal cpuCount (steps ++ [step])

def Step.isEnter : Step → Bool
  | .enter _ => true
  | .leave _ => false

def entered (steps : List Step) : ℕ := steps.countP Step.isEnter

def left (steps : List Step) : ℕ := steps.countP fun step => !step.isEnter

def Panics (s : Nest) (e : Exception) : Prop :=
  (isrHandler s.nestisr e).2 = .panic "Maximum nested exceptions reached"

/-- Whenever an exception of the run panics, more than five are entered and not left. -/
def Justified (steps : List Step) : Prop :=
  ∀ pre e post, steps = pre ++ .enter e :: post → Panics (run pre) e →
    5 < (run (pre ++ [.enter e])).active.length

variable {cpuCount num ss : ℕ} {steps pre post : List Step} {step : Step} {s : Nest}
  {e : Exception}

/-! ## One exception -/

theorem dispatch_ne_panic (num ss : ℕ) (msg : String) : dispatch num ss ≠ .panic msg := by
  unfold dispatch genericIsr pagefaultHandler generalProtectionFaultHandler
  split <;> first
    | (split <;> nofun)
    | nofun

theorem dispatch_loops (hss : ss &&& 3 ≠ 0) : (dispatch num ss).loops = false := by
  unfold dispatch genericIsr pagefaultHandler generalProtectionFaultHandler
  split <;> first
    | (rw [if_pos hss]; rfl)
    | rfl

theorem panics_iff : Panics s e ↔ 5 < s.nestisr := by
  rw [Panics, isrHandler]
  by_cases hlt : 5 < s.nestisr
  · rw [if_pos hlt]
    exact iff_of_true rfl hlt
  · rw [if_neg hlt]
    exact iff_of_false (dispatch_ne_panic _ _ _) hlt

/-! ## What the counter counts -/

theorem run_concat (steps : List Step) (step : Step) :
    run (steps ++ [step]) = step.exec (run steps) := by
  rw [run, foldl_append]
  rfl

theorem entered_concat (steps : List Step) (step : Step) :
    entered (steps ++ [step]) = entered steps + if step.isEnter then 1 else 0 := by
  rw [entered, countP_append, countP_singleton]
  rfl

theorem left_concat (steps : List Step) (step : Step) :
    left (steps ++ [step]) = left steps + if step.isEnter then 0 else 1 := by
  rw [left, countP_append, countP_singleton]
  cases step <;> rfl

theorem run_nestisr (steps : List Step) : (run steps).nestisr = entered steps := by
  induction steps using List.reverseRecOn with
  | nil => rfl
  | append_singleton steps step ih =>
    rw [run_concat, entered_concat, ← ih]
    cases step <;> rfl

theorem Legal.length_active (h : Legal cpuCount steps) :
    (run steps).active.length + left steps = entered steps := by
  induction h with
  | nil => rfl
  | @concat steps step _ hallowed ih =>
    rw [run_concat, entered_concat, left_concat]
    cases step with
    | enter e =>
      show ((run steps).active.length + 1) + left steps = entered steps + 1
      omega
    | leave x =>
      obtain ⟨hmem, -⟩ := hallowed
      have hpos := length_pos_of_mem hmem
      have herase := length_erase_of_mem hmem
      show ((run steps).active.erase x).length + (left steps + 1) = entered steps
      omega

theorem Legal.of_append (h : Legal cpuCount (pre ++ post)) : Legal cpuCount pre := by
  induction post using List.reverseRecOn with
  | nil => rwa [append_nil] at h
  | append_singleton post step ih =>
    apply ih
    rw [← append_assoc] at h
    generalize hsteps : pre ++ post ++ [step] = steps at h
    cases h with
    | nil => exact absurd hsteps (append_ne_nil_of_right_ne_nil _ (cons_ne_nil _ _))
    | concat hlegal _ =>
      obtain ⟨rfl, -⟩ := append_inj' hsteps rfl
      exact hlegal

/-- The exceptions that loop are on different CPUs. They are all but the first six. -/
structure Stuck (cpuCount : ℕ) (s : Nest) : Prop where
  nodup : ((s.active.filter (·.2.loops)).map (·.1.cpu)).Nodup
  cpu_lt : ∀ x ∈ s.active, x.1.cpu < cpuCount
  le : s.nestisr ≤ 6 + (s.active.filter (·.2.loops)).length

theorem Stuck.enter (h : Stuck cpuCount s) (hallowed : (Step.enter e).Allowed cpuCount s) :
    Stuck cpuCount ((Step.enter e).exec s) := by
  obtain ⟨hcpu, hfree⟩ := hallowed
  have hle := h.le
  set outcome := (isrHandler s.nestisr e).2 with houtcome
  have hlt : ∀ x ∈ (e, outcome) :: s.active, x.1.cpu < cpuCount := by
    rintro x (_ | ⟨_, hx⟩)
    · exact hcpu
    · exact h.cpu_lt x hx
  cases hloops : outcome.loops with
  | true =>
    have hfilter : ((e, outcome) :: s.active).filter (·.2.loops) =
        (e, outcome) :: s.active.filter (·.2.loops) := filter_cons_of_pos hloops
    refine ⟨?_, hlt, ?_⟩
    · show ((((e, outcome) :: s.active).filter (·.2.loops)).map (·.1.cpu)).Nodup
      rw [hfilter]
      refine nodup_cons.mpr ⟨fun hmem => ?_, h.nodup⟩
      obtain ⟨x, hx, hcpux⟩ := mem_map.mp hmem
      obtain ⟨hmemx, hloopsx⟩ := mem_filter.mp hx
      rw [hfree x hmemx hcpux] at hloopsx
      cases hloopsx
    · show s.nestisr + 1 ≤ 6 + (((e, outcome) :: s.active).filter (·.2.loops)).length
      rw [hfilter, length_cons]
      omega
  | false =>
    have hfilter : ((e, outcome) :: s.active).filter (·.2.loops) =
        s.active.filter (·.2.loops) := filter_cons_of_neg (by simp [hloops])
    -- a panic loops, so this is one of the first six
    have hsix : ¬5 < s.nestisr := by
      intro hlt
      rw [isrHandler, if_pos hlt] at houtcome
      rw [houtcome] at hloops
      cases hloops
    refine ⟨?_, hlt, ?_⟩
    · show ((((e, outcome) :: s.active).filter (·.2.loops)).map (·.1.cpu)).Nodup
      rw [hfilter]
      exact h.nodup
    · show s.nestisr + 1 ≤ _
      omega

theorem Stuck.leave {x : Exception × Outcome} (h : Stuck cpuCount s)
    (hallowed : (Step.leave x).Allowed cpuCount s) : Stuck cpuCount ((Step.leave x).exec s) := by
  obtain ⟨hmem, hloops⟩ := hallowed
  have hperm : (s.active.filter (·.2.loops)).Perm ((s.active.erase x).filter (·.2.loops)) := by
    have hfilter := (perm_cons_erase hmem).filter (·.2.loops)
    rwa [filter_cons_of_neg (by simp [hloops])] at hfilter
  refine ⟨?_, fun y hy => h.cpu_lt y (mem_of_mem_erase hy), ?_⟩
  · exact (hperm.map _).nodup_iff.mp h.nodup
  · show s.nestisr ≤ 6 + ((s.active.erase x).filter (·.2.loops)).length
    rw [← hperm.length_eq]
    exact h.le

theorem Legal.stuck (h : Legal cpuCount steps) : Stuck cpuCount (run steps) := by
  induction h with
  | nil => exact ⟨nodup_nil, nofun, Nat.zero_le _⟩
  | @concat steps step _ hallowed ih =>
    rw [run_concat]
    cases step with
    | enter e => exact ih.enter hallowed
    | leave x => exact ih.leave hallowed

/-- After six exceptions there is at most one more for each CPU, so `nestisr` never overflows. -/
theorem Legal.nestisr_le (h : Legal cpuCount steps) : (run steps).nestisr ≤ 6 + cpuCount := by
  have hstuck := h.stuck
  have hsub : (((run steps).active.filter (·.2.loops)).map (·.1.cpu)) ⊆ List.range cpuCount := by
    intro cpu hcpu
    obtain ⟨x, hx, rfl⟩ := mem_map.mp hcpu
    exact mem_range.mpr (hstuck.cpu_lt x (mem_filter.mp hx).1)
  have hlen := (subperm_of_subset hstuck.nodup hsub).length_le
  rw [length_map, length_range] at hlen
  exact Nat.le_trans hstuck.le (Nat.add_le_add_left hlen 6)

/-- A fault of the kernel on each of two CPUs. -/
theorem nestisr_le_faults :
    Legal 2 [.enter ⟨0, 0, 0⟩, .enter ⟨1, 0, 0⟩] ∧
      (run [.enter ⟨0, 0, 0⟩, .enter ⟨1, 0, 0⟩]).nestisr ≤ 6 + 2 := by
  have hfirst : Legal 2 [.enter ⟨0, 0, 0⟩] := .concat .nil ⟨by decide, by decide⟩
  have hlegal : Legal 2 [.enter ⟨0, 0, 0⟩, .enter ⟨1, 0, 0⟩] :=
    hfirst.concat ⟨by decide, by decide⟩
  exact ⟨hlegal, hlegal.nestisr_le⟩

/-- The panics of a run are justified only as long as hardly anything is left: when a seventh or
later exception is entered, all but five of those before it must still be there. -/
theorem justified_iff (cpuCount : ℕ) (steps : List Step) (h : Legal cpuCount steps) :
    Justified steps ↔ ∀ pre e post, steps = pre ++ .enter e :: post → 5 < entered pre →
      left pre + 5 ≤ entered pre := by
  have hcount : ∀ pre e post, steps = pre ++ .enter e :: post →
      (run (pre ++ [.enter e])).active.length + left pre = entered pre + 1 := by
    rintro pre e post rfl
    have hlen := h.of_append.length_active
    rw [run_concat]
    show ((run pre).active.length + 1) + left pre = entered pre + 1
    omega
  constructor
  · intro hjust pre e post hsteps hlt
    have hpanics : Panics (run pre) e := panics_iff.mpr (by rwa [run_nestisr])
    have hlen := hjust pre e post hsteps hpanics
    have hactive := hcount pre e post hsteps
    omega
  · intro hleft pre e post hsteps hpanics
    rw [panics_iff, run_nestisr] at hpanics
    have hle := hleft pre e post hsteps hpanics
    have hactive := hcount pre e post hsteps
    omega

/-! ## Exceptions one after the other -/

def oneByOne (es : List Exception) : List Step :=
  es.flatMap fun e => [.enter e, .leave (e, dispatch e.num e.ss)]

theorem run_oneByOne (es : List Exception) (hlen : es.length ≤ 6)
    (hcpu : ∀ e ∈ es, e.cpu < cpuCount) (huser : ∀ e ∈ es, e.ss &&& 3 ≠ 0) :
    Legal cpuCount (oneByOne es) ∧ run (oneByOne es) = ⟨es.length, []⟩ := by
  induction es using List.reverseRecOn with
  | nil => exact ⟨.nil, rfl⟩
  | append_singleton es e ih =>
    rw [length_append, length_singleton] at hlen
    obtain ⟨hlegal, hrun⟩ := ih (by omega) (fun x hx => hcpu x (mem_append_left _ hx))
      (fun x hx => huser x (mem_append_left _ hx))
    have he : e ∈ es ++ [e] := mem_append_right es (mem_singleton.mpr rfl)
    have hsteps : oneByOne (es ++ [e]) =
        oneByOne es ++ [.enter e] ++ [.leave (e, dispatch e.num e.ss)] := by
      simp [oneByOne]
    have hhandled : (isrHandler es.length e).2 = dispatch e.num e.ss := if_neg (by omega)
    have henter : run (oneByOne es ++ [.enter e]) =
        ⟨es.length + 1, [(e, dispatch e.num e.ss)]⟩ := by
      rw [run_concat, hrun, Step.exec, hhandled]
      rfl
    rw [hsteps]
    refine ⟨.concat (.concat hlegal ?_) ?_, ?_⟩
    · rw [hrun]
      exact ⟨hcpu e he, nofun⟩
    · rw [henter]
      exact ⟨mem_singleton.mpr rfl, dispatch_loops (huser e he)⟩
    · rw [run_concat, henter, Step.exec, erase_cons_head, length_append]
      rfl

/-- Any six exceptions in user mode, one after the other, make the next one panic, while no
other is there. -/
theorem panics_after_six (es : List Exception) (hlen : es.length = 6)
    (hcpu : ∀ e ∈ es, e.cpu < cpuCount)
    (huser : ∀ e ∈ es, e.ss &&& 3 ≠ 0) (e : Exception) :
    Legal cpuCount (oneByOne es) ∧ (run (oneByOne es)).active = [] ∧
      Panics (run (oneByOne es)) e := by
  obtain ⟨hlegal, hrun⟩ := run_oneByOne es (Nat.le_of_eq hlen) hcpu huser
  rw [hrun, panics_iff]
  refine ⟨hlegal, rfl, ?_⟩
  show 5 < es.length
  omega

def userFault : Exception := { cpu := 0, num := 14, ss := 0x23 }

def sixFaults : List Exception := List.replicate 6 userFault

theorem justified_iff_faults : Legal 1 (oneByOne sixFaults) ∧ Justified (oneByOne sixFaults) := by
  have hlegal : Legal 1 (oneByOne sixFaults) :=
    (run_oneByOne sixFaults (by decide) (by decide) (by decide)).1
  refine ⟨hlegal, (justified_iff 1 _ hlegal).mpr fun pre e post hsteps hlt => ?_⟩
  -- six exceptions have no seventh
  have hsix : entered (oneByOne sixFaults) = 6 := by decide
  rw [hsteps, entered, countP_append, countP_cons_of_pos rfl] at hsix
  rw [entered] at hlt
  omega

/-- Seven page faults in user mode, one after the other, panic the kernel. -/
theorem seventh_fault_panics :
    Legal 1 (oneByOne sixFaults ++ [.enter userFault]) ∧
      Panics (run (oneByOne sixFaults)) userFault ∧
      (run (oneByOne sixFaults ++ [.enter userFault])).active.length = 1 ∧
      ¬Justified (oneByOne sixFaults ++ [.enter userFault]) := by
  obtain ⟨hlegal, hactive, hpanics⟩ : Legal 1 _ ∧ _ :=
    panics_after_six sixFaults rfl (by decide) (by decide) userFault
  have hone : (run (oneByOne sixFaults ++ [.enter userFault])).active.length = 1 := by
    rw [run_concat, Step.exec, hactive]
    rfl
  refine ⟨.concat hlegal ⟨by decide, ?_⟩, hpanics, hone, fun hjust => ?_⟩
  · rw [hactive]
    exact nofun
  · have hlt := hjust _ userFault [] rfl hpanics
    rw [hone] at hlt
    omega

end KernelOld.Exceptions
