import Mathlib.Logic.Relation
import KernelOld.Sched.Steps

/-!
# CPUs that have run out of threads

`schedule` on a CPU without a thread to switch to ends in a loop with interrupts disabled, unlike
the loops of `sched_start` and `smp_entry`, which enable them first. `thread_spawn` does not know
of such CPUs, and they have the fewest threads.
-/

namespace KernelOld.Sched
open Function Relation Scheduler

/-- No thread waits at a CPU that is dead. -/
def NothingParked (s : Scheduler) : Prop :=
  ∀ c < s.cpuCount, (s.cpu c).dead = true → (s.cpu c).runQueue = []

/-- Every CPU that has stopped is passed over by `thread_spawn`, for one that still runs. -/
def SpareCpu (s : Scheduler) : Prop :=
  ∀ c < s.cpuCount, (s.cpu c).dead = true →
    ∃ d < s.cpuCount, (s.cpu d).dead = false ∧ s.Lighter d c

/-- Threads are spawned only with such a CPU at hand; nothing is woken by the sweep. -/
def SpawnsAlive (s : Scheduler) : Act → Prop
  | .spawnProc _ => SpareCpu s
  | .createThread _ => SpareCpu s
  | .sweep .. => False
  | _ => True

variable {s s' : Scheduler} {a : Act} {c t : ℕ}

theorem SpareCpu.leastLoaded_alive (h : SpareCpu s) (hn : 0 < s.cpuCount) :
    (s.cpu s.leastLoaded).dead = false := by
  by_contra hdead
  obtain ⟨d, hd, -, hlight⟩ := h _ (leastLoaded_lt hn) (eq_true_of_ne_false hdead)
  exact leastLoaded_ne hd hlight rfl

theorem NothingParked.setCpu {cpu : Cpu} (h : NothingParked s) (hcpu : cpu.dead = true →
    cpu.runQueue = []) : NothingParked (s.setCpu c cpu) := by
  intro d hd hdead
  by_cases hdc : d = c
  · subst hdc
    have hself : (s.setCpu d cpu).cpu d = cpu := update_self ..
    rw [hself] at hdead ⊢
    exact hcpu hdead
  · have hother : (s.setCpu c cpu).cpu d = s.cpu d := update_of_ne hdc _ _
    rw [hother] at hdead ⊢
    exact h d hd hdead

theorem NothingParked.congr (h : NothingParked s) (hcount : s'.cpuCount = s.cpuCount)
    (hcpu : s'.cpu = s.cpu) : NothingParked s' := by
  intro c hc
  rw [hcpu]
  exact h c (hcount ▸ hc)

theorem NothingParked.threadSpawn (h : NothingParked s)
    (halive : (s.cpu s.leastLoaded).dead = false) : NothingParked (s.threadSpawn t) := by
  refine h.setCpu fun hdead => ?_
  have : (s.cpu s.leastLoaded).dead = true := hdead
  rw [halive] at this
  cases this

theorem NothingParked.spawnNew (h : NothingParked s) (hspare : SpareCpu s) (hn : 0 < s.cpuCount)
    (hcount : s'.cpuCount = s.cpuCount) (hcpu : s'.cpu = s.cpu) :
    NothingParked (s'.threadSpawn t) := by
  have hspare' : SpareCpu s' := by
    intro c hc hdead
    simp only [Lighter, hcount, hcpu] at hc hdead ⊢
    exact hspare c hc hdead
  exact (h.congr hcount hcpu).threadSpawn (hspare'.leastLoaded_alive (hcount ▸ hn))

theorem NothingParked.schedule (h : NothingParked s) (hsched : s.schedule c = some s') :
    NothingParked s' := by
  obtain ⟨halive, ⟨hempty, rfl⟩ | ⟨t, runQueue, hsw⟩⟩ := schedule_cases hsched
  · exact h.setCpu fun _ => (List.append_eq_nil_iff.mp hempty).1
  · refine NothingParked.congr (h.setCpu (c := c) fun hdead => ?_) hsw.cpuCount_eq hsw.cpu_eq
    have : (s.cpu c).dead = true := hdead
    rw [halive.2] at this
    cases this

theorem NothingParked.exec (h : NothingParked s) (hadmits : SpawnsAlive s a)
    (hexec : a.exec s = some s') : NothingParked s' := by
  cases a with
  | schedule c => exact h.schedule hexec
  | spawnProc c =>
    obtain ⟨halive, hs'⟩ := Option.ite_none_right_eq_some.mp hexec
    cases hs'
    exact h.spawnNew hadmits halive.pos rfl rfl
  | createThread c =>
    obtain ⟨curr, hcurr, hs'⟩ := Option.bind_eq_some_iff.mp hexec
    cases hs'
    exact h.spawnNew hadmits (current_eq_some.mp hcurr).1.pos rfl rfl
  | unblock c t =>
    obtain ⟨halive, hs'⟩ := Option.ite_none_right_eq_some.mp hexec
    cases hs'
    refine NothingParked.setCpu (s := s.setState t .running) h fun hdead => ?_
    have : (s.cpu c).dead = true := hdead
    rw [halive.2] at this
    cases this
  | sweep c i now => exact hadmits.elim
  | block | sleep | semAcquire | semRelease | threadKill | schedKill | sysKillThread | signalSend
  | sigaction =>
    obtain ⟨hcount, hcpu, -⟩ := Act.KeepsCpus.exec (by exact trivial) hexec
    exact h.congr hcount hcpu

/-- In every run that spawns threads only while `thread_spawn` passes over the CPUs that have
stopped, no thread is parked on such a CPU. -/
theorem nothing_parked {n : ℕ} {maxCnt : ℕ → ℕ}
    (hrun : ReflTransGen (Step SpawnsAlive) (smpInit n maxCnt) s) : NothingParked s := by
  induction hrun with
  | refl => exact fun _ _ _ => rfl
  | tail _ hstep ih =>
    cases hstep with
    | act hadmits hexec => exact ih.exec hadmits hexec

/-- A CPU stops after its only thread has blocked. -/
theorem nothing_parked_one :
    ∃ s, ReflTransGen (Step SpawnsAlive) (smpInit 1 fun _ => 0) s ∧ (s.cpu 0).dead = true ∧
      NothingParked s := by
  have hrun : ∃ s, ReflTransGen (Step SpawnsAlive) (smpInit 1 fun _ => 0) s ∧
      (s.cpu 0).dead = true := by
    refine ⟨_, .tail (.tail (.tail (.tail .refl
      (.act (a := .spawnProc 0) (fun c _ hdead => ?_) rfl))
      (.act (a := .schedule 0) trivial rfl))
      (.act (a := .block 0 .waitLock) trivial rfl))
      (.act (a := .schedule 0) trivial rfl), rfl⟩
    cases hdead
  obtain ⟨s, hrun, hdead⟩ := hrun
  exact ⟨s, hrun, hdead, nothing_parked hrun⟩

/-- Three CPUs with `kernel_proc` and `init`: the third CPU stops at the first tick, and the first
thread that `init` makes is parked there. -/
theorem parked_on_third_cpu :
    ∃ s, ReflTransGen (Step fun _ _ => True) (smpInit 3 fun _ => 0) s ∧
      (s.cpu 2).dead = true ∧ (s.cpu 2).runQueue = [2] ∧ ¬NothingParked s := by
  refine ⟨_, .tail (.tail (.tail (.tail (.tail (.tail .refl
    (.act (a := .spawnProc 0) trivial rfl))
    (.act (a := .spawnProc 0) trivial rfl))
    (.act (a := .schedule 0) trivial rfl))
    (.act (a := .schedule 1) trivial rfl))
    (.act (a := .schedule 2) trivial rfl))
    (.act (a := .createThread 1) trivial rfl), rfl, rfl, fun h => ?_⟩
  have hempty := h 2 (by decide) rfl
  cases hempty

end KernelOld.Sched
