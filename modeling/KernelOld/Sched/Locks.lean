import Mathlib.Logic.Relation
import KernelOld.Sched.Steps

/-!
# The locks of the CPUs

The sections of the scheduler with the locks around them. A flow of control is a thread, the code
that starts the system, or an interrupt; between two of its steps all others may take any number.
Which CPU a flow runs on is left open at every call of `cpu_getcurr`.
-/

namespace KernelOld.Sched
open Function Relation Scheduler

inductive Section
  | spawn (t : ℕ)
  | block (state : ThreadState)
  | unblock (t : ℕ)
  | sleep (timepoint : ℕ)
  | schedule

def Section.run (s : Scheduler) (c : ℕ) : Section → Option Scheduler
  | .spawn t => some (s.spawnOn c t)
  | .block state => Act.exec s (.block c state)
  | .unblock t => Act.exec s (.unblock c t)
  | .sleep timepoint => Act.exec s (.sleep c timepoint)
  | .schedule => s.schedule c

/-- The points of a flow of control at which others may go on. -/
inductive LockPc
  | out
  /-- In `acquire_lock(cpus[c].lock)`. -/
  | wait (c : ℕ) (todo : Section)
  | hold (c : ℕ) (todo : Section)
  /-- `kernel_proc` in `acquire_lock(cpus[i].lock)`. -/
  | sweepWait (i : ℕ)
  /-- `kernel_proc` before round `j` of the sweep over the threads of the CPU `i`. -/
  | sweep (i j : ℕ)
  /-- The sweep in `thread_spawn(t)`, in `acquire_lock(cpus[c].lock)`. -/
  | spawnWait (i j t c : ℕ)
  | spawnHold (i j t c : ℕ)

def LockPc.Holds : LockPc → ℕ → Prop
  | .hold c _, d => d = c
  | .sweep i _, d => d = i
  | .spawnWait i _ _ _, d => d = i
  | .spawnHold i _ _ c, d => d = i ∨ d = c
  | _, _ => False

def LockPc.Spins : LockPc → ℕ → Prop
  | .wait c _, d => d = c
  | .sweepWait i, d => d = i
  | .spawnWait _ _ _ c, d => d = c
  | _, _ => False

/-- The flow that holds each lock, and where each flow is. -/
structure Locked where
  sched : Scheduler
  lock : ℕ → Option ℕ
  pc : ℕ → LockPc

namespace Locked

variable (w : Locked)

def goto (f : ℕ) (pc : LockPc) : Locked := { w with pc := update w.pc f pc }

def acquire (c f : ℕ) : Locked := { w with lock := update w.lock c (some f) }

def release (c : ℕ) : Locked := { w with lock := update w.lock c none }

/-- A flow waits for a lock that it holds itself. -/
def SelfDeadlock : Prop := ∃ f c, (w.pc f).Spins c ∧ w.lock c = some f

end Locked

/-- One step of some flow of control. `admits` is about the sweep over the threads of a CPU that
finds one to wake. -/
inductive LockStep (admits : Scheduler → ℕ → Prop) : Locked → Locked → Prop
  /-- A call of `thread_spawn`, `thread_block`, `thread_unblock` or `thread_sleepuntil`. -/
  | call {w : Locked} {f c : ℕ} {todo : Section} (hpc : w.pc f = .out) (hsched : todo ≠ .schedule)
      (hspawn : ∀ t, todo = .spawn t → c = w.sched.leastLoaded) :
      LockStep admits w (w.goto f (.wait c todo))
  | acquire {w : Locked} {f c : ℕ} {todo : Section} (hpc : w.pc f = .wait c todo)
      (hfree : w.lock c = none) : LockStep admits w ((w.acquire c f).goto f (.hold c todo))
  /-- `schedule`, which returns if the lock is taken. -/
  | schedule {w : Locked} {f c : ℕ} (hpc : w.pc f = .out) (hfree : w.lock c = none) :
      LockStep admits w ((w.acquire c f).goto f (.hold c .schedule))
  | leave {w : Locked} {f c : ℕ} {todo : Section} {sched : Scheduler} (hpc : w.pc f = .hold c todo)
      (hsleep : ∀ timepoint, todo ≠ .sleep timepoint)
      (hrun : todo.run w.sched c = some sched) :
      LockStep admits w (({ w with sched }.release c).goto f .out)
  /-- `thread_sleepuntil` goes on to `thread_block`. -/
  | slept {w : Locked} {f c d timepoint : ℕ} {sched : Scheduler}
      (hpc : w.pc f = .hold c (.sleep timepoint))
      (hrun : (Section.sleep timepoint).run w.sched c = some sched) :
      LockStep admits w (({ w with sched }.release c).goto f (.wait d (.block .asleep)))
  | kernelProc {w : Locked} {f : ℕ} (hpc : w.pc f = .out) :
      LockStep admits w (w.goto f (.sweepWait 0))
  | sweepAcquire {w : Locked} {f i : ℕ} (hpc : w.pc f = .sweepWait i) (hfree : w.lock i = none) :
      LockStep admits w ((w.acquire i f).goto f (.sweep i 0))
  | reap {w : Locked} {f i j t : ℕ} (hpc : w.pc f = .sweep i j)
      (ht : (w.sched.cpu i).threads[j]? = some t) (hkilled : w.sched.state t = .killed) :
      LockStep admits w
        ({ w with sched := w.sched.setCpu i { w.sched.cpu i with
              threads := (w.sched.cpu i).threads.eraseIdx j } }.goto f (.sweep i (j + 1)))
  | skip {w : Locked} {f i j t : ℕ} (now : ℕ) (hpc : w.pc f = .sweep i j)
      (ht : (w.sched.cpu i).threads[j]? = some t) (hkilled : w.sched.state t ≠ .killed)
      (hsleeps : w.sched.state t = .asleep → now < (w.sched.thread t).sleepexp) :
      LockStep admits w (w.goto f (.sweep i (j + 1)))
  | wake {w : Locked} {f i j t : ℕ} (now : ℕ) (hpc : w.pc f = .sweep i j)
      (ht : (w.sched.cpu i).threads[j]? = some t) (hasleep : w.sched.state t = .asleep)
      (hexp : (w.sched.thread t).sleepexp ≤ now) (hadmits : admits w.sched i) :
      LockStep admits w ({ w with sched := w.sched.setState t .ready }.goto f
        (.spawnWait i j t (w.sched.setState t .ready).leastLoaded))
  | spawnAcquire {w : Locked} {f i j t c : ℕ} (hpc : w.pc f = .spawnWait i j t c)
      (hfree : w.lock c = none) :
      LockStep admits w ((w.acquire c f).goto f (.spawnHold i j t c))
  | spawnLeave {w : Locked} {f i j t c : ℕ} (hpc : w.pc f = .spawnHold i j t c) :
      LockStep admits w
        (({ w with sched := w.sched.spawnOn c t }.release c).goto f (.sweep i (j + 1)))
  | sweepLeave {w : Locked} {f i j : ℕ} (hpc : w.pc f = .sweep i j)
      (hend : (w.sched.cpu i).threads.length ≤ j) :
      LockStep admits w ((w.release i).goto f
        (.sweepWait (if i + 1 < w.sched.cpuCount then i + 1 else 0)))

def lockInit (s : Scheduler) : Locked := ⟨s, fun _ => none, fun _ => .out⟩

/-- There is a CPU with fewer threads. -/
def OtherLighter (s : Scheduler) (i : ℕ) : Prop := ∃ d < s.cpuCount, s.Lighter d i

variable {w w' : Locked} {f c : ℕ} {pc : LockPc}

structure Sound (w : Locked) : Prop where
  owner : ∀ c f, w.lock c = some f → (w.pc f).Holds c
  other : ∀ f i j t c, w.pc f = .spawnWait i j t c → c ≠ i

/-- One flow goes on; whatever it does with the locks, the others keep theirs. -/
theorem Sound.step {sched : Scheduler} {lock : ℕ → Option ℕ} (h : Sound w)
    (hothers : ∀ c g, g ≠ f → lock c = some g → w.lock c = some g)
    (hself : ∀ c, lock c = some f → pc.Holds c)
    (hother : ∀ i j t c, pc = .spawnWait i j t c → c ≠ i) :
    Sound ⟨sched, lock, update w.pc f pc⟩ := by
  constructor
  · intro c g hg
    show (update w.pc f pc g).Holds c
    rw [update_apply]
    split
    · rename_i hgf
      subst hgf
      exact hself c hg
    · rename_i hgf
      exact h.owner c g (hothers c g hgf hg)
  · intro g i j t c hg
    have hg : update w.pc f pc g = .spawnWait i j t c := hg
    rw [update_apply] at hg
    split at hg
    · exact hother i j t c hg
    · exact h.other g i j t c hg

theorem Sound.goto {sched : Scheduler} (h : Sound w) (hkeeps : ∀ c, (w.pc f).Holds c → pc.Holds c)
    (hother : ∀ i j t c, pc = .spawnWait i j t c → c ≠ i) :
    Sound ({ w with sched }.goto f pc) :=
  h.step (fun _ _ _ hg => hg) (fun c hc => hkeeps c (h.owner c f hc)) hother

/-- The flow `f` takes or gives back the lock of `c`. -/
theorem Sound.relock {sched : Scheduler} {owner : Option ℕ} (h : Sound w)
    (howner : ∀ g, owner = some g → g = f ∧ pc.Holds c)
    (hkeeps : ∀ d, d ≠ c → (w.pc f).Holds d → pc.Holds d)
    (hother : ∀ i j t c, pc ≠ .spawnWait i j t c) :
    Sound ⟨sched, update w.lock c owner, update w.pc f pc⟩ := by
  refine h.step (fun d g hgf hg => ?_) (fun d hd => ?_)
    fun i j t c hpc => absurd hpc (hother i j t c)
  · rw [update_apply] at hg
    split at hg
    · exact absurd (howner g hg).1 hgf
    · exact hg
  · rw [update_apply] at hd
    split at hd
    · rename_i hdc
      exact hdc ▸ (howner f hd).2
    · rename_i hdc
      exact hkeeps d hdc (h.owner d f hd)

theorem Sound.acquire (h : Sound w) (hkeeps : ∀ d, (w.pc f).Holds d → pc.Holds d)
    (hnew : pc.Holds c) (hother : ∀ i j t c, pc ≠ .spawnWait i j t c) :
    Sound ((w.acquire c f).goto f pc) :=
  h.relock (fun _ hg => ⟨(Option.some.inj hg).symm, hnew⟩) (fun d _ => hkeeps d) hother

theorem Sound.release {sched : Scheduler} (h : Sound w)
    (hkeeps : ∀ d, d ≠ c → (w.pc f).Holds d → pc.Holds d)
    (hother : ∀ i j t c, pc ≠ .spawnWait i j t c) :
    Sound (({ w with sched }.release c).goto f pc) :=
  h.relock (fun _ hg => absurd hg (Option.some_ne_none _).symm) hkeeps hother

theorem LockStep.sound (hstep : LockStep OtherLighter w w') (h : Sound w) : Sound w' := by
  cases hstep with
  | call hpc =>
    refine h.goto (fun d hd => ?_) (by simp)
    rw [hpc] at hd
    exact hd.elim
  | acquire hpc =>
    refine h.acquire (fun d hd => ?_) rfl (by simp)
    rw [hpc] at hd
    exact hd.elim
  | schedule hpc =>
    refine h.acquire (fun d hd => ?_) rfl (by simp)
    rw [hpc] at hd
    exact hd.elim
  | leave hpc =>
    refine h.release (fun d hdc hd => ?_) (by simp)
    rw [hpc] at hd
    exact hdc hd
  | slept hpc =>
    refine h.release (fun d hdc hd => ?_) (by simp)
    rw [hpc] at hd
    exact absurd hd hdc
  | kernelProc hpc =>
    refine h.goto (fun d hd => ?_) (by simp)
    rw [hpc] at hd
    exact hd.elim
  | sweepAcquire hpc =>
    refine h.acquire (fun d hd => ?_) rfl (by simp)
    rw [hpc] at hd
    exact hd.elim
  | reap hpc =>
    refine h.goto (fun d hd => ?_) (by simp)
    rw [hpc] at hd
    exact hd
  | skip now hpc =>
    refine h.goto (fun d hd => ?_) (by simp)
    rw [hpc] at hd
    exact hd
  | wake now hpc ht hasleep hexp hadmits =>
    refine h.goto (fun d hd => ?_) fun i j t c hspawn => ?_
    · rw [hpc] at hd
      exact hd
    · cases hspawn
      obtain ⟨d, hd, hlight⟩ := hadmits
      exact leastLoaded_ne hd hlight
  | spawnAcquire hpc =>
    refine h.acquire (fun d hd => ?_) (Or.inr rfl) (by simp)
    rw [hpc] at hd
    exact Or.inl hd
  | spawnLeave hpc =>
    refine h.release (fun d hdc hd => ?_) (by simp)
    rw [hpc] at hd
    exact hd.resolve_right hdc
  | sweepLeave hpc =>
    refine h.release (fun d hdc hd => ?_) (by simp)
    rw [hpc] at hd
    exact absurd hd hdc

theorem Sound.no_selfDeadlock (h : Sound w) : ¬w.SelfDeadlock := by
  rintro ⟨f, c, hspins, hlock⟩
  have hholds := h.owner c f hlock
  have hother := h.other f
  cases hpc : w.pc f with
  | spawnWait i j t d =>
    rw [hpc] at hspins hholds
    obtain rfl : c = d := hspins
    exact hother i j t c hpc hholds
  | wait | sweepWait =>
    rw [hpc] at hholds
    exact hholds.elim
  | out | hold | sweep | spawnHold =>
    rw [hpc] at hspins
    exact hspins.elim

/-- From any distribution of threads, in every run whose sweeps wake threads of a CPU only while
another CPU is preferred to it, no flow of control spins on a lock that it holds. -/
theorem no_self_deadlock {s : Scheduler}
    (hrun : ReflTransGen (LockStep OtherLighter) (lockInit s) w) : ¬w.SelfDeadlock := by
  have h : Sound w := by
    induction hrun with
    | refl => exact ⟨nofun, nofun⟩
    | tail _ hstep ih => exact hstep.sound ih
  exact h.no_selfDeadlock

def sleeper : Scheduler :=
  { smpInit 2 fun _ => 0 with
    cpu := fun c => if c = 0 then ⟨some 0, [0, 1], [], false⟩ else ⟨none, [], [], false⟩
    thread := fun t => ⟨0, if t = 0 then .running else .asleep, 5, 0⟩ }

theorem no_self_deadlock_sleeper :
    ∃ w, ReflTransGen (LockStep OtherLighter) (lockInit sleeper) w ∧
      (w.pc 0).Spins 1 ∧ (w.pc 0).Holds 0 ∧ ¬w.SelfDeadlock := by
  have hrun : ∃ w, ReflTransGen (LockStep OtherLighter) (lockInit sleeper) w ∧
      (w.pc 0).Spins 1 ∧ (w.pc 0).Holds 0 := by
    refine ⟨_, .tail (.tail (.tail (.tail .refl
      (.kernelProc (f := 0) rfl))
      (.sweepAcquire (f := 0) rfl rfl))
      (.skip (f := 0) (t := 0) 5 rfl rfl nofun nofun))
      (.wake (f := 0) (t := 1) 5 rfl rfl rfl (Nat.le_refl 5) ⟨1, by decide, Or.inl (by decide)⟩),
      rfl, rfl⟩
  obtain ⟨w, hrun, hspins, hholds⟩ := hrun
  exact ⟨w, hrun, hspins, hholds, no_self_deadlock hrun⟩

/-- One CPU with two threads. Thread 1 goes to sleep; the sweep of thread 0 wakes it, and
`thread_spawn` asks for the lock that the sweep holds. -/
theorem sweep_deadlocks :
    ∃ w, ReflTransGen (LockStep fun _ _ => True) (lockInit (smpInit 1 fun _ => 0)) w ∧
      w.pc 0 = .spawnWait 0 1 1 0 ∧ w.lock 0 = some 0 ∧ w.SelfDeadlock := by
  refine ⟨_, .tail (.tail (.tail (.tail (.tail (.tail (.tail (.tail (.tail (.tail (.tail (.tail
    (.tail (.tail (.tail (.tail (.tail (.tail (.tail (.tail (.tail .refl
    -- the flow 9 spawns the threads 0 and 1
    (.call (f := 9) (c := 0) rfl (nofun : Section.spawn 0 ≠ .schedule) fun _ _ => rfl))
    (.acquire (f := 9) rfl rfl))
    (.leave (f := 9) rfl nofun rfl))
    (.call (f := 9) (c := 0) rfl (nofun : Section.spawn 1 ≠ .schedule) fun _ _ => rfl))
    (.acquire (f := 9) rfl rfl))
    (.leave (f := 9) rfl nofun rfl))
    -- two interrupts, after which the CPU executes the thread 1
    (.schedule (f := 8) (c := 0) rfl rfl))
    (.leave (f := 8) rfl nofun rfl))
    (.schedule (f := 8) (c := 0) rfl rfl))
    (.leave (f := 8) rfl nofun rfl))
    -- the thread 1 goes to sleep
    (.call (f := 1) (c := 0) rfl (nofun : Section.sleep 5 ≠ .schedule) nofun))
    (.acquire (f := 1) rfl rfl))
    (.slept (f := 1) (d := 0) rfl rfl))
    (.acquire (f := 1) rfl rfl))
    (.leave (f := 1) rfl nofun rfl))
    (.schedule (f := 1) (c := 0) rfl rfl))
    (.leave (f := 1) rfl nofun rfl))
    -- the thread 0 runs the sweep
    (.kernelProc (f := 0) rfl))
    (.sweepAcquire (f := 0) rfl rfl))
    (.skip (f := 0) (t := 0) 5 rfl rfl nofun nofun))
    (.wake (f := 0) (t := 1) 5 rfl rfl rfl (Nat.le_refl 5) trivial), rfl, rfl, 0, 0, rfl, rfl⟩

end KernelOld.Sched
