import KernelOld.Sched.Semaphore
import KernelOld.Sched.Sweep

/-!
# Spawning and balance

`thread_spawn` with the lists of the CPUs in memory does what `Scheduler.threadSpawn` does. It
prefers the earlier of two CPUs, so the lists are in order, and in this order they differ by at most
one thread (`Level`).
-/

namespace KernelOld.Sched
open LinkedList Function Scheduler List

/-! ## The lists in memory -/

structure Lists where
  cpuCount : ℕ
  threads : ℕ → ListT ℕ
  runQueue : ℕ → ListT ℕ

namespace Lists

variable (l : Lists)

def leastOf : ℕ → ℕ
  | 0 => 0
  | k + 1 => if (l.threads (k + 1)).cnt < (l.threads (leastOf k)).cnt then k + 1 else leastOf k

def threadSpawn (t node node' : ℕ) : Option Lists := do
  let cpu := l.leastOf (l.cpuCount - 1)
  let threads ← listPushBackLive (l.threads cpu) t node
  let runQueue ← listPushBackLive (l.runQueue cpu) t node'
  some { l with
    threads := update l.threads cpu threads
    runQueue := update l.runQueue cpu runQueue }

end Lists

/-- The lists in memory hold the threads of the scheduler, CPU by CPU. -/
structure Shows (heap : ℕ) (l : Lists) (s : Scheduler) : Prop where
  cpuCount_eq : l.cpuCount = s.cpuCount
  threads : ∀ c, Waits heap (l.threads c) (s.cpu c).threads
  runQueue : ∀ c, Waits heap (l.runQueue c) (s.cpu c).runQueue

variable {heap n t c d : ℕ} {l : Lists} {s s' : Scheduler} {a : Act}

theorem Waits.cnt_eq {list : ListT ℕ} {ts : List ℕ} (h : Waits heap list ts) :
    list.cnt = ts.length := by
  obtain ⟨as, howns, -⟩ := h
  rw [howns.cnt_eq, howns.length_eq]

theorem Shows.leastOf_eq (h : Shows heap l s) (k : ℕ) : l.leastOf k = s.leastOf k := by
  induction k with
  | zero => rfl
  | succ k ih =>
    rw [Lists.leastOf, Scheduler.leastOf, ih, (h.threads _).cnt_eq, (h.threads _).cnt_eq]

theorem shows_smpInit (heap n : ℕ) (maxCnt : ℕ → ℕ) :
    Shows heap ⟨n, fun _ => listCreate, fun _ => listCreate⟩ (smpInit n maxCnt) :=
  ⟨rfl, fun _ => waits_listCreate heap, fun _ => waits_listCreate heap⟩

/-- `thread_spawn` with the lists in memory does what it does with sequences. -/
theorem Lists.threadSpawn_refines (h : Shows heap l s) {node node' : ℕ}
    (hnode : ∀ c, Fresh heap (l.threads c) node) (hnode' : ∀ c, Fresh heap (l.runQueue c) node')
    (t : ℕ) :
    ∃ l', l.threadSpawn t node node' = some l' ∧ Shows heap l' (s.threadSpawn t) := by
  have hcpu : l.leastOf (l.cpuCount - 1) = s.leastLoaded := by
    rw [h.leastOf_eq, h.cpuCount_eq, leastLoaded]
  obtain ⟨threads, hpush, hthreads⟩ := (h.threads s.leastLoaded).pushBack (hnode _) t
  obtain ⟨runQueue, hpush', hqueue⟩ := (h.runQueue s.leastLoaded).pushBack (hnode' _) t
  rw [Lists.threadSpawn, hcpu, hpush]
  dsimp only [Option.bind_eq_bind, Option.bind_some]
  rw [hpush']
  refine ⟨_, rfl, h.cpuCount_eq, fun c => ?_, fun c => ?_⟩
  · show Waits heap (update l.threads _ threads c) (update s.cpu _ _ c).threads
    by_cases hc : c = s.leastLoaded
    · rw [hc, update_self, update_self]
      exact hthreads
    · rw [update_of_ne hc, update_of_ne hc]
      exact h.threads c
  · show Waits heap (update l.runQueue _ runQueue c) (update s.cpu _ _ c).runQueue
    by_cases hc : c = s.leastLoaded
    · rw [hc, update_self, update_self]
      exact hqueue
    · rw [update_of_ne hc, update_of_ne hc]
      exact h.runQueue c

/-- The first thread after `smp_init`. -/
theorem threadSpawn_refines_first :
    ∃ l', (⟨2, fun _ => listCreate, fun _ => listCreate⟩ : Lists).threadSpawn 7 16 32 = some l' ∧
      Shows 16 l' ((smpInit 2 fun _ => 1).threadSpawn 7) :=
  Lists.threadSpawn_refines (shows_smpInit 16 2 fun _ => 1)
    (fun _ => ⟨by decide, rfl, by decide, by decide⟩)
    (fun _ => ⟨by decide, rfl, by decide, by decide⟩) 7

/-! ## Runs without removals -/

/-- The threads that were spawned, and those that have run. -/
structure SpawnLog where
  sched : Scheduler
  calls : List ℕ
  ran : List ℕ

def Act.spawned (s : Scheduler) : Act → List ℕ
  | .spawnProc _ | .createThread _ => [s.nextThread]
  | _ => []

def Act.scheduled (s' : Scheduler) : Act → List ℕ
  | .schedule c => (s'.cpu c).currthread.toList
  | _ => []

/-- The step is no sweep, which removes threads, and wakes no thread that never ran. -/
def Act.Removeless (ran : List ℕ) : Act → Prop
  | .sweep .. => False
  | .unblock _ t => t ∈ ran
  | _ => True

/-- The runs from `s₀` on. `thread_spawn` may be called at any time and with any thread. -/
inductive Spawning (s₀ : Scheduler) : SpawnLog → Prop
  | start : Spawning s₀ ⟨s₀, [], []⟩
  | spawn {w : SpawnLog} (h : Spawning s₀ w) (t : ℕ) :
      Spawning s₀ ⟨w.sched.threadSpawn t, w.calls ++ [t], w.ran⟩
  | act {w : SpawnLog} {a : Act} {s' : Scheduler} (h : Spawning s₀ w)
      (ha : a.Removeless w.ran) (hexec : a.exec w.sched = some s') :
      Spawning s₀ ⟨s', w.calls ++ a.spawned w.sched, w.ran ++ a.scheduled s'⟩

/-- There are `n` CPUs, and none has a thread. -/
structure EmptyCpus (n : ℕ) (s : Scheduler) : Prop where
  cpuCount_eq : s.cpuCount = n
  pos : 0 < n
  threads : ∀ c < n, (s.cpu c).threads = []
  runQueue : ∀ c < n, (s.cpu c).runQueue = []
  currthread : ∀ c < n, (s.cpu c).currthread = none

/-- No CPU has two threads more than another one, and earlier CPUs have at least as many. -/
structure Spread (n : ℕ) (w : SpawnLog) : Prop where
  near : ∀ c < n, ∀ d < n,
    (w.sched.cpu c).threads.length ≤ (w.sched.cpu d).threads.length + 1
  earlier : ∀ c d, c ≤ d → d < n →
    (w.sched.cpu d).threads.length ≤ (w.sched.cpu c).threads.length
  /-- A thread that has been spawned is in one list, once, and until it has been scheduled it is in
  the queue of that CPU only, once. -/
  home : ∀ t, w.calls.count t = 1 → ∃ c < n, ∀ d < n,
    (w.sched.cpu d).threads.count t = (if d = c then 1 else 0) ∧
      (t ∉ w.ran → (w.sched.cpu d).runQueue.count t = if d = c then 1 else 0)

/-! ## Level loads -/

structure Level (n : ℕ) (load : ℕ → ℕ) : Prop where
  near : ∀ c < n, ∀ d < n, load c ≤ load d + 1
  earlier : ∀ c d, c ≤ d → d < n → load d ≤ load c

theorem Level.add_first {load load' : ℕ → ℕ} (h : Level n load)
    (hleast : ∀ d < n, load c ≤ load d) (hfirst : ∀ d < c, load d ≠ load c)
    (hload : ∀ d, load' d = if d = c then load d + 1 else load d) : Level n load' := by
  refine ⟨fun a ha b hb => ?_, fun a b hab hb => ?_⟩
  · have hnear := h.near a ha b hb
    have hle := hleast b hb
    rw [hload, hload]
    split_ifs with hac hbc hbc
    · omega
    · subst hac
      omega
    · omega
    · exact hnear
  · have hearlier := h.earlier a b hab hb
    rw [hload, hload]
    split_ifs with hbc hac hac
    · omega
    · -- a place before the first of the lightest is not one of them
      subst hbc
      have hne := hfirst a (Nat.lt_of_le_of_ne hab hac)
      omega
    · omega
    · exact hearlier

structure Keeping (n : ℕ) (w : SpawnLog) : Prop where
  cpuCount_eq : w.sched.cpuCount = n
  level : Level n fun c => (w.sched.cpu c).threads.length
  perm : w.sched.registered.Perm w.calls
  current : ∀ c < n, ∀ t, (w.sched.cpu c).currthread = some t → t ∈ w.ran
  waiting : ∀ t ∉ w.ran, ∀ c < n,
    (w.sched.cpu c).runQueue.count t = (w.sched.cpu c).threads.count t

variable {w : SpawnLog}

theorem EmptyCpus.keeping (h : EmptyCpus n s) : Keeping n ⟨s, [], []⟩ where
  cpuCount_eq := h.cpuCount_eq
  level := by
    refine ⟨fun c hc d _ => ?_, fun c d _ hd => ?_⟩
    · dsimp only
      rw [h.threads c hc]
      exact Nat.zero_le _
    · dsimp only
      rw [h.threads d hd]
      exact Nat.zero_le _
  perm := by
    rw [perm_nil, eq_nil_iff_forall_not_mem]
    intro t ht
    obtain ⟨c, hc, hmem⟩ := mem_registered.mp ht
    rw [h.threads c (h.cpuCount_eq ▸ hc)] at hmem
    exact not_mem_nil hmem
  current c hc t ht := by
    rw [h.currthread c hc] at ht
    cases ht
  waiting t _ c hc := by
    dsimp only
    rw [h.runQueue c hc, h.threads c hc]

theorem Keeping.sameCpus (h : Keeping n w) (hcount : s'.cpuCount = w.sched.cpuCount)
    (hcpu : s'.cpu = w.sched.cpu) : Keeping n ⟨s', w.calls, w.ran⟩ := by
  refine ⟨hcount.trans h.cpuCount_eq, ?_, registered_congr hcount hcpu ▸ h.perm, ?_, ?_⟩
  · rw [hcpu]
    exact h.level
  · rw [hcpu]
    exact h.current
  · rw [hcpu]
    exact h.waiting

theorem threadSpawn_runQueue (s : Scheduler) (t d : ℕ) : ((s.threadSpawn t).cpu d).runQueue =
    if d = s.leastLoaded then (s.cpu d).runQueue ++ [t] else (s.cpu d).runQueue := by
  rw [threadSpawn_cpu]
  split_ifs <;> rfl

theorem leastLoaded_least (hd : d < s.cpuCount) :
    (s.cpu s.leastLoaded).threads.length ≤ (s.cpu d).threads.length :=
  Nat.le_of_not_lt fun hlt => leastLoaded_ne hd (Or.inl hlt) rfl

theorem leastLoaded_first (hn : 0 < s.cpuCount) (hd : d < s.leastLoaded) :
    (s.cpu d).threads.length ≠ (s.cpu s.leastLoaded).threads.length := fun heq =>
  leastLoaded_ne (Nat.lt_trans hd (leastLoaded_lt hn)) (Or.inr ⟨heq, hd⟩) rfl

theorem Keeping.spawn (h : Keeping n w) (hn : 0 < n) (t : ℕ) :
    Keeping n ⟨w.sched.threadSpawn t, w.calls ++ [t], w.ran⟩ := by
  have hpos : 0 < w.sched.cpuCount := h.cpuCount_eq ▸ hn
  refine ⟨h.cpuCount_eq, ?_, ?_, fun c hc u hu => ?_, fun u hu c hc => ?_⟩
  · refine h.level.add_first (fun d hd => leastLoaded_least (h.cpuCount_eq ▸ hd))
      (fun d hd => leastLoaded_first hpos hd) fun d => ?_
    dsimp only
    rw [threadSpawn_threads]
    split_ifs
    · exact length_append
    · rfl
  · have hcons : (w.sched.threadSpawn t).registered.Perm (t :: w.calls) :=
      (threadSpawn_registered hpos t).trans (h.perm.cons t)
    exact hcons.trans (perm_append_singleton t w.calls).symm
  · refine h.current c hc u ?_
    rw [← hu]
    exact (setCpu_keeps Cpu.currthread (by rfl) c).symm
  · have hold := h.waiting u hu c hc
    dsimp only
    rw [threadSpawn_runQueue, threadSpawn_threads]
    split_ifs
    · rw [count_append, count_append, hold]
    · exact hold

theorem Keeping.schedule (h : Keeping n w) (hcall : w.sched.schedule c = some s') :
    Keeping n ⟨s', w.calls, w.ran ++ (s'.cpu c).currthread.toList⟩ := by
  have hsame := sameThreads_schedule hcall
  obtain ⟨halive, hcases⟩ := schedule_cases hcall
  refine ⟨hsame.cpuCount_eq.trans h.cpuCount_eq, ?_, hsame.registered_eq ▸ h.perm,
    fun d hd u hu => ?_, fun u hu d hd => ?_⟩
  · simp only [hsame.threads_eq]
    exact h.level
  · rw [mem_append]
    by_cases hdc : d = c
    · subst hdc
      exact Or.inr (Option.mem_toList.mpr hu)
    · refine Or.inl (h.current d hd u ?_)
      rcases hcases with ⟨-, rfl⟩ | ⟨t, runQueue, hsw⟩
      · rwa [show (w.sched.setCpu c _).cpu d = _ from update_of_ne hdc _ _] at hu
      · rwa [hsw.cpu_eq, update_of_ne hdc] at hu
  · rw [mem_append, not_or, Option.mem_toList] at hu
    obtain ⟨hran, hcurr⟩ := hu
    dsimp only
    rw [hsame.threads_eq, ← h.waiting u hran d hd]
    rcases hcases with ⟨-, rfl⟩ | ⟨t, runQueue, hsw⟩
    · rw [setCpu_keeps Cpu.runQueue (by rfl) d]
    · rw [hsw.cpu_eq, update_self] at hcurr
      have hc : c < n := h.cpuCount_eq ▸ halive.1
      exact hsw.count_runQueue (fun htu => hcurr (congrArg some htu))
        (fun hmem => hran (h.current c hc u (mem_requeued.mp hmem).1)) d

theorem Keeping.unblock (h : Keeping n w) (ht : t ∈ w.ran) :
    Keeping n ⟨(w.sched.setState t .running).enqueue c t, w.calls, w.ran⟩ := by
  let s' := (w.sched.setState t .running).enqueue c t
  have hthreads : ∀ d, (s'.cpu d).threads = (w.sched.cpu d).threads :=
    setCpu_keeps Cpu.threads (by rfl)
  have hcurr : ∀ d, (s'.cpu d).currthread = (w.sched.cpu d).currthread :=
    setCpu_keeps Cpu.currthread (by rfl)
  have hregistered : s'.registered = w.sched.registered :=
    SameThreads.registered_eq ⟨rfl, hthreads, rfl⟩
  refine ⟨h.cpuCount_eq, ?_, hregistered ▸ h.perm, fun d hd u hu => ?_, fun u hu d hd => ?_⟩
  · show Level n fun d => (s'.cpu d).threads.length
    simp only [hthreads]
    exact h.level
  · exact h.current d hd u ((hcurr d).symm.trans hu)
  · show (s'.cpu d).runQueue.count u = (s'.cpu d).threads.count u
    have htu : u ∉ [t] := fun hmem => hu (mem_singleton.mp hmem ▸ ht)
    rw [hthreads, ← h.waiting u hu d hd]
    show (update w.sched.cpu c _ d).runQueue.count u = _
    by_cases hdc : d = c
    · subst hdc
      rw [update_self]
      show ((w.sched.cpu d).runQueue ++ [t]).count u = _
      rw [count_append, count_eq_zero.mpr htu, Nat.add_zero]
    · rw [update_of_ne hdc]

theorem Keeping.exec (h : Keeping n w) (hn : 0 < n) (ha : a.Removeless w.ran)
    (hexec : a.exec w.sched = some s') :
    Keeping n ⟨s', w.calls ++ a.spawned w.sched, w.ran ++ a.scheduled s'⟩ := by
  cases a with
  | sweep => exact ha.elim
  | schedule c =>
    show Keeping n ⟨s', w.calls ++ [], _⟩
    rw [append_nil]
    exact h.schedule hexec
  | spawnProc c =>
    obtain ⟨-, hs'⟩ := Option.ite_none_right_eq_some.mp hexec
    cases hs'
    show Keeping n ⟨_, _, w.ran ++ []⟩
    rw [append_nil]
    have hmade : Keeping n ⟨w.sched.mkProc.1, w.calls, w.ran⟩ := h.sameCpus rfl rfl
    exact hmade.spawn hn w.sched.nextThread
  | createThread c =>
    obtain ⟨curr, -, hs'⟩ := Option.bind_eq_some_iff.mp hexec
    cases hs'
    show Keeping n ⟨_, _, w.ran ++ []⟩
    rw [append_nil]
    have hmade : Keeping n ⟨(w.sched.threadCreat (w.sched.thread curr).parent).1, w.calls, w.ran⟩ :=
      h.sameCpus rfl rfl
    exact hmade.spawn hn w.sched.nextThread
  | unblock c t =>
    obtain ⟨-, hs'⟩ := Option.ite_none_right_eq_some.mp hexec
    cases hs'
    show Keeping n ⟨_, w.calls ++ [], w.ran ++ []⟩
    rw [append_nil, append_nil]
    exact h.unblock ha
  | block | sleep | semAcquire | semRelease | threadKill | schedKill | sysKillThread | signalSend
  | sigaction =>
    obtain ⟨hcount, hcpu, -⟩ := Act.KeepsCpus.exec (by exact trivial) hexec
    show Keeping n ⟨s', w.calls ++ [], w.ran ++ []⟩
    rw [append_nil, append_nil]
    exact h.sameCpus hcount hcpu

theorem Spawning.keeping {s₀ : Scheduler} (h : Spawning s₀ w) (h₀ : EmptyCpus n s₀) :
    Keeping n w := by
  induction h with
  | start => exact h₀.keeping
  | spawn _ t ih => exact ih.spawn h₀.pos t
  | act _ ha hexec ih => exact ih.exec h₀.pos ha hexec

theorem exists_home (hone : s.registered.count t = 1) :
    ∃ c < s.cpuCount, ∀ d < s.cpuCount, (s.cpu d).threads.count t = if d = c then 1 else 0 := by
  have hmem : t ∈ s.registered := count_pos_iff.mp (by omega)
  obtain ⟨c, hc, htc⟩ := mem_registered.mp hmem
  refine ⟨c, hc, fun d hd => ?_⟩
  split_ifs with hdc
  · subst hdc
    obtain ⟨rest, hperm, -⟩ := registered_perm hd
    rw [hperm.count_eq, count_append] at hone
    have hpos := count_pos_iff.mpr htc
    omega
  · refine count_eq_zero.mpr fun htd => ?_
    have htwo := two_le_count hc hd hdc htc htd
    omega

/-- However often `thread_spawn` is called, with whatever else in between, the threads are spread
over the CPUs. -/
theorem spawning_spreads (n : ℕ) (s₀ : Scheduler) (h₀ : EmptyCpus n s₀) (w : SpawnLog)
    (h : Spawning s₀ w) : Spread n w := by
  have hkeeping := h.keeping h₀
  refine ⟨hkeeping.level.near, hkeeping.level.earlier, fun t hone => ?_⟩
  rw [← hkeeping.perm.count_eq] at hone
  obtain ⟨c, hc, hhome⟩ := exists_home hone
  rw [hkeeping.cpuCount_eq] at hc hhome
  refine ⟨c, hc, fun d hd => ⟨hhome d hd, fun hran => ?_⟩⟩
  rw [hkeeping.waiting t hran d hd]
  exact hhome d hd

theorem emptyCpus_smpInit (hn : 0 < n) (maxCnt : ℕ → ℕ) : EmptyCpus n (smpInit n maxCnt) :=
  ⟨rfl, hn, fun _ _ => rfl, fun _ _ => rfl, fun _ _ => rfl⟩

def oneSpawned : Scheduler := (smpInit 2 fun _ => 0).threadSpawn 7

def threeSpawned : Scheduler := ((oneSpawned.turnTo 0 7 []).threadSpawn 8).threadSpawn 9

theorem spawning_spreads_three : (threeSpawned.cpu 0).threads = [7, 9] ∧
    (threeSpawned.cpu 1).threads = [8] ∧ EmptyCpus 2 (smpInit 2 fun _ => 0) ∧
    Spawning (smpInit 2 fun _ => 0) ⟨threeSpawned, [7, 8, 9], [7]⟩ ∧
    Spread 2 ⟨threeSpawned, [7, 8, 9], [7]⟩ := by
  have hempty : EmptyCpus 2 (smpInit 2 fun _ => 0) := emptyCpus_smpInit Nat.two_pos _
  have hcall : Act.exec oneSpawned (.schedule 0) = some (oneSpawned.turnTo 0 7 []) := rfl
  have hone : Spawning (smpInit 2 fun _ => 0) ⟨oneSpawned, [7], []⟩ := .spawn .start 7
  have hthree : Spawning (smpInit 2 fun _ => 0) ⟨threeSpawned, [7, 8, 9], [7]⟩ :=
    ((hone.act (a := .schedule 0) trivial hcall).spawn 8).spawn 9
  exact ⟨by decide +kernel, by decide +kernel, hempty, hthree,
    spawning_spreads 2 _ hempty _ hthree⟩

end KernelOld.Sched
