import Mathlib.Data.List.Chain
import Mathlib.Data.List.Induction
import KernelOld.Sched.OnePlace

/-!
# The sweep and the thread lists

`thread_spawn` enters a new thread in the thread list of a CPU, and the sweep of `kernel_proc` takes
killed threads out. It does so by index, so it passes over the thread behind each one that it
removes (`swept`); and it wakes a thread with `thread_spawn`, which enters it a second time.
-/

namespace KernelOld.Sched
open Function List

namespace Scheduler

def registered (s : Scheduler) : List ℕ :=
  (List.range s.cpuCount).flatMap fun c => (s.cpu c).threads

def queued (s : Scheduler) : List ℕ :=
  (List.range s.cpuCount).flatMap fun c => (s.cpu c).runQueue

structure Settles (s s' : Scheduler) (i now : ℕ) : Prop where
  no_killed : ∀ t ∈ (s'.cpu i).threads, s'.state t ≠ .killed
  woken : ∀ t ∈ (s.cpu i).threads, s.state t = .asleep → (s.thread t).sleepexp ≤ now →
    s'.state t = .ready ∧ s'.queued.count t = 1
  kept : ∀ d t, t ∈ (s.cpu d).threads → (d = i → s.state t ≠ .killed) → t ∈ (s'.cpu d).threads

def isKilled (s : Scheduler) (t : ℕ) : Bool := s.state t = .killed

/-- A sweep that has nobody to wake, and no two killed threads one behind the other. -/
structure Easy (s : Scheduler) (i now : ℕ) : Prop where
  awake : ∀ t ∈ (s.cpu i).threads, s.state t = .asleep → ¬(s.thread t).sleepexp ≤ now
  apart : (s.cpu i).threads.IsChain fun t u => ¬(s.isKilled t ∧ s.isKilled u)

def setThreads (s : Scheduler) (i : ℕ) (threads : List ℕ) : Scheduler :=
  s.setCpu i { s.cpu i with threads }

end Scheduler

open Scheduler

structure Registry where
  sched : Scheduler
  removed : List ℕ

def Act.removes (s s' : Scheduler) : Act → List ℕ
  | .sweep _ i _ => (s.cpu i).threads.filter fun t => s.state t = .killed ∧ t ∉ (s'.cpu i).threads
  | _ => []

inductive Runs (n : ℕ) (maxCnt : ℕ → ℕ) : List Act → Registry → Prop
  | nil : Runs n maxCnt [] ⟨smpInit n maxCnt, []⟩
  | concat {acts : List Act} {w : Registry} {a : Act} {s' : Scheduler} (h : Runs n maxCnt acts w)
      (hexec : a.exec w.sched = some s') :
      Runs n maxCnt (acts ++ [a]) ⟨s', w.removed ++ a.removes w.sched s'⟩

/-- Every thread that was spawned and not removed is in one thread list, once. -/
def RegisteredOnce (w : Registry) : Prop :=
  ∀ t < w.sched.nextThread, t ∉ w.removed → w.sched.registered.count t = 1

/-- Along the run each thread is entered once, and each sweep comes to its end and settles the
threads of its CPU. -/
structure Settled (n : ℕ) (maxCnt : ℕ → ℕ) (acts : List Act) : Prop where
  once : ∀ pre w, pre <+: acts → Runs n maxCnt pre w → RegisteredOnce w
  settles : ∀ pre c i now w, pre ++ [.sweep c i now] <+: acts → Runs n maxCnt pre w →
    (w.sched.current c).isSome → i < w.sched.cpuCount →
    ∃ s', w.sched.sweep i now = some s' ∧ Settles w.sched s' i now

/-- Whenever a CPU sweeps the threads of another one, the sweep is easy. -/
def EasySweeps (n : ℕ) (maxCnt : ℕ → ℕ) (acts : List Act) : Prop :=
  ∀ pre c i now w, pre ++ [.sweep c i now] <+: acts → Runs n maxCnt pre w →
    (w.sched.current c).isSome → i < w.sched.cpuCount → w.sched.Easy i now

/-! ## Removing by index -/

/-- The one behind each that is removed takes its place, and is passed over. -/
def swept (killed : ℕ → Bool) : List ℕ → List ℕ
  | [] => []
  | [t] => if killed t then [] else [t]
  | t :: u :: us => if killed t then u :: swept killed us else t :: swept killed (u :: us)

theorem swept_cons_of_neg {killed : ℕ → Bool} {t : ℕ} (ht : ¬killed t) (ts : List ℕ) :
    swept killed (t :: ts) = t :: swept killed ts := by
  cases ts with
  | nil => simp [swept, ht]
  | cons u us => rw [swept, if_neg ht]

theorem swept_killed_iff (killed : ℕ → Bool) (ts : List ℕ) :
    (∀ t ∈ swept killed ts, killed t = false) ↔
      ts.IsChain fun t u => ¬(killed t ∧ killed u) := by
  induction ts using swept.induct killed with
  | case1 => simp [swept]
  | case2 t ht => simp [swept, ht]
  | case3 t ht => simp [swept, ht]
  | case4 t u us ht ih =>
    rw [swept, if_pos ht, isChain_cons_cons, forall_mem_cons, ih]
    cases us with
    | nil => simp [ht]
    | cons v vs =>
      rw [isChain_cons_cons]
      grind
  | case5 t u us ht ih =>
    rw [swept, if_neg ht, isChain_cons_cons, forall_mem_cons, ih]
    simp [ht]

theorem swept_eq_filter {killed : ℕ → Bool} {ts : List ℕ}
    (h : ts.IsChain fun t u => ¬(killed t ∧ killed u)) :
    swept killed ts = ts.filter fun t => !killed t := by
  induction ts using swept.induct killed with
  | case1 => rfl
  | case2 t ht => simp [swept, ht]
  | case3 t ht => simp [swept, ht]
  | case4 t u us ht ih =>
    rw [isChain_cons_cons] at h
    have hu : ¬killed u := fun hu => h.1 ⟨ht, hu⟩
    rw [swept, if_pos ht, ih h.2.tail, filter_cons_of_neg (by simp [ht]),
      filter_cons_of_pos (by simp [hu])]
  | case5 t u us ht ih =>
    rw [swept, if_neg ht, ih h.tail]
    exact (filter_cons_of_pos (by simp [ht])).symm

namespace Scheduler

variable {s s' : Scheduler} {c d t u i now : ℕ}

/-! ## A sweep that wakes nobody -/

theorem setThreads_cpu_self (s : Scheduler) (i : ℕ) (threads : List ℕ) :
    (s.setThreads i threads).cpu i = { s.cpu i with threads } := update_self ..

theorem setThreads_setThreads (s : Scheduler) (i : ℕ) (threads threads' : List ℕ) :
    (s.setThreads i threads).setThreads i threads' = s.setThreads i threads' := by
  rw [setThreads, setThreads_cpu_self]
  show { s with cpu := update (update s.cpu i _) i _ } = _
  rw [update_idem]
  rfl

theorem setThreads_self (s : Scheduler) (i : ℕ) : s.setThreads i (s.cpu i).threads = s := by
  show { s with cpu := update s.cpu i (s.cpu i) } = s
  rw [update_eq_self]

theorem sweepRound_of_awake {j : ℕ} (ht : (s.cpu i).threads[j]? = some t)
    (hawake : s.state t = .asleep → ¬(s.thread t).sleepexp ≤ now) :
    s.sweepRound i now j =
      some (if s.isKilled t then s.setThreads i ((s.cpu i).threads.eraseIdx j) else s) := by
  have hno : ¬(s.state t = .asleep ∧ (s.thread t).sleepexp ≤ now) := fun h => hawake h.1 h.2
  rw [sweepRound, ht]
  dsimp only [Option.bind_eq_bind, Option.bind_some]
  by_cases hkilled : s.state t = .killed
  · have hno' : ¬((s.setThreads i ((s.cpu i).threads.eraseIdx j)).state t = .asleep ∧
        ((s.setThreads i ((s.cpu i).threads.eraseIdx j)).thread t).sleepexp ≤ now) := hno
    have hdecide : s.isKilled t = true := decide_eq_true hkilled
    rw [if_pos hkilled, if_pos hdecide]
    exact if_neg hno'
  · rw [if_neg hkilled, if_neg hno, if_neg (by simpa [isKilled] using hkilled)]

theorem sweepFrom_of_le {rounds j : ℕ} (h : (s.cpu i).threads.length ≤ j) :
    sweepFrom i now rounds j s = some s := by
  cases rounds with
  | zero => rfl
  | succ rounds => rw [sweepFrom, if_neg (Nat.not_lt.mpr h)]

theorem sweepFrom_eq {rounds : ℕ} {pre post : List ℕ} (hthreads : (s.cpu i).threads = pre ++ post)
    (hrounds : post.length ≤ rounds)
    (hawake : ∀ t ∈ post, s.state t = .asleep → ¬(s.thread t).sleepexp ≤ now) :
    sweepFrom i now rounds pre.length s =
      some (s.setThreads i (pre ++ swept s.isKilled post)) := by
  induction rounds generalizing s pre post with
  | zero =>
    obtain rfl := length_eq_zero_iff.mp (Nat.le_zero.mp hrounds)
    rw [sweepFrom, swept, ← hthreads, setThreads_self]
  | succ rounds ih =>
    cases post with
    | nil =>
      have hlen : (s.cpu i).threads.length ≤ pre.length := by rw [hthreads, append_nil]
      rw [sweepFrom_of_le hlen, swept, ← hthreads, setThreads_self]
    | cons t ts =>
      have hlt : pre.length < (s.cpu i).threads.length := by
        rw [hthreads, length_append, length_cons]
        omega
      have hget : (s.cpu i).threads[pre.length]? = some t := by
        rw [hthreads, getElem?_append_right (Nat.le_refl _), Nat.sub_self]
        rfl
      have hrest : ts.length ≤ rounds := Nat.le_of_succ_le_succ hrounds
      have hone : ∀ u : ℕ, pre.length + 1 = (pre ++ [u]).length := fun u => by simp
      have htail : ∀ u ∈ ts, s.state u = .asleep → ¬(s.thread u).sleepexp ≤ now :=
        fun u hu => hawake u (mem_cons_of_mem t hu)
      rw [sweepFrom, if_pos hlt, sweepRound_of_awake hget (hawake t mem_cons_self)]
      dsimp only [Option.bind_eq_bind, Option.bind_some]
      by_cases hkilled : s.isKilled t
      · have herase : (s.cpu i).threads.eraseIdx pre.length = pre ++ ts := by
          rw [hthreads, eraseIdx_append_of_length_le (Nat.le_refl _), Nat.sub_self]
          rfl
        rw [if_pos hkilled, herase]
        have hnew : ((s.setThreads i (pre ++ ts)).cpu i).threads = pre ++ ts := by
          rw [setThreads_cpu_self]
        cases ts with
        | nil =>
          have hlen : ((s.setThreads i (pre ++ [])).cpu i).threads.length ≤ pre.length + 1 := by
            rw [hnew, append_nil]
            exact Nat.le_succ _
          rw [sweepFrom_of_le hlen, swept, if_pos hkilled]
        | cons u us =>
          -- the thread behind it is at the index that was just done
          have hnew' : ((s.setThreads i (pre ++ u :: us)).cpu i).threads = (pre ++ [u]) ++ us := by
            rw [hnew, append_assoc]
            rfl
          rw [hone u, ih hnew' (Nat.le_of_succ_le hrest)
            fun v hv => htail v (mem_cons_of_mem u hv), setThreads_setThreads, swept,
            if_pos hkilled, append_assoc]
          rfl
      · have hthreads' : (s.cpu i).threads = (pre ++ [t]) ++ ts := by
          rw [hthreads, append_assoc]
          rfl
        rw [if_neg hkilled, hone t, ih hthreads' hrest htail, swept_cons_of_neg hkilled,
          append_assoc]
        rfl

theorem sweep_of_awake
    (hawake : ∀ t ∈ (s.cpu i).threads, s.state t = .asleep → ¬(s.thread t).sleepexp ≤ now) :
    s.sweep i now = some (s.setThreads i (swept s.isKilled (s.cpu i).threads)) :=
  sweepFrom_eq (nil_append _).symm (Nat.le_refl _) hawake

theorem threadSpawn_cpu (s : Scheduler) (t d : ℕ) : (s.threadSpawn t).cpu d =
    if d = s.leastLoaded then
      { s.cpu d with
        threads := (s.cpu d).threads ++ [t]
        runQueue := (s.cpu d).runQueue ++ [t] }
    else s.cpu d := by
  show update s.cpu s.leastLoaded _ d = _
  rw [update_apply]
  split_ifs with hd
  · rw [hd]
  · rfl

theorem threadSpawn_threads (s : Scheduler) (t d : ℕ) : ((s.threadSpawn t).cpu d).threads =
    if d = s.leastLoaded then (s.cpu d).threads ++ [t] else (s.cpu d).threads := by
  rw [threadSpawn_cpu]
  split_ifs <;> rfl

structure WakesAway (s₀ s : Scheduler) (i : ℕ) : Prop where
  cpuCount_eq : s.cpuCount = s₀.cpuCount
  nextThread_eq : s.nextThread = s₀.nextThread
  away : ∀ t, s.state t ≠ s₀.state t → ∃ d < s₀.cpuCount, d ≠ i ∧ t ∈ (s.cpu d).threads

theorem WakesAway.round {s₀ : Scheduler} {j : ℕ} (h : WakesAway s₀ s i) (hi : i < s₀.cpuCount)
    (hround : s.sweepRound i now j = some s') : WakesAway s₀ s' i := by
  obtain rfl | rfl | ⟨t, -, -, -, hleast, rfl⟩ := sweepRound_cases hround
  · refine ⟨h.cpuCount_eq, h.nextThread_eq, fun u hu => ?_⟩
    obtain ⟨d, hd, hdi, hmem⟩ := h.away u hu
    refine ⟨d, hd, hdi, ?_⟩
    show u ∈ (update s.cpu i _ d).threads
    rwa [update_of_ne hdi]
  · exact h
  · set e := (s.setState t .ready).leastLoaded with he
    have hpos : 0 < (s.setState t .ready).cpuCount := by
      show 0 < s.cpuCount
      rw [h.cpuCount_eq]
      exact Nat.zero_lt_of_lt hi
    have hlt : e < s₀.cpuCount := h.cpuCount_eq ▸ leastLoaded_lt hpos
    have hthreads : ∀ d, (((s.setState t .ready).threadSpawn t).cpu d).threads =
        if d = e then (s.cpu d).threads ++ [t] else (s.cpu d).threads :=
      threadSpawn_threads (s.setState t .ready) t
    refine ⟨h.cpuCount_eq, h.nextThread_eq, fun u hu => ?_⟩
    by_cases hut : u = t
    · refine ⟨e, hlt, hleast, ?_⟩
      rw [hthreads, if_pos rfl, hut]
      exact mem_append_right _ (mem_singleton.mpr rfl)
    · have hold : s.state u ≠ s₀.state u := by
        have hstate : ((s.setState t .ready).threadSpawn t).state u = s.state u :=
          (setState_state s t .ready u).trans (if_neg hut)
        rwa [hstate] at hu
      obtain ⟨d, hd, hdi, hmem⟩ := h.away u hold
      refine ⟨d, hd, hdi, ?_⟩
      rw [hthreads]
      split
      · exact mem_append_left _ hmem
      · exact hmem

theorem wakesAway_sweep (hi : i < s.cpuCount) (hsweep : s.sweep i now = some s') :
    WakesAway s s' i :=
  sweepFrom_induction (I := fun s' => WakesAway s s' i)
    (fun _ _ _ h hround => h.round hi hround) ⟨rfl, rfl, fun _ ht => absurd rfl ht⟩ hsweep

/-! ## The union of the thread lists -/

theorem mem_registered : t ∈ s.registered ↔ ∃ c < s.cpuCount, t ∈ (s.cpu c).threads := by
  simp [registered]

theorem registered_perm (hc : c < s.cpuCount) : ∃ rest,
    s.registered.Perm ((s.cpu c).threads ++ rest) ∧
      ∀ s' : Scheduler, s'.cpuCount = s.cpuCount →
        (∀ d, d ≠ c → (s'.cpu d).threads = (s.cpu d).threads) →
        s'.registered.Perm ((s'.cpu c).threads ++ rest) := by
  obtain ⟨rest, hrest⟩ := exists_perm_flatMap_range (fun d => (s.cpu d).threads) hc
  refine ⟨rest, hrest _ fun _ _ => rfl, fun s' hcount hsame => ?_⟩
  rw [registered, hcount]
  exact hrest (fun d => (s'.cpu d).threads) hsame

theorem two_le_count (hc : c < s.cpuCount) (hd : d < s.cpuCount) (hdc : d ≠ c)
    (htc : t ∈ (s.cpu c).threads) (htd : t ∈ (s.cpu d).threads) : 2 ≤ s.registered.count t := by
  obtain ⟨rest, hperm, hrest⟩ := registered_perm hc
  have hcpu : (s.setThreads c []).cpu d = s.cpu d := update_of_ne hdc _ _
  -- without the list of `c` the thread is still in that of `d`
  have hothers := hrest (s.setThreads c []) rfl fun e he =>
    congrArg Cpu.threads (update_of_ne he _ _)
  rw [setThreads_cpu_self, nil_append] at hothers
  have hmem : t ∈ rest := hothers.subset (mem_registered.mpr ⟨d, hd, hcpu ▸ htd⟩)
  have hposc := count_pos_iff.mpr htc
  have hpos := count_pos_iff.mpr hmem
  rw [hperm.count_eq, count_append]
  omega

theorem threadSpawn_registered (hn : 0 < s.cpuCount) (t : ℕ) :
    (s.threadSpawn t).registered.Perm (t :: s.registered) := by
  obtain ⟨rest, hold, hnew⟩ := registered_perm (leastLoaded_lt hn)
  have hspawned := hnew (s.threadSpawn t) rfl fun d hd => by rw [threadSpawn_threads, if_neg hd]
  rw [threadSpawn_threads, if_pos rfl, append_assoc] at hspawned
  exact hspawned.trans (perm_middle.trans (hold.symm.cons t))

structure SameThreads (s s' : Scheduler) : Prop where
  cpuCount_eq : s'.cpuCount = s.cpuCount
  threads_eq : ∀ c, (s'.cpu c).threads = (s.cpu c).threads
  nextThread_eq : s'.nextThread = s.nextThread

theorem registered_congr (hcount : s'.cpuCount = s.cpuCount) (hcpu : s'.cpu = s.cpu) :
    s'.registered = s.registered := by
  rw [registered, registered, hcount, hcpu]

theorem SameThreads.registered_eq (h : SameThreads s s') : s'.registered = s.registered := by
  rw [registered, registered, h.cpuCount_eq]
  simp only [h.threads_eq]

end Scheduler

def Act.Registers : Act → Prop
  | .spawnProc .. | .createThread .. | .sweep .. => True
  | _ => False

variable {s s' : Scheduler} {a : Act} {w : Registry} {acts : List Act} {n c i now t : ℕ}
  {maxCnt : ℕ → ℕ}

theorem sameThreads_schedule (h : s.schedule c = some s') : SameThreads s s' := by
  obtain ⟨-, ⟨-, rfl⟩ | ⟨t, runQueue, hsw⟩⟩ := schedule_cases h
  · exact ⟨rfl, setCpu_keeps Cpu.threads rfl, rfl⟩
  · refine ⟨hsw.cpuCount_eq, fun d => ?_, hsw.nextThread_eq⟩
    rw [hsw.cpu_eq]
    show ((s.setCpu c { s.cpu c with currthread := some t, runQueue }).cpu d).threads = _
    exact setCpu_keeps Cpu.threads (by rfl) d

theorem sameThreads_exec (ha : ¬a.Registers) (hexec : a.exec s = some s') : SameThreads s s' := by
  cases a with
  | spawnProc | createThread | sweep => exact absurd trivial ha
  | schedule c => exact sameThreads_schedule hexec
  | unblock c t =>
    obtain ⟨-, hs'⟩ := Option.ite_none_right_eq_some.mp hexec
    cases hs'
    exact ⟨rfl, setCpu_keeps Cpu.threads rfl, rfl⟩
  | block | sleep | semAcquire | semRelease | threadKill | schedKill | sysKillThread | signalSend
  | sigaction =>
    obtain ⟨hcount, hcpu, hnext⟩ := Act.KeepsCpus.exec (by exact trivial) hexec
    exact ⟨hcount, fun c => by rw [hcpu], hnext⟩

/-! ## Runs with easy sweeps -/

structure Roll (w : Registry) : Prop where
  count_eq : ∀ t < w.sched.nextThread,
    w.sched.registered.count t = if t ∈ w.removed then 0 else 1
  known : ∀ t ∈ w.sched.registered, t < w.sched.nextThread
  removed_lt : ∀ t ∈ w.removed, t < w.sched.nextThread

theorem roll_smpInit (n : ℕ) (maxCnt : ℕ → ℕ) : Roll ⟨smpInit n maxCnt, []⟩ where
  count_eq _ ht := absurd ht (Nat.not_lt_zero _)
  known t ht := by
    obtain ⟨c, -, hmem⟩ := mem_registered.mp ht
    cases hmem
  removed_lt _ ht := absurd ht not_mem_nil

theorem Roll.once (h : Roll w) : RegisteredOnce w := by
  intro t ht hremoved
  rw [h.count_eq t ht, if_neg hremoved]

theorem Roll.notMem_removed (h : Roll w) (ht : t ∈ w.sched.registered) : t ∉ w.removed := by
  intro hremoved
  have hcount := h.count_eq t (h.known t ht)
  rw [if_pos hremoved] at hcount
  exact absurd ht (count_eq_zero.mp hcount)

theorem Roll.same (h : Roll w) (hsame : SameThreads w.sched s') : Roll ⟨s', w.removed ++ []⟩ := by
  rw [append_nil]
  refine ⟨?_, ?_, ?_⟩
  · show ∀ t < s'.nextThread, s'.registered.count t = _
    rw [hsame.nextThread_eq, hsame.registered_eq]
    exact h.count_eq
  · show ∀ t ∈ s'.registered, t < s'.nextThread
    rw [hsame.nextThread_eq, hsame.registered_eq]
    exact h.known
  · show ∀ t ∈ w.removed, t < s'.nextThread
    rw [hsame.nextThread_eq]
    exact h.removed_lt

theorem Roll.spawnNew (h : Roll w) (hn : 0 < w.sched.cpuCount)
    (hcount : s'.cpuCount = w.sched.cpuCount) (hcpu : s'.cpu = w.sched.cpu)
    (hnext : s'.nextThread = w.sched.nextThread + 1) :
    Roll ⟨s'.threadSpawn w.sched.nextThread, w.removed ++ []⟩ := by
  have hperm : (s'.threadSpawn w.sched.nextThread).registered.Perm
      (w.sched.nextThread :: w.sched.registered) := by
    rw [← registered_congr hcount hcpu]
    exact threadSpawn_registered (hcount ▸ hn) w.sched.nextThread
  have hfresh : w.sched.nextThread ∉ w.sched.registered := fun hmem =>
    Nat.lt_irrefl _ (h.known _ hmem)
  have hunremoved : w.sched.nextThread ∉ w.removed := fun hmem =>
    Nat.lt_irrefl _ (h.removed_lt _ hmem)
  rw [append_nil]
  refine ⟨fun t ht => ?_, fun t ht => ?_, fun t ht => ?_⟩
  · have ht : t < w.sched.nextThread + 1 := hnext ▸ ht
    show (s'.threadSpawn w.sched.nextThread).registered.count t = _
    rw [hperm.count_eq]
    by_cases hnew : t = w.sched.nextThread
    · subst hnew
      rw [count_cons_self, count_eq_zero.mpr hfresh, if_neg hunremoved]
    · rw [count_cons_of_ne (Ne.symm hnew)]
      exact h.count_eq t (by omega)
  · show t < s'.nextThread
    rw [hnext]
    rcases mem_cons.mp (hperm.subset ht) with rfl | ht
    · exact Nat.lt_succ_self _
    · exact Nat.lt_succ_of_lt (h.known t ht)
  · show t < s'.nextThread
    rw [hnext]
    exact Nat.lt_succ_of_lt (h.removed_lt t ht)

theorem Scheduler.sweep_of_easy (heasy : s.Easy i now) : s.sweep i now =
    some (s.setThreads i ((s.cpu i).threads.filter fun t => !s.isKilled t)) := by
  rw [sweep_of_awake heasy.awake, swept_eq_filter heasy.apart]

theorem count_filter_not (killed : ℕ → Bool) (ts : List ℕ) (t : ℕ) :
    (ts.filter fun t => !killed t).count t = if killed t then 0 else ts.count t := by
  split
  · rename_i hkilled
    exact count_eq_zero.mpr fun hmem => by simp [hkilled] at hmem
  · rename_i hkilled
    exact count_filter (by simp [hkilled])

theorem Roll.sweep (h : Roll w) (hi : i < w.sched.cpuCount) (heasy : w.sched.Easy i now)
    (hsweep : w.sched.sweep i now = some s') :
    Roll ⟨s', w.removed ++ (Act.sweep c i now).removes w.sched s'⟩ := by
  rw [sweep_of_easy heasy] at hsweep
  obtain rfl := Option.some.inj hsweep
  set kept := (w.sched.cpu i).threads.filter fun t => !w.sched.isKilled t with hkept
  obtain ⟨rest, hold, hnew⟩ := registered_perm hi
  have hthreads : ((w.sched.setThreads i kept).cpu i).threads = kept := by
    rw [setThreads_cpu_self]
  have hperm : (w.sched.setThreads i kept).registered.Perm (kept ++ rest) := by
    have hrest := hnew (w.sched.setThreads i kept) rfl fun d hd =>
      congrArg Cpu.threads (update_of_ne hd _ _)
    rwa [hthreads] at hrest
  have hremoves : ∀ t, t ∈ (Act.sweep c i now).removes w.sched (w.sched.setThreads i kept) ↔
      t ∈ (w.sched.cpu i).threads ∧ w.sched.isKilled t := by
    intro t
    rw [Act.removes, hthreads, mem_filter, hkept]
    simp only [mem_filter, isKilled]
    grind
  refine ⟨fun t ht => ?_, fun t ht => ?_, fun t ht => ?_⟩
  · have hcount := h.count_eq t ht
    rw [hold.count_eq, count_append] at hcount
    show (w.sched.setThreads i kept).registered.count t = _
    have hstays := count_filter_not w.sched.isKilled (w.sched.cpu i).threads t
    rw [hperm.count_eq, count_append, hstays]
    simp only [mem_append, hremoves]
    by_cases hgone : t ∈ (w.sched.cpu i).threads ∧ w.sched.isKilled t
    · have hpos := count_pos_iff.mpr hgone.1
      rw [if_pos hgone.2, if_pos (Or.inr hgone)]
      split at hcount <;> omega
    · have hsame : (if w.sched.isKilled t then 0 else (w.sched.cpu i).threads.count t) =
          (w.sched.cpu i).threads.count t := by
        split
        · rename_i hkilled
          exact (count_eq_zero.mpr fun hmem => hgone ⟨hmem, hkilled⟩).symm
        · rfl
      rw [hsame, hcount]
      exact (if_congr (or_iff_left hgone) rfl rfl).symm
  · have hmem : t ∈ kept ++ rest := hperm.subset ht
    refine h.known t (hold.symm.subset ?_)
    rcases mem_append.mp hmem with hmem | hmem
    · exact mem_append_left _ (mem_filter.mp hmem).1
    · exact mem_append_right _ hmem
  · rcases mem_append.mp ht with ht | ht
    · exact h.removed_lt t ht
    · exact h.known t (mem_registered.mpr ⟨i, hi, ((hremoves t).mp ht).1⟩)

theorem Act.removes_of_not_registers (ha : ¬a.Registers) : a.removes s s' = [] := by
  cases a with
  | sweep => exact absurd trivial ha
  | _ => rfl

theorem Roll.exec (h : Roll w) (hexec : a.exec w.sched = some s')
    (heasy : ∀ c i now, a = .sweep c i now → (w.sched.current c).isSome → i < w.sched.cpuCount →
      w.sched.Easy i now) : Roll ⟨s', w.removed ++ a.removes w.sched s'⟩ := by
  by_cases ha : a.Registers
  · cases a with
    | spawnProc c =>
      obtain ⟨halive, hs'⟩ := Option.ite_none_right_eq_some.mp hexec
      cases hs'
      exact h.spawnNew halive.pos rfl rfl rfl
    | createThread c =>
      obtain ⟨curr, hcurr, hs'⟩ := Option.bind_eq_some_iff.mp hexec
      cases hs'
      exact h.spawnNew (current_eq_some.mp hcurr).1.pos rfl rfl rfl
    | sweep c i now =>
      obtain ⟨curr, hcurr, hs'⟩ := Option.bind_eq_some_iff.mp hexec
      obtain ⟨hi, hsweep⟩ := Option.ite_none_right_eq_some.mp hs'
      exact h.sweep hi (heasy c i now rfl (by rw [hcurr]; rfl) hi) hsweep
    | _ => exact ha.elim
  · rw [Act.removes_of_not_registers ha]
    exact h.same (sameThreads_exec ha hexec)

theorem Runs.roll {pre : List Act} (h : Runs n maxCnt pre w) (hpre : pre <+: acts)
    (heasy : EasySweeps n maxCnt acts) : Roll w := by
  induction h with
  | nil => exact roll_smpInit n maxCnt
  | @concat pre w a s' hruns hexec ih =>
    refine (ih ((prefix_append pre [a]).trans hpre)).exec hexec ?_
    rintro c i now rfl hcurr hi
    exact heasy pre c i now w hpre hruns hcurr hi

theorem Scheduler.Easy.settles (heasy : s.Easy i now) (hsweep : s.sweep i now = some s') :
    Settles s s' i now := by
  rw [sweep_of_easy heasy] at hsweep
  obtain rfl := Option.some.inj hsweep
  refine ⟨fun t ht => ?_, fun t ht hasleep hexp => absurd hexp (heasy.awake t ht hasleep),
    fun d t ht halive => ?_⟩
  · rw [setThreads_cpu_self] at ht
    have hkilled := (mem_filter.mp ht).2
    show s.state t ≠ .killed
    simpa [isKilled] using hkilled
  · by_cases hd : d = i
    · subst hd
      rw [setThreads_cpu_self]
      exact mem_filter.mpr ⟨ht, by simpa [isKilled] using halive rfl⟩
    · show t ∈ (update s.cpu i _ d).threads
      rwa [update_of_ne hd]

/-! ## Sweeps that settle are easy -/

theorem Scheduler.Settles.awake (h : Settles s s' i now) (hi : i < s.cpuCount)
    (hsweep : s.sweep i now = some s')
    (honce : ∀ t ∈ s.registered, s.state t ≠ .killed → s'.registered.count t = 1) :
    ∀ t ∈ (s.cpu i).threads, s.state t = .asleep → ¬(s.thread t).sleepexp ≤ now := by
  intro t ht hasleep hexp
  have hnotKilled : s.state t ≠ .killed := by
    rw [hasleep]
    decide
  have haway := wakesAway_sweep hi hsweep
  have hready := (h.woken t ht hasleep hexp).1
  obtain ⟨d, hd, hdi, hmem⟩ := haway.away t (by rw [hready, hasleep]; decide)
  have hhere : t ∈ (s'.cpu i).threads := h.kept i t ht fun _ => hnotKilled
  have hcount := honce t (mem_registered.mpr ⟨i, hi, ht⟩) hnotKilled
  have htwo := two_le_count (haway.cpuCount_eq.symm ▸ hi) (haway.cpuCount_eq.symm ▸ hd) hdi
    hhere hmem
  omega

/-- What is left in the list shows that no two killed threads were adjacent. -/
theorem Scheduler.Settles.apart (h : Settles s s' i now) (hsweep : s.sweep i now = some s')
    (hawake : ∀ t ∈ (s.cpu i).threads, s.state t = .asleep → ¬(s.thread t).sleepexp ≤ now) :
    (s.cpu i).threads.IsChain fun t u => ¬(s.isKilled t ∧ s.isKilled u) := by
  rw [sweep_of_awake hawake] at hsweep
  obtain rfl := Option.some.inj hsweep
  apply (swept_killed_iff _ _).mp
  intro t ht
  have hkilled := h.no_killed t (by rw [setThreads_cpu_self]; exact ht)
  exact decide_eq_false hkilled

theorem Roll.easy_of_settles (h : Roll w) (hi : i < w.sched.cpuCount)
    (hsweep : w.sched.sweep i now = some s') (hsettles : Settles w.sched s' i now)
    (honce : RegisteredOnce ⟨s', w.removed ++ (Act.sweep c i now).removes w.sched s'⟩) :
    w.sched.Easy i now := by
  have hnext : s'.nextThread = w.sched.nextThread := (wakesAway_sweep hi hsweep).nextThread_eq
  have hawake := hsettles.awake hi hsweep fun t ht hnotKilled => by
    refine honce t (hnext.symm ▸ h.known t ht) fun hmem => ?_
    rcases mem_append.mp hmem with hmem | hmem
    · exact h.notMem_removed ht hmem
    · have hkilled := (mem_filter.mp hmem).2
      simp [hnotKilled] at hkilled
  exact ⟨hawake, hsettles.apart hsweep hawake⟩

theorem Settled.of_prefix {pre : List Act} (h : Settled n maxCnt acts) (hpre : pre <+: acts) :
    Settled n maxCnt pre where
  once pre' w hpre' := h.once pre' w (hpre'.trans hpre)
  settles pre' c i now w hpre' := h.settles pre' c i now w (hpre'.trans hpre)

theorem Settled.easySweeps (h : Settled n maxCnt acts) : EasySweeps n maxCnt acts := by
  induction acts using List.reverseRecOn with
  | nil =>
    intro pre c i now w hpre
    exact absurd (prefix_nil.mp hpre) (by simp)
  | append_singleton acts a ih =>
    have heasy := ih (h.of_prefix (prefix_append acts [a]))
    intro pre c i now w hpre hruns hcurr hi
    rcases prefix_concat_iff.mp hpre with heq | hpre'
    · obtain ⟨rfl, ha⟩ := append_inj' heq rfl
      obtain rfl := (List.cons.inj ha).1
      obtain ⟨s', hsweep, hsettles⟩ := h.settles pre c i now w hpre hruns hcurr hi
      have hexec : (Act.sweep c i now).exec w.sched = some s' := by
        obtain ⟨curr, hcurr⟩ := Option.isSome_iff_exists.mp hcurr
        rw [Act.exec, hcurr]
        exact (if_pos hi).trans hsweep
      exact (hruns.roll (prefix_rfl) heasy).easy_of_settles hi hsweep hsettles
        (h.once _ _ hpre (hruns.concat hexec))
    · exact heasy pre c i now w hpre' hruns hcurr hi

/-- Each thread is entered once and each sweep settles its threads exactly in the runs in which no
sweep finds a thread to wake, or two killed threads one behind the other. -/
theorem settled_iff (n : ℕ) (maxCnt : ℕ → ℕ) (acts : List Act) :
    Settled n maxCnt acts ↔ EasySweeps n maxCnt acts := by
  refine ⟨Settled.easySweeps, fun heasy => ⟨fun pre w hpre hruns => ?_, ?_⟩⟩
  · exact (hruns.roll hpre heasy).once
  · intro pre c i now w hpre hruns hcurr hi
    have heasy := heasy pre c i now w hpre hruns hcurr hi
    exact ⟨_, sweep_of_easy heasy, heasy.settles (sweep_of_easy heasy)⟩

def wakingRun : List Act :=
  [.spawnProc 0, .spawnProc 0, .spawnProc 0, .spawnProc 0, .schedule 0, .schedule 1,
    .sleep 1 5, .block 1 .asleep, .schedule 1, .sweep 0 1 5]

def killingRun : List Act :=
  [.spawnProc 0, .spawnProc 0, .spawnProc 0, .schedule 0, .threadKill 1, .threadKill 2,
    .sweep 0 0 5]

/-- The thread that wakes up is in the lists of both CPUs, and of the two threads that are killed
one stays. -/
theorem sweep_does_not_settle :
    (∃ w, Runs 2 (fun _ => 0) wakingRun w ∧ (w.sched.cpu 0).threads = [0, 2, 1] ∧
      (w.sched.cpu 1).threads = [1, 3] ∧ w.removed = [] ∧
      ¬Settled 2 (fun _ => 0) wakingRun) ∧
    ∃ w, Runs 1 (fun _ => 0) killingRun w ∧ (w.sched.cpu 0).threads = [0, 2] ∧
      w.sched.state 2 = .killed ∧ ¬Settled 1 (fun _ => 0) killingRun := by
  constructor
  · have hruns : Runs 2 (fun _ => 0) wakingRun _ :=
      .concat (.concat (.concat (.concat (.concat (.concat (.concat (.concat (.concat (.concat
        .nil rfl) rfl) rfl) rfl) rfl) rfl) rfl) rfl) rfl) rfl
    refine ⟨_, hruns, rfl, rfl, rfl, fun h => ?_⟩
    have honce := h.once _ _ prefix_rfl hruns 1 (by decide) not_mem_nil
    exact absurd honce (by decide)
  · have hbefore : Runs 1 (fun _ => 0) (killingRun.take 6) _ :=
      .concat (.concat (.concat (.concat (.concat (.concat .nil rfl) rfl) rfl) rfl) rfl) rfl
    have hruns : Runs 1 (fun _ => 0) killingRun _ :=
      hbefore.concat (rfl : (Act.sweep 0 0 5).exec _ = some _)
    refine ⟨_, hruns, rfl, rfl, fun h => ?_⟩
    obtain ⟨s', hsweep, hsettles⟩ :=
      h.settles _ 0 0 5 _ (prefix_rfl) hbefore rfl (by decide)
    cases hsweep
    exact hsettles.no_killed 2 (by decide) rfl

end KernelOld.Sched
