import Mathlib.Data.Set.Basic
import KernelOld.Sched.OnePlace

/-!
# Killed threads

`thread_kill` only writes a field of the thread: a killed thread that is in a run queue is
switched to like any other, and `schedule` makes it running again. `sched_kill` goes through
`proc->threads`, in which `thread_creat` does not enter its thread.
-/

namespace KernelOld.Sched
open Function Relation Scheduler List

/-- The threads that a kill was meant for are `doomed`. -/
structure Log where
  sched : Scheduler
  doomed : Set ℕ

namespace Scheduler

def createdIn (s : Scheduler) (p : ℕ) : Set ℕ := {t | t < s.nextThread ∧ (s.thread t).parent = p}

def upNext (s : Scheduler) (c : ℕ) : Option ℕ := ((s.cpu c).runQueue ++ s.requeued c).head?

def Unqueued (s : Scheduler) (t : ℕ) : Prop := ∀ c < s.cpuCount, t ∉ (s.cpu c).runQueue

end Scheduler

def Act.stops (s : Scheduler) : Act → Set ℕ
  | .schedKill p => s.createdIn p
  | .schedule c => {t | ∃ u, s.upNext c = some u ∧ ¬s.NoSignal u ∧
      t ∈ s.createdIn (s.thread u).parent}
  | _ => ∅

def Log.exec (w : Log) (a : Act) : Option Log :=
  (a.exec w.sched).map fun sched =>
    ⟨sched, w.doomed ∪ {t | sched.state t = .killed} ∪ a.stops w.sched⟩

/-- A step of the scheduler, recorded. -/
inductive LogStep (admits : Scheduler → Act → Prop) : Log → Log → Prop
  | act {w w' : Log} {a : Act} (hadmits : admits w.sched a) (hexec : w.exec a = some w') :
      LogStep admits w w'

/-- Threads are killed while they are in no run queue, and no signal is pending when its process is
switched to. -/
def KillsUnqueued (s : Scheduler) : Act → Prop
  | .schedule c => ∀ t, s.upNext c = some t → s.NoSignal t
  | .block _ state => state ≠ .running
  | .threadKill t => s.Unqueued t
  | .sysKillThread c tid => ∀ curr, s.current c = some curr →
      ∀ t ∈ (s.proc (s.thread curr).parent).threads, (s.thread t).tid = tid → s.Unqueued t
  | .schedKill p => (∀ t ∈ (s.proc p).threads, s.Unqueued t) ∧
      ∀ t ∈ s.createdIn p,
        t ∈ (s.proc p).threads ∨ s.Unqueued t ∧ s.state t ≠ .running
  | .unblock .. => False
  | .sweep .. => False
  | _ => True

variable {s s' : Scheduler} {w w' : Log} {c t u p : ℕ} {a : Act}

structure Buried (w : Log) : Prop where
  nodup : w.sched.places.Nodup
  known : ∀ t ∈ w.sched.places, t < w.sched.nextThread
  members : ∀ p, ∀ t ∈ (w.sched.proc p).threads, t < w.sched.nextThread
  killed : ∀ t, w.sched.state t = .killed → t ∈ w.doomed
  old : ∀ t ∈ w.doomed, t < w.sched.nextThread
  unqueued : ∀ t ∈ w.doomed, w.sched.Unqueued t
  stopped : ∀ t ∈ w.doomed, w.sched.state t ≠ .running

theorem Buried.congr (h : Buried w) (hcount : s'.cpuCount = w.sched.cpuCount)
    (hcpu : s'.cpu = w.sched.cpu) (hnext : s'.nextThread = w.sched.nextThread)
    (hmembers : ∀ p, (s'.proc p).threads ⊆ (w.sched.proc p).threads)
    (hstate : ∀ t, s'.state t = .running → w.sched.state t = .running) {new : Set ℕ}
    (hkilled : ∀ t, s'.state t = .killed → t ∈ w.doomed ∨ t ∈ new)
    (hnew : ∀ t ∈ new, t < w.sched.nextThread ∧ w.sched.Unqueued t ∧ s'.state t ≠ .running) :
    Buried ⟨s', w.doomed ∪ new⟩ := by
  have hplaces : s'.places = w.sched.places :=
    places_congr hcount (current_congr hcount hcpu) fun c => by rw [hcpu]
  have hunqueued : ∀ t, w.sched.Unqueued t → s'.Unqueued t := fun t ht c hc => by
    rw [hcpu]
    exact ht c (hcount ▸ hc)
  refine ⟨?_, ?_, fun p t ht => ?_, hkilled, fun t ht => ?_, fun t ht => ?_, fun t ht => ?_⟩
  · rw [hplaces]
    exact h.nodup
  · rw [hplaces, hnext]
    exact h.known
  · rw [hnext]
    exact h.members p t (hmembers p ht)
  · rw [hnext]
    obtain ht | ht := ht
    · exact h.old t ht
    · exact (hnew t ht).1
  · obtain ht | ht := ht
    · exact hunqueued t (h.unqueued t ht)
    · exact hunqueued t (hnew t ht).2.1
  · obtain ht | ht := ht
    · exact fun hrun => h.stopped t ht (hstate t hrun)
    · exact (hnew t ht).2.2

theorem Buried.keep (h : Buried w) (hquiet : Quiet w.sched s') : Buried ⟨s', w.doomed⟩ := by
  have hkeep : Buried ⟨s', w.doomed ∪ ∅⟩ :=
    h.congr hquiet.cpuCount_eq hquiet.cpu_eq hquiet.nextThread_eq
      (fun p => hquiet.threads_eq p ▸ List.Subset.refl _) (fun t ht => hquiet.state_eq t ▸ ht)
      (fun t ht => Or.inl (h.killed t (hquiet.state_eq t ▸ ht))) fun t ht => ht.elim
  rwa [Set.union_empty] at hkeep

theorem Buried.spawnNew (h : Buried w) (hn : 0 < w.sched.cpuCount)
    (hcount : s'.cpuCount = w.sched.cpuCount) (hcpu : s'.cpu = w.sched.cpu)
    (hstate : ∀ t, s'.state t = if t = w.sched.nextThread then .ready else w.sched.state t)
    (hnext : s'.nextThread = w.sched.nextThread + 1)
    (hmembers : ∀ p, ∀ t ∈ (s'.proc p).threads,
      t ∈ (w.sched.proc p).threads ∨ t = w.sched.nextThread) :
    Buried ⟨s'.threadSpawn w.sched.nextThread, w.doomed⟩ := by
  have hplaces : s'.places = w.sched.places :=
    places_congr hcount (current_congr hcount hcpu) fun c => by rw [hcpu]
  have hlt : s'.leastLoaded < s'.cpuCount := leastLoaded_lt (hcount ▸ hn)
  have hperm : (s'.threadSpawn w.sched.nextThread).places.Perm
      (w.sched.nextThread :: w.sched.places) := hplaces ▸ places_push hlt
  have hnew : ∀ t ∈ w.doomed, t ≠ w.sched.nextThread := fun t ht => Nat.ne_of_lt (h.old t ht)
  refine ⟨?_, fun t ht => ?_, fun p t ht => ?_, fun t ht => ?_, fun t ht => ?_,
    fun t ht c hc hmem => ?_, fun t ht => ?_⟩
  · refine hperm.nodup_iff.mpr (nodup_cons.mpr ⟨fun hmem => ?_, h.nodup⟩)
    exact absurd (h.known _ hmem) (Nat.lt_irrefl _)
  · show t < s'.nextThread
    obtain rfl | ht := mem_cons.mp (hperm.subset ht)
    · omega
    · have := h.known t ht
      omega
  · show t < s'.nextThread
    obtain ht | rfl := hmembers p t ht
    · have := h.members p t ht
      omega
    · omega
  · have ht : s'.state t = .killed := ht
    rw [hstate] at ht
    split at ht
    · cases ht
    · exact h.killed t ht
  · show t < s'.nextThread
    have := h.old t ht
    omega
  · have hc : c < w.sched.cpuCount := hcount ▸ hc
    by_cases hcl : c = s'.leastLoaded
    · subst hcl
      have hmem : t ∈ (s'.cpu s'.leastLoaded).runQueue ++ [w.sched.nextThread] := by
        simpa [threadSpawn, spawnOn, setCpu] using hmem
      rw [hcpu] at hmem
      obtain hmem | hmem := mem_append.mp hmem
      · exact h.unqueued t ht _ hc hmem
      · exact hnew t ht (mem_singleton.mp hmem)
    · have hmem : t ∈ (s'.cpu c).runQueue := by
        simpa [threadSpawn, spawnOn, setCpu, update_of_ne hcl] using hmem
      rw [hcpu] at hmem
      exact h.unqueued t ht c hc hmem
  · show s'.state t ≠ .running
    rw [hstate, if_neg (hnew t ht)]
    exact h.stopped t ht

/-- `schedule` without signals switches to a thread that may run. -/
theorem Buried.schedule (h : Buried w) (hsig : ∀ t, w.sched.upNext c = some t → w.sched.NoSignal t)
    (hsched : w.sched.schedule c = some s') :
    Buried ⟨s', w.doomed⟩ ∧ ∀ t, s'.current c = some t → t ∉ w.doomed := by
  have hnodup := nodup_places_schedule h.nodup hsched
  have hknown : ∀ t ∈ s'.places, t < w.sched.nextThread := fun t ht =>
    h.known t ((places_schedule hsched).subset ht)
  obtain ⟨halive, ⟨-, rfl⟩ | ⟨t, runQueue, hsw⟩⟩ := schedule_cases hsched
  · refine ⟨⟨hnodup, hknown, h.members, h.killed, h.old, fun u hu d hd hmem => ?_, h.stopped⟩,
      fun u hu => ?_⟩
    · have hqueue : ((w.sched.setCpu c { w.sched.cpu c with dead := true }).cpu d).runQueue = _ :=
        setCpu_keeps Cpu.runQueue (by rfl) d
      exact h.unqueued u hu d hd (hqueue ▸ hmem)
    · have hdead := (current_eq_some.mp hu).1.2
      simp [setCpu] at hdead
  · have hns : w.sched.NoSignal t := hsig t (by rw [upNext, hsw.queue_eq]; rfl)
    -- neither the old queue nor the thread put back is a doomed one
    have hre : ∀ u ∈ w.doomed, u ∉ w.sched.requeued c := fun u hu hmem =>
      h.stopped u hu (mem_requeued.mp hmem).2
    have htfree : t ∉ w.doomed := by
      intro ht
      have hmem : t ∈ (w.sched.cpu c).runQueue ++ w.sched.requeued c := by
        rw [hsw.queue_eq]
        exact mem_cons_self
      obtain hmem | hmem := mem_append.mp hmem
      · exact h.unqueued t ht c halive.1 hmem
      · exact hre t ht hmem
    refine ⟨⟨hnodup, ?_, ?_, fun u hu => ?_, ?_, fun u hu d hd hmem => ?_, fun u hu => ?_⟩,
      fun u hu => ?_⟩
    · rw [hsw.nextThread_eq]
      exact hknown
    · rw [hsw.nextThread_eq, hsw.proc_eq hns]
      exact h.members
    · rw [hsw.state_eq hns] at hu
      split at hu
      · cases hu
      · split at hu
        · cases hu
        · exact h.killed u hu
    · rw [hsw.nextThread_eq]
      exact h.old
    · obtain hmem | ⟨-, hmem⟩ := hsw.mem_runQueue hmem
      · exact h.unqueued u hu d (hsw.cpuCount_eq ▸ hd) hmem
      · exact hre u hu hmem
    · have hut : u ≠ t := fun hut => htfree (hut ▸ hu)
      rw [hsw.state_eq hns, if_neg hut, if_neg (hre u hu)]
      exact h.stopped u hu
    · have hcurr := (current_eq_some.mp hu).2
      rw [hsw.cpu_eq, update_self] at hcurr
      cases hcurr
      exact htfree

theorem Buried.of_subset {doomed doomed' : Set ℕ} (h : Buried ⟨s, doomed⟩)
    (hsub : doomed' ⊆ doomed) (hkilled : ∀ t, s.state t = .killed → t ∈ doomed') :
    Buried ⟨s, doomed'⟩ :=
  ⟨h.nodup, h.known, h.members, hkilled, fun t ht => h.old t (hsub ht),
    fun t ht => h.unqueued t (hsub ht), fun t ht => h.stopped t (hsub ht)⟩

theorem Buried.exec_of (new : Set ℕ) (h : Buried ⟨s', w.doomed ∪ new⟩)
    (hstops : a.stops w.sched ⊆ new) :
    Buried ⟨s', w.doomed ∪ {t | s'.state t = .killed} ∪ a.stops w.sched⟩ := by
  refine h.of_subset ?_ fun t ht => Or.inl (Or.inr ht)
  rintro t ((ht | ht) | ht)
  · exact Or.inl ht
  · exact h.killed t ht
  · exact Or.inr (hstops ht)

theorem Buried.exec_same (h : Buried ⟨s', w.doomed⟩) (hstops : a.stops w.sched = ∅) :
    Buried ⟨s', w.doomed ∪ {t | s'.state t = .killed} ∪ a.stops w.sched⟩ := by
  refine Buried.exec_of ∅ ?_ hstops.subset
  rwa [Set.union_empty]

theorem Buried.kill (h : Buried w) (ht : t < w.sched.nextThread) (hfree : w.sched.Unqueued t)
    {st : ThreadState} (hst : st ≠ .running) :
    Buried ⟨w.sched.setState t st, w.doomed ∪ {t}⟩ := by
  refine h.congr (rfl : (w.sched.setState t st).cpuCount = _) rfl rfl
    (fun _ => List.Subset.refl _) (fun u hu => ?_) (fun u hu => ?_) fun u hu => ?_
  · rw [setState_state] at hu
    split at hu
    · exact absurd hu hst
    · exact hu
  · rw [setState_state] at hu
    split at hu
    · exact Or.inr ‹u = t›
    · exact Or.inl (h.killed u hu)
  · obtain rfl := hu
    refine ⟨ht, hfree, ?_⟩
    rw [setState_state, if_pos rfl]
    exact hst

theorem Buried.schedKill (h : Buried w)
    (hlisted : ∀ t ∈ (w.sched.proc p).threads, w.sched.Unqueued t)
    (hcreated : ∀ t ∈ w.sched.createdIn p,
      t ∈ (w.sched.proc p).threads ∨ w.sched.Unqueued t ∧ w.sched.state t ≠ .running) :
    Buried ⟨w.sched.schedKill p,
      w.doomed ∪ ({t | t ∈ (w.sched.proc p).threads} ∪ w.sched.createdIn p)⟩ := by
  have hsame := schedKill_same w.sched p
  have hstate := schedKill_state w.sched p
  have hlist : ∀ t ∈ (w.sched.proc p).threads, t < w.sched.nextThread ∧ w.sched.Unqueued t ∧
      (w.sched.schedKill p).state t ≠ .running := fun t ht => by
    refine ⟨h.members p t ht, hlisted t ht, ?_⟩
    rw [hstate, if_pos ht]
    decide
  refine h.congr hsame.cpuCount_eq hsame.cpu_eq hsame.nextThread_eq
    (fun q => by rw [hsame.proc_eq]; exact List.Subset.refl _) (fun t ht => ?_) (fun t ht => ?_)
    fun t ht => ?_
  · rw [hstate] at ht
    split at ht
    · cases ht
    · exact ht
  · rw [hstate] at ht
    split at ht
    · exact Or.inr (Or.inl ‹_›)
    · exact Or.inl (h.killed t ht)
  · obtain ht | ht := ht
    · exact hlist t ht
    · obtain hmem | ⟨hfree, hstop⟩ := hcreated t ht
      · exact hlist t hmem
      · by_cases hmem : t ∈ (w.sched.proc p).threads
        · exact hlist t hmem
        · refine ⟨ht.1, hfree, ?_⟩
          rw [hstate, if_neg hmem]
          exact hstop

theorem Buried.exec (h : Buried w) (hkills : KillsUnqueued w.sched a)
    (hexec : w.exec a = some w') : Buried w' := by
  obtain ⟨s', hact, rfl⟩ := Option.map_eq_some_iff.mp hexec
  cases a with
  | schedule c =>
    refine (h.schedule hkills hact).1.exec_same (Set.eq_empty_iff_forall_notMem.mpr ?_)
    rintro t ⟨u, hu, hsig, -⟩
    exact hsig (hkills u hu)
  | spawnProc c =>
    obtain ⟨halive, hs'⟩ := Option.ite_none_right_eq_some.mp hact
    cases hs'
    refine Buried.exec_same
      (h.spawnNew halive.pos rfl rfl (mkProc_state _) rfl fun p t ht => ?_) rfl
    have ht : t ∈ (update w.sched.proc w.sched.nextProc _ p).threads := ht
    rw [update_apply] at ht
    split at ht
    · exact Or.inr (mem_singleton.mp ht)
    · exact Or.inl ht
  | createThread c =>
    obtain ⟨curr, hcurr, hs'⟩ := Option.bind_eq_some_iff.mp hact
    cases hs'
    refine Buried.exec_same (h.spawnNew (current_eq_some.mp hcurr).1.pos rfl rfl
      (threadCreat_state _ _) rfl fun p t ht => Or.inl ?_) rfl
    have ht : t ∈ (update w.sched.proc (w.sched.thread curr).parent _ p).threads := ht
    rw [update_apply] at ht
    split at ht
    · rename_i hp
      rw [hp]
      exact ht
    · exact ht
  | block c st =>
    obtain ⟨curr, hcurr, hs'⟩ := Option.bind_eq_some_iff.mp hact
    cases hs'
    have hplace := mem_places_of_current hcurr
    exact Buried.exec_of _ (h.kill (h.known curr hplace)
      ((onePlace_of_nodup h.nodup).notQueued c curr hcurr) hkills) (Set.empty_subset _)
  | unblock c t => exact hkills.elim
  | sweep c i now => exact hkills.elim
  | threadKill t =>
    obtain ⟨ht, hs'⟩ := Option.ite_none_right_eq_some.mp hact
    cases hs'
    exact Buried.exec_of _ (h.kill ht hkills (by decide)) (Set.empty_subset _)
  | schedKill p =>
    cases hact
    exact Buried.exec_of _ (h.schedKill hkills.1 hkills.2) Set.subset_union_right
  | sysKillThread c tid =>
    obtain ⟨curr, hcurr, hs'⟩ := Option.bind_eq_some_iff.mp hact
    split at hs'
    · cases hs'
      exact Buried.exec_same h rfl
    · rename_i t hfind
      cases hs'
      have hmem := mem_of_find?_eq_some hfind
      have htid : (w.sched.thread t).tid = tid := by
        simpa using find?_some hfind
      exact Buried.exec_of _ (h.kill (h.members _ t hmem) (hkills curr hcurr t hmem htid)
        (by decide)) (Set.empty_subset _)
  | sleep | semAcquire | semRelease | signalSend | sigaction =>
    exact Buried.exec_same (h.keep (Act.IsQuiet.exec (by exact trivial) hact)) rfl

def logInit (n : ℕ) : Log := ⟨smpInit n fun _ => 0, ∅⟩

theorem buried_logInit (n : ℕ) : Buried (logInit n) := by
  have htidy := tidy_smpInit n fun _ => 0
  refine ⟨htidy.nodup, htidy.known, fun _ _ ht => absurd ht not_mem_nil, fun _ ht => ?_,
    fun _ ht => ht.elim, fun _ ht => ht.elim, fun _ ht => ht.elim⟩
  cases ht

theorem run_buried {n : ℕ} (hrun : ReflTransGen (LogStep KillsUnqueued) (logInit n) w) :
    Buried w := by
  induction hrun with
  | refl => exact buried_logInit n
  | tail _ hstep ih =>
    cases hstep with
    | act hadmits hexec => exact ih.exec hadmits hexec

/-- In every run that kills threads only while they are in no queue, `schedule` never enters a
thread that has been killed before or is killed by the same call. -/
theorem killed_never_entered {n : ℕ}
    (hrun : ReflTransGen (LogStep KillsUnqueued) (logInit n) w)
    (hkills : KillsUnqueued w.sched (.schedule c)) (hexec : w.exec (.schedule c) = some w')
    (hentered : w'.sched.current c = some t) : t ∉ w'.doomed := by
  obtain ⟨s', hsched, rfl⟩ := Option.map_eq_some_iff.mp hexec
  obtain ⟨hburied, hfree⟩ := (run_buried hrun).schedule hkills hsched
  rintro ((ht | ht) | ⟨u, hu, hsig, -⟩)
  · exact hfree t hentered ht
  · exact hfree t hentered (hburied.killed t ht)
  · exact hsig (hkills u hu)

/-- A thread makes another one and exits; the other one is entered. -/
theorem killed_never_entered_exit :
    ∃ w w', ReflTransGen (LogStep KillsUnqueued) (logInit 1) w ∧
      w.exec (.schedule 0) = some w' ∧ 0 ∈ w'.doomed ∧ w'.sched.current 0 = some 1 ∧
      1 ∉ w'.doomed := by
  have hrun : ∃ w w', ReflTransGen (LogStep KillsUnqueued) (logInit 1) w ∧
      KillsUnqueued w.sched (.schedule 0) ∧ w.exec (.schedule 0) = some w' ∧ 0 ∈ w'.doomed ∧
      w'.sched.current 0 = some 1 := by
    refine ⟨_, _, .tail (.tail (.tail (.tail .refl
      (.act (a := .spawnProc 0) trivial rfl))
      (.act (a := .schedule 0) ?_ rfl))
      (.act (a := .createThread 0) trivial rfl))
      (.act (a := .block 0 .killed) nofun rfl), ?_, rfl, Or.inl (Or.inr rfl), rfl⟩
    · rintro t ht -
      cases ht
      rfl
    · rintro t ht htid
      cases ht
      cases htid
  obtain ⟨w, w', hrun, hkills, hexec, hdoomed, hentered⟩ := hrun
  exact ⟨w, w', hrun, hexec, hdoomed, hentered, killed_never_entered hrun hkills hexec hentered⟩

/-- A process with a second thread: while the primary thread waits in the queue, the second one
kills the process. The second thread is not killed, and the primary thread is entered again. -/
theorem killed_entered :
    ∃ w w', ReflTransGen (LogStep fun _ _ => True) (logInit 1) w ∧
      w.sched.state 0 = .killed ∧ w.sched.state 1 = .running ∧ 0 ∈ w.doomed ∧ 1 ∈ w.doomed ∧
      w.exec (.schedule 0) = some w' ∧ w'.sched.current 0 = some 0 ∧
      w'.sched.state 0 = .running := by
  refine ⟨_, _, .tail (.tail (.tail (.tail (.tail .refl
    (.act (a := .spawnProc 0) trivial rfl))
    (.act (a := .schedule 0) trivial rfl))
    (.act (a := .createThread 0) trivial rfl))
    (.act (a := .schedule 0) trivial rfl))
    (.act (a := .schedKill 0) trivial rfl), rfl, rfl, Or.inl (Or.inr rfl),
    Or.inr ⟨by decide, rfl⟩, rfl, rfl, rfl⟩

end KernelOld.Sched
