import KernelOld.Sched.Defs

/-!
# What the steps of the scheduler do

`schedule_cases` says everything that `schedule` can do: the CPU stops, or it switches to the
first thread of its queue, to which the current thread may just have been added (`requeued`).
-/

namespace KernelOld.Sched
open Function List

namespace Scheduler

variable {s s' : Scheduler} {c t u p : ℕ}

variable {d : ℕ} {runQueue : List ℕ}

theorem leastOf_le (s : Scheduler) (k : ℕ) : s.leastOf k ≤ k := by
  induction k with
  | zero => exact Nat.le_refl 0
  | succ k ih =>
    rw [leastOf]
    split
    · exact Nat.le_refl _
    · exact Nat.le_succ_of_le ih

theorem leastLoaded_lt (hn : 0 < s.cpuCount) : s.leastLoaded < s.cpuCount :=
  Nat.lt_of_le_of_lt (s.leastOf_le _) (Nat.sub_lt hn Nat.one_pos)

/-- `thread_spawn` prefers the CPU `d` to the CPU `c`: it has fewer threads, or as many and a lower
number. -/
def Lighter (s : Scheduler) (d c : ℕ) : Prop :=
  (s.cpu d).threads.length < (s.cpu c).threads.length ∨
    (s.cpu d).threads.length = (s.cpu c).threads.length ∧ d < c

theorem leastOf_not_lighter {k : ℕ} (hd : d ≤ k) : ¬s.Lighter d (s.leastOf k) := by
  rw [Lighter]
  induction k with
  | zero =>
    obtain rfl := Nat.le_zero.mp hd
    rw [leastOf]
    omega
  | succ k ih =>
    have hk := s.leastOf_le k
    rw [leastOf]
    by_cases hlt : (s.cpu (k + 1)).threads.length < (s.cpu (s.leastOf k)).threads.length
    · rw [if_pos hlt]
      obtain rfl | hd := Nat.eq_or_lt_of_le hd
      · omega
      · have := ih (Nat.le_of_lt_succ hd)
        omega
    · rw [if_neg hlt]
      obtain rfl | hd := Nat.eq_or_lt_of_le hd
      · omega
      · exact ih (Nat.le_of_lt_succ hd)

theorem leastLoaded_ne (hd : d < s.cpuCount) (hlight : s.Lighter d c) :
    s.leastLoaded ≠ c := by
  rintro rfl
  exact leastOf_not_lighter (Nat.le_sub_one_of_lt hd) hlight

theorem Alive.pos (h : s.Alive c) : 0 < s.cpuCount := Nat.lt_of_le_of_lt (Nat.zero_le c) h.1

theorem current_eq_some : s.current c = some t ↔ s.Alive c ∧ (s.cpu c).currthread = some t := by
  rw [current]
  split
  · rename_i halive
    exact (and_iff_right halive).symm
  · rename_i hdead
    exact iff_of_false (by simp) fun h => hdead h.1

theorem current_congr (hcount : s'.cpuCount = s.cpuCount) (hcpu : s'.cpu = s.cpu) :
    s'.current = s.current := by
  funext c
  rw [current, current, hcount, hcpu]

theorem setCpu_keeps {β : Type} {cpu : Cpu} (f : Cpu → β) (hf : f cpu = f (s.cpu c)) (d : ℕ) :
    f ((s.setCpu c cpu).cpu d) = f (s.cpu d) := by
  show f (update s.cpu c cpu d) = _
  rw [update_apply]
  split
  · rename_i hdc
    rw [hdc, hf]
  · rfl

@[simp] theorem setState_state (s : Scheduler) (t : ℕ) (st : ThreadState) (u : ℕ) :
    (s.setState t st).state u = if u = t then st else s.state u := by
  show (update s.thread t _ u).state = _
  rw [update_apply]
  split <;> rfl

theorem setState_parent (s : Scheduler) (t : ℕ) (st : ThreadState) (u : ℕ) :
    ((s.setState t st).thread u).parent = (s.thread u).parent := by
  show (update s.thread t _ u).parent = _
  rw [update_apply]
  split
  · rename_i h
    rw [h]
  · rfl

theorem setState_tid (s : Scheduler) (t : ℕ) (st : ThreadState) (u : ℕ) :
    ((s.setState t st).thread u).tid = (s.thread u).tid := by
  show (update s.thread t _ u).tid = _
  rw [update_apply]
  split
  · rename_i h
    rw [h]
  · rfl

structure SameButStates (s s' : Scheduler) : Prop where
  cpuCount_eq : s'.cpuCount = s.cpuCount
  cpu_eq : s'.cpu = s.cpu
  parent_eq : ∀ u, (s'.thread u).parent = (s.thread u).parent
  tid_eq : ∀ u, (s'.thread u).tid = (s.thread u).tid
  sleepexp_eq : ∀ u, (s'.thread u).sleepexp = (s.thread u).sleepexp
  proc_eq : s'.proc = s.proc
  sem_eq : s'.sem = s.sem
  nextThread_eq : s'.nextThread = s.nextThread
  nextProc_eq : s'.nextProc = s.nextProc

theorem sameButStates_setState (s : Scheduler) (t : ℕ) (st : ThreadState) :
    SameButStates s (s.setState t st) where
  cpuCount_eq := rfl
  cpu_eq := rfl
  parent_eq := setState_parent s t st
  tid_eq := setState_tid s t st
  sleepexp_eq u := by
    show (update s.thread t _ u).sleepexp = _
    rw [update_apply]
    split
    · rename_i h
      rw [h]
    · rfl
  proc_eq := rfl
  sem_eq := rfl
  nextThread_eq := rfl
  nextProc_eq := rfl

theorem SameButStates.trans {s'' : Scheduler} (h : SameButStates s s')
    (h' : SameButStates s' s'') : SameButStates s s'' where
  cpuCount_eq := h'.cpuCount_eq.trans h.cpuCount_eq
  cpu_eq := h'.cpu_eq.trans h.cpu_eq
  parent_eq u := (h'.parent_eq u).trans (h.parent_eq u)
  tid_eq u := (h'.tid_eq u).trans (h.tid_eq u)
  sleepexp_eq u := (h'.sleepexp_eq u).trans (h.sleepexp_eq u)
  proc_eq := h'.proc_eq.trans h.proc_eq
  sem_eq := h'.sem_eq.trans h.sem_eq
  nextThread_eq := h'.nextThread_eq.trans h.nextThread_eq
  nextProc_eq := h'.nextProc_eq.trans h.nextProc_eq

theorem killAll_spec (s : Scheduler) (ts : List ℕ) :
    SameButStates s (ts.foldl (fun s t => s.setState t .killed) s) ∧
      ∀ u, (ts.foldl (fun s t => s.setState t .killed) s).state u =
        if u ∈ ts then .killed else s.state u := by
  induction ts generalizing s with
  | nil => exact ⟨⟨rfl, rfl, fun _ => rfl, fun _ => rfl, fun _ => rfl, rfl, rfl, rfl, rfl⟩,
      fun u => by simp⟩
  | cons t ts ih =>
    obtain ⟨hsame, hstate⟩ := ih (s.setState t .killed)
    refine ⟨(sameButStates_setState s t .killed).trans hsame, fun u => ?_⟩
    rw [foldl_cons, hstate, setState_state]
    by_cases hu : u ∈ ts
    · rw [if_pos hu, if_pos (mem_cons_of_mem t hu)]
    · by_cases hut : u = t
      · rw [if_neg hu, if_pos hut, if_pos (hut ▸ mem_cons_self)]
      · rw [if_neg hu, if_neg hut, if_neg (by simp [hu, hut])]

theorem schedKill_same (s : Scheduler) (p : ℕ) : SameButStates s (s.schedKill p) :=
  (killAll_spec s _).1

theorem schedKill_state (s : Scheduler) (p u : ℕ) :
    (s.schedKill p).state u = if u ∈ (s.proc p).threads then .killed else s.state u :=
  (killAll_spec s _).2 u

theorem threadCreat_state (s : Scheduler) (p u : ℕ) :
    (s.threadCreat p).1.state u = if u = s.nextThread then .ready else s.state u := by
  show (update s.thread s.nextThread _ u).state = _
  rw [update_apply]
  split <;> rfl

theorem mkProc_state (s : Scheduler) (u : ℕ) :
    s.mkProc.1.state u = if u = s.nextThread then .ready else s.state u := by
  show (update s.thread s.nextThread _ u).state = _
  rw [update_apply]
  split <;> rfl

def requeued (s : Scheduler) (c : ℕ) : List ℕ :=
  (s.cpu c).currthread.toList.filter fun t => s.state t = .running

theorem mem_requeued : t ∈ s.requeued c ↔
    (s.cpu c).currthread = some t ∧ s.state t = .running := by
  simp [requeued]

theorem requeued_sublist (s : Scheduler) (c : ℕ) :
    (s.requeued c).Sublist (s.cpu c).currthread.toList := filter_sublist

theorem saveCurrent_eq_self (h : s.requeued c = []) : s.saveCurrent c = s := by
  cases hcurr : (s.cpu c).currthread with
  | none => simp only [saveCurrent, hcurr]
  | some t =>
    have hrun : s.state t ≠ .running := by
      intro hrun
      have hmem : t ∈ s.requeued c := mem_requeued.mpr ⟨hcurr, hrun⟩
      rw [h] at hmem
      cases hmem
    simp only [saveCurrent, hcurr, if_neg hrun]

theorem saveCurrent_spec (s : Scheduler) (c : ℕ) :
    SameButStates (s.setCpu c
        { s.cpu c with runQueue := (s.cpu c).runQueue ++ s.requeued c }) (s.saveCurrent c) ∧
      ∀ u, (s.saveCurrent c).state u = if u ∈ s.requeued c then .ready else s.state u := by
  by_cases hnone : s.requeued c = []
  · rw [saveCurrent_eq_self hnone, hnone]
    refine ⟨⟨rfl, ?_, fun _ => rfl, fun _ => rfl, fun _ => rfl, rfl, rfl, rfl, rfl⟩,
      fun u => (if_neg not_mem_nil).symm⟩
    show s.cpu = update s.cpu c _
    rw [append_nil, update_eq_self]
  · obtain ⟨t, ht⟩ := exists_mem_of_ne_nil _ hnone
    obtain ⟨hcurr, hrun⟩ := mem_requeued.mp ht
    have hone : s.requeued c = [t] := by simp [requeued, hcurr, hrun]
    have hsave : s.saveCurrent c = (s.setState t .ready).enqueue c t := by
      simp only [saveCurrent, hcurr, if_pos hrun]
    rw [hsave, hone]
    refine ⟨sameButStates_setState (s.setCpu c _) t .ready, fun u => ?_⟩
    show (s.setState t .ready).state u = _
    rw [setState_state]
    simp only [mem_singleton]

def turnTo (s : Scheduler) (c t : ℕ) (runQueue : List ℕ) : Scheduler :=
  ((s.saveCurrent c).setCpu c { s.cpu c with currthread := some t, runQueue }).setState t .running

theorem turnTo_spec (s : Scheduler) (c t : ℕ) (runQueue : List ℕ) :
    SameButStates (s.setCpu c { s.cpu c with currthread := some t, runQueue })
        (s.turnTo c t runQueue) ∧
      ∀ u, (s.turnTo c t runQueue).state u =
        if u = t then .running else if u ∈ s.requeued c then .ready else s.state u := by
  obtain ⟨hsame, hstate⟩ := saveCurrent_spec s c
  have hsaved : SameButStates (s.setCpu c { s.cpu c with currthread := some t, runQueue })
      ((s.saveCurrent c).setCpu c { s.cpu c with currthread := some t, runQueue }) := by
    refine { hsame with cpu_eq := ?_ }
    show update (s.saveCurrent c).cpu c _ = update s.cpu c _
    rw [hsame.cpu_eq]
    exact update_idem ..
  refine ⟨hsaved.trans (sameButStates_setState _ t .running), fun u => ?_⟩
  rw [turnTo, setState_state]
  congr 1
  exact hstate u

theorem schedule_of_nil (halive : s.Alive c)
    (hqueue : (s.cpu c).runQueue ++ s.requeued c = []) :
    s.schedule c = some (s.setCpu c { s.cpu c with dead := true }) := by
  obtain ⟨hempty, hnone⟩ := append_eq_nil_iff.mp hqueue
  rw [schedule, if_pos halive]
  dsimp only
  rw [saveCurrent_eq_self hnone, hempty]

theorem schedule_of_cons (halive : s.Alive c)
    (hqueue : (s.cpu c).runQueue ++ s.requeued c = t :: runQueue) :
    s.schedule c = (s.turnTo c t runQueue).deliver t := by
  have hcpu : (s.saveCurrent c).cpu c = { s.cpu c with runQueue := t :: runQueue } := by
    rw [(saveCurrent_spec s c).1.cpu_eq, ← hqueue]
    exact update_self ..
  rw [schedule, if_pos halive]
  dsimp only
  rw [hcpu]
  rfl

def NoSignal (s : Scheduler) (t : ℕ) : Prop :=
  (s.thread t).tid = 0 → (s.proc (s.thread t).parent).sigstack = []

theorem deliver_of_noSignal (h : s.NoSignal t) : s.deliver t = some s := by
  rw [deliver]
  by_cases htid : (s.thread t).tid = 0
  · simp only [if_pos htid, h htid]
  · rw [if_neg htid]

theorem deliver_cases (h : s.deliver t = some s') :
    s.NoSignal t ∧ s' = s ∨
      ∃ sigstack, SameButStates (s.setProc (s.thread t).parent
        { s.proc (s.thread t).parent with sigstack }) s' := by
  by_cases hsig : s.NoSignal t
  · rw [deliver_of_noSignal hsig] at h
    exact Or.inl ⟨hsig, (Option.some.inj h).symm⟩
  · obtain ⟨htid, hne⟩ := Classical.not_imp.mp hsig
    rw [deliver, if_pos htid] at h
    cases hstack : (s.proc (s.thread t).parent).sigstack with
    | nil => exact absurd hstack hne
    | cons sig sigstack =>
      rw [hstack] at h
      refine Or.inr ⟨sigstack, ?_⟩
      dsimp only [signalHandle] at h
      split at h
      · cases h
      · split at h
        · cases h
          exact ⟨rfl, rfl, fun _ => rfl, fun _ => rfl, fun _ => rfl, rfl, rfl, rfl, rfl⟩
        · cases h
          exact schedKill_same _ _
        · cases h
          exact schedKill_same _ _
        · cases h

structure Switched (s s' : Scheduler) (c t : ℕ) (runQueue : List ℕ) : Prop where
  queue_eq : (s.cpu c).runQueue ++ s.requeued c = t :: runQueue
  cpuCount_eq : s'.cpuCount = s.cpuCount
  cpu_eq : s'.cpu = update s.cpu c { s.cpu c with currthread := some t, runQueue }
  parent_eq : ∀ u, (s'.thread u).parent = (s.thread u).parent
  sem_eq : s'.sem = s.sem
  nextThread_eq : s'.nextThread = s.nextThread
  proc_eq : s.NoSignal t → s'.proc = s.proc
  state_eq : s.NoSignal t → ∀ u,
    s'.state u = if u = t then .running else if u ∈ s.requeued c then .ready else s.state u

theorem Switched.mem_runQueue (h : Switched s s' c t runQueue) (hu : u ∈ (s'.cpu d).runQueue) :
    u ∈ (s.cpu d).runQueue ∨ d = c ∧ u ∈ s.requeued c := by
  rw [h.cpu_eq] at hu
  by_cases hdc : d = c
  · subst hdc
    have hmem : u ∈ (s.cpu d).runQueue ++ s.requeued d := by
      rw [h.queue_eq]
      exact mem_cons_of_mem t (by simpa using hu)
    exact (mem_append.mp hmem).imp_right fun hu => ⟨rfl, hu⟩
  · rw [update_of_ne hdc] at hu
    exact Or.inl hu

theorem Switched.count_runQueue (h : Switched s s' c t runQueue) (htu : t ≠ u)
    (hu : u ∉ s.requeued c) (d : ℕ) :
    (s'.cpu d).runQueue.count u = (s.cpu d).runQueue.count u := by
  rw [h.cpu_eq]
  by_cases hdc : d = c
  · subst hdc
    rw [update_self]
    calc runQueue.count u
      _ = (t :: runQueue).count u := (count_cons_of_ne htu).symm
      _ = ((s.cpu d).runQueue ++ s.requeued d).count u := by rw [h.queue_eq]
      _ = (s.cpu d).runQueue.count u := by
        rw [count_append, count_eq_zero.mpr hu, Nat.add_zero]
  · rw [update_of_ne hdc]

theorem turnTo_noSignal (h : s.NoSignal t) :
    (s.turnTo c t runQueue).NoSignal t := by
  obtain ⟨hsame, -⟩ := turnTo_spec s c t runQueue
  intro htid
  rw [hsame.parent_eq, hsame.proc_eq]
  exact h ((hsame.tid_eq t).symm.trans htid)

theorem switched_of_deliver (hqueue : (s.cpu c).runQueue ++ s.requeued c = t :: runQueue)
    (h : (s.turnTo c t runQueue).deliver t = some s') : Switched s s' c t runQueue := by
  obtain ⟨hsame, hstate⟩ := turnTo_spec s c t runQueue
  have hquiet : s.NoSignal t → s' = s.turnTo c t runQueue := by
    intro hsig
    rw [deliver_of_noSignal (turnTo_noSignal hsig)] at h
    exact (Option.some.inj h).symm
  have hproc : s.NoSignal t → s'.proc = s.proc := fun hsig => hquiet hsig ▸ hsame.proc_eq
  have hstates : s.NoSignal t → ∀ u, s'.state u =
      if u = t then .running else if u ∈ s.requeued c then .ready else s.state u :=
    fun hsig => hquiet hsig ▸ hstate
  obtain ⟨-, rfl⟩ | ⟨sigstack, hkill⟩ := deliver_cases h
  · exact ⟨hqueue, hsame.cpuCount_eq, hsame.cpu_eq, hsame.parent_eq, hsame.sem_eq,
      hsame.nextThread_eq, hproc, hstates⟩
  · exact ⟨hqueue, hkill.cpuCount_eq.trans hsame.cpuCount_eq, hkill.cpu_eq.trans hsame.cpu_eq,
      fun u => (hkill.parent_eq u).trans (hsame.parent_eq u), hkill.sem_eq.trans hsame.sem_eq,
      hkill.nextThread_eq.trans hsame.nextThread_eq, hproc, hstates⟩

theorem schedule_cases (h : s.schedule c = some s') :
    s.Alive c ∧
      ((s.cpu c).runQueue ++ s.requeued c = [] ∧
          s' = s.setCpu c { s.cpu c with dead := true } ∨
        ∃ t runQueue, Switched s s' c t runQueue) := by
  by_cases halive : s.Alive c
  · refine ⟨halive, ?_⟩
    cases hqueue : (s.cpu c).runQueue ++ s.requeued c with
    | nil =>
      rw [schedule_of_nil halive hqueue] at h
      exact Or.inl ⟨rfl, (Option.some.inj h).symm⟩
    | cons t runQueue =>
      rw [schedule_of_cons halive hqueue] at h
      exact Or.inr ⟨t, runQueue, switched_of_deliver hqueue h⟩
  · rw [schedule, if_neg halive] at h
    cases h

structure Quiet (s s' : Scheduler) : Prop where
  cpuCount_eq : s'.cpuCount = s.cpuCount
  cpu_eq : s'.cpu = s.cpu
  nextThread_eq : s'.nextThread = s.nextThread
  threads_eq : ∀ p, (s'.proc p).threads = (s.proc p).threads
  state_eq : ∀ t, s'.state t = s.state t

theorem quiet_setProc {proc : Proc} (h : proc.threads = (s.proc p).threads) :
    Quiet s (s.setProc p proc) := by
  refine ⟨rfl, rfl, rfl, fun q => ?_, fun _ => rfl⟩
  show (update s.proc p proc q).threads = _
  rw [update_apply]
  split
  · rename_i hq
    rw [hq, h]
  · rfl

theorem quiet_setThread {thread : Thread} (h : thread.state = s.state t) :
    Quiet s (s.setThread t thread) := by
  refine ⟨rfl, rfl, rfl, fun _ => rfl, fun u => ?_⟩
  show (update s.thread t thread u).state = _
  rw [update_apply]
  split
  · rename_i hu
    rw [hu, h]
  · rfl

theorem quiet_setSem (s : Scheduler) (k : ℕ) (sem : Sem) : Quiet s (s.setSem k sem) :=
  ⟨rfl, rfl, rfl, fun _ => rfl, fun _ => rfl⟩

end Scheduler

open Scheduler

def Act.IsQuiet : Act → Prop
  | .sleep .. | .semAcquire .. | .semRelease .. | .signalSend .. | .sigaction .. => True
  | _ => False

theorem Act.IsQuiet.exec {s s' : Scheduler} {a : Act} (h : a.IsQuiet)
    (hexec : a.exec s = some s') : Quiet s s' := by
  cases a with
  | sleep c timepoint =>
    obtain ⟨curr, -, hs'⟩ := Option.bind_eq_some_iff.mp hexec
    cases hs'
    exact quiet_setThread rfl
  | semAcquire c k =>
    obtain ⟨curr, -, hs'⟩ := Option.bind_eq_some_iff.mp hexec
    dsimp only at hs'
    split at hs'
    · cases hs'
      exact quiet_setSem ..
    · cases hs'
      exact quiet_setSem ..
  | semRelease c k =>
    obtain ⟨curr, -, hs'⟩ := Option.bind_eq_some_iff.mp hexec
    dsimp only at hs'
    split at hs'
    · cases hs'
      exact quiet_setSem ..
    · cases hs'
      exact quiet_setSem ..
  | signalSend p signo =>
    obtain ⟨-, hs'⟩ := Option.ite_none_right_eq_some.mp hexec
    cases hs'
    exact quiet_setProc rfl
  | sigaction c signum handler =>
    obtain ⟨curr, -, hs'⟩ := Option.bind_eq_some_iff.mp hexec
    obtain ⟨-, hs'⟩ := Option.ite_none_right_eq_some.mp hs'
    cases hs'
    exact quiet_setProc rfl
  | _ => exact h.elim

def Act.KeepsCpus : Act → Prop
  | .schedule .. | .spawnProc .. | .createThread .. | .unblock .. | .sweep .. => False
  | _ => True

theorem Act.KeepsCpus.exec {s s' : Scheduler} {a : Act} (h : a.KeepsCpus)
    (hexec : a.exec s = some s') :
    s'.cpuCount = s.cpuCount ∧ s'.cpu = s.cpu ∧ s'.nextThread = s.nextThread := by
  cases a with
  | schedule | spawnProc | createThread | unblock | sweep => exact h.elim
  | block c st =>
    obtain ⟨curr, -, hs'⟩ := Option.bind_eq_some_iff.mp hexec
    cases hs'
    exact ⟨rfl, rfl, rfl⟩
  | threadKill t =>
    obtain ⟨-, hs'⟩ := Option.ite_none_right_eq_some.mp hexec
    cases hs'
    exact ⟨rfl, rfl, rfl⟩
  | schedKill p =>
    cases hexec
    have hsame := schedKill_same s p
    exact ⟨hsame.cpuCount_eq, hsame.cpu_eq, hsame.nextThread_eq⟩
  | sysKillThread c tid =>
    obtain ⟨curr, -, hs'⟩ := Option.bind_eq_some_iff.mp hexec
    split at hs'
    · cases hs'
      exact ⟨rfl, rfl, rfl⟩
    · cases hs'
      exact ⟨rfl, rfl, rfl⟩
  | sleep | semAcquire | semRelease | signalSend | sigaction =>
    have hquiet := Act.IsQuiet.exec (by exact trivial) hexec
    exact ⟨hquiet.cpuCount_eq, hquiet.cpu_eq, hquiet.nextThread_eq⟩

end KernelOld.Sched
