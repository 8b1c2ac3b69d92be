import Mathlib.Data.List.Rotate
import KernelOld.Sched.Semaphore
import KernelOld.Sched.Steps

/-!
# Round robin

`schedule` of `sched/sched.c` with the run queue of its CPU in memory, the lock, and the saved
registers.
-/

namespace KernelOld.Sched
open LinkedList Function Scheduler List

variable {ρ : Type}

/-- The sequence that `sched` has in place of the run queue is not looked at. -/
structure Kern (ρ : Type) where
  sched : Scheduler
  lock : Bool
  runQueue : ListT ℕ
  regs : ℕ → ρ

def Kern.saveCurrent (k : Kern ρ) (c : ℕ) (r : ρ) (node : ℕ) : Option (Kern ρ) :=
  match (k.sched.cpu c).currthread with
  | none => some k
  | some t =>
    let k := { k with regs := update k.regs t r }
    if k.sched.state t = .running then do
      let runQueue ← listPushBackLive k.runQueue t node
      some { k with sched := k.sched.setState t .ready, runQueue }
    else some k

def Kern.schedule (k : Kern ρ) (c : ℕ) (r : ρ) (node : ℕ) : Option (Kern ρ) :=
  -- The lock is taken: `schedule` returns.
  if k.lock then some k
  else if k.sched.Alive c then do
    let k ← ({ k with lock := true } : Kern ρ).saveCurrent c r node
    if k.runQueue.head ≠ 0 then do
      let (runQueue, val) ← listPopFront k.runQueue
      let t ← val
      let sched := k.sched.setCpu c { k.sched.cpu c with currthread := some t }
      let sched ← (sched.setState t .running).deliver t
      some { k with sched, runQueue, lock := false }
    else
      let sched := k.sched.setCpu c { k.sched.cpu c with dead := true }
      some { k with sched, lock := false }
  else none

/-! ## The queue as a sequence -/

variable {heap c t u node j : ℕ} {s s' : Scheduler} {k k' : Kern ρ} {ts all : List ℕ} {r : ρ}

def Scheduler.withQueue (s : Scheduler) (c : ℕ) (ts : List ℕ) : Scheduler :=
  s.setCpu c { s.cpu c with runQueue := ts }

variable {init : Kern ρ} {t₀ : ℕ}

theorem Scheduler.withQueue_cpu (s : Scheduler) (c : ℕ) (ts : List ℕ) :
    (s.withQueue c ts).cpu c = { s.cpu c with runQueue := ts } := update_self ..

theorem Scheduler.withQueue_alive : (s.withQueue c ts).Alive c ↔ s.Alive c := by
  rw [Scheduler.Alive, s.withQueue_cpu]
  rfl

theorem Scheduler.withQueue_setCpu (s : Scheduler) (c : ℕ) (ts : List ℕ) (cpu : Cpu) :
    (s.withQueue c ts).setCpu c cpu = s.setCpu c cpu := by
  have hcpu : update (update s.cpu c { s.cpu c with runQueue := ts }) c cpu =
      update s.cpu c cpu := update_idem ..
  rw [withQueue, setCpu, setCpu, setCpu, hcpu]

theorem Scheduler.setCpu_withQueue (s : Scheduler) (c : ℕ) (ts : List ℕ) (cpu : Cpu) :
    (s.setCpu c cpu).withQueue c ts = s.setCpu c { cpu with runQueue := ts } := by
  have hcpu : update (update s.cpu c cpu) c { cpu with runQueue := ts } =
      update s.cpu c { cpu with runQueue := ts } := update_idem ..
  have hself : (s.setCpu c cpu).cpu c = cpu := update_self ..
  rw [withQueue, hself, setCpu, setCpu, setCpu, hcpu]

theorem Scheduler.withQueue_turned (s : Scheduler) (c t : ℕ) (us : List ℕ) :
    ((s.withQueue c (t :: us)).setCpu c
        { s.cpu c with currthread := some t, runQueue := us }).setState t .running =
      ((s.setCpu c { s.cpu c with currthread := some t }).setState t .running).withQueue c us := by
  let cpu : Cpu := { s.cpu c with currthread := some t }
  show ((s.withQueue c (t :: us)).setCpu c { cpu with runQueue := us }).setState t .running = _
  rw [withQueue_setCpu, ← setCpu_withQueue]
  rfl

theorem Scheduler.withQueue_killAll (s : Scheduler) (c : ℕ) (ts us : List ℕ) :
    us.foldl (fun s t => s.setState t .killed) (s.withQueue c ts) =
      (us.foldl (fun s t => s.setState t .killed) s).withQueue c ts := by
  induction us generalizing s with
  | nil => rfl
  | cons u us ih => exact ih (s.setState u .killed)

theorem Scheduler.withQueue_signalHandle (s : Scheduler) (c : ℕ) (ts : List ℕ) (p : ℕ)
    (sig : Signal) :
    (s.withQueue c ts).signalHandle p sig = (s.signalHandle p sig).map (·.withQueue c ts) := by
  have hkill : (s.withQueue c ts).schedKill p = (s.schedKill p).withQueue c ts :=
    s.withQueue_killAll c ts _
  rw [signalHandle, signalHandle, hkill]
  show (if (s.proc p).signals sig.signo ≠ 0 then none else _) = _
  split_ifs
  · rfl
  · cases sigacts sig.signo with
    | none => rfl
    | some act => cases act <;> rfl

theorem Scheduler.deliver_of_cons {sig : Signal} {sigstack : List Signal}
    (htid : (s.thread t).tid = 0)
    (hstack : (s.proc (s.thread t).parent).sigstack = sig :: sigstack) :
    s.deliver t = (s.setProc (s.thread t).parent
      { s.proc (s.thread t).parent with sigstack }).signalHandle (s.thread t).parent sig := by
  rw [deliver]
  simp only [htid, hstack, if_true]

theorem Scheduler.withQueue_deliver (s : Scheduler) (c : ℕ) (ts : List ℕ) (t : ℕ) :
    (s.withQueue c ts).deliver t = (s.deliver t).map (·.withQueue c ts) := by
  by_cases hquiet : s.NoSignal t
  · have hquiet' : (s.withQueue c ts).NoSignal t := hquiet
    rw [deliver_of_noSignal hquiet, deliver_of_noSignal hquiet', Option.map_some]
  · obtain ⟨htid, hsig⟩ := Classical.not_imp.mp hquiet
    obtain ⟨sig, sigstack, hstack⟩ := exists_cons_of_ne_nil hsig
    rw [deliver_of_cons htid hstack]
    calc (s.withQueue c ts).deliver t
      _ = ((s.withQueue c ts).setProc _ _).signalHandle _ sig :=
        deliver_of_cons (s := s.withQueue c ts) htid hstack
      _ = _ := (s.setProc _ _).withQueue_signalHandle c ts _ sig

theorem Scheduler.withQueue_enqueue (s : Scheduler) (c : ℕ) (ts : List ℕ) (t : ℕ) :
    (s.withQueue c ts).enqueue c t = s.withQueue c (ts ++ [t]) := by
  rw [enqueue, withQueue_cpu, withQueue_setCpu]
  rfl

def Kern.savedRegs (k : Kern ρ) (c : ℕ) (r : ρ) : ℕ → ρ :=
  match (k.sched.cpu c).currthread with
  | none => k.regs
  | some t => update k.regs t r

theorem Kern.saveCurrent_refines (hwaits : Waits heap k.runQueue ts)
    (hfresh : Fresh heap k.runQueue node) (r : ρ) :
    ∃ k' us, k.saveCurrent c r node = some k' ∧ Waits heap k'.runQueue us ∧
      (k.sched.withQueue c ts).saveCurrent c = k'.sched.withQueue c us ∧
      k'.regs = k.savedRegs c r := by
  have hcurr : ((k.sched.withQueue c ts).cpu c).currthread = (k.sched.cpu c).currthread := by
    rw [withQueue_cpu]
  rw [Kern.saveCurrent, Scheduler.saveCurrent, Kern.savedRegs, hcurr]
  cases (k.sched.cpu c).currthread with
  | none => exact ⟨k, ts, rfl, hwaits, rfl, rfl⟩
  | some t =>
    have hstate : (k.sched.withQueue c ts).state t = k.sched.state t := rfl
    dsimp only
    rw [hstate]
    split_ifs
    · obtain ⟨runQueue, hpush, hwaits'⟩ := hwaits.pushBack hfresh t
      rw [hpush]
      exact ⟨_, ts ++ [t], rfl, hwaits', (k.sched.setState t .ready).withQueue_enqueue c ts t, rfl⟩
    · exact ⟨_, ts, rfl, hwaits, rfl, rfl⟩

/-- `schedule` with the queue in memory does what it does with a sequence. -/
theorem Kern.schedule_refines (hlock : k.lock = false) (hwaits : Waits heap k.runQueue ts)
    (hfresh : Fresh heap k.runQueue node) (r : ρ)
    (hs : (k.sched.withQueue c ts).schedule c = some s') :
    ∃ k' us, k.schedule c r node = some k' ∧ k'.lock = false ∧ Waits heap k'.runQueue us ∧
      s' = k'.sched.withQueue c us ∧ k'.regs = k.savedRegs c r := by
  have halive : k.sched.Alive c := withQueue_alive.mp (schedule_cases hs).1
  obtain ⟨k₁, us, hsave, hwaits₁, hsched, hregs⟩ :=
    Kern.saveCurrent_refines (k := { k with lock := true }) hwaits hfresh r
  rw [Kern.schedule, hlock, if_neg Bool.false_ne_true, if_pos halive, hsave]
  rw [Scheduler.schedule, if_pos (withQueue_alive.mpr halive)] at hs
  dsimp only at hs
  rw [hsched, withQueue_cpu] at hs
  dsimp only at hs
  cases us with
  | nil =>
    have hempty : ¬k₁.runQueue.head ≠ 0 := not_not_intro (hwaits₁.head_eq_zero_iff.mpr rfl)
    refine ⟨_, [], if_neg hempty, rfl, hwaits₁, ?_, hregs⟩
    rw [withQueue_setCpu] at hs
    rw [setCpu_withQueue, ← Option.some.inj hs]
  | cons t us =>
    have hhead : k₁.runQueue.head ≠ 0 :=
      mt hwaits₁.head_eq_zero_iff.mp (cons_ne_nil t us)
    obtain ⟨runQueue, hpop, hwaits'⟩ := hwaits₁.popFront
    let turned :=
      (k₁.sched.setCpu c { k₁.sched.cpu c with currthread := some t }).setState t .running
    have hdeliver : (turned.withQueue c us).deliver t = some s' := by
      rw [← k₁.sched.withQueue_turned]
      exact hs
    rw [withQueue_deliver, Option.map_eq_some_iff] at hdeliver
    obtain ⟨sched, hdeliver, rfl⟩ := hdeliver
    refine ⟨{ k₁ with sched, runQueue, lock := false }, us, ?_, rfl, hwaits', rfl, hregs⟩
    show (if k₁.runQueue.head ≠ 0 then _ else _) = _
    rw [if_pos hhead, hpop]
    show (turned.deliver t).bind _ = _
    rw [hdeliver]
    rfl

/-! ## Taking turns -/

def turn (all : List ℕ) (j : ℕ) : ℕ := all.getD (j % all.length) 0

/-- Thread `t₀` runs on CPU `c`, and `ts` are ready in its queue, all without a signal. -/
structure Starts (heap c : ℕ) (k : Kern ρ) (t₀ : ℕ) (ts : List ℕ) : Prop where
  lock : k.lock = false
  alive : k.sched.Alive c
  current : (k.sched.cpu c).currthread = some t₀
  running : k.sched.state t₀ = .running
  queue : Waits heap k.runQueue ts
  ready : ∀ t ∈ ts, k.sched.state t = .ready
  nodup : ts.Nodup
  quiet : ∀ t ∈ t₀ :: ts, k.sched.NoSignal t

/-- The state after so many calls of `schedule`. -/
inductive Ticks (heap c : ℕ) (r : ℕ → ρ) (k : Kern ρ) : ℕ → Kern ρ → Prop
  | zero : Ticks heap c r k 0 k
  | succ {j node : ℕ} {k' k'' : Kern ρ} (h : Ticks heap c r k j k')
      (hfresh : Fresh heap k'.runQueue node) (hcall : k'.schedule c (r j) node = some k'') :
      Ticks heap c r k (j + 1) k''

/-- After `j` calls the next thread in turn runs, and each has the registers it was left with. -/
structure InTurn (heap c : ℕ) (all : List ℕ) (r : ℕ → ρ) (k : Kern ρ) (j : ℕ) (k' : Kern ρ) :
    Prop where
  current : (k'.sched.cpu c).currthread = some (turn all j)
  running : k'.sched.state (turn all j) = .running
  queue : Waits heap k'.runQueue (all.rotate j).tail
  ready : ∀ t ∈ (all.rotate j).tail, k'.sched.state t = .ready
  /-- Call `i` was the last one so far while its thread was current. -/
  regs_last : ∀ i < j, (∀ i', i < i' → i' < j → turn all i' ≠ turn all i) →
    k'.regs (turn all i) = r i
  regs_first : ∀ t, (∀ i < j, turn all i ≠ t) → k'.regs t = k.regs t

structure Turning (heap c : ℕ) (all : List ℕ) (r : ℕ → ρ) (k : Kern ρ) (j : ℕ) (k' : Kern ρ) :
    Prop extends InTurn heap c all r k j k' where
  lock : k'.lock = false
  alive : k'.sched.Alive c
  quiet : ∀ t ∈ all, k'.sched.NoSignal t

theorem rotate_eq_cons (hne : all ≠ []) (j : ℕ) :
    all.rotate j = turn all j :: (all.rotate j).tail := by
  have hpos : 0 < all.length := length_pos_iff.mpr hne
  have hlt : j % all.length < all.length := Nat.mod_lt j hpos
  have hhead : (all.rotate j).head? = some (turn all j) := by
    rw [← rotate_mod, head?_rotate hlt, turn, getD_eq_getElem?_getD,
      getElem?_eq_getElem hlt, Option.getD_some]
  exact eq_cons_of_mem_head? hhead

theorem rotate_succ (hne : all ≠ []) (j : ℕ) :
    (all.rotate j).tail ++ [turn all j] = turn all (j + 1) :: (all.rotate (j + 1)).tail := by
  rw [← rotate_eq_cons hne, ← rotate_rotate]
  conv_rhs => rw [rotate_eq_cons hne j]
  rw [rotate_cons_succ, rotate_zero]

theorem turn_notMem (hnodup : all.Nodup) (hne : all ≠ []) (j : ℕ) :
    turn all j ∉ (all.rotate j).tail := by
  have h : (all.rotate j).Nodup := nodup_rotate.mpr hnodup
  rw [rotate_eq_cons hne] at h
  exact (nodup_cons.mp h).1

theorem turn_mem (hne : all ≠ []) (j : ℕ) : turn all j ∈ all := by
  have h : turn all j ∈ all.rotate j := by
    rw [rotate_eq_cons hne]
    exact mem_cons_self
  exact mem_rotate.mp h

theorem schedule_turn {q q' : List ℕ} {t' : ℕ} (halive : s.Alive c)
    (hcurr : (s.cpu c).currthread = some t) (hrunning : s.state t = .running)
    (hqueue : (s.cpu c).runQueue = q) (hnext : q ++ [t] = t' :: q') (hquiet : s.NoSignal t') :
    s.schedule c = some (s.turnTo c t' q') ∧ s.requeued c = [t] := by
  have hone : s.requeued c = [t] := by simp [requeued, hcurr, hrunning]
  refine ⟨?_, hone⟩
  rw [schedule_of_cons halive (by rw [hone, hqueue, hnext])]
  exact deliver_of_noSignal (turnTo_noSignal hquiet)

theorem InTurn.regs_next {r : ℕ → ρ} (h : InTurn heap c all r init j k)
    (hregs : k'.regs = update k.regs (turn all j) (r j)) :
    (∀ i < j + 1, (∀ i', i < i' → i' < j + 1 → turn all i' ≠ turn all i) →
        k'.regs (turn all i) = r i) ∧
      ∀ t, (∀ i < j + 1, turn all i ≠ t) → k'.regs t = init.regs t := by
  rw [hregs]
  refine ⟨fun i hi hlast => ?_, fun t hnever => ?_⟩
  · rcases Nat.lt_succ_iff_lt_or_eq.mp hi with hlt | rfl
    · rw [update_of_ne (hlast j hlt (Nat.lt_succ_self j)).symm]
      exact h.regs_last i hlt fun i' hi' hlt' => hlast i' hi' (Nat.lt_succ_of_lt hlt')
    · exact update_self ..
  · rw [update_of_ne (hnever j (Nat.lt_succ_self j)).symm]
    exact h.regs_first t fun i hi => hnever i (Nat.lt_succ_of_lt hi)

theorem InTurn.ready_next {r : ℕ → ρ} (hnodup : all.Nodup) (hne : all ≠ [])
    (h : InTurn heap c all r init j k)
    (hstate : ∀ u, k'.sched.state u = if u = turn all (j + 1) then .running else
      if u = turn all j then .ready else k.sched.state u) :
    ∀ t ∈ (all.rotate (j + 1)).tail, k'.sched.state t = .ready := by
  intro t ht
  have hnext : t ≠ turn all (j + 1) := by
    rintro rfl
    exact turn_notMem hnodup hne (j + 1) ht
  rw [hstate, if_neg hnext]
  split_ifs with hold
  · rfl
  · have hmem : t ∈ (all.rotate j).tail ++ [turn all j] := by
      rw [rotate_succ hne]
      exact mem_cons_of_mem _ ht
    rcases mem_append.mp hmem with hmem | hmem
    · exact h.ready t hmem
    · exact absurd (mem_singleton.mp hmem) hold

theorem Turning.tick {r : ℕ → ρ} (hnodup : all.Nodup) (hne : all ≠ [])
    (h : Turning heap c all r init j k) (hfresh : Fresh heap k.runQueue node) :
    ∃ k', k.schedule c (r j) node = some k' ∧ Turning heap c all r init (j + 1) k' := by
  let s := k.sched.withQueue c (all.rotate j).tail
  have hcpu : s.cpu c = _ := k.sched.withQueue_cpu c _
  obtain ⟨hcall, hone⟩ := schedule_turn (s := s) (withQueue_alive.mpr h.alive)
    (by rw [hcpu]; exact h.current) h.running (by rw [hcpu]) (rotate_succ hne j)
    (h.quiet _ (turn_mem hne (j + 1)))
  obtain ⟨k', us, hrun, hlock, hwaits, hs, hregs⟩ :=
    Kern.schedule_refines h.lock h.queue hfresh (r j) hcall
  obtain ⟨hsame, hstate⟩ := turnTo_spec s c (turn all (j + 1)) (all.rotate (j + 1)).tail
  rw [hs] at hsame hstate
  have hcpu' : ({ k'.sched.cpu c with runQueue := us } : Cpu) = { k.sched.cpu c with
      currthread := some (turn all (j + 1)), runQueue := (all.rotate (j + 1)).tail } := by
    rw [← k'.sched.withQueue_cpu c us, hsame.cpu_eq]
    show update s.cpu c _ c = _
    rw [update_self, hcpu]
  obtain ⟨hcurr, -, rfl, hdead⟩ := Cpu.mk.inj hcpu'
  have hstates : ∀ u, k'.sched.state u =
      if u = turn all (j + 1) then .running else if u = turn all j then .ready
      else k.sched.state u := by
    intro u
    have hu := hstate u
    simp only [hone, mem_singleton] at hu
    exact hu
  have hrunning : k'.sched.state (turn all (j + 1)) = .running := by rw [hstates, if_pos rfl]
  rw [Kern.savedRegs, h.current] at hregs
  obtain ⟨hlast, hfirst⟩ := h.toInTurn.regs_next hregs
  refine ⟨k', hrun, ⟨hcurr, hrunning, hwaits, h.toInTurn.ready_next hnodup hne hstates, hlast,
    hfirst⟩, hlock, ⟨?_, hdead.trans h.alive.2⟩, fun t ht htid => ?_⟩
  · exact Nat.lt_of_lt_of_eq h.alive.1 hsame.cpuCount_eq.symm
  · have hproc : k'.sched.proc = k.sched.proc := hsame.proc_eq
    have hparent := hsame.parent_eq t
    have htid' := hsame.tid_eq t
    show (k'.sched.proc (k'.sched.thread t).parent).sigstack = []
    rw [hproc]
    exact hparent ▸ h.quiet t ht (htid'.symm.trans htid)

theorem Starts.turning (h : Starts heap c k t₀ ts) (r : ℕ → ρ) :
    Turning heap c (t₀ :: ts) r k 0 k := by
  have hqueue : ((t₀ :: ts).rotate 0).tail = ts := by rw [rotate_zero, tail_cons]
  refine ⟨⟨h.current, h.running, ?_, ?_, ?_, fun _ _ => rfl⟩, h.lock, h.alive, h.quiet⟩
  · rw [hqueue]
    exact h.queue
  · rw [hqueue]
    exact h.ready
  · exact fun i hi => absurd hi (Nat.not_lt_zero i)

theorem Starts.nodup_all (h : Starts heap c k t₀ ts) : (t₀ :: ts).Nodup := by
  refine nodup_cons.mpr ⟨fun hmem => ?_, h.nodup⟩
  have hready := h.ready t₀ hmem
  rw [h.running] at hready
  cases hready

theorem Ticks.turning {r : ℕ → ρ} (hrun : Ticks heap c r k j k') (h : Starts heap c k t₀ ts) :
    Turning heap c (t₀ :: ts) r k j k' := by
  induction hrun with
  | zero => exact h.turning r
  | succ _ hfresh hcall ih =>
    obtain ⟨k₁, hcall₁, hnext⟩ := ih.tick h.nodup_all (cons_ne_nil t₀ ts) hfresh
    rw [hcall] at hcall₁
    exact Option.some.inj hcall₁ ▸ hnext

/-- After any number of calls of `schedule` and nothing else the threads have taken turns, with the
registers that were passed, and the next call returns as well. -/
theorem round_robin (heap c : ℕ) (k : Kern ρ) (t₀ : ℕ) (ts : List ℕ) (r : ℕ → ρ)
    (h : Starts heap c k t₀ ts) (j : ℕ) (k' : Kern ρ) (hrun : Ticks heap c r k j k') :
    InTurn heap c (t₀ :: ts) r k j k' ∧
      ∀ node, Fresh heap k'.runQueue node → (k'.schedule c (r j) node).isSome := by
  have hturning := hrun.turning h
  refine ⟨hturning.toInTurn, fun node hfresh => ?_⟩
  obtain ⟨k₁, hcall, -⟩ := hturning.tick h.nodup_all (cons_ne_nil t₀ ts) hfresh
  exact Option.isSome_iff_exists.mpr ⟨k₁, hcall⟩

def twoThreads : Scheduler :=
  { smpInit 1 (fun _ => 0) with
    cpu := fun _ => ⟨some 0, [0, 1], [], false⟩
    thread := fun t => ⟨0, if t = 0 then .running else .ready, 0, t⟩
    nextThread := 2
    nextProc := 1 }

/-- After one call thread 1 runs, and the registers of thread 0 have been saved. -/
theorem round_robin_two : ∃ k k' : Kern ℕ, Starts 4096 0 k 0 [1] ∧
    Ticks 4096 0 (fun _ => 7) k 1 k' ∧ (k'.sched.cpu 0).currthread = some 1 ∧ k'.regs 0 = 7 := by
  have hnode : Fresh 4096 (listCreate : ListT ℕ) 4096 := ⟨by decide, rfl, le_rfl, by decide⟩
  obtain ⟨queue, hpush, hqueue⟩ := (waits_listCreate 4096).pushBack hnode 1
  have hfree : queue.val 4112 = none := by
    cases hpush
    rfl
  let k : Kern ℕ := ⟨twoThreads, false, queue, fun _ => 0⟩
  have hstarts : Starts 4096 0 k 0 [1] :=
    { lock := rfl
      alive := ⟨Nat.one_pos, rfl⟩
      current := rfl
      running := rfl
      queue := hqueue
      ready := by simp [k, twoThreads, Scheduler.state]
      nodup := nodup_singleton 1
      quiet := fun _ _ _ => rfl }
  have hfresh : Fresh 4096 k.runQueue 4112 := ⟨by decide, hfree, by decide, by decide⟩
  have hnext := (round_robin 4096 0 k 0 [1] (fun _ => 7) hstarts 0 k .zero).2 4112 hfresh
  obtain ⟨k', hcall⟩ := Option.isSome_iff_exists.mp hnext
  have hticks : Ticks 4096 0 (fun _ => 7) k 1 k' := .succ .zero hfresh hcall
  obtain ⟨hturn, -⟩ := round_robin 4096 0 k 0 [1] _ hstarts 1 k' hticks
  exact ⟨k, k', hstarts, hticks, hturn.current,
    hturn.regs_last 0 Nat.one_pos fun i hi hlt => absurd hlt (Nat.not_lt.mpr hi)⟩

end KernelOld.Sched
