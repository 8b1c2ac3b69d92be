import Mathlib.Data.List.Nodup
import Mathlib.Data.List.Perm.Subperm
import Mathlib.Logic.Relation
import KernelOld.Sched.Steps

/-!
# A thread is in one place

The places of a scheduler are the threads that its CPUs execute and the entries of their run
queues. `schedule` only moves threads between places, and every other step adds at most one
place; a thread is in two places as soon as it is woken before it has left the CPU.
-/

namespace KernelOld.Sched
open Function Relation List

namespace Scheduler

variable {s s' : Scheduler} {c d t u i now : ℕ} {st : ThreadState}

/-- No thread is twice in the run queues, or in one while a CPU executes it. -/
structure OnePlace (s : Scheduler) : Prop where
  nodup : ∀ c < s.cpuCount, (s.cpu c).runQueue.Nodup
  disjoint : ∀ c < s.cpuCount, ∀ d < s.cpuCount, c ≠ d →
    (s.cpu c).runQueue.Disjoint (s.cpu d).runQueue
  notQueued : ∀ c t, s.current c = some t → ∀ d < s.cpuCount, t ∉ (s.cpu d).runQueue
  once : ∀ c d t, s.current c = some t → s.current d = some t → c = d

def placesOn (s : Scheduler) (c : ℕ) : List ℕ := (s.current c).toList ++ (s.cpu c).runQueue

def places (s : Scheduler) : List ℕ := (List.range s.cpuCount).flatMap s.placesOn

variable {threads : List ℕ} {k j : ℕ}

theorem mem_places : t ∈ s.places ↔
    ∃ c < s.cpuCount, s.current c = some t ∨ t ∈ (s.cpu c).runQueue := by
  simp [places, placesOn]

theorem current_lt (h : s.current c = some t) : c < s.cpuCount := (current_eq_some.mp h).1.1

theorem mem_places_of_current (h : s.current c = some t) : t ∈ s.places :=
  mem_places.mpr ⟨c, current_lt h, Or.inl h⟩

theorem exists_perm_flatMap_range {n : ℕ} (f : ℕ → List ℕ) (hc : c < n) :
    ∃ rest, ∀ g : ℕ → List ℕ, (∀ d, d ≠ c → g d = f d) →
      ((List.range n).flatMap g).Perm (g c ++ rest) := by
  obtain ⟨l, r, hsplit⟩ := append_of_mem (mem_range.mpr hc)
  have hnodup : (l ++ c :: r).Nodup := hsplit ▸ nodup_range
  rw [nodup_middle, nodup_cons] at hnodup
  refine ⟨l.flatMap f ++ r.flatMap f, fun g hg => ?_⟩
  have hfold : ∀ l' : List ℕ, c ∉ l' → l'.flatMap g = l'.flatMap f := fun l' hl' =>
    flatMap_congr fun d hd => hg d fun hdc => hl' (hdc ▸ hd)
  rw [hsplit, flatMap_append, flatMap_cons,
    hfold l fun hl => hnodup.1 (mem_append_left _ hl),
    hfold r fun hr => hnodup.1 (mem_append_right _ hr)]
  exact perm_append_comm_assoc ..

theorem nodup_placesOn (h : s.places.Nodup) (hc : c < s.cpuCount) : (s.placesOn c).Nodup :=
  (nodup_flatMap.mp h).1 c (mem_range.mpr hc)

theorem disjoint_placesOn (h : s.places.Nodup) (hc : c < s.cpuCount) (hd : d < s.cpuCount)
    (hne : c ≠ d) : (s.placesOn c).Disjoint (s.placesOn d) := by
  have hpair := pairwise_iff_getElem.mp (nodup_flatMap.mp h).2
  have hof : ∀ {c d}, c < d → d < s.cpuCount → (s.placesOn c).Disjoint (s.placesOn d) := by
    intro c d hcd hd
    have := hpair c d (by simpa using Nat.lt_trans hcd hd) (by simpa using hd) hcd
    simpa using this
  obtain hlt | hlt := Nat.lt_or_gt_of_ne hne
  · exact hof hlt hd
  · exact fun t htc htd => hof hlt hc htd htc

theorem onePlace_of_nodup (h : s.places.Nodup) : s.OnePlace where
  nodup c hc := (nodup_append.mp (nodup_placesOn h hc)).2.1
  disjoint c hc d hd hne t htc htd :=
    disjoint_placesOn h hc hd hne (mem_append_right _ htc) (mem_append_right _ htd)
  notQueued c t ht d hd htd := by
    have hc := current_lt ht
    have htc : t ∈ (s.current c).toList := by simp [ht]
    by_cases hcd : c = d
    · subst hcd
      exact (nodup_append.mp (nodup_placesOn h hc)).2.2 t htc t htd rfl
    · exact disjoint_placesOn h hc hd hcd (mem_append_left _ htc)
        (mem_append_right _ htd)
  once c d t hc hd := by
    by_contra hne
    have htc : t ∈ (s.current c).toList := by simp [hc]
    have htd : t ∈ (s.current d).toList := by simp [hd]
    exact disjoint_placesOn h (current_lt hc) (current_lt hd) hne (mem_append_left _ htc)
      (mem_append_left _ htd)

theorem places_congr (hcount : s'.cpuCount = s.cpuCount) (hcurr : s'.current = s.current)
    (hqueue : ∀ c, (s'.cpu c).runQueue = (s.cpu c).runQueue) : s'.places = s.places := by
  have hon : s'.placesOn = s.placesOn := by
    funext c
    rw [placesOn, placesOn, hcurr, hqueue]
  rw [places, places, hcount, hon]

theorem places_setCpu (cpu : Cpu) (hc : c < s.cpuCount) :
    ∃ rest, s.places.Perm (s.placesOn c ++ rest) ∧
      (s.setCpu c cpu).places.Perm ((s.setCpu c cpu).placesOn c ++ rest) := by
  obtain ⟨rest, hrest⟩ := exists_perm_flatMap_range s.placesOn hc
  refine ⟨rest, hrest _ fun _ _ => rfl, hrest _ fun d hd => ?_⟩
  have hcpu : (s.setCpu c cpu).cpu d = s.cpu d := update_of_ne hd _ _
  rw [placesOn, placesOn, current, current, hcpu]
  rfl

theorem places_push (hc : c < s.cpuCount) :
    (s.setCpu c { s.cpu c with threads, runQueue := (s.cpu c).runQueue ++ [t] }).places.Perm
      (t :: s.places) := by
  obtain ⟨rest, hbefore, hafter⟩ := places_setCpu (s := s)
    { s.cpu c with threads, runQueue := (s.cpu c).runQueue ++ [t] } hc
  have hon : (s.setCpu c { s.cpu c with threads, runQueue := (s.cpu c).runQueue ++ [t] }).placesOn c
      = s.placesOn c ++ [t] := by
    simp [placesOn, current, setCpu]
  rw [hon] at hafter
  refine hafter.trans ?_
  rw [append_assoc]
  exact perm_middle.trans (hbefore.symm.cons t)

theorem places_schedule (h : s.schedule c = some s') : s'.places.Subperm s.places := by
  obtain ⟨halive, hcase⟩ := schedule_cases h
  have hcurr : s.current c = (s.cpu c).currthread := if_pos halive
  have hqueue : ((s.cpu c).runQueue ++ s.requeued c).Subperm (s.placesOn c) := by
    rw [placesOn, hcurr]
    exact (perm_append_comm.subperm).trans
      ((s.requeued_sublist c).append (List.Sublist.refl _)).subperm
  obtain ⟨hempty, rfl⟩ | ⟨t, runQueue, hsw⟩ := hcase
  · obtain ⟨rest, hbefore, hafter⟩ := places_setCpu (s := s)
      { s.cpu c with dead := true } halive.1
    have hon : (s.setCpu c { s.cpu c with dead := true }).placesOn c = [] := by
      have hq := (append_eq_nil_iff.mp hempty).1
      simp [placesOn, current, setCpu, hq]
    rw [hon] at hafter
    exact hafter.subperm.trans
      (((nil_sublist _).append (List.Sublist.refl rest)).subperm.trans hbefore.symm.subperm)
  · obtain ⟨rest, hbefore, hafter⟩ := places_setCpu (s := s)
      { s.cpu c with currthread := some t, runQueue } halive.1
    have hsame : s'.places =
        (s.setCpu c { s.cpu c with currthread := some t, runQueue }).places :=
      places_congr hsw.cpuCount_eq (current_congr hsw.cpuCount_eq hsw.cpu_eq)
        fun d => by rw [hsw.cpu_eq]; rfl
    have hon : (s.setCpu c { s.cpu c with currthread := some t, runQueue }).placesOn c
        = t :: runQueue := by
      have hdead := halive.2
      simp [placesOn, current, setCpu, halive.1, hdead]
    rw [hon, ← hsw.queue_eq] at hafter
    rw [hsame]
    exact hafter.subperm.trans
      (((subperm_append_right rest).mpr hqueue).trans hbefore.symm.subperm)

theorem nodup_places_schedule (hnodup : s.places.Nodup) (h : s.schedule c = some s') :
    s'.places.Nodup := by
  obtain ⟨l, hperm, hl⟩ := places_schedule h
  exact hperm.nodup_iff.mp (hl.nodup hnodup)

structure Tidy (s : Scheduler) : Prop where
  nodup : s.places.Nodup
  awake : ∀ c < s.cpuCount, ∀ t ∈ (s.cpu c).runQueue, s.state t = .running ∨ s.state t = .ready
  known : ∀ t ∈ s.places, t < s.nextThread
  listed : ∀ c < s.cpuCount, ∀ t ∈ (s.cpu c).threads, t < s.nextThread
  waiters : ∀ k, ∀ t ∈ (s.sem k).waitlst, t < s.nextThread
  quiet : ∀ p, (s.proc p).sigstack = []

/-- The thread is neither running nor ready, and has left the CPU. -/
def Parked (s : Scheduler) (t : ℕ) : Prop :=
  s.state t ≠ .running ∧ s.state t ≠ .ready ∧ ∀ c, s.current c ≠ some t

theorem Tidy.noSignal (h : Tidy s) (t : ℕ) : s.NoSignal t := fun _ => h.quiet _

theorem Tidy.notMem_of_parked (h : Tidy s) (ht : s.Parked t) : t ∉ s.places := by
  obtain ⟨hrun, hready, hcurr⟩ := ht
  intro hmem
  obtain ⟨c, hc, hexec | hqueue⟩ := mem_places.mp hmem
  · exact hcurr c hexec
  · exact (h.awake c hc t hqueue).elim hrun hready

theorem Tidy.congr (h : Tidy s) (hcount : s'.cpuCount = s.cpuCount)
    (hcurr : s'.current = s.current) (hqueue : ∀ c, (s'.cpu c).runQueue = (s.cpu c).runQueue)
    (hthreads : ∀ c, (s'.cpu c).threads ⊆ (s.cpu c).threads)
    (hstate : ∀ c < s.cpuCount, ∀ t ∈ (s.cpu c).runQueue, s'.state t = s.state t)
    (hnext : s.nextThread ≤ s'.nextThread)
    (hwait : ∀ k, ∀ t ∈ (s'.sem k).waitlst, t ∈ (s.sem k).waitlst ∨ t ∈ s.places)
    (hquiet : ∀ p, (s'.proc p).sigstack = []) : Tidy s' where
  nodup := by
    rw [places_congr hcount hcurr hqueue]
    exact h.nodup
  awake c hc t ht := by
    rw [hcount] at hc
    rw [hqueue] at ht
    rw [hstate c hc t ht]
    exact h.awake c hc t ht
  known t ht := by
    rw [places_congr hcount hcurr hqueue] at ht
    exact Nat.lt_of_lt_of_le (h.known t ht) hnext
  listed c hc t ht := Nat.lt_of_lt_of_le (h.listed c (hcount ▸ hc) t (hthreads c ht)) hnext
  waiters k t ht := by
    obtain hold | hplace := hwait k t ht
    · exact Nat.lt_of_lt_of_le (h.waiters k t hold) hnext
    · exact Nat.lt_of_lt_of_le (h.known t hplace) hnext
  quiet := hquiet

theorem Tidy.setState (h : Tidy s) (ht : ∀ c < s.cpuCount, t ∉ (s.cpu c).runQueue) :
    Tidy (s.setState t st) := by
  refine h.congr rfl rfl (fun _ => rfl) (fun _ => List.Subset.refl _) (fun c hc u hu => ?_)
    (Nat.le_refl _) (fun _ _ => Or.inl) h.quiet
  rw [setState_state, if_neg]
  rintro rfl
  exact ht c hc hu

theorem Tidy.setSem {sem : Sem} (h : Tidy s)
    (hsem : ∀ u ∈ sem.waitlst, u ∈ (s.sem k).waitlst ∨ u ∈ s.places) : Tidy (s.setSem k sem) := by
  refine h.congr rfl rfl (fun _ => rfl) (fun _ => List.Subset.refl _) (fun _ _ _ _ => rfl)
    (Nat.le_refl _) (fun k' u hu => ?_) h.quiet
  by_cases hk : k' = k
  · subst hk
    exact hsem u (by simpa [Scheduler.setSem] using hu)
  · exact Or.inl (by simpa [Scheduler.setSem, update_of_ne hk] using hu)

theorem Tidy.setState_current (h : Tidy s) (ht : s.current c = some t) :
    Tidy (s.setState t st) :=
  h.setState fun d hd => (onePlace_of_nodup h.nodup).notQueued c t ht d hd

theorem Tidy.push (h : Tidy s) (hc : c < s.cpuCount) (ht : t ∉ s.places) (hlt : t < s.nextThread)
    (hawake : s.state t = .running ∨ s.state t = .ready)
    (hthreads : ∀ u ∈ threads, u ∈ (s.cpu c).threads ∨ u = t) :
    Tidy (s.setCpu c { s.cpu c with threads, runQueue := (s.cpu c).runQueue ++ [t] }) where
  nodup := (places_push hc).nodup_iff.mpr (nodup_cons.mpr ⟨ht, h.nodup⟩)
  awake d hd u hu := by
    by_cases hdc : d = c
    · subst hdc
      have hu : u ∈ (s.cpu d).runQueue ++ [t] := by simpa [setCpu] using hu
      obtain hu | hu := mem_append.mp hu
      · exact h.awake d hd u hu
      · rw [mem_singleton.mp hu]
        exact hawake
    · have hu : u ∈ (s.cpu d).runQueue := by simpa [setCpu, update_of_ne hdc] using hu
      exact h.awake d hd u hu
  known u hu := by
    obtain rfl | hu := mem_cons.mp ((places_push hc).subset hu)
    · exact hlt
    · exact h.known u hu
  listed d hd u hu := by
    by_cases hdc : d = c
    · subst hdc
      have hu : u ∈ threads := by simpa [setCpu] using hu
      obtain hu | rfl := hthreads u hu
      · exact h.listed d hd u hu
      · exact hlt
    · have hu : u ∈ (s.cpu d).threads := by simpa [setCpu, update_of_ne hdc] using hu
      exact h.listed d hd u hu
  waiters := h.waiters
  quiet := h.quiet

theorem Tidy.enqueue (h : Tidy s) (hc : c < s.cpuCount) (ht : t ∉ s.places)
    (hlt : t < s.nextThread) (hawake : s.state t = .running ∨ s.state t = .ready) :
    Tidy (s.enqueue c t) :=
  h.push hc ht hlt hawake fun _ => Or.inl

theorem Tidy.threadSpawn (h : Tidy s) (hn : 0 < s.cpuCount) (ht : t ∉ s.places)
    (hlt : t < s.nextThread) (hawake : s.state t = .running ∨ s.state t = .ready) :
    Tidy (s.threadSpawn t) :=
  h.push (leastLoaded_lt hn) ht hlt hawake fun _ hu =>
    (mem_append.mp hu).imp_right mem_singleton.mp

theorem Tidy.spawnNew (h : Tidy s) (hn : 0 < s.cpuCount) (hcount : s'.cpuCount = s.cpuCount)
    (hcpu : s'.cpu = s.cpu)
    (hstate : ∀ t, s'.state t = if t = s.nextThread then .ready else s.state t)
    (hnext : s'.nextThread = s.nextThread + 1) (hsem : s'.sem = s.sem)
    (hquiet : ∀ p, (s'.proc p).sigstack = []) :
    Tidy (s'.threadSpawn s.nextThread) := by
  have hcurr := current_congr hcount hcpu
  have hplaces : s'.places = s.places := places_congr hcount hcurr fun c => by rw [hcpu]
  have hs' : Tidy s' := by
    refine h.congr hcount hcurr (fun c => by rw [hcpu]) (fun c => by rw [hcpu]; exact fun _ => id)
      (fun c hc t ht => ?_) (by omega) (fun k t ht => ?_) hquiet
    · have hlt := h.known t (mem_places.mpr ⟨c, hc, Or.inr ht⟩)
      rw [hstate, if_neg (Nat.ne_of_lt hlt)]
    · rw [hsem] at ht
      exact Or.inl ht
  refine hs'.threadSpawn (by omega) ?_ (by omega) (Or.inr ((hstate _).trans (if_pos rfl)))
  rw [hplaces]
  exact fun hmem => absurd (h.known _ hmem) (Nat.lt_irrefl _)

theorem Tidy.schedule (h : Tidy s) (hsched : s.schedule c = some s') : Tidy s' := by
  have hnodup := nodup_places_schedule h.nodup hsched
  have hknown : ∀ t ∈ s'.places, t < s.nextThread := fun t ht =>
    h.known t ((places_schedule hsched).subset ht)
  obtain ⟨halive, ⟨-, rfl⟩ | ⟨t, runQueue, hsw⟩⟩ := schedule_cases hsched
  · refine ⟨hnodup, fun d hd u hu => ?_, hknown, fun d hd u hu => ?_, h.waiters, h.quiet⟩
    · have hqueue : ((s.setCpu c { s.cpu c with dead := true }).cpu d).runQueue = _ :=
        setCpu_keeps Cpu.runQueue (by rfl) d
      exact h.awake d hd u (hqueue ▸ hu)
    · have hthreads : ((s.setCpu c { s.cpu c with dead := true }).cpu d).threads = _ :=
        setCpu_keeps Cpu.threads (by rfl) d
      exact h.listed d hd u (hthreads ▸ hu)
  · have hns := h.noSignal t
    refine ⟨hnodup, fun d hd u hu => ?_, ?_, fun d hd u hu => ?_, ?_, ?_⟩
    · rw [hsw.state_eq hns]
      by_cases hut : u = t
      · exact Or.inl (if_pos hut)
      · rw [if_neg hut]
        by_cases hre : u ∈ s.requeued c
        · exact Or.inr (if_pos hre)
        · rw [if_neg hre]
          obtain hu | ⟨-, hu⟩ := hsw.mem_runQueue hu
          · exact h.awake d (hsw.cpuCount_eq ▸ hd) u hu
          · exact absurd hu hre
    · rw [hsw.nextThread_eq]
      exact hknown
    · have hthreads : (s'.cpu d).threads = (s.cpu d).threads := by
        rw [hsw.cpu_eq]
        exact setCpu_keeps Cpu.threads (by rfl) d
      rw [hthreads] at hu
      rw [hsw.cpuCount_eq] at hd
      rw [hsw.nextThread_eq]
      exact h.listed d hd u hu
    · rw [hsw.sem_eq, hsw.nextThread_eq]
      exact h.waiters
    · rw [hsw.proc_eq hns]
      exact h.quiet

def Rested (s : Scheduler) (i now : ℕ) : Prop :=
  ∀ t ∈ (s.cpu i).threads, s.state t = .asleep → (s.thread t).sleepexp ≤ now →
    ∀ c, s.current c ≠ some t

theorem current_setCpu {cpu : Cpu} (hcurr : cpu.currthread = (s.cpu c).currthread)
    (hdead : cpu.dead = (s.cpu c).dead) : (s.setCpu c cpu).current = s.current := by
  funext d
  rw [current, current]
  by_cases hdc : d = c
  · subst hdc
    simp [setCpu, hcurr, hdead]
  · simp [setCpu, update_of_ne hdc]

theorem Tidy.setThreads (h : Tidy s) (hsub : threads ⊆ (s.cpu i).threads) :
    Tidy (s.setCpu i { s.cpu i with threads }) := by
  have hcurr : (s.setCpu i { s.cpu i with threads }).current = s.current := current_setCpu rfl rfl
  have hthreads : ∀ c,
      ((s.setCpu i { s.cpu i with threads }).cpu c).threads ⊆ (s.cpu c).threads := by
    intro c
    by_cases hci : c = i
    · subst hci
      simpa [setCpu] using hsub
    · simp [setCpu, update_of_ne hci]
  exact h.congr rfl hcurr (setCpu_keeps Cpu.runQueue (by rfl)) hthreads (fun _ _ _ _ => rfl)
    (Nat.le_refl _) (fun _ _ => Or.inl) h.quiet

theorem Tidy.wake (h : Tidy s) (hi : i < s.cpuCount) (hrest : s.Rested i now)
    (hmem : t ∈ (s.cpu i).threads) (hasleep : s.state t = .asleep)
    (hexp : (s.thread t).sleepexp ≤ now) :
    Tidy ((s.setState t .ready).threadSpawn t) := by
  have hparked : s.Parked t := by
    refine ⟨?_, ?_, hrest t hmem hasleep hexp⟩
    · rw [hasleep]
      decide
    · rw [hasleep]
      decide
  have hplaces := h.notMem_of_parked hparked
  have hready : Tidy (s.setState t .ready) :=
    h.setState fun c hc ht => hplaces (mem_places.mpr ⟨c, hc, Or.inr ht⟩)
  refine hready.threadSpawn (Nat.lt_of_le_of_lt (Nat.zero_le i) hi) hplaces
    (h.listed i hi t hmem) (Or.inr ?_)
  rw [setState_state, if_pos rfl]

theorem sweepRound_cases (h : s.sweepRound i now j = some s') :
    s' = s.setCpu i { s.cpu i with threads := (s.cpu i).threads.eraseIdx j } ∨ s' = s ∨
      ∃ t ∈ (s.cpu i).threads, s.state t = .asleep ∧ (s.thread t).sleepexp ≤ now ∧
        (s.setState t .ready).leastLoaded ≠ i ∧ s' = (s.setState t .ready).threadSpawn t := by
  obtain ⟨t, ht, hrest⟩ := Option.bind_eq_some_iff.mp h
  by_cases hkilled : s.state t = .killed
  · rw [if_pos hkilled] at hrest
    dsimp only at hrest
    split at hrest
    · rename_i hwake
      have : s.state t = .asleep := hwake.1
      rw [hkilled] at this
      cases this
    · exact Or.inl (Option.some.inj hrest).symm
  · rw [if_neg hkilled] at hrest
    dsimp only at hrest
    split at hrest
    · rename_i hwake
      split at hrest
      · cases hrest
      · rename_i hleast
        exact Or.inr (Or.inr ⟨t, mem_of_getElem? ht, hwake.1, hwake.2, hleast,
          (Option.some.inj hrest).symm⟩)
    · exact Or.inr (Or.inl (Option.some.inj hrest).symm)

/-- What each round of a sweep keeps, the sweep keeps. -/
theorem sweepFrom_induction {I : Scheduler → Prop} {rounds : ℕ}
    (hround : ∀ s s' j, I s → s.sweepRound i now j = some s' → I s') (h : I s)
    (hsweep : sweepFrom i now rounds j s = some s') : I s' := by
  induction rounds generalizing s j with
  | zero =>
    cases hsweep
    exact h
  | succ rounds ih =>
    rw [sweepFrom] at hsweep
    split at hsweep
    · obtain ⟨s₁, hfirst, hrest⟩ := Option.bind_eq_some_iff.mp hsweep
      exact ih (hround s s₁ j h hfirst) hrest
    · cases hsweep
      exact h

structure Sweeping (s s' : Scheduler) (i now : ℕ) : Prop where
  tidy : Tidy s'
  rested : s'.Rested i now
  cpuCount_eq : s'.cpuCount = s.cpuCount
  nextThread_eq : s'.nextThread = s.nextThread

theorem Sweeping.round {s₀ : Scheduler} (h : Sweeping s₀ s i now) (hi : i < s₀.cpuCount)
    (hround : s.sweepRound i now j = some s') : Sweeping s₀ s' i now := by
  have hin : i < s.cpuCount := h.cpuCount_eq ▸ hi
  obtain rfl | rfl | ⟨t, hmem, hasleep, hexp, hleast, rfl⟩ := sweepRound_cases hround
  · have hsub : (s.cpu i).threads.eraseIdx j ⊆ (s.cpu i).threads :=
      (eraseIdx_sublist ..).subset
    refine ⟨h.tidy.setThreads hsub, fun u hu => ?_, h.cpuCount_eq, h.nextThread_eq⟩
    have hcurr : (s.setCpu i { s.cpu i with
        threads := (s.cpu i).threads.eraseIdx j }).current = s.current := current_setCpu rfl rfl
    rw [hcurr]
    exact h.rested u (hsub (by simpa [setCpu] using hu))
  · exact h
  · refine ⟨h.tidy.wake hin h.rested hmem hasleep hexp, fun u hu hasleep hexp => ?_,
      h.cpuCount_eq, h.nextThread_eq⟩
    have hstate : (s.setState t .ready).state u = .asleep := hasleep
    have hne : u ≠ t := by
      rintro rfl
      rw [setState_state, if_pos rfl] at hstate
      cases hstate
    have hthread : ((s.setState t .ready).threadSpawn t).thread u = s.thread u :=
      update_of_ne hne _ _
    have hcpu : ((s.setState t .ready).threadSpawn t).cpu i = s.cpu i :=
      update_of_ne (Ne.symm hleast) _ _
    have hcurr : ((s.setState t .ready).threadSpawn t).current = s.current :=
      current_setCpu rfl rfl
    rw [setState_state, if_neg hne] at hstate
    rw [hthread] at hexp
    rw [hcpu] at hu
    rw [hcurr]
    exact h.rested u hu hstate hexp

theorem Tidy.sweep (h : Tidy s) (hi : i < s.cpuCount) (hrest : s.Rested i now)
    (hsweep : s.sweep i now = some s') : Sweeping s s' i now :=
  sweepFrom_induction (I := fun s' => Sweeping s s' i now)
    (fun _ _ _ h hround => h.round hi hround) ⟨h, hrest, rfl, rfl⟩ hsweep

end Scheduler

/-- `thread_unblock` and the sweep wake threads that have left their CPU. -/
def WakesParked (s : Scheduler) : Act → Prop
  | .unblock _ t => s.Parked t
  | .sweep _ i now => s.Rested i now
  | _ => True

inductive Pc
  /-- Not in one of the functions below. -/
  | out
  /-- In `thread_block`, before its section. -/
  | block (state : ThreadState)
  /-- In `thread_block`, before `int $0xfd`. -/
  | trap
  /-- In `thread_unblock`, before its section. -/
  | unblock (t : ℕ)
  /-- In `kernel_proc`, before it takes the lock of the CPU `i`. -/
  | sweep (i : ℕ)
deriving DecidableEq

structure Flows where
  sched : Scheduler
  pc : ℕ → Pc

/-- An interrupt may come at any time, also the one that `thread_unblock` raises itself. -/
inductive Next (w : Flows) : Act → (ℕ → Pc) → Prop
  | boot (halive : w.sched.Alive 0) (hboot : w.sched.current 0 = none) :
      Next w (.spawnProc 0) w.pc
  | interrupt (c : ℕ) : Next w (.schedule c) w.pc
  | spawnProc {c t : ℕ} (ht : w.sched.current c = some t) (hpc : w.pc t = .out) :
      Next w (.spawnProc c) w.pc
  | createThread {c t : ℕ} (ht : w.sched.current c = some t) (hpc : w.pc t = .out) :
      Next w (.createThread c) w.pc
  | exit {c t : ℕ} (ht : w.sched.current c = some t) (hpc : w.pc t = .out) :
      Next w (.block c .killed) (update w.pc t .trap)
  | sleep {c t timepoint : ℕ} (ht : w.sched.current c = some t) (hpc : w.pc t = .out) :
      Next w (.sleep c timepoint) (update w.pc t (.block .asleep))
  | semTake {c t k : ℕ} (ht : w.sched.current c = some t) (hpc : w.pc t = .out)
      (hfree : (w.sched.sem k).currCnt < (w.sched.sem k).maxCnt) : Next w (.semAcquire c k) w.pc
  | semWait {c t k : ℕ} (ht : w.sched.current c = some t) (hpc : w.pc t = .out)
      (hfull : (w.sched.sem k).maxCnt ≤ (w.sched.sem k).currCnt) :
      Next w (.semAcquire c k) (update w.pc t (.block .waitLock))
  | semGive {c t k : ℕ} (ht : w.sched.current c = some t) (hpc : w.pc t = .out)
      (hnone : (w.sched.sem k).waitlst = []) : Next w (.semRelease c k) w.pc
  | semWake {c t k u : ℕ} {waitlst : List ℕ} (ht : w.sched.current c = some t)
      (hpc : w.pc t = .out) (hsome : (w.sched.sem k).waitlst = u :: waitlst) :
      Next w (.semRelease c k) (update w.pc t (.unblock u))
  | block {c t : ℕ} {state : ThreadState} (ht : w.sched.current c = some t)
      (hpc : w.pc t = .block state) : Next w (.block c state) (update w.pc t .trap)
  | trap {c t : ℕ} (ht : w.sched.current c = some t) (hpc : w.pc t = .trap) :
      Next w (.schedule c) (update w.pc t .out)
  | unblock {c t u : ℕ} (ht : w.sched.current c = some t) (hpc : w.pc t = .unblock u) :
      Next w (.unblock c u) (update w.pc t .out)
  | kernelProc {c t now : ℕ} (ht : w.sched.current c = some t) (hpc : w.pc t = .out) :
      Next w (.sweep c 0 now) (update w.pc t (.sweep 1))
  | sweep {c t i now : ℕ} (ht : w.sched.current c = some t) (hpc : w.pc t = .sweep i)
      (hi : i < w.sched.cpuCount) : Next w (.sweep c i now) (update w.pc t (.sweep (i + 1)))
  | sweepAgain {c t i now : ℕ} (ht : w.sched.current c = some t) (hpc : w.pc t = .sweep i)
      (hi : w.sched.cpuCount ≤ i) : Next w (.sweep c 0 now) (update w.pc t (.sweep 1))

/-- A flow makes the next step of its function. -/
inductive FlowStep (admits : Scheduler → Act → Prop) : Flows → Flows → Prop
  | next {w : Flows} {a : Act} {pc : ℕ → Pc} {sched : Scheduler} (hnext : Next w a pc)
      (hadmits : admits w.sched a) (hexec : a.exec w.sched = some sched) :
      FlowStep admits w ⟨sched, pc⟩

def flowsInit (n : ℕ) (maxCnt : ℕ → ℕ) : Flows := ⟨smpInit n maxCnt, fun _ => .out⟩

def Act.Moves : Act → Prop
  | .threadKill _ | .schedKill _ | .sysKillThread .. | .signalSend .. | .sigaction .. => False
  | _ => True

theorem Next.moves {w : Flows} {a : Act} {pc : ℕ → Pc} (h : Next w a pc) : a.Moves := by
  cases h <;> exact trivial

open Scheduler

variable {s s' : Scheduler} {a : Act} {w w' : Flows}

theorem Scheduler.Tidy.spawnProc {c : ℕ} (h : Tidy s) (hexec : (Act.spawnProc c).exec s = some s') :
    Tidy s' ∧ s.nextThread ≤ s'.nextThread := by
  obtain ⟨halive, hs'⟩ := Option.ite_none_right_eq_some.mp hexec
  cases hs'
  refine ⟨h.spawnNew halive.pos rfl rfl (mkProc_state s) rfl rfl (fun p => ?_), Nat.le_succ _⟩
  show (update s.proc s.nextProc _ p).sigstack = []
  rw [update_apply]
  split
  · rfl
  · exact h.quiet p

theorem Scheduler.Tidy.createThread {c : ℕ} (h : Tidy s)
    (hexec : (Act.createThread c).exec s = some s') :
    Tidy s' ∧ s.nextThread ≤ s'.nextThread := by
  obtain ⟨t, ht, hs'⟩ := Option.bind_eq_some_iff.mp hexec
  cases hs'
  refine ⟨h.spawnNew (current_eq_some.mp ht).1.pos rfl rfl (threadCreat_state s _) rfl rfl
    (fun p => ?_), Nat.le_succ _⟩
  show (update s.proc (s.thread t).parent _ p).sigstack = []
  rw [update_apply]
  split
  · exact h.quiet _
  · exact h.quiet p

/-- A parked thread is in no queue, so that it can be put into one. -/
theorem Scheduler.Tidy.unblock {c t : ℕ} (h : Tidy s) (hparked : s.Parked t) (ht : t < s.nextThread)
    (hexec : (Act.unblock c t).exec s = some s') : Tidy s' ∧ s.nextThread ≤ s'.nextThread := by
  obtain ⟨halive, hs'⟩ := Option.ite_none_right_eq_some.mp hexec
  cases hs'
  have hplaces := h.notMem_of_parked hparked
  have hrun : Tidy (s.setState t .running) :=
    h.setState fun c hc ht => hplaces (mem_places.mpr ⟨c, hc, Or.inr ht⟩)
  refine ⟨hrun.enqueue halive.1 hplaces ht (Or.inl ?_), Nat.le_refl _⟩
  rw [setState_state, if_pos rfl]

theorem Scheduler.Tidy.semAcquire {c : ℕ} (h : Tidy s)
    (hexec : (Act.semAcquire c k).exec s = some s') :
    Tidy s' ∧ s.nextThread ≤ s'.nextThread := by
  obtain ⟨t, ht, hs'⟩ := Option.bind_eq_some_iff.mp hexec
  dsimp only at hs'
  split at hs'
  · cases hs'
    exact ⟨h.setSem fun u => Or.inl, Nat.le_refl _⟩
  · cases hs'
    refine ⟨h.setSem fun u hu => (mem_append.mp hu).imp_right fun hu => ?_, Nat.le_refl _⟩
    rw [mem_singleton.mp hu]
    exact mem_places_of_current ht

theorem Scheduler.Tidy.semRelease {c : ℕ} (h : Tidy s)
    (hexec : (Act.semRelease c k).exec s = some s') :
    Tidy s' ∧ s.nextThread ≤ s'.nextThread := by
  obtain ⟨t, ht, hs'⟩ := Option.bind_eq_some_iff.mp hexec
  dsimp only at hs'
  split at hs'
  · cases hs'
    exact ⟨h.setSem fun u => Or.inl, Nat.le_refl _⟩
  · rename_i v waitlst hwait
    cases hs'
    refine ⟨h.setSem fun u hu => Or.inl ?_, Nat.le_refl _⟩
    rw [hwait]
    exact mem_cons_of_mem v hu

theorem exec_tidy (h : Tidy s) (hmoves : a.Moves) (hwakes : WakesParked s a)
    (hknown : ∀ c t, a = .unblock c t → t < s.nextThread) (hexec : a.exec s = some s') :
    Tidy s' ∧ s.nextThread ≤ s'.nextThread := by
  cases a with
  | schedule c =>
    refine ⟨h.schedule hexec, ?_⟩
    obtain ⟨-, ⟨-, rfl⟩ | ⟨t, runQueue, hsw⟩⟩ := schedule_cases hexec
    · exact Nat.le_refl _
    · exact Nat.le_of_eq hsw.nextThread_eq.symm
  | spawnProc c => exact h.spawnProc hexec
  | createThread c => exact h.createThread hexec
  | block c st =>
    obtain ⟨t, ht, hs'⟩ := Option.bind_eq_some_iff.mp hexec
    cases hs'
    exact ⟨h.setState_current ht, Nat.le_refl _⟩
  | sleep c timepoint =>
    obtain ⟨t, ht, hs'⟩ := Option.bind_eq_some_iff.mp hexec
    cases hs'
    have hquiet : Quiet s (s.setThread t { s.thread t with sleepexp := timepoint }) :=
      quiet_setThread (by rfl)
    exact ⟨h.congr rfl rfl (fun _ => rfl) (fun _ => List.Subset.refl _)
      (fun _ _ u _ => hquiet.state_eq u) (Nat.le_refl _) (fun _ _ => Or.inl) h.quiet, Nat.le_refl _⟩
  | unblock c t => exact h.unblock hwakes (hknown c t rfl) hexec
  | semAcquire c k => exact h.semAcquire hexec
  | semRelease c k => exact h.semRelease hexec
  | sweep c i now =>
    obtain ⟨t, ht, hs'⟩ := Option.bind_eq_some_iff.mp hexec
    obtain ⟨hi, hsweep⟩ := Option.ite_none_right_eq_some.mp hs'
    have hswept := h.sweep hi hwakes hsweep
    exact ⟨hswept.tidy, Nat.le_of_eq hswept.nextThread_eq.symm⟩
  | threadKill t => exact hmoves.elim
  | schedKill p => exact hmoves.elim
  | sysKillThread c tid => exact hmoves.elim
  | signalSend p signo => exact hmoves.elim
  | sigaction c signum handler => exact hmoves.elim

/-- The invariant of all flows: what a thread is about to unblock is a thread. -/
structure TidyFlows (w : Flows) : Prop where
  tidy : Tidy w.sched
  known : ∀ t u, w.pc t = .unblock u → u < w.sched.nextThread

theorem Next.pc_unblock {pc : ℕ → Pc} {t u : ℕ} (h : Next w a pc) (hpc : pc t = .unblock u) :
    w.pc t = .unblock u ∨ ∃ k, u ∈ (w.sched.sem k).waitlst := by
  have hupdate : ∀ {t' : ℕ} {next : Pc}, update w.pc t' next t = .unblock u →
      next ≠ .unblock u → w.pc t = .unblock u := by
    intro t' next hnext hne
    rw [update_apply] at hnext
    split at hnext
    · exact absurd hnext hne
    · exact hnext
  cases h with
  | semWake ht hout hsome =>
    rw [update_apply] at hpc
    split at hpc
    · cases hpc
      exact Or.inr ⟨_, hsome ▸ mem_cons_self⟩
    · exact Or.inl hpc
  | boot | interrupt | spawnProc | createThread | semTake | semGive => exact Or.inl hpc
  | exit | sleep | semWait | block | trap | unblock | kernelProc | sweep | sweepAgain =>
    exact Or.inl (hupdate hpc (by simp))

theorem FlowStep.tidyFlows (h : TidyFlows w) (hstep : FlowStep WakesParked w w') :
    TidyFlows w' := by
  cases hstep with
  | @next a pc sched hnext hwakes hexec =>
    have hknown : ∀ c t, a = .unblock c t → t < w.sched.nextThread := by
      rintro c t rfl
      cases hnext with
      | unblock ht hpc => exact h.known _ _ hpc
    obtain ⟨htidy, hle⟩ := exec_tidy h.tidy hnext.moves hwakes hknown hexec
    refine ⟨htidy, fun t u hpc => Nat.lt_of_lt_of_le ?_ hle⟩
    obtain hpc | ⟨k, hu⟩ := hnext.pc_unblock hpc
    · exact h.known t u hpc
    · exact h.tidy.waiters k u hu

theorem tidy_smpInit (n : ℕ) (maxCnt : ℕ → ℕ) : Tidy (smpInit n maxCnt) := by
  have hplaces : (smpInit n maxCnt).places = [] := by
    rw [places, flatMap_eq_nil_iff]
    intro c _
    simp [placesOn, current, smpInit]
  refine ⟨?_, fun _ _ _ ht => absurd ht not_mem_nil, ?_,
    fun _ _ _ ht => absurd ht not_mem_nil, fun _ _ ht => absurd ht not_mem_nil,
    fun _ => rfl⟩
  · rw [hplaces]
    exact nodup_nil
  · rw [hplaces]
    exact fun _ ht => absurd ht not_mem_nil

/-- In every interleaving in which threads are woken only when they have left their CPU, each
thread is in one place. -/
theorem flows_onePlace {n : ℕ} {maxCnt : ℕ → ℕ}
    (hrun : ReflTransGen (FlowStep WakesParked) (flowsInit n maxCnt) w) : w.sched.OnePlace := by
  have h : TidyFlows w := by
    induction hrun with
    | refl => exact ⟨tidy_smpInit n maxCnt, fun _ _ hpc => by cases hpc⟩
    | tail _ hstep ih => exact hstep.tidyFlows ih
  exact onePlace_of_nodup h.tidy.nodup

/-- Two CPUs with one thread each; thread 1 takes a semaphore, and thread 0 enters itself into its
list and leaves the CPU before it is woken. -/
theorem flows_onePlace_semaphore :
    ∃ w, ReflTransGen (FlowStep WakesParked) (flowsInit 2 fun _ => 1) w ∧
      (w.sched.cpu 1).runQueue = [0] ∧ w.sched.OnePlace := by
  have hrun : ∃ w, ReflTransGen (FlowStep WakesParked) (flowsInit 2 fun _ => 1) w ∧
      (w.sched.cpu 1).runQueue = [0] := by
    refine ⟨_, .tail (.tail (.tail (.tail (.tail (.tail (.tail (.tail (.tail (.tail .refl
      (.next (.boot ⟨by decide, rfl⟩ rfl) trivial rfl))
      (.next (.boot ⟨by decide, rfl⟩ rfl) trivial rfl))
      (.next (.interrupt 0) trivial rfl))
      (.next (.interrupt 1) trivial rfl))
      (.next (.semTake (c := 1) (t := 1) (k := 0) rfl rfl Nat.one_pos) trivial rfl))
      (.next (.semWait (c := 0) (t := 0) (k := 0) rfl rfl (Nat.le_refl 1)) trivial rfl))
      (.next (.block (c := 0) (t := 0) rfl rfl) trivial rfl))
      (.next (.trap (c := 0) (t := 0) rfl rfl) trivial rfl))
      (.next (.semWake (c := 1) (t := 1) (k := 0) rfl rfl rfl) trivial rfl))
      (.next (.unblock (c := 1) (t := 1) rfl rfl) ?_ rfl), rfl⟩
    refine ⟨by decide, by decide, fun c => ?_⟩
    match c with
    | 0 => decide
    | 1 => decide
    | c + 2 =>
      intro hcurr
      have hlt : c + 2 < 2 := current_lt hcurr
      omega
  obtain ⟨w, hrun, hqueue⟩ := hrun
  exact ⟨w, hrun, hqueue, flows_onePlace hrun⟩

/-- Thread 1 releases the semaphore after thread 0 has entered itself into its list and before
thread 0 has left the CPU 0: it is then in the queue of the CPU 1 too. -/
theorem wake_before_switch :
    ∃ w, ReflTransGen (FlowStep fun _ _ => True) (flowsInit 2 fun _ => 1) w ∧
      w.sched.current 0 = some 0 ∧ (w.sched.cpu 1).runQueue = [0] ∧ ¬w.sched.OnePlace := by
  refine ⟨_, .tail (.tail (.tail (.tail (.tail (.tail (.tail (.tail .refl
    (.next (.boot ⟨by decide, rfl⟩ rfl) trivial rfl))
    (.next (.boot ⟨by decide, rfl⟩ rfl) trivial rfl))
    (.next (.interrupt 0) trivial rfl))
    (.next (.interrupt 1) trivial rfl))
    (.next (.semTake (c := 1) (t := 1) (k := 0) rfl rfl Nat.one_pos) trivial rfl))
    (.next (.semWait (c := 0) (t := 0) (k := 0) rfl rfl (Nat.le_refl 1)) trivial rfl))
    (.next (.semWake (c := 1) (t := 1) (k := 0) rfl rfl rfl) trivial rfl))
    (.next (.unblock (c := 1) (t := 1) rfl rfl) trivial rfl), rfl, rfl, fun h => ?_⟩
  exact h.notQueued 0 0 rfl 1 (by decide) (by decide)

end KernelOld.Sched
