import KernelOld.Acpi.Madt
import KernelOld.Lib.CountedLoop
import KernelOld.Sched.Defs
import Mathlib.Data.Finset.Card
import Mathlib.Data.List.Nodup

/-!
# Starting the processors

`smp_init` and `smp_entry` of `arch/x86_64/smp.c`, `cpu_getcurr` of `arch/x86_64/cpu.c` and the
choice of `thread_spawn`, with `cpu_count++` in its two accesses.

`smp_boot.S` loads the address of `smp_stack` instead of its value, so all processors run
`smp_entry` on one stack. The boot processor waits only a while for each of them: the runs are those
in which this is long enough, and no two of them are on the stack at the same time.
-/

namespace KernelOld.Smp
open ByteMemory Acpi Function List

structure CpuEnt where
  lapicId : ℕ
  threads : Option (List ℕ)
  runQueue : Option (List ℕ)
  currthread : Option ℕ
  lock : Bool
  deriving DecidableEq

def zeroEnt : CpuEnt := ⟨0, none, none, none, false⟩

def newEnt (id : ℕ) : CpuEnt := ⟨id, some [], some [], none, false⟩

def CpuEnt.Initialised (e : CpuEnt) : Prop := e.threads ≠ none ∧ e.runQueue ≠ none

def cpuGetcurr (ebx : UInt32) : ℕ := (ebx >>> 24).toNat

/-- Where a processor stands in `smp_entry`. -/
inductive ApState
  | off
  | started
  | filled
  | counted (n : ℕ)
  | up
  deriving DecidableEq

/-- `pending` is the part of `acpi_cpus` that `smp_init` has not come to, and `stack` is the
processor that is on the stack at 0x1018. -/
structure Machine where
  cpus : ℕ → CpuEnt
  cpuCount : ℕ
  pending : List ℕ
  ap : ℕ → ApState
  stack : Option ℕ

/-- `smp_init` before its loop; `locid` is the id of the boot processor. -/
def smpInit (locid : ℕ) (ids : List ℕ) : Machine where
  cpus := update (fun _ => zeroEnt) 0 (newEnt locid)
  cpuCount := 1
  pending := ids
  ap _ := .off
  stack := none

inductive Event
  | start
  | fill (id : ℕ)
  | load (id : ℕ)
  | store (id : ℕ)

/-- `none` stands for an event that is not due, for a processor that would start on a stack in use,
and for an index behind `cpus`. -/
def step (locid : ℕ) (ebx : ℕ → UInt32) (mc : Machine) : Event → Option Machine
  | .start =>
    match mc.pending with
    | [] => none
    | id :: ids =>
      if id = locid then some { mc with pending := ids }
      else if mc.stack = none then
        some { mc with pending := ids, ap := update mc.ap id .started, stack := some id }
      else none
  | .fill id =>
    if mc.ap id = .started ∧ cpuGetcurr (ebx id) < 64 then
      some { mc with
        cpus := update mc.cpus (cpuGetcurr (ebx id)) (newEnt (cpuGetcurr (ebx id)))
        ap := update mc.ap id .filled }
    else none
  | .load id =>
    if mc.ap id = .filled then some { mc with ap := update mc.ap id (.counted mc.cpuCount) }
    else none
  | .store id =>
    match mc.ap id with
    | .counted n => some { mc with cpuCount := n + 1, ap := update mc.ap id .up, stack := none }
    | _ => none

def run (locid : ℕ) (ebx : ℕ → UInt32) (mc : Machine) (evs : List Event) : Option Machine :=
  evs.foldlM (step locid ebx) mc

def threadsCnt (mc : Machine) (i : ℕ) : Option ℕ :=
  if i < 64 then (mc.cpus i).threads.map List.length else none

def leastLoaded (mc : Machine) : Option ℕ :=
  (List.range' 1 (mc.cpuCount - 1)).foldlM (fun cpu i =>
    (threadsCnt mc i).bind fun cnt => (threadsCnt mc cpu).map fun least =>
      if cnt < least then i else cpu) 0

def threadSpawn (mc : Machine) (t : ℕ) : Option Machine := do
  let cpu ← leastLoaded mc
  let threads ← (mc.cpus cpu).threads
  let runQueue ← (mc.cpus cpu).runQueue
  some { mc with
    cpus := update mc.cpus cpu
      { mc.cpus cpu with threads := some (threads ++ [t]), runQueue := some (runQueue ++ [t]) } }

/-- Nothing is left to start, and every processor is off or has come up. -/
def Machine.Finished (mc : Machine) : Prop :=
  mc.pending = [] ∧ ∀ id, mc.ap id = .off ∨ mc.ap id = .up

/-- The table that `smp_init` leaves, with the boot processor 0 and the others in `ids`, which come
up one after the other. -/
structure Usable (ebx : ℕ → UInt32) (ids : List ℕ) : Prop where
  /-- The processors that run have an index in `cpus`. -/
  index_lt : ∀ evs mc, run 0 ebx (smpInit 0 ids) evs = some mc →
    ∀ id, id = 0 ∨ mc.ap id ≠ .off → cpuGetcurr (ebx id) < 64
  finishes : ∃ evs mc, run 0 ebx (smpInit 0 ids) evs = some mc ∧ mc.Finished
  initialised : ∀ evs mc, run 0 ebx (smpInit 0 ids) evs = some mc → mc.Finished →
    ∀ i < mc.cpuCount, i < 64 ∧ (mc.cpus i).Initialised
  spawns : ∀ evs mc, run 0 ebx (smpInit 0 ids) evs = some mc → mc.Finished →
    ∀ t, (threadSpawn mc t).isSome

variable {ebx : ℕ → UInt32} {mc mc' : Machine} {evs : List Event} {ids rest : List ℕ} {id i n : ℕ}

theorem run_append (mc : Machine) (evs evs' : List Event) :
    run 0 ebx mc (evs ++ evs') = (run 0 ebx mc evs).bind fun mc' => run 0 ebx mc' evs' :=
  foldlM_append

/-! ## What holds in every run -/

def ups (ids : List ℕ) (ap : ℕ → ApState) : Finset ℕ := ids.toFinset.filter fun id => ap id = .up

theorem ups_update {ap : ℕ → ApState} {st : ApState} (hbefore : ap id ≠ .up) (hafter : st ≠ .up) :
    ups ids (update ap id st) = ups ids ap := by
  ext i
  by_cases hi : i = id
  · subst hi
    simp [ups, hbefore, hafter]
  · simp [ups, update_of_ne hi]

theorem card_ups_update {ap : ℕ → ApState} (hmem : id ∈ ids) (hbefore : ap id ≠ .up) :
    (ups ids (update ap id .up)).card = (ups ids ap).card + 1 := by
  have hinsert : ups ids (update ap id .up) = insert id (ups ids ap) := by
    ext i
    by_cases hi : i = id
    · subst hi
      simp [ups, hmem]
    · simp [ups, hi]
  rw [hinsert, Finset.card_insert_of_notMem]
  simp [ups, hbefore]

/-- With `k` processors that have stored `cpu_count`. A count that was read may be too small later,
but is never too large. -/
def Stage (k : ℕ) (cpus : ℕ → CpuEnt) (id : ℕ) : ApState → Prop
  | .off => True
  | .started => True
  | .filled => cpus id = newEnt id
  | .counted n => cpus id = newEnt id ∧ n ≤ 1 + k
  | .up => cpus id = newEnt id

theorem Stage.mono {k k' : ℕ} {cpus cpus' : ℕ → CpuEnt} {st : ApState} (h : Stage k cpus id st)
    (hk : k ≤ k') (hcpus : cpus' id = cpus id) : Stage k' cpus' id st := by
  cases st with
  | off => trivial
  | started => trivial
  | filled => exact hcpus.trans h
  | counted n => exact ⟨hcpus.trans h.1, h.2.trans (Nat.add_le_add_left hk 1)⟩
  | up => exact hcpus.trans h

structure Inv (ids : List ℕ) (mc : Machine) : Prop where
  begun : ∃ begun, ids = begun ++ mc.pending ∧ ∀ id, mc.ap id ≠ .off ↔ id ∈ begun
  boot : mc.cpus 0 = newEnt 0
  stage : ∀ id, Stage (ups ids mc.ap).card mc.cpus id (mc.ap id)
  count_le : mc.cpuCount ≤ 1 + (ups ids mc.ap).card
  count_pos : 0 < mc.cpuCount

theorem inv_smpInit (ids : List ℕ) : Inv ids (smpInit 0 ids) where
  begun := ⟨[], rfl, fun _ => ⟨fun h => absurd rfl h, fun h => absurd h not_mem_nil⟩⟩
  boot := rfl
  stage _ := trivial
  count_le := Nat.le_add_right 1 _
  count_pos := Nat.one_pos

theorem Inv.mem (h : Inv ids mc) (hap : mc.ap id ≠ .off) : id ∈ ids := by
  obtain ⟨begun, hids, hmem⟩ := h.begun
  rw [hids]
  exact mem_append_left _ ((hmem id).mp hap)

theorem Inv.update (h : Inv ids mc) {cpus : ℕ → CpuEnt} {count : ℕ} {st : ApState}
    {stack : Option ℕ}
    (hap : mc.ap id ≠ .off) (hst : st ≠ .off) (hboot : cpus 0 = newEnt 0)
    (hcpus : ∀ i ≠ id, cpus i = mc.cpus i)
    (hcard : (ups ids mc.ap).card ≤ (ups ids (update mc.ap id st)).card)
    (hstage : Stage (ups ids (update mc.ap id st)).card cpus id st)
    (hcount : count ≤ 1 + (ups ids (update mc.ap id st)).card) (hpos : 0 < count) :
    Inv ids ⟨cpus, count, mc.pending, update mc.ap id st, stack⟩ := by
  obtain ⟨begun, hids, hbegun⟩ := h.begun
  refine ⟨⟨begun, hids, ?_⟩, hboot, ?_, hcount, hpos⟩
  · refine (forall_update_iff mc.ap fun i st => st ≠ .off ↔ i ∈ begun).mpr ⟨?_, ?_⟩
    · exact ⟨fun _ => (hbegun id).mp hap, fun _ => hst⟩
    · exact fun i _ => hbegun i
  · refine (forall_update_iff mc.ap fun i st' => Stage _ cpus i st').mpr ⟨hstage, ?_⟩
    exact fun i hi => (h.stage i).mono hcard (hcpus i hi)

theorem Inv.start (hnodup : ids.Nodup) (hzero : 0 ∉ ids) (h : Inv ids mc)
    (hstep : step 0 ebx mc .start = some mc') : Inv ids mc' := by
  obtain ⟨begun, hids, hbegun⟩ := h.begun
  rw [step] at hstep
  cases hpending : mc.pending with
  | nil => simp [hpending] at hstep
  | cons id rest =>
    rw [hpending] at hids
    have hmem : id ∈ ids := hids ▸ mem_append_right _ mem_cons_self
    have hid : id ≠ 0 := fun heq => hzero (heq ▸ hmem)
    simp only [hpending, if_neg hid, Option.ite_none_right_eq_some, Option.some.injEq] at hstep
    obtain ⟨-, rfl⟩ := hstep
    have hnot : id ∉ begun := fun hbefore =>
      disjoint_of_nodup_append (hids ▸ hnodup) hbefore mem_cons_self
    have hoff : mc.ap id = .off := by
      by_contra hne
      exact hnot ((hbegun id).mp hne)
    have hups : ups ids (Function.update mc.ap id .started) = ups ids mc.ap :=
      ups_update (by rw [hoff]; decide) (by decide)
    refine ⟨⟨begun ++ [id], by rw [hids, append_assoc]; rfl, ?_⟩, h.boot, ?_, ?_, h.count_pos⟩
    · refine (forall_update_iff mc.ap fun i st => st ≠ .off ↔ i ∈ begun ++ [id]).mpr ⟨?_, ?_⟩
      · exact ⟨fun _ => mem_append_right _ mem_cons_self, fun _ => by decide⟩
      · intro i hi
        rw [hbegun i, mem_append, mem_singleton, or_iff_left hi]
    · rw [hups]
      exact (forall_update_iff mc.ap fun i st => Stage _ mc.cpus i st).mpr
        ⟨trivial, fun i _ => h.stage i⟩
    · rw [hups]
      exact h.count_le

theorem Inv.fill (hzero : 0 ∉ ids) (hebx : ∀ id ∈ ids, cpuGetcurr (ebx id) = id)
    (h : Inv ids mc) (hstep : step 0 ebx mc (.fill id) = some mc') : Inv ids mc' := by
  rw [step, Option.ite_none_right_eq_some] at hstep
  obtain ⟨⟨hstarted, -⟩, hmc⟩ := hstep
  obtain rfl := Option.some.inj hmc
  have hap : mc.ap id ≠ .off := by rw [hstarted]; decide
  have hid : 0 ≠ id := fun heq => hzero (heq ▸ h.mem hap)
  have hups : ups ids (Function.update mc.ap id .filled) = ups ids mc.ap :=
    ups_update (by rw [hstarted]; decide) (by decide)
  rw [hebx id (h.mem hap)]
  refine h.update hap (by decide) ?_ ?_ (by rw [hups]) (update_self ..) ?_ h.count_pos
  · exact (update_of_ne hid ..).trans h.boot
  · exact fun i hi => update_of_ne hi ..
  · rw [hups]
    exact h.count_le

theorem Inv.load (h : Inv ids mc) (hstep : step 0 ebx mc (.load id) = some mc') :
    Inv ids mc' := by
  rw [step, Option.ite_none_right_eq_some] at hstep
  obtain ⟨hfilled, hmc⟩ := hstep
  obtain rfl := Option.some.inj hmc
  have hent := h.stage id
  rw [hfilled] at hent
  have hups : ups ids (Function.update mc.ap id (.counted mc.cpuCount)) = ups ids mc.ap :=
    ups_update (by rw [hfilled]; decide) (by simp)
  refine h.update (by rw [hfilled]; decide) (by simp) h.boot (fun _ _ => rfl) (by rw [hups]) ?_ ?_
      h.count_pos
  · rw [hups]
    exact ⟨hent, h.count_le⟩
  · rw [hups]
    exact h.count_le

theorem Inv.store (h : Inv ids mc) (hstep : step 0 ebx mc (.store id) = some mc') :
    Inv ids mc' := by
  rw [step] at hstep
  split at hstep
  case h_2 => cases hstep
  case h_1 n hcounted =>
    obtain rfl := Option.some.inj hstep
    have hent := h.stage id
    rw [hcounted] at hent
    have hap : mc.ap id ≠ .off := by simp [hcounted]
    have hcard := card_ups_update (h.mem hap) (show mc.ap id ≠ .up by simp [hcounted])
    refine h.update hap (by decide) h.boot (fun _ _ => rfl) (by rw [hcard]; omega) hent.1 ?_
      (Nat.succ_pos n)
    rw [hcard]
    have hread := hent.2
    omega

theorem Inv.run (hnodup : ids.Nodup) (hzero : 0 ∉ ids)
    (hebx : ∀ id ∈ ids, cpuGetcurr (ebx id) = id)
    (hrun : run 0 ebx (smpInit 0 ids) evs = some mc) : Inv ids mc := by
  refine CountedLoop.foldlM_induction ?_ (inv_smpInit ids) hrun
  intro mc e mc' h hstep
  cases e with
  | start => exact h.start hnodup hzero hstep
  | fill id => exact h.fill hzero hebx hstep
  | load id => exact h.load hstep
  | store id => exact h.store hstep

theorem Inv.finished (h : Inv ids mc) (hfin : mc.Finished) :
    (∀ i, i = 0 ∨ i ∈ ids → mc.cpus i = newEnt i) ∧ mc.cpuCount ≤ ids.length + 1 := by
  obtain ⟨hpending, hend⟩ := hfin
  obtain ⟨begun, hids, hbegun⟩ := h.begun
  rw [hpending, append_nil] at hids
  constructor
  · rintro i (rfl | hi)
    · exact h.boot
    · have hup : mc.ap i = .up := (hend i).resolve_left ((hbegun i).mpr (hids ▸ hi))
      have hent := h.stage i
      rwa [hup] at hent
  · have hcard : (ups ids mc.ap).card ≤ ids.length :=
      (Finset.card_filter_le _ _).trans (toFinset_card_le ids)
    have hcount := h.count_le
    omega

/-! ## Runs that come to an end -/

def bringUp (id : ℕ) : List Event := [.start, .fill id, .load id, .store id]

theorem run_bringUp (hpending : mc.pending = id :: rest) (hstack : mc.stack = none)
    (hid : id ≠ 0) (hebx : cpuGetcurr (ebx id) = id) (hlt : id < 64) :
    run 0 ebx mc (bringUp id) = some
      ⟨update mc.cpus id (newEnt id), mc.cpuCount + 1, rest, update mc.ap id .up, none⟩ := by
  simp [run, bringUp, step, hpending, hstack, hid, hebx, hlt]

theorem exists_run_bringUp (hpending : mc.pending = ids) (hstack : mc.stack = none)
    (hzero : 0 ∉ ids)
    (hebx : ∀ id ∈ ids, cpuGetcurr (ebx id) = id) (hlt : ∀ id ∈ ids, id < 64) :
    ∃ mc', run 0 ebx mc (ids.flatMap bringUp) = some mc' ∧ mc'.pending = [] ∧
      mc'.cpuCount = mc.cpuCount + ids.length ∧ (∀ i ∈ ids, mc'.ap i = .up) ∧
      ∀ i ∉ ids, mc'.ap i = mc.ap i ∧ mc'.cpus i = mc.cpus i := by
  induction ids generalizing mc with
  | nil =>
    exact ⟨mc, rfl, hpending, rfl, fun _ h => absurd h not_mem_nil, fun _ _ => ⟨rfl, rfl⟩⟩
  | cons id ids ih =>
    rw [mem_cons, not_or] at hzero
    obtain ⟨hidx, hebx⟩ := forall_mem_cons.mp hebx
    obtain ⟨hid, hlt⟩ := forall_mem_cons.mp hlt
    obtain ⟨mc', hrun, hdone, hcount, hup, hsame⟩ := @ih
      ⟨update mc.cpus id (newEnt id), mc.cpuCount + 1, ids, update mc.ap id .up, none⟩
      rfl rfl hzero.2 hebx hlt
    refine ⟨mc', ?_, hdone, ?_, ?_, ?_⟩
    · rw [flatMap_cons, run_append, run_bringUp hpending hstack (Ne.symm hzero.1) hidx hid]
      exact hrun
    · change mc'.cpuCount = mc.cpuCount + 1 + ids.length at hcount
      rw [length_cons]
      omega
    · intro i hi
      by_cases hlater : i ∈ ids
      · exact hup i hlater
      · have heq : i = id := (mem_cons.mp hi).resolve_right hlater
        rw [(hsame i hlater).1, heq]
        exact update_self ..
    · intro i hi
      rw [mem_cons, not_or] at hi
      obtain ⟨hap, hcpus⟩ := hsame i hi.2
      exact ⟨hap.trans (update_of_ne hi.1 ..), hcpus.trans (update_of_ne hi.1 ..)⟩

/-! ## The scheduler on the table -/

theorem exists_threadsCnt (htable : ∀ i < mc.cpuCount, i < 64 ∧ (mc.cpus i).Initialised)
    (hi : i < mc.cpuCount) : ∃ cnt, threadsCnt mc i = some cnt := by
  obtain ⟨hlt, hthreads, -⟩ := htable i hi
  obtain ⟨threads, heq⟩ := Option.ne_none_iff_exists'.mp hthreads
  exact ⟨threads.length, by rw [threadsCnt, if_pos hlt, heq, Option.map_some]⟩

theorem exists_leastLoaded (htable : ∀ i < mc.cpuCount, i < 64 ∧ (mc.cpus i).Initialised)
    (hpos : 0 < mc.cpuCount) : ∃ cpu < mc.cpuCount, leastLoaded mc = some cpu := by
  have hloop (is : List ℕ) (his : ∀ i ∈ is, i < mc.cpuCount) {cpu : ℕ} (hcpu : cpu < mc.cpuCount) :
      ∃ cpu' < mc.cpuCount, is.foldlM (fun cpu i =>
        (threadsCnt mc i).bind fun cnt => (threadsCnt mc cpu).map fun least =>
          if cnt < least then i else cpu) cpu = some cpu' := by
    induction is generalizing cpu with
    | nil => exact ⟨cpu, hcpu, rfl⟩
    | cons i is ih =>
      obtain ⟨hi, his⟩ := forall_mem_cons.mp his
      obtain ⟨cnt, hcnt⟩ := exists_threadsCnt htable hi
      obtain ⟨least, hleast⟩ := exists_threadsCnt htable hcpu
      have hnext : (if cnt < least then i else cpu) < mc.cpuCount := by
        split
        · exact hi
        · exact hcpu
      obtain ⟨cpu', hlt, hrest⟩ := ih his hnext
      refine ⟨cpu', hlt, ?_⟩
      rw [foldlM_cons, hcnt, hleast]
      exact hrest
  refine hloop _ ?_ hpos
  intro i hi
  rw [mem_range'_1] at hi
  omega

theorem isSome_threadSpawn (htable : ∀ i < mc.cpuCount, i < 64 ∧ (mc.cpus i).Initialised)
    (hpos : 0 < mc.cpuCount) (t : ℕ) : (threadSpawn mc t).isSome := by
  obtain ⟨cpu, hcpu, hleast⟩ := exists_leastLoaded htable hpos
  obtain ⟨-, hthreads, hqueue⟩ := htable cpu hcpu
  obtain ⟨threads, hthreads⟩ := Option.ne_none_iff_exists'.mp hthreads
  obtain ⟨runQueue, hqueue⟩ := Option.ne_none_iff_exists'.mp hqueue
  simp [threadSpawn, hleast, hthreads, hqueue]

/-! ## Ids without a gap -/

theorem card_insert_ids (hnodup : ids.Nodup) (hzero : 0 ∉ ids) :
    (insert 0 ids.toFinset).card = ids.length + 1 := by
  rw [Finset.card_insert_of_notMem (by simpa using hzero), toFinset_card_of_nodup hnodup]

/-- As many different ids as there are numbers below the bound: all are below it if and only if
none is left out. -/
theorem lt_iff_mem (hnodup : ids.Nodup) (hzero : 0 ∉ ids) :
    (∀ id ∈ ids, id < ids.length + 1) ↔ ∀ i < ids.length + 1, i = 0 ∨ i ∈ ids := by
  have hcard := card_insert_ids hnodup hzero
  constructor
  · intro hlt i hi
    have hsub : insert 0 ids.toFinset ⊆ Finset.range (ids.length + 1) := by
      intro j hj
      rw [Finset.mem_insert, mem_toFinset] at hj
      rcases hj with rfl | hj
      · exact Finset.mem_range.mpr (Nat.succ_pos _)
      · exact Finset.mem_range.mpr (hlt j hj)
    have heq := Finset.eq_of_subset_of_card_le hsub (by rw [hcard, Finset.card_range])
    have hmem : i ∈ insert 0 ids.toFinset := heq ▸ Finset.mem_range.mpr hi
    rwa [Finset.mem_insert, mem_toFinset] at hmem
  · intro hall id hid
    have hsub : Finset.range (ids.length + 1) ⊆ insert 0 ids.toFinset := by
      intro j hj
      rw [Finset.mem_insert, mem_toFinset]
      exact hall j (Finset.mem_range.mp hj)
    have heq := Finset.eq_of_subset_of_card_le hsub (by rw [hcard, Finset.card_range])
    have hmem : id ∈ Finset.range (ids.length + 1) :=
      heq ▸ Finset.mem_insert_of_mem (mem_toFinset.mpr hid)
    exact Finset.mem_range.mp hmem

theorem exists_finished (hzero : 0 ∉ ids) (hebx : ∀ id ∈ ids, cpuGetcurr (ebx id) = id)
    (hlt : ∀ id ∈ ids, id < 64) :
    ∃ evs mc, run 0 ebx (smpInit 0 ids) evs = some mc ∧ mc.Finished ∧
      mc.cpuCount = ids.length + 1 ∧ ∀ i, i ≠ 0 → i ∉ ids → mc.cpus i = zeroEnt := by
  obtain ⟨mc, hrun, hdone, hcount, hup, hsame⟩ :=
    exists_run_bringUp (show (smpInit 0 ids).pending = ids from rfl) rfl hzero hebx hlt
  refine ⟨_, mc, hrun, ⟨hdone, ?_⟩, hcount.trans (Nat.add_comm 1 _), ?_⟩
  · intro i
    by_cases hi : i ∈ ids
    · exact Or.inr (hup i hi)
    · exact Or.inl (hsame i hi).1
  · intro i hne hi
    rw [(hsame i hi).2]
    simp only [smpInit, update_of_ne hne]

theorem usable_iff (hnodup : ids.Nodup) (hzero : 0 ∉ ids) (hboot : cpuGetcurr (ebx 0) = 0)
    (hebx : ∀ id ∈ ids, cpuGetcurr (ebx id) = id) (hcnt : ids.length + 1 ≤ 64) :
    Usable ebx ids ↔ ∀ id ∈ ids, id < ids.length + 1 := by
  constructor
  · intro h
    have hlt : ∀ id ∈ ids, id < 64 := by
      intro id hid
      obtain ⟨evs, mc, hrun, hfin⟩ := h.finishes
      obtain ⟨begun, hids, hbegun⟩ := (Inv.run hnodup hzero hebx hrun).begun
      rw [hfin.1, append_nil] at hids
      have hidx := h.index_lt _ mc hrun id (Or.inr ((hbegun id).mpr (hids ▸ hid)))
      rwa [hebx id hid] at hidx
    obtain ⟨evs, mc, hrun, hfin, hcount, hempty⟩ := exists_finished hzero hebx hlt
    rw [lt_iff_mem hnodup hzero, ← hcount]
    intro i hi
    by_contra hout
    rw [not_or] at hout
    -- no processor has filled the entry of an id that is left out
    have hcpu := (h.initialised evs mc hrun hfin i hi).2
    rw [hempty i hout.1 hout.2] at hcpu
    exact hcpu.1 rfl
  · intro hlt
    have hlt64 : ∀ id ∈ ids, id < 64 := fun id hid => lt_of_lt_of_le (hlt id hid) hcnt
    have htable : ∀ evs mc, run 0 ebx (smpInit 0 ids) evs = some mc → mc.Finished →
        ∀ i < mc.cpuCount, i < 64 ∧ (mc.cpus i).Initialised := by
      intro evs mc hrun hfin i hi
      obtain ⟨hents, hcount⟩ := (Inv.run hnodup hzero hebx hrun).finished hfin
      have hbound : i < ids.length + 1 := lt_of_lt_of_le hi hcount
      rw [hents i ((lt_iff_mem hnodup hzero).mp hlt i hbound)]
      exact ⟨lt_of_lt_of_le hbound hcnt, by simp [CpuEnt.Initialised, newEnt]⟩
    refine ⟨?_, ?_, htable, ?_⟩
    · rintro evs mc hrun id (rfl | hap)
      · rw [hboot]
        decide
      · have hid := (Inv.run hnodup hzero hebx hrun).mem hap
        rw [hebx id hid]
        exact hlt64 id hid
    · obtain ⟨evs, mc, hrun, hfin, -⟩ := exists_finished hzero hebx hlt64
      exact ⟨evs, mc, hrun, hfin⟩
    · intro evs mc hrun hfin t
      have hinv := Inv.run hnodup hzero hebx hrun
      exact isSome_threadSpawn (htable evs mc hrun hfin) hinv.count_pos t

/-! ## From the table of the firmware -/

theorem length_apsOf {m : Mem} {ents : List ℕ} (hnodup : (listedIds m ents).Nodup)
    (hboot : 0 ∈ listedIds m ents) : (listedIds m ents).length = (apsOf m ents).length + 1 := by
  have herase : apsOf m ents = (listedIds m ents).erase 0 := by
    rw [hnodup.erase_eq_filter, apsOf]
    congr 1
    funext id
    by_cases hid : id = 0 <;> simp [hid]
  rw [herase, length_erase_of_mem hboot]
  have hpos := length_pos_of_mem hboot
  omega

theorem apicId_lt (m : Mem) (ent : ℕ) : apicId m ent < 256 := (m (ent + 3)).toNat_lt

/-- A table with at most 64 enabled processors, the boot processor 0 among them, leads to a usable
`cpus` if and only if every local APIC id is below the number of processors, and there are at most
200 interrupt source overrides. The processors come up one after the other. -/
theorem smp_usable_iff (m : Mem) (ents : List ℕ) (rounds : ℕ) (ebx : ℕ → UInt32)
    (hebx : ∀ id < 256, cpuGetcurr (ebx id) = id) (hents : Entries m (load m 4 4) 44 ents)
    (hrounds : ents.length < rounds) (hnodup : (listedIds m ents).Nodup)
    (hboot : 0 ∈ listedIds m ents) (hcnt : (listedIds m ents).length ≤ 64) :
    (∃ acpi, acpiReadMadt m rounds = some acpi ∧ Usable ebx acpi.cpus) ↔
      (∀ id ∈ listedIds m ents, id < (listedIds m ents).length) ∧
        (listedIsos m ents).length ≤ 200 := by
  have hlength := length_apsOf hnodup hboot
  have hmem (id : ℕ) : id ∈ apsOf m ents ↔ id ∈ listedIds m ents ∧ id ≠ 0 := by
    rw [apsOf, mem_filter, decide_eq_true_eq]
  have hzero : 0 ∉ apsOf m ents := fun h => ((hmem 0).mp h).2 rfl
  have hidx : ∀ id ∈ apsOf m ents, cpuGetcurr (ebx id) = id := by
    intro id hid
    obtain ⟨ent, -, rfl⟩ := mem_map.mp ((hmem id).mp hid).1
    exact hebx _ (apicId_lt m ent)
  have hdistinct : (apsOf m ents).Nodup := hnodup.filter _
  have husable := usable_iff hdistinct hzero (hebx 0 (by decide)) hidx
    (show (apsOf m ents).length + 1 ≤ 64 by omega)
  have hids : (∀ id ∈ apsOf m ents, id < (apsOf m ents).length + 1) ↔
      ∀ id ∈ listedIds m ents, id < (listedIds m ents).length := by
    rw [hlength]
    constructor
    · intro h id hid
      rcases Nat.eq_zero_or_pos id with rfl | hpos
      · exact Nat.succ_pos _
      · exact h id ((hmem id).mpr ⟨hid, hpos.ne'⟩)
    · exact fun h id hid => h id ((hmem id).mp hid).1
  rw [← hids, ← husable]
  constructor
  · rintro ⟨acpi, hread, h⟩
    obtain ⟨hcpus, hisos⟩ := hents.eq_some hread
    rw [nil_append] at hcpus hisos
    exact ⟨hcpus ▸ h, hisos ▸ acpi.isos_le⟩
  · rintro ⟨h, hisos⟩
    have hroom : (acpiReadMadt m rounds).isSome :=
      hents.isSome hrounds (by rw [length_nil]; omega) (by rw [length_nil]; omega)
    obtain ⟨acpi, hread⟩ := Option.isSome_iff_exists.mp hroom
    refine ⟨acpi, hread, ?_⟩
    rw [(hents.eq_some hread).1]
    exact h

def twoCpus (id : UInt8) : Mem := fun a =>
  ([0x41, 0x50, 0x49, 0x43, 60] ++ List.replicate 39 0 ++ [0, 8, 0, 0, 1, 0, 0, 0] ++
    [0, 8, 1, id, 1, 0, 0, 0]).getD a 0

def plainCpuid (id : ℕ) : UInt32 := id.toUInt32 <<< 24

theorem cpuGetcurr_plainCpuid : ∀ id < 256, cpuGetcurr (plainCpuid id) = id := by
  decide +kernel

theorem entries_twoCpus (id : UInt8) :
    Entries (twoCpus id) (load (twoCpus id) 4 4) 44 [44, 52] := by
  have hlen : load (twoCpus id) 4 4 = 60 := by simp [load, twoCpus]
  have hfirst : entLen (twoCpus id) 44 = 8 := rfl
  have hsecond : entLen (twoCpus id) 52 = 8 := rfl
  rw [hlen]
  refine .next (by decide) (by rw [hfirst]; decide) ?_
  rw [hfirst]
  change Entries (twoCpus id) 60 52 [52]
  refine .next (by decide) (by rw [hsecond]; decide) ?_
  rw [hsecond]
  exact .done le_rfl

theorem listedIds_twoCpus (id : UInt8) : listedIds (twoCpus id) [44, 52] = [0, id.toNat] := by
  have hfirst : IsCpu (twoCpus id) 44 := by
    have hflags : load (twoCpus id) 48 4 = 1 := by simp [load, twoCpus]
    exact ⟨rfl, show load (twoCpus id) 48 4 &&& 5 ≠ 0 by rw [hflags]; decide⟩
  have hsecond : IsCpu (twoCpus id) 52 := by
    have hflags : load (twoCpus id) 56 4 = 1 := by simp [load, twoCpus]
    exact ⟨rfl, show load (twoCpus id) 56 4 &&& 5 ≠ 0 by rw [hflags]; decide⟩
  have hall : [44, 52].filter (fun ent => decide (IsCpu (twoCpus id) ent)) = [44, 52] :=
    filter_eq_self.mpr (by simp [hfirst, hsecond])
  rw [listedIds, hall]
  rfl

theorem smp_usable_iff_two :
    listedIds (twoCpus 1) [44, 52] = [0, 1] ∧
      ∃ acpi, acpiReadMadt (twoCpus 1) 3 = some acpi ∧ Usable plainCpuid acpi.cpus := by
  have hids : listedIds (twoCpus 1) [44, 52] = [0, 1] := listedIds_twoCpus 1
  refine ⟨hids, (smp_usable_iff (twoCpus 1) [44, 52] 3 plainCpuid cpuGetcurr_plainCpuid
    (entries_twoCpus 1) (by decide) ?_ ?_ ?_).mpr ?_⟩
  · rw [hids]
    decide
  · rw [hids]
    decide
  · rw [hids]
    decide
  · rw [hids]
    exact ⟨by decide, by decide +kernel⟩

/-- With the ids 0 and 2, `cpu_count` is 2 and `cpus[1]` is not initialised. -/
theorem smp_leaves_gap :
    listedIds (twoCpus 2) [44, 52] = [0, 2] ∧
      ∃ acpi evs mc, acpiReadMadt (twoCpus 2) 3 = some acpi ∧
        run 0 plainCpuid (smpInit 0 acpi.cpus) evs = some mc ∧ mc.Finished ∧ mc.cpuCount = 2 ∧
        (mc.cpus 1).threads = none ∧ threadSpawn mc 0 = none := by
  have hids : listedIds (twoCpus 2) [44, 52] = [0, 2] := listedIds_twoCpus 2
  have haps : apsOf (twoCpus 2) [44, 52] = [2] := by
    rw [apsOf, hids]
    rfl
  have hroom : (acpiReadMadt (twoCpus 2) 3).isSome :=
    (entries_twoCpus 2).isSome (by decide) (by rw [haps]; decide) (by decide +kernel)
  obtain ⟨acpi, hread⟩ := Option.isSome_iff_exists.mp hroom
  have hcpus : acpi.cpus = [2] := ((entries_twoCpus 2).eq_some hread).1.trans haps
  have hrun := run_bringUp (show (smpInit 0 [2]).pending = [2] from rfl) rfl (by decide)
    (cpuGetcurr_plainCpuid 2 (by decide)) (by decide)
  rw [← hcpus] at hrun
  refine ⟨hids, acpi, bringUp 2, _, hread, hrun, ⟨rfl, ?_⟩, rfl, rfl, rfl⟩
  exact (forall_update_iff (fun _ => ApState.off) fun _ st => st = .off ∨ st = .up).mpr
    ⟨Or.inr rfl, fun _ _ => Or.inl rfl⟩

/-! ## The scheduler -/

def CpuEnt.toCpu (e : CpuEnt) : Option Sched.Cpu := do
  let threads ← e.threads
  let runQueue ← e.runQueue
  some ⟨e.currthread, threads, runQueue, false⟩

/-- When the processors have come up, one after the other, the table that they leave is the one the
scheduler starts with. -/
theorem toCpu_eq_smpInit (hnodup : ids.Nodup) (hzero : 0 ∉ ids)
    (hebx : ∀ id ∈ ids, cpuGetcurr (ebx id) = id) (hlt : ∀ id ∈ ids, id < ids.length + 1)
    (hrun : run 0 ebx (smpInit 0 ids) evs = some mc) (hfin : mc.Finished) (maxCnt : ℕ → ℕ)
    (hi : i < mc.cpuCount) :
    (mc.cpus i).toCpu = some ((Sched.smpInit mc.cpuCount maxCnt).cpu i) := by
  obtain ⟨hents, hcount⟩ := (Inv.run hnodup hzero hebx hrun).finished hfin
  rw [hents i ((lt_iff_mem hnodup hzero).mp hlt i (lt_of_lt_of_le hi hcount))]
  rfl

theorem toCpu_eq_smpInit_two :
    ∃ evs mc, run 0 plainCpuid (smpInit 0 [1]) evs = some mc ∧ mc.Finished ∧
      (mc.cpus 1).toCpu = some ((Sched.smpInit mc.cpuCount fun _ => 1).cpu 1) := by
  have hrun := run_bringUp (show (smpInit 0 [1]).pending = [1] from rfl) rfl (by decide)
    (cpuGetcurr_plainCpuid 1 (by decide)) (by decide)
  have hebx : ∀ id ∈ [1], cpuGetcurr (plainCpuid id) = id :=
    fun id hid => cpuGetcurr_plainCpuid id (by rw [mem_singleton.mp hid]; decide)
  have hfin : ∀ cpus n, Machine.Finished ⟨cpus, n, [], update (fun _ => .off) 1 .up, none⟩ :=
    fun _ _ => ⟨rfl, (forall_update_iff (fun _ => ApState.off) fun _ st => st = .off ∨ st = .up).mpr
      ⟨Or.inr rfl, fun _ _ => Or.inl rfl⟩⟩
  exact ⟨bringUp 1, _, hrun, hfin _ _, toCpu_eq_smpInit (by decide) (by decide) hebx (by decide)
    hrun (hfin _ _) (fun _ => 1) (by decide)⟩

end KernelOld.Smp
