import Mathlib.Data.List.Perm.Basic
import KernelOld.Sched.Defs
import KernelOld.Util.Deque

/-!
# Semaphores and mutexes

`sem_create`, `sem_acquire`, `sem_release` and the three functions for a mutex of `sched/sched.c`,
with their wait lists in memory. An acquire and a release are one step each. The one in memory
refines a semaphore whose wait list is a sequence (`Sem`), and so does the mutex, for `max_cnt = 1`.
What holds of both is proved once, over a lock with the two operations (`World`).
-/

namespace KernelOld.Sched
open LinkedList MachineWord Function List

structure SemT where
  maxCnt : ℕ
  currCnt : ℕ
  waitlst : ListT ℕ

def semCreate (maxCnt : ℕ) : SemT := { maxCnt, currCnt := 0, waitlst := listCreate }

def semAcquire (sem : SemT) (curr node : ℕ) : Option (SemT × Bool) :=
  if sem.currCnt < sem.maxCnt then some ({ sem with currCnt := u32 (sem.currCnt + 1) }, false)
  else do
    let waitlst ← listPushBackLive sem.waitlst curr node
    some ({ sem with waitlst }, true)

def semRelease (sem : SemT) : Option (SemT × Option ℕ) :=
  if sem.waitlst.head ≠ 0 then do
    let (waitlst, val) ← listPopFront sem.waitlst
    let thread ← val
    some ({ sem with waitlst }, some thread)
  else some ({ sem with currCnt := u32 (sem.currCnt + 2 ^ 32 - 1) }, none)

structure MutexT where
  proc : ℕ
  waitlst : ListT ℕ

def mutexCreate : MutexT := { proc := 0, waitlst := listCreate }

def mutexAcquire (mutex : MutexT) (curr node : ℕ) : Option (MutexT × Bool) :=
  if mutex.proc = 0 then some ({ mutex with proc := 1 }, false)
  else do
    let waitlst ← listPushBackLive mutex.waitlst curr node
    some ({ mutex with waitlst }, true)

def mutexRelease (mutex : MutexT) : Option (MutexT × Option ℕ) :=
  if mutex.waitlst.head ≠ 0 then do
    let (waitlst, val) ← listPopFront mutex.waitlst
    let thread ← val
    some ({ mutex with waitlst }, some thread)
  else some ({ mutex with proc := 0 }, none)

/-! ## The semaphore of the scheduler -/

def Sem.acquire (s : Sem) (t : ℕ) : Sem × Bool :=
  if s.currCnt < s.maxCnt then ({ s with currCnt := s.currCnt + 1 }, false)
  else ({ s with waitlst := s.waitlst ++ [t] }, true)

def Sem.release (s : Sem) : Sem × Option ℕ :=
  match s.waitlst with
  | [] => ({ s with currCnt := u32 (s.currCnt + 2 ^ 32 - 1) }, none)
  | t :: waitlst => ({ s with waitlst }, some t)

theorem Sem.release_nil {s : Sem} (h : s.waitlst = []) :
    s.release = ({ s with currCnt := u32 (s.currCnt + 2 ^ 32 - 1) }, none) := by
  simp only [Sem.release, h]

theorem Sem.release_cons {s : Sem} {t : ℕ} {ts : List ℕ} (h : s.waitlst = t :: ts) :
    s.release = ({ s with waitlst := ts }, some t) := by
  simp only [Sem.release, h]

theorem Sem.release_snd (s : Sem) : s.release.2 = s.waitlst.head? := by
  cases h : s.waitlst with
  | nil => exact congrArg Prod.snd (Sem.release_nil h)
  | cons t ts => exact congrArg Prod.snd (Sem.release_cons h)

theorem Sem.release_currCnt (s : Sem) (hpos : 0 < s.currCnt) (hlt : s.currCnt < 2 ^ 32) :
    s.currCnt = s.release.1.currCnt + if s.waitlst = [] then 1 else 0 := by
  cases h : s.waitlst with
  | nil =>
    have hdec : u32 (s.currCnt + 2 ^ 32 - 1) = s.currCnt - 1 := by
      rw [u32]
      omega
    rw [Sem.release_nil h, hdec, if_pos rfl]
    exact (Nat.sub_add_cancel hpos).symm
  | cons t ts =>
    rw [Sem.release_cons h, if_neg (cons_ne_nil t ts)]
    rfl

theorem exec_semAcquire {s : Scheduler} {c k t : ℕ} (ht : s.current c = some t) :
    (Act.semAcquire c k).exec s = some (s.setSem k ((s.sem k).acquire t).1) := by
  rw [Act.exec, ht, Sem.acquire]
  show (if _ then _ else _) = _
  split <;> rfl

theorem exec_semRelease {s : Scheduler} {c k t : ℕ} (ht : s.current c = some t) :
    (Act.semRelease c k).exec s = some (s.setSem k ((s.sem k).release).1) := by
  rw [Act.exec, ht, Sem.release]
  cases hwaitlst : (s.sem k).waitlst with
  | nil => simp only [Option.bind_eq_bind, Option.bind_some, hwaitlst]
  | cons u us => simp only [Option.bind_eq_bind, Option.bind_some, hwaitlst]

/-! ## Locks -/

structure Lock (σ : Type) where
  acquire : σ → ℕ → ℕ → Option (σ × Bool)
  release : σ → Option (σ × Option ℕ)
  waitlst : σ → ListT ℕ

def semLock : Lock SemT := ⟨semAcquire, semRelease, SemT.waitlst⟩

def mutexLock : Lock MutexT := ⟨mutexAcquire, mutexRelease, MutexT.waitlst⟩

inductive LockEvent
  | acquired (t : ℕ)
  | blocked (t : ℕ)
  | released (t : ℕ) (woken : Option ℕ)

def holders (history : List LockEvent) : List ℕ :=
  history.foldl (fun ts e =>
    match e with
    | .acquired t => t :: ts
    | .blocked _ => ts
    | .released t woken => woken.toList ++ ts.erase t) []

def waiting (history : List LockEvent) : List ℕ :=
  history.foldl (fun ts e =>
    match e with
    | .acquired _ => ts
    | .blocked t => ts ++ [t]
    | .released _ woken => woken.elim ts ts.erase) []

def LockEvent.states (state : ℕ → ThreadState) : LockEvent → ℕ → ThreadState
  | .acquired _ => state
  | .blocked t => update state t .waitLock
  | .released _ woken => woken.elim state fun u => update state u .running

/-- A lock, the states of the threads, and what has happened. -/
structure World (σ : Type) where
  lock : σ
  state : ℕ → ThreadState
  history : List LockEvent

variable {σ : Type}

def World.start (lock : σ) : World σ := { lock, state := fun _ => .running, history := [] }

def World.record (w : World σ) (lock : σ) (e : LockEvent) : World σ :=
  { lock, state := e.states w.state, history := w.history ++ [e] }

inductive LockOp
  | acquire (t : ℕ)
  | release (t : ℕ)

/-- One step. The node is what `kmalloc` returns, if a thread has to wait. -/
def LockOp.exec (L : Lock σ) (w : World σ) (node : ℕ) : LockOp → Option (World σ)
  | .acquire t => do
    let (lock, blocks) ← L.acquire w.lock t node
    some (w.record lock (if blocks then .blocked t else .acquired t))
  | .release t => do
    let (lock, woken) ← L.release w.lock
    some (w.record lock (.released t woken))

/-- A node that `kmalloc` may return. -/
structure Fresh (heap : ℕ) (list : ListT ℕ) (node : ℕ) : Prop where
  ne_null : node ≠ 0
  unused : list.val node = none
  le : heap ≤ node
  lt : node < heap + 2 ^ 30

/-- A blocked thread does nothing, and only a holder releases. -/
def LockOp.Allowed (w : World σ) : LockOp → Prop
  | .acquire t => w.state t ≠ .waitLock
  | .release t => w.state t ≠ .waitLock ∧ t ∈ holders w.history

/-- The states after any allowed operations. -/
inductive Reachable (L : Lock σ) (heap : ℕ) (lock : σ) : World σ → Prop
  | start : Reachable L heap lock (.start lock)
  | step {w w' : World σ} {op : LockOp} {node : ℕ} (h : Reachable L heap lock w)
      (hallowed : op.Allowed w) (hfresh : Fresh heap (L.waitlst w.lock) node)
      (hexec : op.exec L w node = some w') : Reachable L heap lock w'

/-- The same operations on a mutex and on a semaphore of one. -/
inductive Joint (heap : ℕ) : World MutexT → World SemT → Prop
  | start : Joint heap (.start mutexCreate) (.start (semCreate 1))
  | step {m m' : World MutexT} {s s' : World SemT} {op : LockOp} {node node' : ℕ}
      (h : Joint heap m s) (hallowed : op.Allowed m) (hfresh : Fresh heap m.lock.waitlst node)
      (hfresh' : Fresh heap s.lock.waitlst node') (hexec : op.exec mutexLock m node = some m')
      (hexec' : op.exec semLock s node' = some s') : Joint heap m' s'

/-! ## Wait lists in memory -/

/-- The list holds `ts`, in nodes from the kernel heap. -/
def Waits (heap : ℕ) (list : ListT ℕ) (ts : List ℕ) : Prop :=
  ∃ as, Owns list as ts ∧ ∀ a ∈ as, heap ≤ a ∧ a < heap + 2 ^ 30

variable {heap node t u maxCnt : ℕ} {list : ListT ℕ} {ts : List ℕ} {L : Lock σ} {lock : σ}
  {R : σ → Sem → Prop} {s : Sem} {w w' : World σ} {op : LockOp} {history : List LockEvent}
  {state : ℕ → ThreadState}

theorem waits_listCreate (heap : ℕ) : Waits heap listCreate [] :=
  ⟨[], owns_listCreate, by simp⟩

theorem length_le_of_mem_heap {as : List ℕ} (hnodup : as.Nodup)
    (hin : ∀ a ∈ as, heap ≤ a ∧ a < heap + 2 ^ 30) : as.length ≤ 2 ^ 30 := by
  have hsub : as ⊆ List.range' heap (2 ^ 30) := fun a ha =>
    mem_range'_1.mpr (hin a ha)
  have hle := (subperm_of_subset hnodup hsub).length_le
  rwa [length_range'] at hle

theorem Waits.pushBack (h : Waits heap list ts) (hfresh : Fresh heap list node) (t : ℕ) :
    ∃ list', listPushBackLive list t node = some list' ∧ Waits heap list' (ts ++ [t]) := by
  obtain ⟨as, howns, hin⟩ := h
  have hlen := length_le_of_mem_heap howns.nodup hin
  obtain ⟨list', hpush, howns'⟩ := howns.listPushBackLive (v := t) hfresh.ne_null hfresh.unused
    (by omega)
  refine ⟨list', hpush, as ++ [node], howns', fun a ha => ?_⟩
  rcases mem_append.mp ha with ha | ha
  · exact hin a ha
  · rw [mem_singleton.mp ha]
    exact ⟨hfresh.le, hfresh.lt⟩

theorem Waits.popFront (h : Waits heap list (t :: ts)) :
    ∃ list', listPopFront list = some (list', some t) ∧ Waits heap list' ts := by
  obtain ⟨as, howns, hin⟩ := h
  cases as with
  | nil => cases howns.length_eq
  | cons a as =>
    obtain ⟨list', hpop, howns'⟩ := howns.listPopFront
    exact ⟨list', hpop, as, howns', fun b hb => hin b (mem_cons_of_mem a hb)⟩

theorem Waits.head_eq_zero_iff (h : Waits heap list ts) : list.head = 0 ↔ ts = [] := by
  obtain ⟨as, howns, hin⟩ := h
  have hlen := length_le_of_mem_heap howns.nodup hin
  exact (howns.represents (by omega)).head_iff

theorem Waits.values (h : Waits heap list ts) : listValues list = some ts := by
  obtain ⟨as, howns, hin⟩ := h
  have hlen := length_le_of_mem_heap howns.nodup hin
  exact howns.listValues_eq (by omega)

/-! ## Refinement -/

/-- The lock does what the semaphore does, as long as no unit is released that is not held. -/
structure Refines (L : Lock σ) (heap : ℕ) (R : σ → Sem → Prop) : Prop where
  acquire : ∀ {lock s node} (t), R lock s → Fresh heap (L.waitlst lock) node →
    ∃ lock', L.acquire lock t node = some (lock', (s.acquire t).2) ∧ R lock' (s.acquire t).1
  release : ∀ {lock s}, R lock s → 0 < s.currCnt →
    ∃ lock', L.release lock = some (lock', s.release.2) ∧ R lock' s.release.1

structure SemMatches (heap : ℕ) (sem : SemT) (s : Sem) : Prop where
  maxCnt_eq : sem.maxCnt = s.maxCnt
  currCnt_eq : sem.currCnt = s.currCnt
  maxCnt_lt : s.maxCnt < 2 ^ 32
  waits : Waits heap sem.waitlst s.waitlst

/-- A mutex is a semaphore of `max_cnt` 1; `proc` is its counter. -/
structure MutexMatches (heap : ℕ) (mutex : MutexT) (s : Sem) : Prop where
  maxCnt_eq : s.maxCnt = 1
  proc_eq : mutex.proc = s.currCnt
  le_one : s.currCnt ≤ 1
  waits : Waits heap mutex.waitlst s.waitlst

theorem SemMatches.acquire {sem : SemT} (h : SemMatches heap sem s) (t : ℕ)
    (hfresh : Fresh heap sem.waitlst node) :
    ∃ sem', semAcquire sem t node = some (sem', (s.acquire t).2) ∧
      SemMatches heap sem' (s.acquire t).1 := by
  have hmax := h.maxCnt_lt
  have hiff : sem.currCnt < sem.maxCnt ↔ s.currCnt < s.maxCnt := by
    rw [h.currCnt_eq, h.maxCnt_eq]
  rw [semAcquire, Sem.acquire]
  by_cases hlt : s.currCnt < s.maxCnt
  · rw [if_pos hlt, if_pos (hiff.mpr hlt)]
    refine ⟨_, rfl, h.maxCnt_eq, ?_, hmax, h.waits⟩
    show u32 (sem.currCnt + 1) = s.currCnt + 1
    rw [h.currCnt_eq]
    exact u32_of_lt (by omega)
  · rw [if_neg hlt, if_neg (mt hiff.mp hlt)]
    obtain ⟨list', hpush, hwaits⟩ := h.waits.pushBack hfresh t
    rw [hpush]
    exact ⟨_, rfl, h.maxCnt_eq, h.currCnt_eq, hmax, hwaits⟩

theorem SemMatches.release {sem : SemT} (h : SemMatches heap sem s) :
    ∃ sem', semRelease sem = some (sem', s.release.2) ∧ SemMatches heap sem' s.release.1 := by
  have hhead := h.waits.head_eq_zero_iff
  have hwaits := h.waits
  rw [semRelease]
  cases hlist : s.waitlst with
  | nil =>
    have hcnt : u32 (sem.currCnt + 2 ^ 32 - 1) = u32 (s.currCnt + 2 ^ 32 - 1) := by
      rw [h.currCnt_eq]
    have hmatch : SemMatches heap { sem with currCnt := u32 (sem.currCnt + 2 ^ 32 - 1) }
        { s with currCnt := u32 (s.currCnt + 2 ^ 32 - 1) } := by
      -- the kernel should not compute with the counter
      rw [hcnt]
      generalize u32 (s.currCnt + 2 ^ 32 - 1) = cnt
      exact ⟨h.maxCnt_eq, rfl, h.maxCnt_lt, h.waits⟩
    have hnone : s.release.2 = none := congrArg Prod.snd (Sem.release_nil hlist)
    rw [if_neg (not_not.mpr (hhead.mpr hlist)), hnone, Sem.release_nil hlist]
    exact ⟨_, rfl, hmatch⟩
  | cons t ts =>
    have hne : sem.waitlst.head ≠ 0 := by
      rw [Ne, hhead, hlist]
      exact cons_ne_nil t ts
    rw [hlist] at hwaits
    obtain ⟨list', hpop, hwaits'⟩ := hwaits.popFront
    rw [if_pos hne, hpop, Sem.release_cons hlist]
    exact ⟨_, rfl, h.maxCnt_eq, h.currCnt_eq, h.maxCnt_lt, hwaits'⟩

theorem refines_sem (heap : ℕ) : Refines semLock heap (SemMatches heap) where
  acquire t h hfresh := h.acquire t hfresh
  release h _ := h.release

theorem MutexMatches.acquire {mutex : MutexT} (h : MutexMatches heap mutex s) (t : ℕ)
    (hfresh : Fresh heap mutex.waitlst node) :
    ∃ mutex', mutexAcquire mutex t node = some (mutex', (s.acquire t).2) ∧
      MutexMatches heap mutex' (s.acquire t).1 := by
  have hle := h.le_one
  have hmax := h.maxCnt_eq
  have hproc := h.proc_eq
  rw [mutexAcquire, Sem.acquire]
  by_cases hzero : s.currCnt = 0
  · rw [if_pos (hproc.trans hzero), if_pos (by omega)]
    refine ⟨_, rfl, hmax, ?_, ?_, h.waits⟩
    · show 1 = s.currCnt + 1
      rw [hzero]
    · show s.currCnt + 1 ≤ 1
      rw [hzero]
  · rw [if_neg (hproc ▸ hzero), if_neg (by omega)]
    obtain ⟨list', hpush, hwaits⟩ := h.waits.pushBack hfresh t
    rw [hpush]
    exact ⟨_, rfl, hmax, hproc, hle, hwaits⟩

theorem MutexMatches.release {mutex : MutexT} (h : MutexMatches heap mutex s)
    (hpos : 0 < s.currCnt) :
    ∃ mutex', mutexRelease mutex = some (mutex', s.release.2) ∧
      MutexMatches heap mutex' s.release.1 := by
  have hhead := h.waits.head_eq_zero_iff
  have hwaits := h.waits
  rw [mutexRelease]
  cases hlist : s.waitlst with
  | nil =>
    have hone : s.currCnt = 1 := Nat.le_antisymm h.le_one hpos
    have hdec : u32 (s.currCnt + 2 ^ 32 - 1) = 0 := by
      rw [hone]
      decide
    rw [if_neg (not_not.mpr (hhead.mpr hlist)), Sem.release_nil hlist, hdec]
    exact ⟨_, rfl, h.maxCnt_eq, rfl, Nat.zero_le _, h.waits⟩
  | cons t ts =>
    have hne : mutex.waitlst.head ≠ 0 := by
      rw [Ne, hhead, hlist]
      exact cons_ne_nil t ts
    rw [hlist] at hwaits
    obtain ⟨list', hpop, hwaits'⟩ := hwaits.popFront
    rw [if_pos hne, hpop, Sem.release_cons hlist]
    exact ⟨_, rfl, h.maxCnt_eq, h.proc_eq, h.le_one, hwaits'⟩

theorem refines_mutex (heap : ℕ) : Refines mutexLock heap (MutexMatches heap) where
  acquire t h hfresh := h.acquire t hfresh
  release h hpos := h.release hpos

/-! ## Holders and waiters -/

structure Accounts (s : Sem) (state : ℕ → ThreadState) (history : List LockEvent) : Prop where
  holders_eq : (holders history).length = s.currCnt
  le_max : s.currCnt ≤ s.maxCnt
  waiting_eq : waiting history = s.waitlst
  full : s.waitlst ≠ [] → s.currCnt = s.maxCnt
  blocked_iff : ∀ t, state t = .waitLock ↔ t ∈ s.waitlst
  nodup : s.waitlst.Nodup

theorem holders_concat (history : List LockEvent) (e : LockEvent) :
    holders (history ++ [e]) =
      match e with
      | .acquired t => t :: holders history
      | .blocked _ => holders history
      | .released t woken => woken.toList ++ (holders history).erase t := by
  rw [holders, foldl_append]
  cases e <;> rfl

theorem waiting_concat (history : List LockEvent) (e : LockEvent) :
    waiting (history ++ [e]) =
      match e with
      | .acquired _ => waiting history
      | .blocked t => waiting history ++ [t]
      | .released _ woken => woken.elim (waiting history) (waiting history).erase := by
  rw [waiting, foldl_append]
  cases e <;> rfl

theorem accounts_start (maxCnt : ℕ) : Accounts ⟨maxCnt, 0, []⟩ (fun _ => .running) [] where
  holders_eq := rfl
  le_max := Nat.zero_le _
  waiting_eq := rfl
  full h := absurd rfl h
  blocked_iff _ := iff_of_false nofun not_mem_nil
  nodup := nodup_nil

def LockOp.apply (s : Sem) : LockOp → Sem × LockEvent
  | .acquire t => ((s.acquire t).1, if (s.acquire t).2 then .blocked t else .acquired t)
  | .release t => (s.release.1, .released t s.release.2)

theorem Accounts.acquire (h : Accounts s state history) (ht : state t ≠ .waitLock) :
    Accounts ((LockOp.acquire t).apply s).1 (((LockOp.acquire t).apply s).2.states state)
      (history ++ [((LockOp.acquire t).apply s).2]) := by
  have hle := h.le_max
  rw [LockOp.apply, Sem.acquire]
  by_cases hlt : s.currCnt < s.maxCnt
  · rw [if_pos hlt]
    refine ⟨?_, hlt, ?_, ?_, h.blocked_iff, h.nodup⟩
    · rw [holders_concat]
      exact congrArg Nat.succ h.holders_eq
    · rw [waiting_concat]
      exact h.waiting_eq
    · intro hne
      exact absurd (h.full hne) (Nat.ne_of_lt hlt)
  · rw [if_neg hlt]
    have hnotMem : t ∉ s.waitlst := mt (h.blocked_iff t).mpr ht
    refine ⟨?_, hle, ?_, fun _ => ?_, fun u => ?_, ?_⟩
    · rw [holders_concat]
      exact h.holders_eq
    · rw [waiting_concat]
      exact congrArg (· ++ [t]) h.waiting_eq
    · exact Nat.le_antisymm hle (Nat.le_of_not_lt hlt)
    · show update state t .waitLock u = _ ↔ u ∈ s.waitlst ++ [t]
      rw [mem_append, mem_singleton]
      by_cases hu : u = t
      · rw [hu, update_self]
        simp
      · rw [update_of_ne hu, h.blocked_iff]
        simp [hu]
    · show (s.waitlst ++ [t]).Nodup
      rw [(perm_append_singleton t _).nodup_iff]
      exact nodup_cons.mpr ⟨hnotMem, h.nodup⟩

/-- A unit that is released goes to the thread that has waited longest, or back. -/
theorem Accounts.release (h : Accounts s state history) (ht : t ∈ holders history)
    (hmax : s.maxCnt < 2 ^ 32) :
    Accounts ((LockOp.release t).apply s).1 (((LockOp.release t).apply s).2.states state)
      (history ++ [((LockOp.release t).apply s).2]) := by
  have hlen := h.holders_eq
  have hle := h.le_max
  have hpos : 0 < (holders history).length := length_pos_of_mem ht
  have herase := length_erase_of_mem ht
  cases hlist : s.waitlst with
  | nil =>
    have hdec : u32 (s.currCnt + 2 ^ 32 - 1) = s.currCnt - 1 := by
      rw [u32]
      omega
    rw [LockOp.apply, Sem.release_nil hlist, hdec]
    refine ⟨?_, ?_, ?_, ?_, h.blocked_iff, h.nodup⟩
    · rw [holders_concat]
      show ((holders history).erase t).length = s.currCnt - 1
      omega
    · show s.currCnt - 1 ≤ s.maxCnt
      omega
    · rw [waiting_concat]
      exact h.waiting_eq
    · intro hne
      exact absurd hlist hne
  | cons u us =>
    have hnodup := h.nodup
    rw [hlist] at hnodup
    obtain ⟨hu, hus⟩ := nodup_cons.mp hnodup
    rw [LockOp.apply, Sem.release_cons hlist]
    refine ⟨?_, hle, ?_, fun _ => h.full (by simp [hlist]), fun v => ?_, hus⟩
    · rw [holders_concat]
      show (u :: (holders history).erase t).length = s.currCnt
      rw [length_cons]
      omega
    · rw [waiting_concat]
      show (waiting history).erase u = us
      rw [h.waiting_eq, hlist, erase_cons_head]
    · show update state u .running v = _ ↔ v ∈ us
      by_cases hv : v = u
      · rw [hv, update_self]
        exact iff_of_false (by decide) hu
      · rw [update_of_ne hv, h.blocked_iff, hlist, mem_cons, or_iff_right hv]

theorem LockOp.apply_maxCnt (s : Sem) (op : LockOp) : (op.apply s).1.maxCnt = s.maxCnt := by
  obtain ⟨maxCnt, currCnt, waitlst⟩ := s
  cases op with
  | acquire t =>
    show (Sem.acquire ⟨maxCnt, currCnt, waitlst⟩ t).1.maxCnt = maxCnt
    rw [Sem.acquire]
    split <;> rfl
  | release t =>
    show (Sem.release ⟨maxCnt, currCnt, waitlst⟩).1.maxCnt = maxCnt
    cases waitlst <;> rfl

structure Tracks (R : σ → Sem → Prop) (maxCnt : ℕ) (w : World σ) (s : Sem) : Prop where
  refines : R w.lock s
  accounts : Accounts s w.state w.history
  maxCnt_eq : s.maxCnt = maxCnt

theorem Tracks.exec (hL : Refines L heap R) (hmax : maxCnt < 2 ^ 32) (h : Tracks R maxCnt w s)
    (hallowed : op.Allowed w) (hfresh : Fresh heap (L.waitlst w.lock) node) :
    ∃ lock', op.exec L w node = some (w.record lock' (op.apply s).2) ∧
      Tracks R maxCnt (w.record lock' (op.apply s).2) (op.apply s).1 := by
  have hmaxs : (op.apply s).1.maxCnt = maxCnt := (op.apply_maxCnt s).trans h.maxCnt_eq
  cases op with
  | acquire t =>
    obtain ⟨lock', hacquire, hR⟩ := hL.acquire t h.refines hfresh
    refine ⟨lock', ?_, hR, h.accounts.acquire hallowed, hmaxs⟩
    rw [LockOp.exec, hacquire]
    rfl
  | release t =>
    obtain ⟨-, ht⟩ := hallowed
    have hpos : 0 < s.currCnt := h.accounts.holders_eq ▸ length_pos_of_mem ht
    obtain ⟨lock', hrelease, hR⟩ := hL.release h.refines hpos
    refine ⟨lock', ?_, hR, h.accounts.release ht (h.maxCnt_eq ▸ hmax), hmaxs⟩
    rw [LockOp.exec, hrelease]
    rfl

theorem Reachable.tracks (hL : Refines L heap R) (hmax : maxCnt < 2 ^ 32)
    (hlock : R lock ⟨maxCnt, 0, []⟩) (h : Reachable L heap lock w) :
    ∃ s, Tracks R maxCnt w s := by
  induction h with
  | start => exact ⟨⟨maxCnt, 0, []⟩, hlock, accounts_start maxCnt, rfl⟩
  | step _ hallowed hfresh hexec ih =>
    obtain ⟨s, htracks⟩ := ih
    obtain ⟨lock', hexec', htracks'⟩ := htracks.exec hL hmax hallowed hfresh
    rw [hexec] at hexec'
    obtain rfl := Option.some.inj hexec'
    exact ⟨_, htracks'⟩

/-! ## The semaphore -/

/-- Holders are counted, the bound is kept, and those who wait are served in order. -/
structure SemSafe (maxCnt heap : ℕ) (w : World SemT) : Prop where
  /-- The counter is the number of units that are held. -/
  holders_eq : (holders w.history).length = w.lock.currCnt
  le_max : w.lock.currCnt ≤ maxCnt
  waitlst_eq : listValues w.lock.waitlst = some (waiting w.history)
  full : w.lock.waitlst.head ≠ 0 → w.lock.currCnt = maxCnt
  acquires : ∀ t node, (LockOp.acquire t).Allowed w → Fresh heap w.lock.waitlst node →
    ∃ w', (LockOp.acquire t).exec semLock w node = some w'
  /-- A release wakes the thread that has waited longest, and the counter stays. Without one the
  counter goes down by one, and not below zero. -/
  releases : ∀ t node, (LockOp.release t).Allowed w → ∃ w',
    (LockOp.release t).exec semLock w node = some w' ∧
      w'.history = w.history ++ [.released t (waiting w.history).head?] ∧
      w.lock.currCnt = w'.lock.currCnt + if waiting w.history = [] then 1 else 0

theorem semMatches_semCreate (heap : ℕ) (hmax : maxCnt < 2 ^ 32) :
    SemMatches heap (semCreate maxCnt) ⟨maxCnt, 0, []⟩ :=
  ⟨rfl, rfl, hmax, waits_listCreate heap⟩

/-- In every run of a semaphore. -/
theorem semaphore_safe {w : World SemT} (hmax : maxCnt < 2 ^ 32)
    (h : Reachable semLock heap (semCreate maxCnt) w) : SemSafe maxCnt heap w := by
  obtain ⟨s, htracks⟩ := h.tracks (refines_sem heap) hmax (semMatches_semCreate heap hmax)
  have hcnt : w.lock.currCnt = s.currCnt := htracks.refines.currCnt_eq
  have hmaxs := htracks.maxCnt_eq
  have hwaiting := htracks.accounts.waiting_eq
  refine ⟨?_, ?_, ?_, ?_, ?_, ?_⟩
  · rw [hcnt]
    exact htracks.accounts.holders_eq
  · rw [hcnt, ← hmaxs]
    exact htracks.accounts.le_max
  · rw [hwaiting]
    exact htracks.refines.waits.values
  · intro hhead
    rw [hcnt, ← hmaxs]
    exact htracks.accounts.full (mt htracks.refines.waits.head_eq_zero_iff.mpr hhead)
  · intro t node hallowed hfresh
    obtain ⟨lock', hexec, -⟩ := htracks.exec (refines_sem heap) hmax hallowed hfresh
    exact ⟨_, hexec⟩
  · intro t node hallowed
    have hpos : 0 < s.currCnt := htracks.accounts.holders_eq ▸ length_pos_of_mem hallowed.2
    have hle := htracks.accounts.le_max
    obtain ⟨sem', hrelease, hmatches⟩ := htracks.refines.release
    refine ⟨w.record sem' (.released t s.release.2), ?_, ?_, ?_⟩
    · show (semRelease w.lock).bind _ = _
      rw [hrelease]
      rfl
    · show w.history ++ [_] = _
      rw [hwaiting, s.release_snd]
    · show w.lock.currCnt = sem'.currCnt + _
      rw [hwaiting, hmatches.currCnt_eq, hcnt, s.release_currCnt hpos (by omega)]

/-- Thread 1 takes the only unit, and thread 2 has to wait for it. -/
theorem semaphore_safe_handed : ∃ w, Reachable semLock 4096 (semCreate 1) w ∧
    holders w.history = [1] ∧ waiting w.history = [2] ∧ SemSafe 1 4096 w := by
  have h₁ := @Reachable.step _ semLock 4096 (semCreate 1) _ _ (.acquire 1) 4096 .start nofun
    ⟨by decide, rfl, by decide, by decide⟩ rfl
  have h₂ := @Reachable.step _ semLock 4096 (semCreate 1) _ _ (.acquire 2) 4096 h₁ nofun
    ⟨by decide, rfl, by decide, by decide⟩ rfl
  exact ⟨_, h₂, rfl, rfl, semaphore_safe (by decide) h₂⟩

/-! ## The mutex -/

/-- The mutex and the semaphore of one show the same. -/
structure MutexSem (mutex : MutexT) (sem : SemT) : Prop where
  maxCnt_eq : sem.maxCnt = 1
  proc_eq : mutex.proc = sem.currCnt
  waitlst_eq : listValues mutex.waitlst = listValues sem.waitlst

structure InStep (heap : ℕ) (m : World MutexT) (s : World SemT) (a : Sem) : Prop where
  mutex : Tracks (MutexMatches heap) 1 m a
  sem : Tracks (SemMatches heap) 1 s a
  history_eq : m.history = s.history
  state_eq : m.state = s.state

variable {m : World MutexT} {r : World SemT} {node' : ℕ}

theorem LockOp.Allowed.congr {τ : Type} {v : World τ} (h : op.Allowed w)
    (hstate : w.state = v.state) (hhistory : w.history = v.history) : op.Allowed v := by
  cases op with
  | acquire t =>
    show v.state t ≠ .waitLock
    rw [← hstate]
    exact h
  | release t =>
    show v.state t ≠ .waitLock ∧ t ∈ holders v.history
    rw [← hstate, ← hhistory]
    exact h

theorem InStep.exec (h : InStep heap m r s) (hallowed : op.Allowed m)
    (hfresh : Fresh heap m.lock.waitlst node) (hfresh' : Fresh heap r.lock.waitlst node') :
    ∃ m' r', op.exec mutexLock m node = some m' ∧ op.exec semLock r node' = some r' ∧
      InStep heap m' r' (op.apply s).1 := by
  obtain ⟨mutex', hexec, hmutex⟩ :=
    h.mutex.exec (refines_mutex heap) (by decide) hallowed hfresh
  obtain ⟨sem', hexec', hsem⟩ := h.sem.exec (refines_sem heap) (by decide)
    (hallowed.congr h.state_eq h.history_eq) hfresh'
  refine ⟨_, _, hexec, hexec', hmutex, hsem, ?_, ?_⟩
  · exact congrArg (· ++ [_]) h.history_eq
  · exact congrArg (LockEvent.states · _) h.state_eq

theorem inStep_start (heap : ℕ) :
    InStep heap (.start mutexCreate) (.start (semCreate 1)) ⟨1, 0, []⟩ where
  mutex := ⟨⟨rfl, rfl, Nat.zero_le 1, waits_listCreate heap⟩, accounts_start 1, rfl⟩
  sem := ⟨semMatches_semCreate heap (by decide), accounts_start 1, rfl⟩
  history_eq := rfl
  state_eq := rfl

theorem Joint.inStep (h : Joint heap m r) : ∃ a, InStep heap m r a := by
  induction h with
  | start => exact ⟨_, inStep_start heap⟩
  | step _ hallowed hfresh hfresh' hexec hexec' ih =>
    obtain ⟨a, ha⟩ := ih
    obtain ⟨m', r', hm, hr, hnext⟩ := ha.exec hallowed hfresh hfresh'
    obtain rfl := Option.some.inj (hm.symm.trans hexec)
    obtain rfl := Option.some.inj (hr.symm.trans hexec')
    exact ⟨_, hnext⟩

theorem InStep.mutexSem (h : InStep heap m r s) : MutexSem m.lock r.lock where
  maxCnt_eq := h.sem.refines.maxCnt_eq.trans h.sem.maxCnt_eq
  proc_eq := h.mutex.refines.proc_eq.trans h.sem.refines.currCnt_eq.symm
  waitlst_eq := h.mutex.refines.waits.values.trans h.sem.refines.waits.values.symm

/-- However far a mutex and a semaphore of one unit have run side by side, the same threads were
blocked and woken in the same steps, and at most one thread holds the mutex. -/
theorem mutex_is_semaphore_of_one (h : Joint heap m r) :
    MutexSem m.lock r.lock ∧ m.history = r.history ∧ m.state = r.state ∧
      (holders m.history).length ≤ 1 ∧
      ∀ (op : LockOp) node node', op.Allowed m → Fresh heap m.lock.waitlst node →
        Fresh heap r.lock.waitlst node' → ∃ m' r', op.exec mutexLock m node = some m' ∧
          op.exec semLock r node' = some r' ∧ MutexSem m'.lock r'.lock ∧
          m'.history = r'.history := by
  obtain ⟨a, ha⟩ := h.inStep
  refine ⟨ha.mutexSem, ha.history_eq, ha.state_eq, ?_, ?_⟩
  · rw [ha.mutex.accounts.holders_eq, ← ha.mutex.maxCnt_eq]
    exact ha.mutex.accounts.le_max
  · intro op node node' hallowed hfresh hfresh'
    obtain ⟨m', r', hm, hr, hnext⟩ := ha.exec hallowed hfresh hfresh'
    exact ⟨m', r', hm, hr, hnext.mutexSem, hnext.history_eq⟩

/-- Thread 1 holds, thread 2 waits, and the release of thread 1 wakes thread 2. -/
theorem mutex_is_semaphore_of_one_handed : ∃ m r, Joint 4096 m r ∧
    m.history = [.acquired 1, .blocked 2, .released 1 (some 2)] ∧ m.history = r.history := by
  have h₁ := @Joint.step 4096 _ _ _ _ (.acquire 1) 4096 8192 .start nofun
    ⟨by decide, rfl, by decide, by decide⟩ ⟨by decide, rfl, by decide, by decide⟩ rfl rfl
  have h₂ := @Joint.step 4096 _ _ _ _ (.acquire 2) 4096 8192 h₁ nofun
    ⟨by decide, rfl, by decide, by decide⟩ ⟨by decide, rfl, by decide, by decide⟩ rfl rfl
  have h₃ := @Joint.step 4096 _ _ _ _ (.release 1) 4104 8200 h₂
    ⟨nofun, mem_singleton.mpr rfl⟩ ⟨by decide, rfl, by decide, by decide⟩
    ⟨by decide, rfl, by decide, by decide⟩ rfl rfl
  exact ⟨_, _, h₃, rfl, (mutex_is_semaphore_of_one h₃).2.1⟩

end KernelOld.Sched
