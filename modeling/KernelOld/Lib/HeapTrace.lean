import Mathlib.Algebra.Order.BigOperators.Group.List
import Mathlib.Algebra.Order.Ring.Nat
import Mathlib.Data.List.Count
import Mathlib.Data.List.Nodup

/-!
# Traces of a heap

What a piece of code does to the heap, seen as the sequence of its events. A block is named by the
pointer that the allocator has returned for it.
-/

namespace HeapTrace

inductive Event
  | alloc (ptr : ℕ)
  | free (ptr : ℕ)
  | read (ptr : ℕ)
  | write (ptr : ℕ)
deriving DecidableEq

def Event.IsAccess : Event → Prop
  | .read _ | .write _ => True
  | _ => False

def step (bs : List ℕ) : Event → List ℕ
  | .alloc ptr => bs ++ [ptr]
  | .free ptr => bs.filter (· ≠ ptr)
  | _ => bs

def blocks (log : List Event) : List ℕ := log.foldl step []

def releaseStep (bs : List ℕ) : Event → List ℕ
  | .alloc ptr => bs.filter (· ≠ ptr)
  | .free ptr => ptr :: bs
  | _ => bs

def released (log : List Event) : List ℕ := log.foldl releaseStep []

def frees (log : List Event) : List ℕ :=
  log.filterMap fun e =>
    match e with
    | .free ptr => some ptr
    | _ => none

def ReadsLive (log : List Event) : Prop :=
  ∀ l ptr r, log = l ++ .read ptr :: r → ptr ∉ released l

/-- Every block is freed once, nothing else is, and nothing is read after it was freed. -/
structure CleansUp (make destroy : List Event) : Prop where
  frees_count : ∀ ptr, (frees destroy).count ptr = if ptr ∈ blocks make then 1 else 0
  reads : ReadsLive (make ++ destroy)

variable {log : List Event} {e : Event} {ptr : ℕ}

@[simp] theorem blocks_concat : blocks (log ++ [e]) = step (blocks log) e := by
  rw [blocks, List.foldl_append]
  rfl

@[simp] theorem released_concat : released (log ++ [e]) = releaseStep (released log) e := by
  rw [released, List.foldl_append]
  rfl

/-- Freeing one of the blocks. -/
theorem blocks_free {l r : List ℕ} (h : blocks log = l ++ ptr :: r)
    (hnodup : (l ++ ptr :: r).Nodup) : blocks (log ++ [.free ptr]) = l ++ r := by
  have hnotMem : ptr ∉ l ++ r := (List.nodup_cons.mp (List.nodup_middle.mp hnodup)).1
  have hkeep : (l ++ r).filter (· ≠ ptr) = l ++ r := by
    refine List.filter_eq_self.mpr fun q hq => decide_eq_true ?_
    rintro rfl
    exact hnotMem hq
  rw [blocks_concat, h, step]
  simpa using hkeep

theorem readsLive_nil : ReadsLive [] := by
  intro l ptr r heq
  simp at heq

/-- One more event, which may be the reading of a block that is not freed. -/
theorem ReadsLive.concat (h : ReadsLive log) (he : ∀ ptr, e = .read ptr → ptr ∉ released log) :
    ReadsLive (log ++ [e]) := by
  intro l ptr r heq
  rcases List.eq_nil_or_concat' r with rfl | ⟨r, e', rfl⟩
  · obtain ⟨rfl, rfl⟩ := List.append_singleton_inj.mp heq
    exact he ptr rfl
  · rw [← List.cons_append, ← List.append_assoc] at heq
    exact h l ptr r (List.append_singleton_inj.mp heq).1

theorem ReadsLive.append_reads (h : ReadsLive log) (ptrs : List ℕ)
    (hptrs : ∀ ptr ∈ ptrs, ptr ∉ released log) : ReadsLive (log ++ ptrs.map .read) := by
  induction ptrs generalizing log with
  | nil => rwa [List.map_nil, List.append_nil]
  | cons ptr ptrs ih =>
    obtain ⟨hptr, hptrs⟩ := List.forall_mem_cons.mp hptrs
    have hread : ReadsLive (log ++ [.read ptr]) := by
      refine h.concat fun ptr' heq => ?_
      cases heq
      exact hptr
    rw [List.map_cons, List.append_cons]
    refine ih hread ?_
    rw [released_concat]
    exact hptrs

theorem ReadsLive.append_frees (h : ReadsLive log) (ptrs : List ℕ) :
    ReadsLive (log ++ ptrs.map .free) := by
  induction ptrs generalizing log with
  | nil => rwa [List.map_nil, List.append_nil]
  | cons ptr ptrs ih =>
    rw [List.map_cons, List.append_cons]
    exact ih (h.concat nofun)

/-- The allocator gives out pointers that are not null and not in use. -/
def Allocates (new : List Event → ℕ) : Prop := ∀ log, new log ≠ 0 ∧ new log ∉ blocks log

def fresh (log : List Event) : ℕ := (blocks log).sum + 1

theorem allocates_fresh : Allocates fresh := by
  refine fun log => ⟨Nat.succ_ne_zero _, fun hmem => ?_⟩
  exact absurd (List.le_sum_of_mem hmem) (Nat.not_succ_le_self _)

/-! A trace in which nothing has been freed. -/

/-- The blocks `kept` have been allocated, and all of them are still there. -/
structure Making (log : List Event) (kept : List ℕ) : Prop where
  blocks_eq : blocks log = kept
  released_eq : released log = []
  reads : ReadsLive log
  nodup : kept.Nodup
  ne_null : 0 ∉ kept

variable {new : List Event → ℕ} {kept : List ℕ}

theorem making_nil : Making [] [] :=
  ⟨rfl, rfl, readsLive_nil, List.nodup_nil, List.not_mem_nil⟩

theorem Making.access (h : Making log kept) (he : e.IsAccess) : Making (log ++ [e]) kept := by
  have hreads : ReadsLive (log ++ [e]) :=
    h.reads.concat fun _ _ => h.released_eq ▸ List.not_mem_nil
  cases e with
  | alloc ptr => exact he.elim
  | free ptr => exact he.elim
  | read ptr =>
    exact ⟨blocks_concat.trans h.blocks_eq, released_concat.trans h.released_eq, hreads, h.nodup,
      h.ne_null⟩
  | write ptr =>
    exact ⟨blocks_concat.trans h.blocks_eq, released_concat.trans h.released_eq, hreads, h.nodup,
      h.ne_null⟩

theorem Making.accesses (h : Making log kept) (es : List Event) (hes : ∀ e ∈ es, e.IsAccess) :
    Making (log ++ es) kept := by
  induction es generalizing log with
  | nil => rwa [List.append_nil]
  | cons e es ih =>
    obtain ⟨he, hes⟩ := List.forall_mem_cons.mp hes
    rw [List.append_cons]
    exact ih (h.access he) hes

theorem Making.new_notMem (hnew : Allocates new) (h : Making log kept) : new log ∉ kept :=
  h.blocks_eq ▸ (hnew log).2

theorem Making.alloc (hnew : Allocates new) (h : Making log kept) :
    Making (log ++ [.alloc (new log)]) (kept ++ [new log]) := by
  have hne : new log ≠ 0 := (hnew log).1
  refine ⟨?_, ?_, h.reads.concat nofun, ?_, ?_⟩
  · rw [blocks_concat, h.blocks_eq]
    rfl
  · rw [released_concat, h.released_eq]
    rfl
  · rw [(List.perm_append_singleton _ _).nodup_iff]
    exact List.nodup_cons.mpr ⟨h.new_notMem hnew, h.nodup⟩
  · simpa using ⟨h.ne_null, hne.symm⟩

end HeapTrace
