import Mathlib.Data.List.Infix
import Mathlib.Data.List.Nodup

/-!
# Queues of input events

The keyboard and the mouse driver keep unread events in an array of 512 elements and the index of
the last one. What the drivers call a queue is a stack.
`Driver` says when the runs of a driver are runs of such a queue.
-/

namespace KernelOld.Input
open List

variable {α ε : Type*}

/-- An array of events, filled up to `last`. -/
structure Slots (α : Type*) where
  slots : ℕ → α
  last : ℤ

def queueSize : ℕ := 512

namespace Slots

def push (q : Slots α) (x : α) : Option (Slots α) :=
  if 0 ≤ q.last + 1 ∧ q.last + 1 < queueSize then
    some ⟨Function.update q.slots (q.last + 1).toNat x, q.last + 1⟩
  else none

def pop (q : Slots α) : Slots α × Option α :=
  if q.last < 0 then (q, none)
  else (⟨q.slots, q.last - 1⟩, some (q.slots q.last.toNat))

def contents (q : Slots α) : List α := (List.range (q.last + 1).toNat).map q.slots

/-- The index of the last event is one of the array, or -1. -/
def InRange (q : Slots α) : Prop := -1 ≤ q.last ∧ q.last < queueSize

theorem length_contents (q : Slots α) : q.contents.length = (q.last + 1).toNat := by
  rw [contents, length_map, length_range]

theorem InRange.length_eq {q : Slots α} (h : q.InRange) : (q.contents.length : ℤ) = q.last + 1 := by
  have hlow := h.1
  rw [length_contents]
  omega

theorem push_last_lt {q q' : Slots α} {x : α} (hpush : q.push x = some q') :
    q'.last < queueSize := by
  rw [push] at hpush
  by_cases hstore : 0 ≤ q.last + 1 ∧ q.last + 1 < queueSize
  · rw [if_pos hstore] at hpush
    obtain rfl := Option.some.inj hpush
    exact hstore.2
  · rw [if_neg hstore] at hpush
    cases hpush

/-- A new event goes on top, and there is room for it if there are not 512 already. -/
theorem InRange.push {q : Slots α} (h : q.InRange) (x : α) (hroom : q.contents.length < queueSize) :
    ∃ q', q.push x = some q' ∧ q'.InRange ∧ q'.contents = q.contents ++ [x] := by
  have hlen := h.length_eq
  have hlow := h.1
  have hstore : 0 ≤ q.last + 1 ∧ q.last + 1 < queueSize := by omega
  refine ⟨_, if_pos hstore, ⟨Int.le_trans (by decide) hstore.1, hstore.2⟩, ?_⟩
  have hsucc : (q.last + 1 + 1).toNat = (q.last + 1).toNat + 1 := by omega
  rw [contents, contents]
  dsimp only
  rw [hsucc, range_succ, map_append, map_singleton, Function.update_self,
    append_cancel_right_eq]
  refine map_congr_left fun i hi => ?_
  exact Function.update_of_ne (Nat.ne_of_lt (mem_range.mp hi)) _ _

theorem InRange.push_eq_none {q : Slots α} (h : q.InRange) (x : α)
    (hfull : ¬q.contents.length < queueSize) : q.push x = none := by
  have hlen := h.length_eq
  exact if_neg (by omega)

theorem InRange.pop {q : Slots α} (h : q.InRange) :
    (q.contents = [] ∧ q.pop = (q, none)) ∨
      ∃ q' x, q.pop = (q', some x) ∧ q'.InRange ∧ q.contents = q'.contents ++ [x] := by
  by_cases hempty : q.last < 0
  · refine Or.inl ⟨eq_nil_of_length_eq_zero ?_, if_pos hempty⟩
    rw [length_contents]
    omega
  · refine Or.inr ⟨_, _, if_neg hempty, ⟨?_, ?_⟩, ?_⟩
    · show -1 ≤ q.last - 1
      omega
    · show q.last - 1 < queueSize
      have := h.2
      omega
    · have hsucc : (q.last + 1).toNat = q.last.toNat + 1 := by omega
      rw [contents, contents, hsucc, range_succ, map_append, map_singleton,
        Int.sub_add_cancel]

end Slots

inductive Event (α : Type*) where
  | arrive (x : α)
  | get

/-- With `n` unread events to begin with, no event arrives while there are `cap`. -/
def Fits (cap : ℕ) : ℕ → List (Event α) → Prop
  | _, [] => True
  | n, .arrive _ :: evs => n < cap ∧ Fits cap (n + 1) evs
  | n, .get :: evs => Fits cap (n - 1) evs

instance decidableFits (cap n : ℕ) (evs : List (Event α)) : Decidable (Fits cap n evs) :=
  match evs with
  | [] => inferInstanceAs (Decidable True)
  | .arrive _ :: evs =>
    have := decidableFits cap (n + 1) evs
    inferInstanceAs (Decidable (_ ∧ _))
  | .get :: evs => decidableFits cap (n - 1) evs

/-- With `n` unread events to begin with, the reader never finds two. -/
def ReadsSingle : ℕ → List (Event α) → Prop
  | _, [] => True
  | n, .arrive _ :: evs => ReadsSingle (n + 1) evs
  | n, .get :: evs => n ≤ 1 ∧ ReadsSingle (n - 1) evs

instance decidableReadsSingle (n : ℕ) (evs : List (Event α)) : Decidable (ReadsSingle n evs) :=
  match evs with
  | [] => inferInstanceAs (Decidable True)
  | .arrive _ :: evs => decidableReadsSingle (n + 1) evs
  | .get :: evs =>
    have := decidableReadsSingle (n - 1) evs
    inferInstanceAs (Decidable (_ ∧ _))

def arrivals : List (Event α) → List α
  | [] => []
  | .arrive x :: evs => x :: arrivals evs
  | .get :: evs => arrivals evs

structure History (α : Type*) where
  queue : Slots α
  received : List α
  returned : List α

namespace History

def start (slots : ℕ → α) : History α := ⟨⟨slots, -1⟩, [], []⟩

def step (h : History α) : Event α → Option (History α)
  | .arrive x => (h.queue.push x).map fun q => ⟨q, h.received ++ [x], h.returned⟩
  | .get => some ⟨h.queue.pop.1, h.received, h.returned ++ h.queue.pop.2.toList⟩

def run (h : History α) : List (Event α) → Option (History α)
  | [] => some h
  | e :: evs => (h.step e).bind fun h' => h'.run evs

end History

/-- In no state of the run does the queue leave its array. -/
def StaysInArray (run : List ε → Option (History α)) (evs : List ε) : Prop :=
  ∀ pre, pre <+: evs → ∃ h, run pre = some h ∧ -1 ≤ h.queue.last ∧ h.queue.last ≤ 511

/-- At any time the events returned are the first of those received. -/
def InOrder (run : List ε → Option (History α)) (evs : List ε) : Prop :=
  ∀ pre, pre <+: evs → ∃ h, run pre = some h ∧ h.returned <+: h.received

/-! ## One step -/

variable {h h' : History α} {evs pre : List (Event α)} {x : α} {cap n : ℕ}

theorem History.step_arrive (hrange : h.queue.InRange) (x : α)
    (hroom : h.queue.contents.length < queueSize) :
    ∃ q, h.step (.arrive x) = some ⟨q, h.received ++ [x], h.returned⟩ ∧ q.InRange ∧
      q.contents = h.queue.contents ++ [x] := by
  obtain ⟨q, hpush, hrange', hcontents⟩ := hrange.push x hroom
  refine ⟨q, ?_, hrange', hcontents⟩
  rw [History.step, hpush]
  rfl

theorem History.step_get (hrange : h.queue.InRange) :
    (h.queue.contents = [] ∧ h.step .get = some h) ∨
      ∃ q x, h.step .get = some ⟨q, h.received, h.returned ++ [x]⟩ ∧ q.InRange ∧
        h.queue.contents = q.contents ++ [x] := by
  obtain ⟨hempty, hpop⟩ | ⟨q, x, hpop, hrange', hcontents⟩ := hrange.pop
  · refine Or.inl ⟨hempty, ?_⟩
    rw [History.step, hpop]
    simp
  · refine Or.inr ⟨q, x, ?_, hrange', hcontents⟩
    rw [History.step, hpop]
    rfl

theorem History.step_inRange {e : Event α} (hrange : h.queue.InRange)
    (hstep : h.step e = some h') : h'.queue.InRange := by
  cases e with
  | arrive x =>
    by_cases hroom : h.queue.contents.length < queueSize
    · obtain ⟨q, hq, hrange', -⟩ := h.step_arrive hrange x hroom
      obtain rfl := Option.some.inj (hq.symm.trans hstep)
      exact hrange'
    · rw [History.step, hrange.push_eq_none x hroom] at hstep
      cases hstep
  | get =>
    obtain ⟨-, hq⟩ | ⟨q, x, hq, hrange', -⟩ := h.step_get hrange
    · obtain rfl := Option.some.inj (hq.symm.trans hstep)
      exact hrange
    · obtain rfl := Option.some.inj (hq.symm.trans hstep)
      exact hrange'

theorem History.run_cons {e : Event α} (hstep : h.step e = some h') :
    h.run (e :: evs) = h'.run evs := by
  rw [History.run, hstep]
  rfl

/-! ## Whole runs -/

theorem History.run_spec (hrange : h.queue.InRange) :
    (Fits queueSize h.queue.contents.length evs → ∃ h', h.run evs = some h' ∧ h'.queue.InRange) ∧
      (¬Fits queueSize h.queue.contents.length evs → h.run evs = none) := by
  induction evs generalizing h with
  | nil => exact ⟨fun _ => ⟨h, rfl, hrange⟩, fun hnot => absurd trivial hnot⟩
  | cons e evs ih =>
    cases e with
    | arrive x =>
      by_cases hroom : h.queue.contents.length < queueSize
      · obtain ⟨q, hstep, hrange', hcontents⟩ := h.step_arrive hrange x hroom
        rw [run_cons hstep, Fits, and_iff_right hroom]
        have hrest := ih (h := ⟨q, h.received ++ [x], h.returned⟩) hrange'
        rwa [hcontents, length_append, length_singleton] at hrest
      · refine ⟨fun hfits => absurd hfits.1 hroom, fun _ => ?_⟩
        rw [History.run, History.step, hrange.push_eq_none x hroom]
        rfl
    | get =>
      rw [Fits]
      obtain ⟨hempty, hstep⟩ | ⟨q, x, hstep, hrange', hcontents⟩ := h.step_get hrange
      · rw [run_cons hstep, hempty, length_nil, Nat.zero_sub]
        have hrest := ih hrange
        rwa [hempty] at hrest
      · rw [run_cons hstep, hcontents, length_append, length_singleton,
          Nat.add_sub_cancel]
        exact ih (h := ⟨q, h.received, h.returned ++ [x]⟩) hrange'

theorem Fits.of_prefix (hfits : Fits cap n evs) (hpre : pre <+: evs) : Fits cap n pre := by
  induction pre generalizing n evs with
  | nil => trivial
  | cons e pre ih =>
    obtain ⟨evs, rfl, htail⟩ := cons_prefix_iff.mp hpre
    cases e with
    | arrive x => exact ⟨hfits.1, ih hfits.2 htail⟩
    | get => exact ih (n := n - 1) hfits htail

theorem Fits.mono {cap' : ℕ} (hfits : Fits cap n evs) (hle : cap ≤ cap') : Fits cap' n evs := by
  induction evs generalizing n with
  | nil => trivial
  | cons e evs ih =>
    cases e with
    | arrive x => exact ⟨hfits.1.trans_le hle, ih hfits.2⟩
    | get => exact ih (n := n - 1) hfits

theorem History.staysInArray_iff (hrange : h.queue.InRange) :
    StaysInArray h.run evs ↔ Fits queueSize h.queue.contents.length evs := by
  constructor
  · intro hstays
    obtain ⟨h', hrun, -⟩ := hstays evs (prefix_refl evs)
    by_contra hnot
    rw [(History.run_spec hrange).2 hnot] at hrun
    cases hrun
  · intro hfits pre hpre
    obtain ⟨h', hrun, hrange'⟩ := (History.run_spec hrange).1 (hfits.of_prefix hpre)
    exact ⟨h', hrun, hrange'.1, Int.le_of_lt_add_one hrange'.2⟩

/-! ## Order -/

/-- Everything received has been returned or is unread, in this order. -/
structure Queued (h : History α) : Prop where
  inRange : h.queue.InRange
  received_eq : h.received = h.returned ++ h.queue.contents

theorem queued_start (slots : ℕ → α) : Queued (History.start slots) :=
  ⟨⟨Int.le_refl _, show (-1 : ℤ) < queueSize by decide⟩, rfl⟩

theorem Queued.step_arrive (hq : Queued h) (x : α) (hroom : h.queue.contents.length < queueSize) :
    ∃ h', h.step (.arrive x) = some h' ∧ Queued h' ∧ h'.received = h.received ++ [x] ∧
      h'.queue.contents.length = h.queue.contents.length + 1 := by
  obtain ⟨q, hstep, hrange, hcontents⟩ := h.step_arrive hq.inRange x hroom
  refine ⟨_, hstep, ⟨hrange, ?_⟩, rfl, ?_⟩
  · show h.received ++ [x] = h.returned ++ q.contents
    rw [hcontents, hq.received_eq, append_assoc]
  · show q.contents.length = _
    rw [hcontents, length_append, length_singleton]

theorem Queued.step_get (hq : Queued h) (hone : h.queue.contents.length ≤ 1) :
    ∃ h', h.step .get = some h' ∧ Queued h' ∧ h'.received = h.received ∧
      h'.queue.contents.length = h.queue.contents.length - 1 := by
  obtain ⟨hempty, hstep⟩ | ⟨q, x, hstep, hrange, hcontents⟩ := h.step_get hq.inRange
  · refine ⟨h, hstep, hq, rfl, ?_⟩
    rw [hempty]
    rfl
  · rw [hcontents, length_append, length_singleton] at hone
    have hnil : q.contents = [] := eq_nil_of_length_eq_zero (by omega)
    refine ⟨_, hstep, ⟨hrange, ?_⟩, rfl, ?_⟩
    · show h.received = h.returned ++ [x] ++ q.contents
      rw [hq.received_eq, hcontents, hnil, append_nil, nil_append]
    · show q.contents.length = _
      rw [hcontents, length_append, length_singleton, Nat.add_sub_cancel]

theorem Queued.length_le_one (hq : Queued h) (hstep : h.step .get = some h')
    (hinit : h'.returned <+: h'.received) (hnodup : h.received.Nodup) :
    h.queue.contents.length ≤ 1 := by
  obtain ⟨hempty, -⟩ | ⟨q, x, hget, -, hcontents⟩ := h.step_get hq.inRange
  · rw [hempty]
    exact Nat.zero_le 1
  obtain rfl := Option.some.inj (hget.symm.trans hstep)
  have hreceived : h.received = h.returned ++ (q.contents ++ [x]) := by
    rw [hq.received_eq, hcontents]
  change h.returned ++ [x] <+: h.received at hinit
  rw [hreceived, prefix_append_right_inj] at hinit
  rw [hreceived] at hnodup
  cases hrest : q.contents with
  | nil =>
    rw [hcontents, hrest]
    exact Nat.le_refl 1
  | cons y ys =>
    rw [hrest] at hinit hnodup
    obtain ⟨rfl, -⟩ := cons_prefix_cons.mp hinit
    have hmem : x ∉ ys ++ [x] := (nodup_cons.mp hnodup.of_append_right).1
    exact absurd (mem_append_right ys mem_cons_self) hmem

theorem Queued.inOrder_of_single (hq : Queued h)
    (hfits : Fits queueSize h.queue.contents.length evs)
    (hsingle : ReadsSingle h.queue.contents.length evs) : InOrder h.run evs := by
  intro pre hpre
  induction pre generalizing h evs with
  | nil => exact ⟨h, rfl, hq.received_eq ▸ prefix_append _ _⟩
  | cons e pre ih =>
    obtain ⟨evs, rfl, htail⟩ := cons_prefix_iff.mp hpre
    cases e with
    | arrive x =>
      obtain ⟨h', hstep, hq', -, hlen⟩ := hq.step_arrive x hfits.1
      rw [History.run_cons hstep]
      exact ih hq' (hlen ▸ hfits.2) (hlen ▸ hsingle) htail
    | get =>
      obtain ⟨h', hstep, hq', -, hlen⟩ := hq.step_get hsingle.1
      rw [History.run_cons hstep]
      exact ih hq' (hlen ▸ hfits) (hlen ▸ hsingle.2) htail

theorem Queued.single_of_inOrder (hq : Queued h)
    (hfits : Fits queueSize h.queue.contents.length evs)
    (hnodup : (h.received ++ arrivals evs).Nodup) (hord : InOrder h.run evs) :
    ReadsSingle h.queue.contents.length evs := by
  induction evs generalizing h with
  | nil => trivial
  | cons e evs ih =>
    have htail : ∀ h', h.step e = some h' → InOrder h'.run evs := by
      intro h' hstep pre hpre
      have hnext := hord (e :: pre) (cons_prefix_cons.mpr ⟨rfl, hpre⟩)
      rwa [History.run_cons hstep] at hnext
    cases e with
    | arrive x =>
      obtain ⟨h', hstep, hq', hreceived, hlen⟩ := hq.step_arrive x hfits.1
      rw [ReadsSingle, ← hlen]
      refine ih hq' (hlen ▸ hfits.2) ?_ (htail h' hstep)
      rw [hreceived, append_assoc]
      exact hnodup
    | get =>
      obtain ⟨h₁, hrun, hinit⟩ := hord [.get] (cons_prefix_cons.mpr ⟨rfl, List.nil_prefix⟩)
      have hget : h.step .get = some h₁ := by
        rw [History.run, Option.bind_eq_some_iff] at hrun
        obtain ⟨h₂, hstep, hdone⟩ := hrun
        rw [hstep, ← hdone]
        rfl
      have hone := hq.length_le_one hget hinit hnodup.of_append_left
      obtain ⟨h', hstep, hq', hreceived, hlen⟩ := hq.step_get hone
      refine ⟨hone, hlen ▸ ih hq' (hlen ▸ hfits) ?_ (htail h' hstep)⟩
      rw [hreceived]
      exact hnodup

/-! ## Drivers -/

/-- An event of the driver, in the state in which it comes, is one event of the queue or none. -/
structure Translation (σ ε α : Type*) where
  event : σ → ε → Option (Event α)
  next : σ → ε → σ

def Translation.events {σ : Type*} (t : Translation σ ε α) : σ → List ε → List (Event α)
  | _, [] => []
  | st, e :: evs => (t.event st e).toList ++ t.events (t.next st e) evs

theorem Translation.prefix_iff {σ : Type*} (t : Translation σ ε α) (st : σ) (evs : List ε)
    (p : List (Event α)) :
    p <+: t.events st evs ↔ ∃ pre, pre <+: evs ∧ t.events st pre = p := by
  induction evs generalizing st p with
  | nil => simp [Translation.events, eq_comm]
  | cons e evs ih =>
    rw [Translation.events]
    constructor
    · intro hp
      cases hev : t.event st e with
      | none =>
        rw [hev] at hp
        obtain ⟨pre, hpre, rfl⟩ := (ih _ _).mp hp
        refine ⟨e :: pre, cons_prefix_cons.mpr ⟨rfl, hpre⟩, ?_⟩
        rw [Translation.events, hev]
        rfl
      | some ev =>
        rw [hev] at hp
        cases p with
        | nil => exact ⟨[], nil_prefix, rfl⟩
        | cons ev' p =>
          obtain ⟨rfl, htail⟩ := cons_prefix_cons.mp hp
          obtain ⟨pre, hpre, rfl⟩ := (ih _ _).mp htail
          refine ⟨e :: pre, cons_prefix_cons.mpr ⟨rfl, hpre⟩, ?_⟩
          rw [Translation.events, hev]
          rfl
    · rintro ⟨pre, hpre, rfl⟩
      cases pre with
      | nil => exact nil_prefix
      | cons e' pre =>
        obtain ⟨rfl, htail⟩ := cons_prefix_cons.mp hpre
        rw [Translation.events, prefix_append_right_inj]
        exact (ih _ _).mpr ⟨pre, htail, rfl⟩

structure Driver (σ ε α : Type*) extends Translation σ ε α where
  init : σ
  slots : ℕ → α
  run : List ε → Option (History α)
  run_eq : ∀ evs, run evs = (History.start slots).run (toTranslation.events init evs)

namespace Driver

variable {σ : Type*} (d : Driver σ ε α) (evs : List ε)

theorem forall_prefix_iff (Q : History α → Prop) :
    (∀ pre, pre <+: evs → ∃ h, d.run pre = some h ∧ Q h) ↔
      ∀ p, p <+: d.events d.init evs → ∃ h, (History.start d.slots).run p = some h ∧ Q h := by
  constructor
  · intro hall p hp
    obtain ⟨pre, hpre, rfl⟩ := (d.prefix_iff d.init evs p).mp hp
    rw [← d.run_eq]
    exact hall pre hpre
  · intro hall pre hpre
    rw [d.run_eq]
    exact hall _ ((d.prefix_iff d.init evs _).mpr ⟨pre, hpre, rfl⟩)

theorem staysInArray_iff : StaysInArray d.run evs ↔ Fits queueSize 0 (d.events d.init evs) :=
  (d.forall_prefix_iff evs _).trans (History.staysInArray_iff (queued_start d.slots).inRange)

/-- With room for all events, those returned are the first of those received if the reader never
finds two unread ones; and for different events only then. -/
theorem inOrder_spec (hfits : Fits 511 0 (d.events d.init evs)) :
    (ReadsSingle 0 (d.events d.init evs) → InOrder d.run evs) ∧
      ((arrivals (d.events d.init evs)).Nodup →
        (InOrder d.run evs ↔ ReadsSingle 0 (d.events d.init evs))) := by
  have hq := queued_start d.slots
  have hroom : Fits queueSize 0 (d.events d.init evs) := hfits.mono (by decide)
  have hrun := d.forall_prefix_iff evs fun h => h.returned <+: h.received
  have hsingle : ReadsSingle 0 (d.events d.init evs) → InOrder d.run evs := fun h =>
    hrun.mpr (hq.inOrder_of_single hroom h)
  exact ⟨hsingle, fun hnodup =>
    ⟨fun hord => hq.single_of_inOrder hroom hnodup (hrun.mp hord), hsingle⟩⟩

end Driver

end KernelOld.Input
