import KernelOld.Lib.CountedLoop
import KernelOld.Lib.MachineWord

/-!
# Computations with a trace

A `Traced ε α` leaves a list of events behind and has a result or none. The events of a
computation that faults or does not end are those up to that point.
-/

namespace Trace
open CountedLoop MachineWord List

universe u

/-- A result, if there is one, and what happens on the way. -/
structure Traced (ε α : Type u) where
  events : List ε
  result : Option α

variable {ε α β σ : Type u} {ι : Type*}

namespace Traced

def andThen (x : Traced ε α) (f : α → Traced ε β) : Traced ε β :=
  match x.result with
  | none => ⟨x.events, none⟩
  | some a => ⟨x.events ++ (f a).events, (f a).result⟩

instance : Monad (Traced ε) where
  pure a := ⟨[], some a⟩
  bind := andThen

def emit (e : ε) : Traced ε PUnit := ⟨[e], some ⟨⟩⟩

def lift (x : Option α) : Traced ε α := ⟨[], x⟩

@[simp] theorem pure_eq (a : α) : (pure a : Traced ε α) = ⟨[], some a⟩ := rfl

@[simp] theorem bind_none (es : List ε) (f : α → Traced ε β) :
    (⟨es, none⟩ : Traced ε α) >>= f = ⟨es, none⟩ := rfl

@[simp] theorem bind_some (es : List ε) (a : α) (f : α → Traced ε β) :
    (⟨es, some a⟩ : Traced ε α) >>= f = ⟨es ++ (f a).events, (f a).result⟩ := rfl

@[simp] theorem emit_bind (e : ε) (f : PUnit → Traced ε β) :
    emit e >>= f = ⟨e :: (f ⟨⟩).events, (f ⟨⟩).result⟩ := rfl

@[simp] theorem lift_some_bind (a : α) (f : α → Traced ε β) : lift (some a) >>= f = f a := rfl

@[simp] theorem lift_none_bind (f : α → Traced ε β) : lift none >>= f = ⟨[], none⟩ := rfl

theorem result_bind (x : Traced ε α) (f : α → Traced ε β) :
    (x >>= f).result = x.result.bind fun a => (f a).result := by
  obtain ⟨es, _ | a⟩ := x <;> rfl

theorem mem_events_bind {x : Traced ε α} {f : α → Traced ε β} {e : ε} :
    e ∈ (x >>= f).events ↔ e ∈ x.events ∨ ∃ a, x.result = some a ∧ e ∈ (f a).events := by
  obtain ⟨es, _ | a⟩ := x <;> simp

theorem events_bind {x : Traced ε α} {a : α} (hx : x.result = some a) (f : α → Traced ε β) :
    (x >>= f).events = x.events ++ (f a).events := by
  obtain ⟨es, r⟩ := x
  obtain rfl : r = some a := hx
  rfl

theorem bind_congr {x : Traced ε α} {f g : α → Traced ε β}
    (h : ∀ a, x.result = some a → f a = g a) : x >>= f = x >>= g := by
  obtain ⟨es, _ | a⟩ := x
  · rfl
  · rw [bind_some, bind_some, h a rfl]

/-- Every event is one of `P`, and there is a result, which is one of `Q`. -/
def Ensures (P : ε → Prop) (Q : α → Prop) (x : Traced ε α) : Prop :=
  (∀ e ∈ x.events, P e) ∧ ∃ a, x.result = some a ∧ Q a

theorem ensures_pure {P : ε → Prop} {Q : α → Prop} {a : α} (ha : Q a) :
    (pure a : Traced ε α).Ensures P Q :=
  ⟨fun _ he => absurd he not_mem_nil, a, rfl, ha⟩

theorem ensures_bind_iff {P : ε → Prop} {Q : β → Prop} {x : Traced ε α} {f : α → Traced ε β} :
    (x >>= f).Ensures P Q ↔ x.Ensures P fun a => (f a).Ensures P Q := by
  obtain ⟨es, _ | a⟩ := x
  · simp [Ensures]
  · simp only [bind_some, Ensures, forall_mem_append, Option.some.injEq, exists_eq_left',
      and_assoc]

theorem Ensures.bind {P : ε → Prop} {Q : α → Prop} {R : β → Prop} {x : Traced ε α}
    {f : α → Traced ε β} (hx : x.Ensures P Q) (hf : ∀ a, Q a → (f a).Ensures P R) :
    (x >>= f).Ensures P R := by
  obtain ⟨hevents, a, hresult, ha⟩ := hx
  exact ensures_bind_iff.mpr ⟨hevents, a, hresult, hf a ha⟩

theorem ensures_emit_bind {P : ε → Prop} {Q : β → Prop} {e : ε} {f : PUnit → Traced ε β} :
    (emit e >>= f).Ensures P Q ↔ P e ∧ (f ⟨⟩).Ensures P Q := by
  rw [emit_bind, Ensures, forall_mem_cons, and_assoc]
  rfl

theorem ensures_bind_some {P : ε → Prop} {Q : β → Prop} {es : List ε} {a : α}
    {f : α → Traced ε β} :
    ((⟨es, some a⟩ : Traced ε α) >>= f).Ensures P Q ↔ (∀ e ∈ es, P e) ∧ (f a).Ensures P Q := by
  rw [bind_some, Ensures, forall_mem_append, and_assoc]
  rfl

theorem ensures_pure_iff {P : ε → Prop} {Q : α → Prop} {a : α} :
    (pure a : Traced ε α).Ensures P Q ↔ Q a := by
  refine ⟨?_, ensures_pure⟩
  rintro ⟨-, b, hb, hQ⟩
  obtain rfl : a = b := Option.some.inj hb
  exact hQ

theorem not_ensures_none {P : ε → Prop} {Q : α → Prop} : ¬(lift none : Traced ε α).Ensures P Q := by
  rintro ⟨-, a, ha, -⟩
  cases ha

theorem map_id (x : Traced ε α) : id <$> x = x := by
  obtain ⟨es, _ | a⟩ := x
  · rfl
  · exact congrArg (Traced.mk · _) (append_nil es)

theorem bind_assoc {γ : Type u} (x : Traced ε α) (f : α → Traced ε β) (g : β → Traced ε γ) :
    x >>= f >>= g = x >>= fun a => f a >>= g := by
  obtain ⟨es, _ | a⟩ := x
  · rfl
  · simp only [bind_some]
    obtain ⟨es', _ | b⟩ := f a
    · rfl
    · simp only [bind_some, append_assoc]

instance : LawfulMonad (Traced ε) :=
  LawfulMonad.mk' (Traced ε) map_id (fun _ _ => rfl) bind_assoc

/-! ## Loops -/

theorem result_foldlM (f : σ → ι → Traced ε σ) (is : List ι) (s : σ) :
    (is.foldlM f s).result = is.foldlM (fun s i => (f s i).result) s := by
  induction is generalizing s with
  | nil => rfl
  | cons i is ih =>
    rw [foldlM_cons, foldlM_cons, result_bind]
    exact congrArg _ (funext ih)

/-- The events of the rounds that are reached. -/
theorem forall_events_range {f : σ → ℕ → Traced ε σ} {P : ε → Prop} (n : ℕ) (s : σ) :
    (∀ e ∈ ((List.range n).foldlM f s).events, P e) ↔
      ∀ i < n, ∀ s', (List.range i).foldlM (fun s i => (f s i).result) s = some s' →
        ∀ e ∈ (f s' i).events, P e := by
  induction n with
  | zero => simp
  | succ n ih =>
    rw [foldlM_range_succ]
    have hreached : ((List.range n).foldlM f s).result = _ := result_foldlM f (List.range n) s
    constructor
    · intro h i hi s' hs'
      rcases Nat.lt_succ_iff_lt_or_eq.mp hi with hi | rfl
      · refine ih.mp (fun e he => h e ?_) i hi s' hs'
        rw [mem_events_bind]
        exact Or.inl he
      · intro e he
        refine h e ?_
        rw [mem_events_bind, hreached]
        exact Or.inr ⟨s', hs', he⟩
    · intro h e he
      rw [mem_events_bind, hreached] at he
      rcases he with he | ⟨s', hs', he⟩
      · exact ih.mpr (fun i hi => h i (Nat.lt_succ_of_lt hi)) e he
      · exact h n (Nat.lt_succ_self n) s' hs' e he

/-- A loop whose state after `i` rounds is `s i`. -/
theorem foldlM_range_of_states {f : σ → ℕ → Traced ε σ} {s : ℕ → σ} {n : ℕ}
    (h : ∀ i < n, (f (s i) i).result = some (s (i + 1))) :
    ((List.range n).foldlM f (s 0)).result = some (s n) ∧
      ∀ e, e ∈ ((List.range n).foldlM f (s 0)).events ↔ ∃ i < n, e ∈ (f (s i) i).events := by
  induction n with
  | zero => exact ⟨rfl, fun e => by simp⟩
  | succ n ih =>
    obtain ⟨hresult, hevents⟩ := ih fun i hi => h i (Nat.lt_succ_of_lt hi)
    rw [foldlM_range_succ]
    constructor
    · rw [result_bind, hresult]
      exact h n (Nat.lt_succ_self n)
    · intro e
      rw [mem_events_bind, hresult, hevents, Nat.exists_lt_succ_right]
      simp only [Option.some.injEq, exists_eq_left']

/-- A loop whose rounds leave the same events from every state. -/
theorem events_foldlM {f : σ → ι → Traced ε σ} {g : ι → List ε}
    (hf : ∀ s i s', (f s i).result = some s' → (f s i).events = g i) {is : List ι} {s s' : σ}
    (h : (is.foldlM f s).result = some s') : (is.foldlM f s).events = is.flatMap g := by
  induction is generalizing s with
  | nil => rfl
  | cons i is ih =>
    rw [foldlM_cons] at h ⊢
    rw [result_bind] at h
    obtain ⟨s₁, hround, hrest⟩ := Option.bind_eq_some_iff.mp h
    rw [events_bind hround, flatMap_cons, hf s i s₁ hround, ih hrest]

end Traced

/-- `for (uint32_t i = start; i < bound; i += step)`, stopped after `fuel` rounds. -/
def wordLoop (f : ℕ → σ → Traced ε σ) (step bound : ℕ) : ℕ → ℕ → σ → Traced ε σ
  | 0, _, _ => .lift none
  | fuel + 1, i, s =>
    if i < bound then do
      let s ← f i s
      wordLoop f step bound fuel (u32 (i + step)) s
    else pure s

/-- A loop that has ended is the same with a higher limit. -/
theorem wordLoop_mono {f : ℕ → σ → Traced ε σ} {step bound fuel fuel' i : ℕ} {s s' : σ}
    (h : (wordLoop f step bound fuel i s).result = some s') (hle : fuel ≤ fuel') :
    wordLoop f step bound fuel' i s = wordLoop f step bound fuel i s := by
  induction fuel generalizing fuel' i s with
  | zero => cases h
  | succ fuel ih =>
    obtain ⟨fuel', rfl⟩ := Nat.exists_eq_add_of_le' hle
    rw [wordLoop] at h
    rw [← Nat.add_assoc, wordLoop, wordLoop]
    by_cases hlt : i < bound
    · rw [if_pos hlt, Traced.result_bind] at h
      obtain ⟨s₁, hround, hrest⟩ := Option.bind_eq_some_iff.mp h
      have hsame := ih hrest (Nat.le_add_left fuel fuel')
      rw [if_pos hlt, if_pos hlt]
      apply Traced.bind_congr
      intro s₂ hs₂
      obtain rfl := Option.some.inj (hround.symm.trans hs₂)
      exact hsame
    · rw [if_neg hlt, if_neg hlt]

/-- What holds of the start and is kept by a step holds of the counter in every round. -/
theorem mem_wordLoop {f : ℕ → σ → Traced ε σ} {step bound fuel i : ℕ} {P : ℕ → Prop}
    (hP : ∀ i, P i → P (u32 (i + step))) {s : σ} {e : ε} (hi : P i)
    (he : e ∈ (wordLoop f step bound fuel i s).events) :
    ∃ j s', P j ∧ j < bound ∧ e ∈ (f j s').events := by
  induction fuel generalizing i s with
  | zero => exact absurd he not_mem_nil
  | succ fuel ih =>
    rw [wordLoop] at he
    by_cases hlt : i < bound
    · rw [if_pos hlt] at he
      rcases Traced.mem_events_bind.mp he with he | ⟨s', -, he⟩
      · exact ⟨i, s, hi, hlt, he⟩
      · exact ih (hP i hi) he
    · rw [if_neg hlt] at he
      exact absurd he not_mem_nil

section WordLoop
variable {f : ℕ → σ → Traced ε σ} {ev : ℕ → List ε} {g : ℕ → σ → σ} {step bound start : ℕ}
  (hf : ∀ i s, f i s = ⟨ev i, some (g i s)⟩)
include hf

/-- The counter in round `k` is what `start + k * step` is in 32 bits. -/
theorem wordLoop_rounds (fuel : ℕ) (s : σ) {n : ℕ}
    (hn : ∀ k < n, u32 (start + k * step) < bound) :
    wordLoop f step bound (n + fuel) (u32 start) s =
      (⟨(List.range n).flatMap fun k => ev (u32 (start + k * step)),
        some (loop (fun k => g (u32 (start + k * step))) n s)⟩ : Traced ε σ) >>=
          wordLoop f step bound fuel (u32 (start + n * step)) := by
  induction n generalizing fuel with
  | zero =>
    rw [Nat.zero_mul, Nat.zero_add, loop_zero]
    rfl
  | succ n ih =>
    have hnext : u32 (u32 (start + n * step) + step) = u32 (start + (n + 1) * step) := by
      rw [u32, u32, u32, Nat.mod_add_mod, Nat.succ_mul, Nat.add_assoc]
    rw [Nat.succ_add_eq_add_succ, ih (fuel + 1) fun k hk => hn k (Nat.lt_succ_of_lt hk),
      loop_succ, range_succ, flatMap_append]
    simp only [Traced.bind_some]
    rw [wordLoop, if_pos (hn n (Nat.lt_succ_self n)), hf]
    simp only [Traced.bind_some, hnext, append_assoc, flatMap_singleton]

theorem wordLoop_ends {fuel n : ℕ} (s : σ) (hn : ∀ k < n, u32 (start + k * step) < bound)
    (hend : bound ≤ u32 (start + n * step)) (hfuel : n < fuel) :
    wordLoop f step bound fuel (u32 start) s =
      ⟨(List.range n).flatMap fun k => ev (u32 (start + k * step)),
        some (loop (fun k => g (u32 (start + k * step))) n s)⟩ := by
  obtain ⟨left, rfl⟩ := Nat.exists_eq_add_of_lt hfuel
  rw [Nat.add_assoc, wordLoop_rounds hf (left + 1) s hn]
  rw [Traced.bind_some, wordLoop, if_neg (Nat.not_lt.mpr hend), Traced.pure_eq, append_nil]

/-- A bound that no counter reaches. -/
theorem wordLoop_endless (step start fuel : ℕ) (s : σ) (hbound : 2 ^ 32 ≤ bound) :
    wordLoop f step bound fuel (u32 start) s =
      ⟨(List.range fuel).flatMap fun k => ev (u32 (start + k * step)), none⟩ := by
  have hlt : ∀ k < fuel, u32 (start + k * step) < bound :=
    fun k _ => Nat.lt_of_lt_of_le (u32_lt _) hbound
  have hrun := wordLoop_rounds hf 0 s hlt
  rw [Nat.add_zero] at hrun
  rw [hrun, Traced.bind_some, wordLoop, Traced.lift, append_nil]

end WordLoop
end Trace
