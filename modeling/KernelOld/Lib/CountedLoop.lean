import Mathlib.Data.Nat.Notation

/-!
# Counted loops

`loop f n s` runs `f 0`, `f 1`, up to `f (n - 1)` on the state `s`. An invariant may speak of the
number of rounds done (`loop_induction`). A loop that may fail is a `foldlM`.
-/

namespace CountedLoop

universe u v

variable {σ : Type*} {f : ℕ → σ → σ}

def loop (f : ℕ → σ → σ) : ℕ → σ → σ
  | 0, s => s
  | n + 1, s => f n (loop f n s)

theorem loop_zero (s : σ) : loop f 0 s = s := rfl

theorem loop_succ (n : ℕ) (s : σ) : loop f (n + 1) s = f n (loop f n s) := rfl

theorem loop_induction {I : ℕ → σ → Prop} {s : σ} (n : ℕ) (h0 : I 0 s)
    (hstep : ∀ i s, i < n → I i s → I (i + 1) (f i s)) : I n (loop f n s) := by
  induction n with
  | zero => exact h0
  | succ n ih =>
    have hprev : I n (loop f n s) := ih fun i s hi => hstep i s (Nat.lt_succ_of_lt hi)
    exact hstep n _ (Nat.lt_succ_self n) hprev

theorem loop_congr {g : ℕ → σ → σ} {n : ℕ} (h : ∀ i < n, f i = g i) (s : σ) :
    loop f n s = loop g n s := by
  induction n with
  | zero => rfl
  | succ n ih =>
    rw [loop_succ, loop_succ, ih fun i hi => h i (Nat.lt_succ_of_lt hi), h n (Nat.lt_succ_self n)]

attribute [irreducible] loop

theorem foldlM_range_succ {σ : Type u} {m : Type u → Type v} [Monad m] [LawfulMonad m]
    (g : σ → ℕ → m σ) (n : ℕ) (s : σ) :
    (List.range (n + 1)).foldlM g s = (List.range n).foldlM g s >>= fun s => g s n := by
  simp only [List.range_succ, List.foldlM_append, List.foldlM_cons, List.foldlM_nil, bind_pure]

section Fallible

variable {ι : Type*} {g : σ → ι → Option σ}

theorem foldlM_induction {I : σ → Prop} (hg : ∀ s i s', I s → g s i = some s' → I s')
    {is : List ι} {s s' : σ} (h : I s) (hrun : is.foldlM g s = some s') : I s' := by
  induction is generalizing s with
  | nil => exact Option.some.inj hrun ▸ h
  | cons i is ih =>
    rw [List.foldlM_cons] at hrun
    obtain ⟨s₁, hround, hrest⟩ := Option.bind_eq_some_iff.mp hrun
    exact ih (hg s i s₁ h hround) hrest

/-- If each round does what `apply` does to the state of a model, so does the loop. -/
theorem foldlM_simulates {α : Type*} {apply : α → ι → α} {R : σ → α → Prop} {is : List ι}
    (hg : ∀ i ∈ is, ∀ s a, R s a → ∃ s', g s i = some s' ∧ R s' (apply a i)) {s : σ} {a : α}
    (h : R s a) : ∃ s', is.foldlM g s = some s' ∧ R s' (is.foldl apply a) := by
  induction is generalizing s a with
  | nil => exact ⟨s, rfl, h⟩
  | cons i is ih =>
    obtain ⟨s₁, hround, h₁⟩ := hg i List.mem_cons_self s a h
    obtain ⟨s', hrun, h'⟩ := ih (fun j hj => hg j (List.mem_cons_of_mem i hj)) h₁
    exact ⟨s', by rw [List.foldlM_cons, hround]; exact hrun, h'⟩

theorem isSome_foldlM {ok : ι → Prop} (hg : ∀ s i, (g s i).isSome ↔ ok i) (is : List ι)
    (s : σ) : (is.foldlM g s).isSome ↔ ∀ i ∈ is, ok i := by
  induction is generalizing s with
  | nil => simp
  | cons i is ih =>
    rw [List.foldlM_cons, List.forall_mem_cons, ← hg s i]
    cases hround : g s i with
    | none => simp
    | some s' => simpa using ih s'

/-- A loop over the first numbers comes to its end if every round does that is reached. -/
theorem isSome_foldlM_range {g : σ → ℕ → Option σ} (n : ℕ) (s : σ) :
    ((List.range n).foldlM g s).isSome ↔
      ∀ i < n, ∀ s', (List.range i).foldlM g s = some s' → (g s' i).isSome := by
  induction n with
  | zero => simp
  | succ n ih =>
    rw [foldlM_range_succ]
    constructor
    · intro h i hi s' hs'
      obtain ⟨s₂, hrun⟩ := Option.isSome_iff_exists.mp h
      obtain ⟨s₁, hs₁, hround⟩ := Option.bind_eq_some_iff.mp hrun
      rcases Nat.lt_succ_iff_lt_or_eq.mp hi with hi | rfl
      · exact ih.mp (Option.isSome_iff_exists.mpr ⟨s₁, hs₁⟩) i hi s' hs'
      · obtain rfl := Option.some.inj (hs₁.symm.trans hs')
        exact Option.isSome_iff_exists.mpr ⟨s₂, hround⟩
    · intro h
      obtain ⟨s₁, hs₁⟩ := Option.isSome_iff_exists.mp
        (ih.mpr fun i hi => h i (Nat.lt_succ_of_lt hi))
      rw [hs₁]
      exact h n (Nat.lt_succ_self n) s₁ hs₁

theorem exists_foldlM_range {g : σ → ℕ → Option σ} {n i : ℕ} {s : σ}
    (h : ((List.range n).foldlM g s).isSome) (hi : i ≤ n) :
    ∃ s', (List.range i).foldlM g s = some s' :=
  Option.isSome_iff_exists.mp ((isSome_foldlM_range i s).mpr fun j hj =>
    (isSome_foldlM_range n s).mp h j (Nat.lt_of_lt_of_le hj hi))

end Fallible

end CountedLoop
