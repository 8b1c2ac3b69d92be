import KernelOld.Drivers.Storage.Ahci

/-!
# Errors of the disk

`ahci_read` and `ahci_write` do not look at what `ahci_access` returns, and return their own
counter, which is 0 when the loop is over. A read copies the bounce buffer to the caller whether
the command has filled it or not.
-/

namespace KernelOld.Ahci
open ByteMemory MachineWord Trace

def leading (ok : ℕ → Bool) : ℕ → ℕ
  | 0 => 0
  | len + 1 => if ok 0 then leading (fun i => ok (i + 1)) len + 1 else 0

def HasSector (s s' : State) (ptr off i : ℕ) : Prop :=
  ∀ j < 512, s'.mem (ptr + 512 * i + j) = s.disk (512 * u64 (off + i) + j)

def KeepsSector (s s' : State) (ptr i : ℕ) : Prop :=
  ∀ j < 512, s'.mem (ptr + 512 * i + j) = s.mem (ptr + 512 * i + j)

/-- The number of leading sectors is returned, these have been transferred, and those behind them
are filled with nothing but data of the disk. -/
def ReadReports (ok : ℕ → Bool) (len : ℕ) : Prop :=
  ∀ (port : Port) (reply : ℕ → Reply), (∀ i, (reply i).outcome = some (ok i)) →
    ∀ ptr off s, ∃ s',
      (ahciRead port reply ptr off len s).result = some (leading ok len, s') ∧
      (∀ i < leading ok len, HasSector s s' ptr off i) ∧
      ∀ i < len, leading ok len ≤ i → KeepsSector s s' ptr i ∨ HasSector s s' ptr off i

/-- The number of leading sectors is returned, and these have been written. -/
def WriteReports (ok : ℕ → Bool) (len : ℕ) : Prop :=
  ∀ (port : Port) (reply : ℕ → Reply), (∀ i, (reply i).outcome = some (ok i)) →
    ∀ ptr off s, ∃ s',
      (ahciWrite port reply ptr off len s).result = some (leading ok len, s') ∧
      ∀ i < leading ok len, ∀ j < 512,
        s'.disk (512 * u64 (off + i) + j) = s.mem (ptr + 512 * i + j)

variable {port : Port} {ptr off len : ℕ} {ok : ℕ → Bool} {s : State}

theorem ahciRead_returns (port : Port) (reply : ℕ → Reply) (ptr off len : ℕ) (s : State)
    (hreply : ∀ i, (reply i).outcome = some (ok i)) :
    ∃ s', (ahciRead port reply ptr off len s).result = some (0, s') ∧
      ∀ x < ptr, s'.mem x = s.mem x := by
  induction len generalizing reply ptr off s ok with
  | zero => exact ⟨s, rfl, fun _ _ => rfl⟩
  | succ len ih =>
    let s₁ := if ok 0 then s.transfer off (len + 1) false else s
    have hmem : s₁.mem = s.mem := by
      dsimp only [s₁]
      cases ok 0 <;> rfl
    obtain ⟨s', hrun, hbelow⟩ := ih (fun i => reply (i + 1)) (ptr + 512) (u64 (off + 1))
      { s₁ with mem := blit s₁.mem ptr s₁.buf 0 512 } (fun i => hreply (i + 1))
    refine ⟨s', ?_, fun x hx => ?_⟩
    · rw [ahciRead, ahciAccess_eq, hreply 0]
      exact hrun
    · rw [hbelow x (by omega), ← hmem]
      exact blit_apply_of_notMem (Or.inl hx)

theorem ahciWrite_returns (port : Port) (reply : ℕ → Reply) (ptr off len : ℕ) (s : State)
    (hreply : ∀ i, (reply i).outcome = some (ok i)) :
    ∃ s', (ahciWrite port reply ptr off len s).result = some (0, s') := by
  induction len generalizing reply ptr off s ok with
  | zero => exact ⟨s, rfl⟩
  | succ len ih =>
    rw [ahciWrite, ahciAccess_eq, hreply 0]
    exact ih _ _ _ _ fun i => hreply (i + 1)

theorem ahciRead_stale (port : Port) (reply : ℕ → Reply) (ptr off len : ℕ) (s : State)
    (hreply : ∀ i, (reply i).outcome = some (ok i)) (hfail : ok 0 = false) :
    ∃ s', (ahciRead port reply ptr off (len + 1) s).result = some (0, s') ∧
      ∀ j < 512, s'.mem (ptr + j) = s.buf j := by
  obtain ⟨s', hrun, hbelow⟩ := ahciRead_returns port (fun i => reply (i + 1)) (ptr + 512)
    (u64 (off + 1)) len { s with mem := blit s.mem ptr s.buf 0 512 } fun i => hreply (i + 1)
  refine ⟨s', ?_, fun j hj => ?_⟩
  · rw [ahciRead, ahciAccess_eq, hreply 0, hfail]
    exact hrun
  · rw [hbelow (ptr + j) (by omega)]
    exact (blit_apply_add hj).trans (congrArg s.buf (Nat.zero_add j))

theorem leading_pos (hok : ok 0 = true) : leading ok (len + 1) ≠ 0 := by
  rw [leading, if_pos hok]
  exact Nat.succ_ne_zero _

theorem leading_fail (hfail : ok 0 = false) : leading ok len = 0 := by
  cases len with
  | zero => rfl
  | succ len => rw [leading, hfail, if_neg Bool.false_ne_true]

theorem ReadReports.leading_eq_zero (h : ReadReports ok len) : leading ok len = 0 := by
  have hreply := fun i => Reply.outcome_atOnce (ok i)
  let s : State := ⟨fun _ => 0, fun _ => 0, fun _ => 0⟩
  obtain ⟨s₁, hrun₁, -, -⟩ := h ⟨0, by decide⟩ _ hreply 0 0 s
  obtain ⟨s₂, hrun₂, -⟩ := ahciRead_returns ⟨0, by decide⟩ _ 0 0 len s hreply
  rw [hrun₁, Option.some.injEq, Prod.mk.injEq] at hrun₂
  exact hrun₂.1

theorem WriteReports.leading_eq_zero (h : WriteReports ok len) : leading ok len = 0 := by
  have hreply := fun i => Reply.outcome_atOnce (ok i)
  let s : State := ⟨fun _ => 0, fun _ => 0, fun _ => 0⟩
  obtain ⟨s₁, hrun₁, -⟩ := h ⟨0, by decide⟩ _ hreply 0 0 s
  obtain ⟨s₂, hrun₂⟩ := ahciWrite_returns ⟨0, by decide⟩ _ 0 0 len s hreply
  rw [hrun₁, Option.some.injEq, Prod.mk.injEq] at hrun₂
  exact hrun₂.1

theorem not_readReports (hfail : ok 0 = false) : ¬ReadReports ok (len + 1) := by
  intro h
  have hreply := fun i => Reply.outcome_atOnce (ok i)
  let s : State := ⟨fun _ => 0, fun _ => 1, fun _ => 0⟩
  obtain ⟨s₁, hrun₁, -, hbehind⟩ := h ⟨0, by decide⟩ _ hreply 0 0 s
  obtain ⟨s₂, hrun₂, hstale⟩ := ahciRead_stale ⟨0, by decide⟩ _ 0 0 len s hreply hfail
  obtain rfl : s₁ = s₂ := by
    rw [hrun₁, Option.some.injEq, Prod.mk.injEq] at hrun₂
    exact hrun₂.2
  -- The buffer held ones, and both the caller's memory and the disk zeros.
  have hone : s₁.mem 0 = 1 := hstale 0 (by decide)
  have hzero : s₁.mem 0 = 0 := by
    rcases hbehind 0 (Nat.succ_pos len) (leading_fail hfail).le with hkeeps | hhas
    · exact hkeeps 0 (by decide)
    · exact hhas 0 (by decide)
  rw [hone] at hzero
  exact absurd hzero (by decide)

/-- The requests that report what they did. -/
theorem ahci_reports_iff (ok : ℕ → Bool) (len : ℕ) :
    (ReadReports ok len ↔ len = 0) ∧ (WriteReports ok len ↔ len = 0 ∨ ok 0 = false) := by
  refine ⟨⟨fun h => ?_, ?_⟩, ⟨fun h => ?_, fun h => ?_⟩⟩
  · cases len with
    | zero => rfl
    | succ len =>
      cases hok : ok 0 with
      | false => exact absurd h (not_readReports hok)
      | true => exact absurd h.leading_eq_zero (leading_pos hok)
  · rintro rfl port reply hreply ptr off s
    exact ⟨s, rfl, fun i hi => absurd hi (Nat.not_lt_zero i),
      fun i hi => absurd hi (Nat.not_lt_zero i)⟩
  · cases len with
    | zero => exact Or.inl rfl
    | succ len =>
      cases hok : ok 0 with
      | false => exact Or.inr rfl
      | true => exact absurd h.leading_eq_zero (leading_pos hok)
  · have hnone : leading ok len = 0 := by
      rcases h with rfl | hfail
      · rfl
      · exact leading_fail hfail
    intro port reply hreply ptr off s
    obtain ⟨s', hrun⟩ := ahciWrite_returns port reply ptr off len s hreply
    rw [hnone]
    exact ⟨s', hrun, fun i hi => absurd hi (Nat.not_lt_zero i)⟩

/-- One sector, read and written without any error: both calls return 0 where 1 sector has been
transferred. -/
theorem ahci_one_sector_unreported :
    leading (fun _ => true) 1 = 1 ∧
      (∃ s', (ahciRead ⟨0, by decide⟩ (fun _ => .atOnce true) 0 0 1
        ⟨fun _ => 5, fun _ => 0, fun _ => 0⟩).result = some (0, s') ∧ s'.mem 0 = 5) ∧
      ¬ReadReports (fun _ => true) 1 ∧ ¬WriteReports (fun _ => true) 1 := by
  refine ⟨rfl, ?_, fun h => ?_, fun h => ?_⟩
  · have hok : ∀ i < 1, (Reply.atOnce true).outcome = some true :=
      fun _ _ => Reply.outcome_atOnce true
    obtain ⟨s', hrun, -, hfetched⟩ := ahciRead_fetches ⟨0, by decide⟩
      (fun _ => .atOnce true) 0 0 ⟨fun _ => 5, fun _ => 0, fun _ => 0⟩ hok
    exact ⟨s', hrun, hfetched.sectors 0 (by decide) 0 (by decide)⟩
  · exact leading_pos rfl h.leading_eq_zero
  · exact leading_pos rfl h.leading_eq_zero

end KernelOld.Ahci
