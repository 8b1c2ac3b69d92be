import KernelOld.Lib.ByteMemory

/-!
# The table of the interrupt controllers

`acpi_read_madt` of `acpi/acpi.c`. The entries follow each other behind a header of 44 bytes, each
with its type and its length; an entry of length 0 makes the loop endless, and `none` stands for
that and for a store behind one of the arrays that are filled.
-/

namespace KernelOld.Acpi
open ByteMemory List

/-- `acpi_cpus` with `acpi_cpu_cnt`, `acpi_isos` and `ioapic_base`. -/
structure AcpiState where
  cpus : List ℕ
  isos : List ℕ
  ioapicBase : ℕ
  cpus_le : cpus.length ≤ 64
  isos_le : isos.length ≤ 200

def AcpiState.pushCpu (acpi : AcpiState) (id : ℕ) : Option AcpiState :=
  if h : acpi.cpus.length < 64 then
    some { acpi with
      cpus := acpi.cpus ++ [id]
      cpus_le := by rw [length_append]; exact h }
  else none

def AcpiState.pushIso (acpi : AcpiState) (iso : ℕ) : Option AcpiState :=
  if h : acpi.isos.length < 200 then
    some { acpi with
      isos := acpi.isos ++ [iso]
      isos_le := by rw [length_append]; exact h }
  else none

def entType (m : Mem) (ent : ℕ) : ℕ := (m ent).toNat

def entLen (m : Mem) (ent : ℕ) : ℕ := (m (ent + 1)).toNat

def apicId (m : Mem) (ent : ℕ) : ℕ := (m (ent + 3)).toNat

/-- A `lapic_t` with `ACPI_APICLOC_ENABLE` or `ACPI_APICLOC_ONLINE_CAPABLE`. -/
def Enabled (m : Mem) (ent : ℕ) : Prop := load m (ent + 4) 4 &&& 5 ≠ 0

instance (m : Mem) (ent : ℕ) : Decidable (Enabled m ent) := inferInstanceAs (Decidable (_ ≠ _))

def readEnt (m : Mem) (acpi : AcpiState) (ent : ℕ) : Option AcpiState :=
  match entType m ent with
  | 0 =>
    if Enabled m ent then
      -- the boot processor
      if apicId m ent = 0 then some acpi else acpi.pushCpu (apicId m ent)
    else some acpi
  | 1 =>
    if load m (ent + 8) 4 = 0 then some { acpi with ioapicBase := load m (ent + 4) 4 }
    else some acpi
  | 2 => acpi.pushIso ent
  | _ => some acpi

def readEnts (m : Mem) (stop : ℕ) : ℕ → ℕ → AcpiState → Option AcpiState
  | 0, _, _ => none
  | rounds + 1, ent, acpi =>
    if ent < stop then
      (readEnt m acpi ent).bind fun acpi => readEnts m stop rounds (ent + entLen m ent) acpi
    else some acpi

def acpiReadMadt (m : Mem) (rounds : ℕ) : Option AcpiState :=
  readEnts m (load m 4 4) rounds 44 ⟨[], [], 0, Nat.zero_le _, Nat.zero_le _⟩

/-! ## What the table lists -/

/-- From an address on, the entries in front of `stop` are at the listed addresses. -/
inductive Entries (m : Mem) (stop : ℕ) : ℕ → List ℕ → Prop
  | done {ent : ℕ} (hstop : stop ≤ ent) : Entries m stop ent []
  | next {ent : ℕ} {ents : List ℕ} (hlt : ent < stop) (hlen : 0 < entLen m ent)
      (hrest : Entries m stop (ent + entLen m ent) ents) : Entries m stop ent (ent :: ents)

def IsCpu (m : Mem) (ent : ℕ) : Prop := entType m ent = 0 ∧ Enabled m ent

instance (m : Mem) (ent : ℕ) : Decidable (IsCpu m ent) := inferInstanceAs (Decidable (_ ∧ _))

def listedIds (m : Mem) (ents : List ℕ) : List ℕ :=
  (ents.filter fun ent => IsCpu m ent).map (apicId m)

def listedIsos (m : Mem) (ents : List ℕ) : List ℕ := ents.filter fun ent => entType m ent = 2

variable {m : Mem} {stop rounds ent : ℕ} {ents : List ℕ} {acpi acpi' : AcpiState}

theorem AcpiState.pushCpu_eq_some {id : ℕ} (h : acpi.pushCpu id = some acpi') :
    acpi'.cpus = acpi.cpus ++ [id] ∧ acpi'.isos = acpi.isos := by
  unfold pushCpu at h
  split at h
  · rw [← Option.some.inj h]
    exact ⟨rfl, rfl⟩
  · cases h

theorem AcpiState.pushIso_eq_some {iso : ℕ} (h : acpi.pushIso iso = some acpi') :
    acpi'.cpus = acpi.cpus ∧ acpi'.isos = acpi.isos ++ [iso] := by
  unfold pushIso at h
  split at h
  · rw [← Option.some.inj h]
    exact ⟨rfl, rfl⟩
  · cases h

def apsOf (m : Mem) (ents : List ℕ) : List ℕ := (listedIds m ents).filter fun id => id ≠ 0

theorem apsOf_singleton (m : Mem) (ent : ℕ) :
    apsOf m [ent] = if IsCpu m ent ∧ apicId m ent ≠ 0 then [apicId m ent] else [] := by
  by_cases hcpu : IsCpu m ent
  · by_cases hboot : apicId m ent = 0 <;> simp [apsOf, listedIds, hcpu, hboot]
  · simp [apsOf, listedIds, hcpu]

theorem listedIsos_singleton (m : Mem) (ent : ℕ) :
    listedIsos m [ent] = if entType m ent = 2 then [ent] else [] := by
  by_cases hiso : entType m ent = 2 <;> simp [listedIsos, hiso]

theorem apsOf_cons (m : Mem) (ent : ℕ) (ents : List ℕ) :
    apsOf m (ent :: ents) = apsOf m [ent] ++ apsOf m ents := by
  rw [apsOf, apsOf, apsOf, ← filter_append, listedIds, listedIds, listedIds,
    ← map_append, ← filter_append]
  rfl

theorem listedIsos_cons (m : Mem) (ent : ℕ) (ents : List ℕ) :
    listedIsos m (ent :: ents) = listedIsos m [ent] ++ listedIsos m ents := by
  rw [listedIsos, listedIsos, listedIsos, ← filter_append]
  rfl

theorem readEnt_eq_some (h : readEnt m acpi ent = some acpi') :
    acpi'.cpus = acpi.cpus ++ apsOf m [ent] ∧ acpi'.isos = acpi.isos ++ listedIsos m [ent] := by
  unfold readEnt at h
  split at h
  · rename_i htype
    by_cases henabled : Enabled m ent
    · rw [if_pos henabled] at h
      by_cases hboot : apicId m ent = 0
      · rw [if_pos hboot] at h
        rw [← Option.some.inj h]
        simp [apsOf_singleton, listedIsos_singleton, IsCpu, htype, henabled, hboot]
      · rw [if_neg hboot] at h
        obtain ⟨hcpus, hisos⟩ := AcpiState.pushCpu_eq_some h
        simp [apsOf_singleton, listedIsos_singleton, IsCpu, htype, henabled, hboot, hcpus, hisos]
    · rw [if_neg henabled] at h
      rw [← Option.some.inj h]
      simp [apsOf_singleton, listedIsos_singleton, IsCpu, htype, henabled]
  · rename_i htype
    have hsame : acpi'.cpus = acpi.cpus ∧ acpi'.isos = acpi.isos := by
      split at h <;> rw [← Option.some.inj h] <;> exact ⟨rfl, rfl⟩
    simp [apsOf_singleton, listedIsos_singleton, IsCpu, htype, hsame]
  · rename_i htype
    obtain ⟨hcpus, hisos⟩ := AcpiState.pushIso_eq_some h
    simp [apsOf_singleton, listedIsos_singleton, IsCpu, htype, hcpus, hisos]
  · rename_i hcpu _ hiso
    have hcpu : entType m ent ≠ 0 := hcpu
    have hiso : entType m ent ≠ 2 := hiso
    rw [← Option.some.inj h]
    simp [apsOf_singleton, listedIsos_singleton, IsCpu, hcpu, hiso]

theorem isSome_readEnt (hcpus : acpi.cpus.length + (apsOf m [ent]).length ≤ 64)
    (hisos : acpi.isos.length + (listedIsos m [ent]).length ≤ 200) :
    (readEnt m acpi ent).isSome := by
  unfold readEnt
  split
  · rename_i htype
    by_cases henabled : Enabled m ent
    · by_cases hboot : apicId m ent = 0
      · simp [henabled, hboot]
      · have hone : (apsOf m [ent]).length = 1 := by
          simp [apsOf_singleton, IsCpu, htype, henabled, hboot]
        have hroom : acpi.cpus.length < 64 := by omega
        simp [henabled, hboot, AcpiState.pushCpu, hroom]
    · simp [henabled]
  · split <;> rfl
  · rename_i htype
    have hone : (listedIsos m [ent]).length = 1 := by simp [listedIsos_singleton, htype]
    have hroom : acpi.isos.length < 200 := by omega
    simp [AcpiState.pushIso, hroom]
  · rfl

theorem Entries.eq_some (h : Entries m stop ent ents)
    (hread : readEnts m stop rounds ent acpi = some acpi') :
    acpi'.cpus = acpi.cpus ++ apsOf m ents ∧ acpi'.isos = acpi.isos ++ listedIsos m ents := by
  induction h generalizing rounds acpi with
  | done hstop =>
    cases rounds with
    | zero => cases hread
    | succ rounds =>
      rw [readEnts, if_neg (not_lt_of_ge hstop)] at hread
      rw [← Option.some.inj hread]
      exact ⟨(append_nil _).symm, (append_nil _).symm⟩
  | @next ent ents hlt _ _ ih =>
    cases rounds with
    | zero => cases hread
    | succ rounds =>
      rw [readEnts, if_pos hlt] at hread
      obtain ⟨acpi₁, hent, hrest⟩ := Option.bind_eq_some_iff.mp hread
      obtain ⟨hcpus, hisos⟩ := ih hrest
      rw [(readEnt_eq_some hent).1] at hcpus
      rw [(readEnt_eq_some hent).2] at hisos
      rw [apsOf_cons, listedIsos_cons, ← append_assoc, ← append_assoc]
      exact ⟨hcpus, hisos⟩

theorem Entries.isSome (h : Entries m stop ent ents) (hrounds : ents.length < rounds)
    (hcpus : acpi.cpus.length + (apsOf m ents).length ≤ 64)
    (hisos : acpi.isos.length + (listedIsos m ents).length ≤ 200) :
    (readEnts m stop rounds ent acpi).isSome := by
  induction h generalizing rounds acpi with
  | done hstop =>
    obtain ⟨rounds, rfl⟩ := Nat.exists_eq_add_of_lt hrounds
    rw [readEnts, if_neg (not_lt_of_ge hstop)]
    rfl
  | @next ent ents hlt _ _ ih =>
    obtain ⟨k, rfl⟩ := Nat.exists_eq_add_of_lt hrounds
    rw [apsOf_cons, length_append] at hcpus
    rw [listedIsos_cons, length_append] at hisos
    obtain ⟨acpi₁, hent⟩ := Option.isSome_iff_exists.mp
      (isSome_readEnt (show acpi.cpus.length + (apsOf m [ent]).length ≤ 64 by omega)
        (show acpi.isos.length + (listedIsos m [ent]).length ≤ 200 by omega))
    rw [readEnts, if_pos hlt, hent, Option.bind_some]
    refine ih (by rw [length_cons]; omega) ?_ ?_
    · rw [(readEnt_eq_some hent).1, length_append]
      omega
    · rw [(readEnt_eq_some hent).2, length_append]
      omega

end KernelOld.Acpi
