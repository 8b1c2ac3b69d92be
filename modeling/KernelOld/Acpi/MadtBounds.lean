import KernelOld.Acpi.Madt
import KernelOld.Lib.Trace

/-!
# What reading the MADT touches

`acpi_read_madt` of `acpi/acpi.c` once more, with every read of the table and every store to
`acpi_cpus` and `acpi_isos.data` as an event. A store outside its array does not stop it here, as
it does not stop the machine.
-/

namespace KernelOld.Acpi
open ByteMemory MachineWord Trace Traced

inductive Access
  | read (addr width : ℕ)
  | cpu (idx : ℕ)
  | iso (idx : ℕ)

def Access.InBounds (len : ℕ) : Access → Prop
  | .read addr width => addr + width ≤ len
  | .cpu idx => idx < 64
  | .iso idx => idx < 200

def touchEnt (m : Mem) (cnt : ℕ × ℕ) (ent : ℕ) : Traced Access (ℕ × ℕ) := do
  emit (.read ent 1)
  match entType m ent with
  | 0 => do
    emit (.read (ent + 4) 4)
    if Enabled m ent then do
      emit (.read (ent + 3) 1)
      if apicId m ent = 0 then pure cnt
      else do
        emit (.cpu cnt.1)
        pure (u32 (cnt.1 + 1), cnt.2)
    else pure cnt
  | 1 => do
    emit (.read (ent + 8) 4)
    if load m (ent + 8) 4 = 0 then do
      emit (.read (ent + 4) 4)
      pure cnt
    else pure cnt
  | 2 => do
    emit (.iso cnt.2)
    pure (cnt.1, u32 (cnt.2 + 1))
  | 4 => pure cnt
  | 5 => pure cnt
  | _ => do
    -- the type is printed
    emit (.read ent 1)
    pure cnt

def touchEnts (m : Mem) (stop : ℕ) : ℕ → ℕ → ℕ × ℕ → Traced Access (ℕ × ℕ)
  | 0, _, _ => lift none
  | rounds + 1, ent, cnt =>
    if ent < stop then do
      let cnt ← touchEnt m cnt ent
      emit (.read (ent + 1) 1)
      touchEnts m stop rounds (ent + entLen m ent) cnt
    else pure cnt

def touchMadt (m : Mem) (rounds : ℕ) : Traced Access (ℕ × ℕ) := do
  emit (.read 4 4)
  touchEnts m (load m 4 4) rounds 44 (0, 0)

def Room (cnt : ℕ × ℕ) : Prop := cnt.1 ≤ 64 ∧ cnt.2 ≤ 200

/-- The function returns, having read only bytes of the table and stored only elements of its
arrays. -/
def Bounded (m : Mem) : Prop :=
  ∃ rounds, (touchMadt m rounds).Ensures (Access.InBounds (load m 4 4)) Room

def extent (m : Mem) (ent : ℕ) : ℕ :=
  match entType m ent with
  | 0 => 8
  | 1 => 12
  | _ => 2

variable {m : Mem} {stop rounds ent : ℕ} {ents : List ℕ} {cnt : ℕ × ℕ}

/-! ## One entry -/

def counted (m : Mem) (cnt : ℕ × ℕ) (ents : List ℕ) : ℕ × ℕ :=
  (cnt.1 + (apsOf m ents).length, cnt.2 + (listedIsos m ents).length)

theorem counted_cons (m : Mem) (cnt : ℕ × ℕ) (ent : ℕ) (ents : List ℕ) :
    counted m cnt (ent :: ents) = counted m (counted m cnt [ent]) ents := by
  rw [counted, apsOf_cons, listedIsos_cons, List.length_append, List.length_append,
    ← Nat.add_assoc, ← Nat.add_assoc]
  rfl

theorem Room.of_counted (h : Room (counted m cnt ents)) : Room cnt :=
  ⟨Nat.le_of_add_right_le h.1, Nat.le_of_add_right_le h.2⟩

theorem result_touchEnt (h : Room cnt) (ent : ℕ) :
    (touchEnt m cnt ent).result = some (counted m cnt [ent]) := by
  obtain ⟨hcpus, hisos⟩ := h
  have hcpu : u32 (cnt.1 + 1) = cnt.1 + 1 := u32_of_lt (by omega)
  have hiso : u32 (cnt.2 + 1) = cnt.2 + 1 := u32_of_lt (by omega)
  rw [counted, apsOf_singleton, listedIsos_singleton, touchEnt]
  split
  · rename_i htype
    by_cases henabled : Enabled m ent
    · by_cases hboot : apicId m ent = 0 <;> simp [IsCpu, htype, henabled, hboot, hcpu]
    · simp [IsCpu, htype, henabled]
  · rename_i htype
    by_cases hgsib : load m (ent + 8) 4 = 0 <;> simp [IsCpu, htype, hgsib]
  · rename_i htype
    simp [IsCpu, htype, hiso]
  · rename_i htype
    simp [IsCpu, htype]
  · rename_i htype
    simp [IsCpu, htype]
  · rename_i h₀ _ h₂ _ _
    have h₀ : entType m ent ≠ 0 := h₀
    have h₂ : entType m ent ≠ 2 := h₂
    simp [IsCpu, h₀, h₂]

theorem fits_iff (h : Room cnt) (stop ent : ℕ) :
    ((∀ e ∈ (touchEnt m cnt ent).events, e.InBounds stop) ∧
        Access.InBounds stop (.read (ent + 1) 1)) ↔
      ent + extent m ent ≤ stop ∧ Room (counted m cnt [ent]) := by
  obtain ⟨hcpus, hisos⟩ := h
  rw [Room, counted, apsOf_singleton, listedIsos_singleton, touchEnt, extent]
  split
  · rename_i htype
    by_cases henabled : Enabled m ent
    · by_cases hboot : apicId m ent = 0 <;>
        simp [Access.InBounds, IsCpu, htype, henabled, hboot] <;> omega
    · simp [Access.InBounds, IsCpu, htype, henabled]
      omega
  · rename_i htype
    by_cases hgsib : load m (ent + 8) 4 = 0 <;>
      simp [Access.InBounds, IsCpu, htype, hgsib] <;> omega
  · rename_i htype
    simp [Access.InBounds, IsCpu, htype]
    omega
  · rename_i htype
    simp [Access.InBounds, IsCpu, htype]
    omega
  · rename_i htype
    simp [Access.InBounds, IsCpu, htype]
    omega
  · rename_i h₀ _ h₂ _ _
    have h₀ : entType m ent ≠ 0 := h₀
    have h₂ : entType m ent ≠ 2 := h₂
    simp [Access.InBounds, IsCpu, h₀, h₂]
    omega

theorem ensures_touchEnts_succ (h : Room cnt) (hlt : ent < stop) :
    (touchEnts m stop (rounds + 1) ent cnt).Ensures (Access.InBounds stop) Room ↔
      (ent + extent m ent ≤ stop ∧ Room (counted m cnt [ent])) ∧
        (touchEnts m stop rounds (ent + entLen m ent) (counted m cnt [ent])).Ensures
          (Access.InBounds stop) Room := by
  have hresult := result_touchEnt (m := m) h ent
  have hfits := fits_iff (m := m) h stop ent
  rw [touchEnts, if_pos hlt]
  generalize touchEnt m cnt ent = x at hresult hfits
  obtain ⟨events, result⟩ := x
  obtain rfl : result = _ := hresult
  rw [ensures_bind_some, ensures_emit_bind, ← hfits, and_assoc]

/-! ## The whole table -/

structure Parses (m : Mem) (stop ent : ℕ) (cnt : ℕ × ℕ) (ents : List ℕ) : Prop where
  entries : Entries m stop ent ents
  fits : ∀ ent ∈ ents, ent + extent m ent ≤ stop
  room : Room (counted m cnt ents)

theorem parses_of_ensures (h : Room cnt)
    (hrun : (touchEnts m stop rounds ent cnt).Ensures (Access.InBounds stop) Room) :
    ∃ ents, Parses m stop ent cnt ents := by
  induction rounds generalizing ent cnt with
  | zero => exact absurd hrun not_ensures_none
  | succ rounds ih =>
    by_cases hlt : ent < stop
    · obtain ⟨⟨hfit, hroom⟩, hrest⟩ := (ensures_touchEnts_succ h hlt).mp hrun
      obtain ⟨ents, hparses⟩ := ih hroom hrest
      -- an entry of length zero would be its own successor
      have hlen : 0 < entLen m ent := by
        by_contra hzero
        have hsame : ent + entLen m ent = ent := by omega
        have hentries := hparses.entries
        rw [hsame] at hentries
        cases hentries with
        | done hstop => omega
        | next _ hlen _ => exact hzero hlen
      refine ⟨ent :: ents, .next hlt hlen hparses.entries, ?_, ?_⟩
      · exact List.forall_mem_cons.mpr ⟨hfit, hparses.fits⟩
      · rw [counted_cons]
        exact hparses.room
    · exact ⟨[], .done (Nat.le_of_not_lt hlt), fun _ hmem => absurd hmem List.not_mem_nil, h⟩

theorem Entries.unique {ents' : List ℕ} (h : Entries m stop ent ents)
    (h' : Entries m stop ent ents') : ents = ents' := by
  induction h generalizing ents' with
  | done hstop =>
    cases h' with
    | done => rfl
    | next hlt => omega
  | next hlt _ _ ih =>
    cases h' with
    | done hstop => omega
    | next _ _ hrest => rw [ih hrest]

theorem Entries.ensures (hentries : Entries m stop ent ents)
    (hfits : ∀ ent ∈ ents, ent + extent m ent ≤ stop) (hroom : Room (counted m cnt ents)) :
    (touchEnts m stop (ents.length + 1) ent cnt).Ensures (Access.InBounds stop) Room := by
  induction hentries generalizing cnt with
  | done hstop =>
    rw [touchEnts, if_neg (Nat.not_lt_of_le hstop)]
    exact ensures_pure hroom
  | @next ent ents hlt _ _ ih =>
    rw [counted_cons] at hroom
    obtain ⟨hfit, hfits⟩ := List.forall_mem_cons.mp hfits
    have hfirst : Room (counted m cnt [ent]) := hroom.of_counted
    rw [List.length_cons, ensures_touchEnts_succ hfirst.of_counted hlt]
    exact ⟨⟨hfit, hfirst⟩, ih hfits hroom⟩

theorem bounded_iff_parses (m : Mem) :
    Bounded m ↔ 8 ≤ load m 4 4 ∧ ∃ ents, Parses m (load m 4 4) 44 (0, 0) ents := by
  constructor
  · rintro ⟨rounds, hrun⟩
    rw [touchMadt, ensures_emit_bind] at hrun
    exact ⟨hrun.1, parses_of_ensures ⟨Nat.zero_le _, Nat.zero_le _⟩ hrun.2⟩
  · rintro ⟨hlen, ents, hparses⟩
    refine ⟨ents.length + 1, ?_⟩
    rw [touchMadt, ensures_emit_bind]
    exact ⟨hlen, hparses.entries.ensures hparses.fits hparses.room⟩

theorem room_counted_zero (m : Mem) (ents : List ℕ) : Room (counted m (0, 0) ents) ↔
    (apsOf m ents).length ≤ 64 ∧ (listedIsos m ents).length ≤ 200 := by
  rw [Room, counted, Nat.zero_add, Nat.zero_add]

/-- A table that is read within its bounds is read completely, and `acpiReadMadt` says what is
found in it. -/
theorem Bounded.acpiReadMadt_eq_some (h : Bounded m) : ∃ rounds acpi ents,
    acpiReadMadt m rounds = some acpi ∧ Entries m (load m 4 4) 44 ents ∧
      acpi.cpus = apsOf m ents ∧ acpi.isos = listedIsos m ents := by
  obtain ⟨-, ents, hparses⟩ := (bounded_iff_parses m).mp h
  obtain ⟨hcpus, hisos⟩ := (room_counted_zero m ents).mp hparses.room
  have hsome : (acpiReadMadt m (ents.length + 1)).isSome := by
    refine hparses.entries.isSome (Nat.lt_succ_self _) ?_ ?_
    · rw [List.length_nil, Nat.zero_add]
      exact hcpus
    · rw [List.length_nil, Nat.zero_add]
      exact hisos
  obtain ⟨acpi, hread⟩ := Option.isSome_iff_exists.mp hsome
  exact ⟨_, acpi, ents, hread, hparses.entries, hparses.entries.eq_some hread⟩

/-- The processors 0 and 1, and the override of interrupt 0. -/
def twoAndOverride : Mem := fun a =>
  ([0x41, 0x50, 0x49, 0x43, (70 : UInt8)] ++ List.replicate 39 0 ++ [0, 8, 0, 0, 1, 0, 0, 0] ++
    [0, 8, 1, 1, 1, 0, 0, 0] ++ [2, 10, 0, 0, 2, 0, 0, 0, 0, 0]).getD a 0

theorem entries_twoAndOverride : Entries twoAndOverride 70 44 [44, 52, 60] :=
  .next (by decide) (by decide) (.next (by decide) (by decide)
    (.next (by decide) (by decide) (.done (by decide))))

theorem acpiReadMadt_eq_some_override : Bounded twoAndOverride ∧ ∃ rounds acpi,
    acpiReadMadt twoAndOverride rounds = some acpi ∧ acpi.cpus = [1] ∧ acpi.isos = [60] := by
  have hlen : load twoAndOverride 4 4 = 70 := by decide +kernel
  have hbounded : Bounded twoAndOverride := by
    rw [bounded_iff_parses, hlen]
    exact ⟨by decide, _, entries_twoAndOverride, by decide, by decide +kernel, by decide +kernel⟩
  obtain ⟨rounds, acpi, ents, hread, hents, hcpus, hisos⟩ := hbounded.acpiReadMadt_eq_some
  rw [hlen] at hents
  obtain rfl := hents.unique entries_twoAndOverride
  exact ⟨hbounded, rounds, acpi, hread, hcpus.trans (by decide +kernel), hisos⟩

/-- `acpi_read_madt` is total and bounded if and only if the table is at least long enough for its
length field, its entries have positive lengths and lie in it as far as they are read, and they
list at most 64 further processors and 200 overrides. -/
theorem acpiReadMadt_bounded_iff (m : Mem) :
    Bounded m ↔ 8 ≤ load m 4 4 ∧ ∃ ents, Entries m (load m 4 4) 44 ents ∧
      (∀ ent ∈ ents, ent + extent m ent ≤ load m 4 4) ∧
      (apsOf m ents).length ≤ 64 ∧ (listedIsos m ents).length ≤ 200 := by
  rw [bounded_iff_parses]
  refine and_congr_right fun _ => exists_congr fun ents => ?_
  rw [← room_counted_zero]
  constructor
  · rintro ⟨hentries, hfits, hroom⟩
    exact ⟨hentries, hfits, hroom⟩
  · rintro ⟨hentries, hfits, hroom⟩
    exact ⟨hentries, hfits, hroom⟩

theorem touchEnts_endless (hlt : ent < stop) (hzero : entLen m ent = 0) :
    (touchEnts m stop rounds ent cnt).result = none := by
  induction rounds generalizing cnt with
  | zero => rfl
  | succ rounds ih =>
    rw [touchEnts, if_pos hlt, result_bind, Option.bind_eq_none_iff]
    intro cnt' _
    rw [result_bind, hzero]
    exact ih

def emptyEntry : Mem := store (fun _ => 0) 4 4 46

theorem acpiReadMadt_endless : load emptyEntry 4 4 = 46 ∧
    (∀ rounds, (touchMadt emptyEntry rounds).result = none) ∧ ¬Bounded emptyEntry := by
  have hlen : load emptyEntry 4 4 = 46 := load_store_of_lt (by decide)
  have hzero : entLen emptyEntry 44 = 0 := by
    rw [entLen, emptyEntry, store_apply_of_notMem (by decide)]
    rfl
  have hnone (rounds : ℕ) : (touchMadt emptyEntry rounds).result = none := by
    rw [touchMadt, result_bind, hlen]
    exact touchEnts_endless (by decide) hzero
  refine ⟨hlen, hnone, ?_⟩
  rintro ⟨rounds, -, cnt, hresult, -⟩
  rw [hnone] at hresult
  cases hresult

end KernelOld.Acpi
