import Mathlib.Algebra.Order.BigOperators.Group.List
import KernelOld.Lib.Trace
import KernelOld.Mem.Space.CloneRegions
import KernelOld.Sys.ElfAlias

/-!
# What `elf_load` reads and maps

`elf_load` and the stack loop of `sched_mkelfproc` once more, with a trace of the reads from the
file and of the pages that are mapped. The counters of the page loops have 32 bits, the bounds 64,
and `fuel` limits the rounds.
-/

namespace KernelOld.Elf
open ByteMemory MachineWord Space Mmap LinkedList CountedLoop Trace Trace.Traced List

/-- A read in the file, or a page that is mapped. -/
inductive Access
  | read (offset length : ℕ)
  | map (virt : ℕ)
deriving DecidableEq

def tracePage (data : Mem) (p : Phdr) (tmp i : ℕ) (st : Machine × PageMap) :
    Traced Access (Machine × PageMap) := do
  emit (.read (u64 (p.offset + i)) 4096)
  emit (.map (u64 (p.vaddr + i)))
  pure (loadPage tmp (u64 (p.vaddr + i)) (fun n => data (u64 (p.offset + (i + n)))) st)

def segmentRegion (data : Mem) (allocs : ℕ → Alloc) (st : Machine × PageMap) (i : ℕ) :
    Option (ListT Region) :=
  spaceAllocRegionAt (phdr data i).vaddr (segmentSize (phdr data i).memSz) st.2.regions
    (allocs i).back (allocs i).new

def traceHeader (fuel : ℕ) (data : Mem) (allocs : ℕ → Alloc) (st : Machine × PageMap) (i : ℕ) :
    Traced Access (Machine × PageMap) :=
  let p := phdr data i
  if phEntSize data * i < 2 ^ 31 then do
    emit (.read (u64 (phOff data + phEntSize data * i)) 56)
    if p.type = ptLoad then
      let regions ← lift (segmentRegion data allocs st i)
      wordLoop (tracePage data p (allocs i).tmp) 4096 (segmentSize p.memSz) fuel 0
        (setRegions st regions)
    else pure st
  else lift none

def traceLoad (fuel : ℕ) (data : Mem) (allocs : ℕ → Alloc) (st : Machine × PageMap) :
    Traced Access ((Machine × PageMap) × ℕ × Option ℕ) := do
  emit (.read 0 64)
  if !checkElfHdr data then pure (st, 1, none)
  else
    let st ← (List.range (phNum data)).foldlM (traceHeader fuel data allocs) st
    pure (st, 0, some (entry data))

def traceStackPage (i : ℕ) (st : Machine × PageMap) : Traced Access (Machine × PageMap) := do
  emit (.map i)
  pure (mapNew i st)

def traceStack (fuel back new : ℕ) (st : Machine × PageMap) :
    Traced Access ((Machine × PageMap) × ℕ) := do
  let (regions, stack) ← lift (spaceAllocRegion 0x4000 st.2.regions back new)
  let st ← wordLoop traceStackPage 4096 (u64 (stack + 0x4000)) fuel (u32 stack)
    (setRegions st regions)
  pure (st, stack)

def mapsOf (events : List Access) : List ℕ :=
  events.filterMap fun
    | .read .. => none
    | .map virt => some virt

/-- The bytes that are read belong to the file. -/
def Access.Inside (size : ℕ) : Access → Prop
  | .read offset length => offset + length ≤ size
  | .map _ => True

/-- The state after the first `i` program headers. -/
def Reaches (data : Mem) (allocs : ℕ → Alloc) (st : Machine × PageMap) (i : ℕ)
    (st' : Machine × PageMap) : Prop :=
  (List.range i).foldlM (loadHeader data allocs) st = some st'

def Phdr.wantedPages (p : Phdr) : List ℕ :=
  (List.range ((p.memSz + 4095) / 4096)).map fun k => u64 (p.vaddr + k * 4096)

def stackPagesFrom (stack : ℕ) : List ℕ := (List.range 4).map fun k => stack + k * 4096

variable {data : Mem} {allocs : ℕ → Alloc} {st st' : Machine × PageMap} {p : Phdr}
  {regions : ListT Region} {e : Access} {fuel i k tmp size stack back new : ℕ}

/-! ## The page loops -/

def Phdr.accesses (p : Phdr) (i : ℕ) : List Access :=
  [.read (u64 (p.offset + i)) 4096, .map (u64 (p.vaddr + i))]

variable {r : (Machine × PageMap) × ℕ × Option ℕ}

theorem tracePage_eq (data : Mem) (p : Phdr) (tmp i : ℕ) (st : Machine × PageMap) :
    tracePage data p tmp i st = ⟨p.accesses i, some (loadPage tmp (u64 (p.vaddr + i))
      (fun n => data (u64 (p.offset + (i + n)))) st)⟩ := rfl

theorem counter_eq (h : size < 2 ^ 32) (hk : k < size / 4096) : u32 (0 + k * 4096) = k * 4096 := by
  rw [Nat.zero_add, u32_of_lt (by omega)]

theorem tracePages_ends (hdvd : 4096 ∣ size) (hlt : size < 2 ^ 32) (hfuel : 2 ^ 20 ≤ fuel) :
    wordLoop (tracePage data p tmp) 4096 size fuel 0 st =
      ⟨(List.range (size / 4096)).flatMap fun k => p.accesses (k * 4096),
        some (pagesTo data p tmp (size / 4096) st)⟩ := by
  have hn : ∀ k < size / 4096, u32 (0 + k * 4096) < size := by
    intro k hk
    rw [counter_eq hlt hk]
    omega
  have hend : size ≤ u32 (0 + size / 4096 * 4096) := by
    rw [Nat.zero_add, Nat.div_mul_cancel hdvd, u32_of_lt hlt]
  have hrun := wordLoop_ends (tracePage_eq data p tmp) st hn hend
    (show size / 4096 < fuel by omega)
  rw [show u32 0 = 0 from rfl] at hrun
  have hevents : (List.range (size / 4096)).flatMap (fun k => p.accesses (u32 (0 + k * 4096))) =
      (List.range (size / 4096)).flatMap fun k => p.accesses (k * 4096) := by
    apply flatMap_congr
    intro k hk
    rw [counter_eq hlt (mem_range.mp hk)]
  rw [hrun, hevents, pagesTo]
  refine congrArg (fun st => Traced.mk _ (some st)) (loop_congr (fun k hk => ?_) st)
  rw [counter_eq hlt hk]

theorem tracePages_endless (hle : 2 ^ 32 ≤ size) (fuel : ℕ) :
    wordLoop (tracePage data p tmp) 4096 size fuel 0 st =
      ⟨(List.range fuel).flatMap fun k => p.accesses (u32 (0 + k * 4096)), none⟩ := by
  have hrun := wordLoop_endless (tracePage_eq data p tmp) 4096 0 fuel st hle
  rwa [show u32 0 = 0 from rfl] at hrun

theorem tracePages_of_result (hdvd : 4096 ∣ size)
    (h : (wordLoop (tracePage data p tmp) 4096 size fuel 0 st).result = some st') :
    size < 2 ^ 32 ∧ wordLoop (tracePage data p tmp) 4096 size fuel 0 st =
      ⟨(List.range (size / 4096)).flatMap fun k => p.accesses (k * 4096),
        some (pagesTo data p tmp (size / 4096) st)⟩ := by
  have hmore := wordLoop_mono h (Nat.le_max_left fuel (2 ^ 20))
  by_cases hlt : size < 2 ^ 32
  · rw [← hmore]
    exact ⟨hlt, tracePages_ends hdvd hlt (Nat.le_max_right _ _)⟩
  · rw [tracePages_endless (Nat.le_of_not_lt hlt)] at h
    cases h

/-! ## The headers -/

def headerAccesses (data : Mem) (i : ℕ) : List Access :=
  .read (u64 (phOff data + phEntSize data * i)) 56 :: (loads data [i]).flatMap fun p =>
    (List.range (segmentSize p.memSz / 4096)).flatMap fun k => p.accesses (k * 4096)

theorem loads_singleton (data : Mem) (i : ℕ) :
    loads data [i] = if (phdr data i).type = ptLoad then [phdr data i] else [] := by
  by_cases h : (phdr data i).type = ptLoad
  · simp [loads, h]
  · simp [loads, h]

theorem loadHeader_eq (data : Mem) (allocs : ℕ → Alloc) (st : Machine × PageMap) (i : ℕ) :
    loadHeader data allocs st i =
      if phEntSize data * i < 2 ^ 31 then
        if (phdr data i).type = ptLoad then
          (segmentRegion data allocs st i).bind fun regions =>
            if segmentSize (phdr data i).memSz < 2 ^ 32 then
              some (pagesTo data (phdr data i) (allocs i).tmp
                (segmentSize (phdr data i).memSz / 4096) (setRegions st regions))
            else none
        else some st
      else none := rfl

theorem loadHeader_isSome :
    (loadHeader data allocs st i).isSome ↔ phEntSize data * i < 2 ^ 31 ∧
      ((phdr data i).type = ptLoad → (segmentRegion data allocs st i).isSome ∧
        segmentSize (phdr data i).memSz < 2 ^ 32) := by
  rw [loadHeader_eq]
  by_cases hint : phEntSize data * i < 2 ^ 31
  · rw [if_pos hint]
    by_cases htype : (phdr data i).type = ptLoad
    · rw [if_pos htype]
      cases hregion : segmentRegion data allocs st i with
      | none => simp [htype]
      | some regions =>
        rw [Option.bind_some, Option.isSome_ite]
        exact ⟨fun hlt => ⟨hint, fun _ => ⟨rfl, hlt⟩⟩, fun h => (h.2 htype).2⟩
    · rw [if_neg htype]
      exact iff_of_true rfl ⟨hint, fun h => absurd h htype⟩
  · rw [if_neg hint]
    exact iff_of_false Bool.false_ne_true fun h => hint h.1

theorem traceHeader_result (hfuel : 2 ^ 20 ≤ fuel) (st : Machine × PageMap) (i : ℕ) :
    (traceHeader fuel data allocs st i).result = loadHeader data allocs st i := by
  rw [loadHeader_eq, traceHeader]
  by_cases hint : phEntSize data * i < 2 ^ 31
  · rw [if_pos hint, if_pos hint, emit_bind]
    by_cases htype : (phdr data i).type = ptLoad
    · simp only [if_pos htype]
      cases hregion : segmentRegion data allocs st i with
      | none => rfl
      | some regions =>
        rw [lift_some_bind, Option.bind_some]
        by_cases hlt : segmentSize (phdr data i).memSz < 2 ^ 32
        · rw [if_pos hlt, tracePages_ends (segmentSize_dvd _) hlt hfuel]
        · rw [if_neg hlt, tracePages_endless (Nat.le_of_not_lt hlt)]
    · simp only [if_neg htype]
      rfl
  · rw [if_neg hint, if_neg hint]
    rfl

theorem traceHeader_of_result (h : (traceHeader fuel data allocs st i).result = some st') :
    loadHeader data allocs st i = some st' ∧
      (traceHeader fuel data allocs st i).events = headerAccesses data i := by
  rw [traceHeader] at h ⊢
  by_cases hint : phEntSize data * i < 2 ^ 31
  case neg =>
    rw [if_neg hint] at h
    cases h
  rw [if_pos hint, emit_bind] at h ⊢
  rw [loadHeader_eq, if_pos hint, headerAccesses, loads_singleton]
  by_cases htype : (phdr data i).type = ptLoad
  · simp only [if_pos htype] at h ⊢
    cases hregion : segmentRegion data allocs st i with
    | none =>
      rw [hregion] at h
      cases h
    | some regions =>
      rw [hregion, lift_some_bind] at h
      obtain ⟨hlt, hrun⟩ := tracePages_of_result (segmentSize_dvd _) h
      rw [hrun] at h
      rw [lift_some_bind, Option.bind_some, if_pos hlt, hrun, flatMap_singleton]
      exact ⟨h, rfl⟩
  · simp only [if_neg htype] at h ⊢
    exact ⟨h, rfl⟩

/-! ## The whole file -/

theorem traceLoad_result (hfuel : 2 ^ 20 ≤ fuel) :
    (traceLoad fuel data allocs st).result = elfLoad data allocs st := by
  have hsame : (fun st i => (traceHeader fuel data allocs st i).result) =
      loadHeader data allocs := by
    funext st i
    exact traceHeader_result hfuel st i
  rw [traceLoad, elfLoad, emit_bind]
  by_cases hcheck : checkElfHdr data = true
  · simp only [hcheck, Bool.not_true, Bool.false_eq_true, if_false]
    rw [result_bind, result_foldlM, hsame]
    rfl
  · simp only [hcheck, Bool.not_false, if_true]
    rfl

theorem reaches_of_result {st' : Machine × PageMap} {n : ℕ}
    (h : ((List.range n).foldlM (traceHeader fuel data allocs) st).result = some st') :
    Reaches data allocs st n st' := by
  rw [result_foldlM] at h
  induction n generalizing st' with
  | zero => exact h
  | succ n ih =>
    rw [foldlM_range_succ] at h
    obtain ⟨st₁, hrun, hround⟩ := Option.bind_eq_some_iff.mp h
    rw [Reaches, foldlM_range_succ]
    exact Option.bind_eq_some_iff.mpr ⟨st₁, ih hrun, (traceHeader_of_result hround).1⟩

theorem traceLoad_accepted (hcheck : checkElfHdr data = true) :
    traceLoad fuel data allocs st = (do
      emit (.read 0 64)
      let st ← (List.range (phNum data)).foldlM (traceHeader fuel data allocs) st
      pure (st, 0, some (entry data))) := by
  rw [traceLoad, hcheck]
  rfl

theorem traceLoad_refused (hcheck : checkElfHdr data = false) :
    traceLoad fuel data allocs st = ⟨[.read 0 64], some (st, 1, none)⟩ := by
  rw [traceLoad, hcheck]
  rfl

theorem mem_traceLoad (hcheck : checkElfHdr data = true) :
    e ∈ (traceLoad fuel data allocs st).events ↔ e = .read 0 64 ∨
      e ∈ ((List.range (phNum data)).foldlM (traceHeader fuel data allocs) st).events := by
  rw [traceLoad_accepted hcheck, emit_bind, mem_cons, mem_events_bind]
  simp

theorem elfLoad_accepted (hcheck : checkElfHdr data = true) :
    elfLoad data allocs st = ((List.range (phNum data)).foldlM (loadHeader data allocs) st).map
      fun st => (st, 0, some (entry data)) := by
  rw [elfLoad, hcheck]
  exact Option.map_eq_bind.symm

theorem elfLoad_of_result (h : (traceLoad fuel data allocs st).result = some r) :
    elfLoad data allocs st = some r := by
  cases hcheck : checkElfHdr data with
  | false =>
    rw [traceLoad_refused hcheck] at h
    rw [elfLoad, hcheck]
    exact h
  | true =>
    rw [traceLoad_accepted hcheck, emit_bind, result_bind] at h
    obtain ⟨st', hrun, hr⟩ := Option.bind_eq_some_iff.mp h
    have hreaches : _ = some st' := reaches_of_result hrun
    rw [elfLoad_accepted hcheck, hreaches]
    exact hr

theorem traceLoad_of_result (hcheck : checkElfHdr data = true)
    (h : (traceLoad fuel data allocs st).result = some r) :
    (traceLoad fuel data allocs st).events =
      .read 0 64 :: (List.range (phNum data)).flatMap (headerAccesses data) := by
  rw [traceLoad_accepted hcheck, emit_bind] at h ⊢
  rw [result_bind] at h
  obtain ⟨st', hrun, -⟩ := Option.bind_eq_some_iff.mp h
  have hevents := events_foldlM (g := headerAccesses data)
    (fun _ _ _ h => (traceHeader_of_result h).2) hrun
  rw [events_bind hrun, hevents]
  exact congrArg _ (append_nil _)

/-! ## How many pages are mapped -/

def Phdr.mappedPages (p : Phdr) : List ℕ :=
  (List.range (segmentSize p.memSz / 4096)).map fun k => u64 (p.vaddr + k * 4096)

theorem loads_eq_flatMap (data : Mem) (is : List ℕ) :
    loads data is = is.flatMap fun i => loads data [i] := by
  induction is with
  | nil => rfl
  | cons i is ih =>
    rw [flatMap_cons, ← ih, loads, loads, loads, ← filter_append, ← map_append,
      singleton_append]

theorem mapsOf_flatMap {ι : Type} (is : List ι) (f : ι → List Access) :
    mapsOf (is.flatMap f) = is.flatMap fun i => mapsOf (f i) :=
  filterMap_flatMap

theorem mapsOf_headerAccesses (data : Mem) (i : ℕ) :
    mapsOf (headerAccesses data i) = (loads data [i]).flatMap Phdr.mappedPages := by
  have hpages : ∀ p : Phdr, mapsOf ((List.range (segmentSize p.memSz / 4096)).flatMap fun k =>
      p.accesses (k * 4096)) = p.mappedPages := by
    intro p
    rw [mapsOf_flatMap]
    exact flatMap_pure_eq_map _ _
  rw [headerAccesses]
  show mapsOf ((loads data [i]).flatMap _) = _
  rw [mapsOf_flatMap]
  exact congrArg (List.flatMap · _) (funext hpages)

theorem mapsOf_traceLoad (hcheck : checkElfHdr data = true)
    (h : (traceLoad fuel data allocs st).result = some r) :
    mapsOf (traceLoad fuel data allocs st).events = (segments data).flatMap Phdr.mappedPages := by
  rw [traceLoad_of_result hcheck h, segments, loads_eq_flatMap, flatMap_assoc]
  show mapsOf ((List.range (phNum data)).flatMap _) = _
  rw [mapsOf_flatMap]
  exact congrArg (List.flatMap · _) (funext (mapsOf_headerAccesses data))

theorem segmentSize_pages {memSz : ℕ} (h : memSz < 2 ^ 64) :
    segmentSize memSz / 4096 = if memSz ≤ 2 ^ 64 - 4096 then (memSz + 4095) / 4096 else 0 := by
  rw [segmentSize, u64]
  split
  · split <;> omega
  · split <;> omega

theorem segmentSize_lt_iff {memSz : ℕ} (h : memSz < 2 ^ 64) :
    segmentSize memSz < 2 ^ 32 ↔ memSz ≤ 2 ^ 32 - 4096 ∨ 2 ^ 64 - 4096 < memSz := by
  rw [segmentSize, u64]
  split
  · omega
  · omega

theorem memSz_lt {p : Phdr} (hp : p ∈ segments data) : p.memSz < 2 ^ 64 := by
  obtain ⟨i, -, rfl⟩ := mem_map.mp (mem_filter.mp hp).1
  exact load_lt data _ 8

theorem offset_lt (data : Mem) (i : ℕ) : (phdr data i).offset < 2 ^ 64 := load_lt data _ 8

theorem mem_segments (hi : i < phNum data) (htype : (phdr data i).type = ptLoad) :
    phdr data i ∈ segments data :=
  mem_filter.mpr ⟨mem_map_of_mem (mem_range.mpr hi), decide_eq_true htype⟩

theorem mappedPages_eq_iff (data : Mem) :
    (segments data).flatMap Phdr.mappedPages = (segments data).flatMap Phdr.wantedPages ↔
      ∀ p ∈ segments data, p.memSz ≤ 2 ^ 64 - 4096 := by
  constructor
  · intro heq p hp
    by_contra hwrap
    have hlength := congrArg List.length heq
    rw [length_flatMap, length_flatMap] at hlength
    refine absurd hlength (Nat.ne_of_lt (sum_lt_sum _ _ (fun q hq => ?_) ⟨p, hp, ?_⟩))
    · have hpages := segmentSize_pages (memSz_lt hq)
      rw [Phdr.mappedPages, Phdr.wantedPages, length_map, length_map, length_range,
        length_range, hpages]
      split
      · exact Nat.le_refl _
      · exact Nat.zero_le _
    · have hpages := segmentSize_pages (memSz_lt hp)
      rw [Phdr.mappedPages, Phdr.wantedPages, length_map, length_map, length_range,
        length_range, hpages, if_neg hwrap]
      omega
  · intro hsmall
    apply flatMap_congr
    intro p hp
    rw [Phdr.mappedPages, Phdr.wantedPages, segmentSize_pages (memSz_lt hp), if_pos (hsmall p hp)]

/-- The offset is an `int`, the region can be entered into the list, and its end has 32 bits. -/
def HeaderFits (data : Mem) (allocs : ℕ → Alloc) (st : Machine × PageMap) (i : ℕ) : Prop :=
  phEntSize data * i < 2 ^ 31 ∧ ((phdr data i).type = ptLoad →
    (segmentRegion data allocs st i).isSome ∧ (phdr data i).memSz ≤ 2 ^ 32 - 4096)

/-- Loading succeeds, and maps exactly the pages of the segments, in order. -/
def LoadsAll (data : Mem) (allocs : ℕ → Alloc) (st : Machine × PageMap) : Prop :=
  ∃ fuel st', (traceLoad fuel data allocs st).result = some (st', 0, some (entry data)) ∧
    mapsOf (traceLoad fuel data allocs st).events = (segments data).flatMap Phdr.wantedPages

theorem loadsAll_iff (hcheck : checkElfHdr data = true) :
    LoadsAll data allocs st ↔
      ∀ i < phNum data, ∀ st', Reaches data allocs st i st' → HeaderFits data allocs st' i := by
  constructor
  · rintro ⟨fuel, st', hresult, hmaps⟩ i hi st₁ hst₁
    rw [mapsOf_traceLoad hcheck hresult, mappedPages_eq_iff] at hmaps
    have hload := elfLoad_of_result hresult
    rw [elfLoad_accepted hcheck] at hload
    obtain ⟨st₂, hrun, -⟩ := Option.map_eq_some_iff.mp hload
    have hall : ((List.range (phNum data)).foldlM (loadHeader data allocs) st).isSome :=
      Option.isSome_iff_exists.mpr ⟨st₂, hrun⟩
    obtain ⟨hint, hsegment⟩ :=
      loadHeader_isSome.mp ((isSome_foldlM_range _ _).mp hall i hi st₁ hst₁)
    refine ⟨hint, fun htype => ⟨(hsegment htype).1, ?_⟩⟩
    have hp := mem_segments hi htype
    have hwrap := hmaps _ hp
    have hsize := (segmentSize_lt_iff (memSz_lt hp)).mp (hsegment htype).2
    omega
  · intro hfits
    have hall : ((List.range (phNum data)).foldlM (loadHeader data allocs) st).isSome := by
      refine (isSome_foldlM_range _ _).mpr fun i hi st₁ hst₁ => loadHeader_isSome.mpr ?_
      obtain ⟨hint, hsegment⟩ := hfits i hi st₁ hst₁
      refine ⟨hint, fun htype => ⟨(hsegment htype).1, ?_⟩⟩
      exact (segmentSize_lt_iff (memSz_lt (mem_segments hi htype))).mpr
        (Or.inl (hsegment htype).2)
    obtain ⟨st', hst'⟩ := Option.isSome_iff_exists.mp hall
    have hload : elfLoad data allocs st = some (st', 0, some (entry data)) := by
      rw [elfLoad_accepted hcheck, hst']
      rfl
    rw [← traceLoad_result (Nat.le_refl (2 ^ 20))] at hload
    refine ⟨2 ^ 20, st', hload, ?_⟩
    rw [mapsOf_traceLoad hcheck hload, mappedPages_eq_iff]
    intro p hp
    obtain ⟨hmem, htype⟩ := mem_filter.mp hp
    obtain ⟨i, hi, rfl⟩ := mem_map.mp hmem
    have hi := mem_range.mp hi
    obtain ⟨st₁, hst₁⟩ := exists_foldlM_range hall hi.le
    have hsmall := ((hfits i hi st₁ hst₁).2 (of_decide_eq_true htype)).2
    omega

/-! ## The stack -/

/-- The stack is set up, and exactly its pages are mapped, in order. -/
def StackMapped (st : Machine × PageMap) (back new stack : ℕ) : Prop :=
  ∃ fuel st', (traceStack fuel back new st).result = some (st', stack) ∧
    mapsOf (traceStack fuel back new st).events = stackPagesFrom stack

theorem traceStackPage_eq (i : ℕ) (st : Machine × PageMap) :
    traceStackPage i st = ⟨[.map i], some (mapNew i st)⟩ := rfl

theorem traceStack_eq (halloc : spaceAllocRegion 0x4000 st.2.regions back new =
      some (regions, stack)) :
    traceStack fuel back new st = (do
      let st ← wordLoop traceStackPage 4096 (u64 (stack + 0x4000)) fuel (u32 stack)
        (setRegions st regions)
      pure (st, stack)) := by
  rw [traceStack, halloc, lift_some_bind]

theorem traceStack_low (halloc : spaceAllocRegion 0x4000 st.2.regions back new =
      some (regions, stack)) (hlow : stack + 0x4000 < 2 ^ 32) (hfuel : 4 < fuel) :
    traceStack fuel back new st = ⟨(stackPagesFrom stack).map .map,
      some (loop (fun i => mapNew (u64 (stack + i * 4096))) 4 (setRegions st regions), stack)⟩ := by
  have hcounter : ∀ k ≤ 4, u32 (stack + k * 4096) = stack + k * 4096 := by
    intro k hk
    rw [u32_of_lt (by omega)]
  have hbound : u64 (stack + 0x4000) = stack + 4 * 4096 := u64_of_lt (by omega)
  have hn : ∀ k < 4, u32 (stack + k * 4096) < stack + 4 * 4096 := by
    intro k hk
    rw [hcounter k hk.le]
    omega
  have hend : stack + 4 * 4096 ≤ u32 (stack + 4 * 4096) := by
    rw [hcounter 4 (Nat.le_refl 4)]
  have hrun := wordLoop_ends traceStackPage_eq (setRegions st regions) hn hend hfuel
  rw [traceStack_eq halloc, hbound, hrun, bind_some, pure_eq, append_nil]
  have hevents : (List.range 4).flatMap (fun k => [Access.map (u32 (stack + k * 4096))]) =
      (stackPagesFrom stack).map .map := by
    rw [stackPagesFrom, map_map, ← flatMap_pure_eq_map]
    apply flatMap_congr
    intro k hk
    rw [hcounter k (mem_range.mp hk).le]
    rfl
  rw [hevents]
  refine congrArg (fun st => Traced.mk _ (some (st, stack))) (loop_congr (fun k hk => ?_) _)
  rw [hcounter k hk.le, u64_of_lt (by omega)]

theorem traceStack_high (halloc : spaceAllocRegion 0x4000 st.2.regions back new =
      some (regions, stack)) (hhigh : 2 ^ 32 ≤ u64 (stack + 0x4000)) :
    (traceStack fuel back new st).result = none := by
  have hrun := wordLoop_endless traceStackPage_eq 4096 stack fuel (setRegions st regions) hhigh
  rw [traceStack_eq halloc, hrun]
  rfl

/-- With a limit of five rounds the result is that of `firstStack`. -/
theorem traceStack_result (halloc : spaceAllocRegion 0x4000 st.2.regions back new =
      some (regions, stack)) (hword : stack < 2 ^ 64) (hfuel : 4 < fuel) :
    (traceStack fuel back new st).result = firstStack back new st := by
  rw [firstStack_eq halloc]
  by_cases hlow : stack + 0x4000 < 2 ^ 32
  · rw [stackPages_low hlow, traceStack_low halloc hlow hfuel]
    rfl
  · rw [stackPages, if_neg hlow]
    by_cases hwrap : 2 ^ 64 ≤ stack + 0x4000
    · -- the counter starts above the end
      have hend : u64 (stack + 0x4000) ≤ u32 (stack + 0 * 4096) := by
        rw [u64, u32]
        omega
      have hrun := wordLoop_ends traceStackPage_eq (setRegions st regions)
        (fun k hk => absurd hk (Nat.not_lt_zero k)) hend (Nat.zero_lt_of_lt hfuel)
      rw [if_pos hwrap, traceStack_eq halloc, hrun, bind_some, loop_zero]
      rw [Option.bind_some, loop_zero]
      rfl
    · rw [if_neg hwrap, traceStack_high halloc]
      · rfl
      · rw [u64_of_lt (by omega)]
        omega

theorem stackMapped_iff (halloc : spaceAllocRegion 0x4000 st.2.regions back new =
      some (regions, stack)) :
    StackMapped st back new stack ↔ stack + 0x4000 < 2 ^ 32 := by
  constructor
  · rintro ⟨fuel, st', hresult, hmaps⟩
    by_contra hhigh
    by_cases hword : stack < 2 ^ 32
    · rw [traceStack_high halloc (by rw [u64_of_lt (by omega)]; omega)] at hresult
      cases hresult
    · -- no counter is the address of the first page
      have hfirst : stack ∈ mapsOf (traceStack fuel back new st).events := by
        rw [hmaps]
        exact mem_map.mpr ⟨0, by decide, Nat.add_zero stack⟩
      obtain ⟨e, he, hstack⟩ := mem_filterMap.mp hfirst
      rw [traceStack_eq halloc, mem_events_bind] at he
      rcases he with he | ⟨_, -, he⟩
      · obtain ⟨j, _, hj, -, he⟩ := mem_wordLoop (P := (· < 2 ^ 32)) (fun _ _ => u32_lt _)
          (u32_lt stack) he
        rw [traceStackPage_eq, mem_singleton] at he
        subst he
        exact hword (Option.some.inj hstack ▸ hj)
      · exact absurd he not_mem_nil
  · intro hlow
    have hrun := traceStack_low halloc hlow (Nat.lt_succ_self 4)
    refine ⟨5, _, congrArg Traced.result hrun, ?_⟩
    rw [hrun, mapsOf, filterMap_map]
    exact filterMap_some

/-- Both loops come to their end with the right pages exactly where their counters of 32 bits and
the list of regions allow it. -/
theorem loading_maps_iff (allocs : ℕ → Alloc) (st : Machine × PageMap) (back new : ℕ)
    (hcheck : checkElfHdr data = true) :
    (LoadsAll data allocs st ↔
      ∀ i < phNum data, ∀ st', Reaches data allocs st i st' → HeaderFits data allocs st' i) ∧
    ∀ regions stack, spaceAllocRegion 0x4000 st.2.regions back new = some (regions, stack) →
      (StackMapped st back new stack ↔ stack + 0x4000 < 2 ^ 32) :=
  ⟨loadsAll_iff hcheck, fun _ _ halloc => stackMapped_iff halloc⟩

/-! ## The reads -/

theorem pages_inside {offset n : ℕ} (hsize : size < 2 ^ 64) (hoffset : offset < 2 ^ 64)
    (hreads : ∀ k < n, u64 (offset + k * 4096) + 4096 ≤ size) (hpos : 0 < n) :
    offset + n * 4096 ≤ size := by
  induction n with
  | zero => cases hpos
  | succ n ih =>
    have hlast := hreads n (Nat.lt_succ_self n)
    have hstart : offset + n * 4096 < 2 ^ 64 := by
      rcases Nat.eq_zero_or_pos n with rfl | hn
      · simpa using hoffset
      · exact Nat.lt_of_le_of_lt (ih (fun k hk => hreads k (Nat.lt_succ_of_lt hk)) hn) hsize
    rw [u64_of_lt hstart] at hlast
    omega

theorem read_mem_accesses (p : Phdr) (i : ℕ) :
    Access.read (u64 (p.offset + i)) 4096 ∈ p.accesses i := mem_cons_self

theorem read_mem_tracePages {bound : ℕ} (hdvd : 4096 ∣ bound) (hfuel : 2 ^ 20 ≤ fuel)
    (hk : k * 4096 < min bound (2 ^ 32)) :
    Access.read (u64 (p.offset + k * 4096)) 4096 ∈
      (wordLoop (tracePage data p tmp) 4096 bound fuel 0 st).events := by
  by_cases hlt : bound < 2 ^ 32
  · rw [tracePages_ends hdvd hlt hfuel]
    exact mem_flatMap.mpr ⟨k, mem_range.mpr (by omega), read_mem_accesses p _⟩
  · rw [tracePages_endless (Nat.le_of_not_lt hlt)]
    refine mem_flatMap.mpr ⟨k, mem_range.mpr (by omega), ?_⟩
    rw [Nat.zero_add, u32_of_lt (by omega)]
    exact read_mem_accesses p _

theorem tracePages_inside {bound : ℕ} (hsize : size < 2 ^ 64) (hdvd : 4096 ∣ bound)
    (hinside : bound ≠ 0 → p.offset + min bound (2 ^ 32) ≤ size)
    (he : e ∈ (wordLoop (tracePage data p tmp) 4096 bound fuel 0 st).events) : e.Inside size := by
  obtain ⟨j, st', ⟨hj, hword⟩, hlt, he⟩ :=
    mem_wordLoop (P := fun j => 4096 ∣ j ∧ j < 2 ^ 32) (fun i hi => ⟨by rw [u32]; omega, u32_lt _⟩)
      ⟨Nat.dvd_zero 4096, by decide⟩ he
  have hend := hinside (by omega)
  rw [tracePage_eq] at he
  rcases mem_cons.mp he with rfl | he
  · show u64 (p.offset + j) + 4096 ≤ size
    rw [u64_of_lt (by omega)]
    omega
  · rw [mem_singleton.mp he]
    trivial

/-- The header and the segment, up to the limit of its counter, lie inside the file. -/
def HeaderInside (data : Mem) (allocs : ℕ → Alloc) (size : ℕ) (st : Machine × PageMap) (i : ℕ) :
    Prop :=
  phEntSize data * i < 2 ^ 31 → u64 (phOff data + phEntSize data * i) + 56 ≤ size ∧
    ((phdr data i).type = ptLoad → (segmentRegion data allocs st i).isSome →
      segmentSize (phdr data i).memSz ≠ 0 →
        (phdr data i).offset + min (segmentSize (phdr data i).memSz) (2 ^ 32) ≤ size)

theorem mem_traceHeader :
    e ∈ (traceHeader fuel data allocs st i).events ↔ phEntSize data * i < 2 ^ 31 ∧
      (e = .read (u64 (phOff data + phEntSize data * i)) 56 ∨
        (phdr data i).type = ptLoad ∧ ∃ regions, segmentRegion data allocs st i = some regions ∧
          e ∈ (wordLoop (tracePage data (phdr data i) (allocs i).tmp) 4096
            (segmentSize (phdr data i).memSz) fuel 0 (setRegions st regions)).events) := by
  rw [traceHeader]
  by_cases hint : phEntSize data * i < 2 ^ 31
  · rw [if_pos hint, emit_bind, mem_cons]
    simp only [hint, true_and]
    refine or_congr_right ?_
    by_cases htype : (phdr data i).type = ptLoad
    · simp only [htype, true_and]
      cases hregion : segmentRegion data allocs st i with
      | none => simp
      | some regions => simp
    · simp [htype]
  · rw [if_neg hint]
    exact iff_of_false not_mem_nil fun h => hint h.1

theorem headerInside_of_reads (hsize : size < 2 ^ 64)
    (h : ∀ e ∈ (traceHeader (2 ^ 20) data allocs st i).events, e.Inside size) :
    HeaderInside data allocs size st i := by
  intro hint
  refine ⟨h _ (mem_traceHeader.mpr ⟨hint, Or.inl rfl⟩), fun htype hregion hpos => ?_⟩
  obtain ⟨regions, hregions⟩ := Option.isSome_iff_exists.mp hregion
  have hdvd := segmentSize_dvd (phdr data i).memSz
  have hreads : ∀ k < min (segmentSize (phdr data i).memSz) (2 ^ 32) / 4096,
      u64 ((phdr data i).offset + k * 4096) + 4096 ≤ size := by
    intro k hk
    refine h (.read _ _) (mem_traceHeader.mpr ⟨hint, Or.inr ⟨htype, regions, hregions, ?_⟩⟩)
    exact read_mem_tracePages hdvd (Nat.le_refl _) (by omega)
  have hend := pages_inside hsize (offset_lt data i) hreads (by omega)
  omega

theorem reads_of_headerInside (hsize : size < 2 ^ 64) (h : HeaderInside data allocs size st i)
    (he : e ∈ (traceHeader fuel data allocs st i).events) : e.Inside size := by
  obtain ⟨hint, he⟩ := mem_traceHeader.mp he
  obtain ⟨hheader, hsegment⟩ := h hint
  rcases he with rfl | ⟨htype, regions, hregions, he⟩
  · exact hheader
  · refine tracePages_inside hsize (segmentSize_dvd _) (hsegment htype ?_) he
    rw [hregions]
    rfl

/-- Every read of `elf_load` lies inside the file if and only if the header, the program headers
and the segments do, each segment up to a whole number of pages. -/
theorem elfLoad_reads_iff (allocs : ℕ → Alloc) (st : Machine × PageMap) (hsize : size < 2 ^ 64) :
    (∀ fuel, ∀ e ∈ (traceLoad fuel data allocs st).events, e.Inside size) ↔
      64 ≤ size ∧ (checkElfHdr data = true → ∀ i < phNum data, ∀ st',
        Reaches data allocs st i st' → HeaderInside data allocs size st' i) := by
  cases hcheck : checkElfHdr data with
  | false =>
    simp only [traceLoad_refused hcheck, mem_singleton, forall_eq, forall_const,
      Bool.false_eq_true, false_implies, and_true]
    exact Iff.of_eq (congrArg (· ≤ size) (Nat.zero_add 64))
  | true =>
    simp only [mem_traceLoad hcheck, forall_eq_or_imp, forall_events_range]
    have hreached : (fun st i => (traceHeader (2 ^ 20) data allocs st i).result) =
        loadHeader data allocs := by
      funext st i
      exact traceHeader_result (Nat.le_refl _) st i
    constructor
    · intro h
      obtain ⟨hheader, hrounds⟩ := h (2 ^ 20)
      rw [hreached] at hrounds
      exact ⟨hheader, fun _ i hi st' hst' => headerInside_of_reads hsize (hrounds i hi st' hst')⟩
    · rintro ⟨hheader, hinside⟩ fuel
      refine ⟨hheader, fun i hi st' hst' e he => ?_⟩
      rw [← result_foldlM] at hst'
      exact reads_of_headerInside hsize (hinside trivial i hi st' (reaches_of_result hst')) he

/-! ## Two files, and two spaces -/

theorem segmentRegion_new (hphdr : phdr data 0 = p) (s : Machine) :
    segmentRegion data loaderAllocs (pageMkMap s) 0 =
      some (listPushBack listCreate ⟨p.vaddr, u64 (p.vaddr + segmentSize p.memSz)⟩ 1) := by
  rw [segmentRegion, hphdr, pageMkMap_regions, spaceAllocRegionAt,
    holds_listCreate.listValues_eq (by decide)]
  rfl

theorem loading_maps_iff_tiny :
    LoadsAll (tinyElf 1) loaderAllocs (pageMkMap loaderStart) ∧
      StackMapped (pageMkMap loaderStart) 1 2 4096 := by
  obtain ⟨hload, hstack⟩ :=
    loading_maps_iff loaderAllocs (pageMkMap loaderStart) 1 2 tiny_one.checks
  have halloc : spaceAllocRegion 0x4000 (pageMkMap loaderStart).2.regions 1 2 =
      some (listPushBack listCreate ⟨4096, 0x5000⟩ 1, 4096) := by
    rw [pageMkMap_regions]
    exact spaceAllocRegion_create 1 2 (by decide)
  refine ⟨hload.mpr fun i hi st' hst' => ?_, (hstack _ _ halloc).mpr (by decide)⟩
  · rw [tiny_one.num, Nat.lt_one_iff] at hi
    subst hi
    obtain rfl := Option.some.inj hst'
    refine ⟨by simp, fun _ => ⟨?_, ?_⟩⟩
    · rw [segmentRegion_new tiny_one.phdr_eq]
      rfl
    · rw [tiny_one.phdr_eq]
      decide

def bigElf : Mem := Function.update (tinyElf 0) 108 1

def lowRegion : Region := ⟨0x1000, 0xfffff000⟩

/-- The segment of 4 GiB is loaded without end. Behind a segment that
is loaded, the stack crosses the limit of 4 GiB and is mapped without end. -/
theorem loading_endless :
    checkElfHdr bigElf = true ∧ segments bigElf = [tinyPhdr (2 ^ 32)] ∧
      (∀ fuel, (traceLoad fuel bigElf loaderAllocs (pageMkMap loaderStart)).result = none) ∧
      ∃ regions regions', spaceAllocRegionAt 0x1000 0xffffe000 listCreate 1 2 = some regions ∧
        spaceAllocRegion 0x4000 regions 3 4 = some (regions', 0xfffff000) ∧
        ∀ fuel, (traceStack fuel 3 4 (setRegions (pageMkMap loaderStart) regions)).result =
          none := by
  have hcheck : checkElfHdr bigElf = true := by decide +kernel
  have hnum : phNum bigElf = 1 := by decide +kernel
  have hphdr : phdr bigElf 0 = tinyPhdr (2 ^ 32) := by decide +kernel
  have hregion : spaceAllocRegionAt 0x1000 0xffffe000 listCreate 1 2 =
      some (listPushBack listCreate lowRegion 1) := by
    rw [spaceAllocRegionAt, holds_listCreate.listValues_eq (by decide)]
    rfl
  have hholds : Holds (listPushBack listCreate lowRegion 1) [1] [lowRegion] :=
    holds_listCreate.listPushBack Nat.one_ne_zero (by simp)
  obtain ⟨regions', halloc⟩ : ∃ regions', spaceAllocRegion 0x4000
      (listPushBack listCreate lowRegion 1) 3 4 = some (regions', 0xfffff000) := by
    rw [spaceAllocRegion, hholds.listValues_eq (by decide)]
    exact ⟨_, rfl⟩
  refine ⟨hcheck, segments_single hnum hphdr rfl, fun fuel => ?_, _, regions', hregion, halloc,
    fun fuel => ?_⟩
  · rw [Option.eq_none_iff_forall_ne_some]
    intro r hresult
    have hload := elfLoad_of_result hresult
    rw [elfLoad_accepted hcheck, hnum, range_one] at hload
    obtain ⟨st', hrun, -⟩ := Option.map_eq_some_iff.mp hload
    obtain ⟨st₁, hheader, -⟩ := Option.bind_eq_some_iff.mp hrun
    have hsize := (loadHeader_isSome.mp (Option.isSome_iff_exists.mpr ⟨st₁, hheader⟩)).2
    rw [hphdr] at hsize
    exact absurd (hsize rfl).2 (by decide)
  · exact traceStack_high halloc (by decide)

/-- The file with zeros up to the end of its page. -/
theorem elfLoad_reads_iff_padded :
    checkElfHdr (tinyElf 1) = true ∧
      ∀ fuel, ∀ e ∈ (traceLoad fuel (tinyElf 1) loaderAllocs (pageMkMap loaderStart)).events,
        e.Inside 4096 := by
  refine ⟨tiny_one.checks, (elfLoad_reads_iff loaderAllocs (pageMkMap loaderStart)
    (by decide)).mpr ⟨by decide, fun _ i hi st' _ _ => ?_⟩⟩
  rw [tiny_one.num, Nat.lt_one_iff] at hi
  subst hi
  rw [tiny_one.phdr_eq, tiny_one.off, Nat.mul_zero]
  exact ⟨by decide, fun _ _ _ => by decide⟩

/-- A file of 120 bytes with a segment of one byte: `elf_load` reads a page. -/
theorem elfLoad_reads_behind :
    checkElfHdr (tinyElf 1) = true ∧ segments (tinyElf 1) = [tinyPhdr 1] ∧
      .read 0 4096 ∈
        (traceLoad (2 ^ 20) (tinyElf 1) loaderAllocs (pageMkMap loaderStart)).events ∧
      ¬(Access.read 0 4096).Inside 120 := by
  refine ⟨tiny_one.checks, tiny_one.segments_eq, ?_, Nat.not_le.mpr (by decide)⟩
  rw [mem_traceLoad tiny_one.checks, tiny_one.num, range_one, foldlM_cons,
    mem_events_bind, mem_traceHeader, tiny_one.phdr_eq]
  refine Or.inr (Or.inl ⟨by simp, Or.inr ⟨rfl, _, segmentRegion_new tiny_one.phdr_eq _, ?_⟩⟩)
  exact read_mem_tracePages (segmentSize_dvd 1) (Nat.le_refl _) (k := 0) (by decide)

end KernelOld.Elf
