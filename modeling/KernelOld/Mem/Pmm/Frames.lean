import Mathlib.Data.Set.Insert
import Mathlib.Order.Lattice.Nat
import KernelOld.Mem.Pmm.Defs

/-!
# The set of used frames

The bitmap of the physical memory manager represents a set of frame numbers. Each
operation is described once by the code (`Op.exec`) and once by what it does to
that set (`Op.spec`); the two agree along every sequence of operations.
-/

namespace KernelOld.Pmm
open ByteBits MachineWord

variable {s : Bitmap} {i j addr cnt f : ℕ} {v : Bool} {U : Set ℕ}

def usedFrames (s : Bitmap) : Set ℕ := {i | bitmapGet s i = true}

variable {op : Bitmap → ℕ → Bitmap}

theorem mem_usedFrames : i ∈ usedFrames s ↔ bitmapGet s i = true := Iff.rfl

theorem bitmapSet_mapbuffer (s : Bitmap) (i : ℕ) (v : Bool) :
    (bitmapSet s i v).mapbuffer = Function.update s.mapbuffer (i / 8)
      (if v then s.mapbuffer (i / 8) &&& ~~~mask (i % 8) ||| mask (i % 8)
        else s.mapbuffer (i / 8) &&& ~~~mask (i % 8)) := by
  cases v <;> simp [bitmapSet]

theorem bitmapGet_bitmapSet (s : Bitmap) (i j : ℕ) (v : Bool) :
    bitmapGet (bitmapSet s i v) j = if j = i then v else bitmapGet s j := by
  have hi : i % 8 < 8 := Nat.mod_lt _ (by decide)
  have hj : j % 8 < 8 := Nat.mod_lt _ (by decide)
  show bit ((bitmapSet s i v).mapbuffer (j / 8)) (j % 8) =
    if j = i then v else bit (s.mapbuffer (j / 8)) (j % 8)
  rw [bitmapSet_mapbuffer]
  by_cases hbyte : j / 8 = i / 8
  · have hij : j % 8 = i % 8 ↔ j = i := by omega
    rw [hbyte, Function.update_self]
    cases v with
    | true =>
      rw [if_pos rfl, bit_set _ hi hj, bit_clear _ hi hj]
      by_cases h : j = i <;> simp [hij, h]
    | false =>
      rw [if_neg Bool.false_ne_true, bit_clear _ hi hj]
      by_cases h : j = i <;> simp [hij, h]
  · have hij : j ≠ i := fun h => hbyte (by rw [h])
    rw [Function.update_of_ne hbyte, if_neg hij]

theorem usedFrames_set_true (s : Bitmap) (i : ℕ) :
    usedFrames (bitmapSet s i true) = insert i (usedFrames s) := by
  ext j
  rw [mem_usedFrames, bitmapGet_bitmapSet, Set.mem_insert_iff, mem_usedFrames]
  by_cases h : j = i <;> simp [h]

theorem usedFrames_set_false (s : Bitmap) (i : ℕ) :
    usedFrames (bitmapSet s i false) = usedFrames s \ {i} := by
  ext j
  rw [mem_usedFrames, bitmapGet_bitmapSet, Set.mem_sdiff, Set.mem_singleton_iff, mem_usedFrames]
  by_cases h : j = i <;> simp [h]

def frames (addr cnt : ℕ) : Set ℕ := {f | addr / pageSize ≤ f ∧ f < addr / pageSize + cnt}

def Covers (addr cnt : ℕ) : Prop := ∀ i < cnt, addr + i * pageSize < capacity * pageSize

theorem frame_of_page (hc : addr + cnt * pageSize < capacity * pageSize) :
    u64 (addr + cnt * pageSize) / pageSize = addr / pageSize + cnt := by
  rw [u64_of_lt (lt_trans hc (by decide)), Nat.add_mul_div_right _ _ (by decide)]

theorem frames_succ (addr cnt : ℕ) :
    frames addr (cnt + 1) = insert (addr / pageSize + cnt) (frames addr cnt) := by
  ext f
  simp only [frames, Set.mem_ofPred_eq, Set.mem_insert_iff]
  omega

theorem usedFrames_mark (hop : ∀ s a, usedFrames (op s a) = insert (a / pageSize) (usedFrames s))
    (hc : Covers addr cnt) :
    usedFrames (forEachPage op s addr cnt) = usedFrames s ∪ frames addr cnt := by
  induction cnt with
  | zero =>
    ext f
    simp [forEachPage, frames]
  | succ cnt ih =>
    have hlast := hc cnt (Nat.lt_succ_self cnt)
    rw [forEachPage, hop, frame_of_page hlast, ih fun i hi => hc i (Nat.lt_succ_of_lt hi),
      frames_succ, Set.union_insert]

theorem usedFrames_clear (hop : ∀ s a, usedFrames (op s a) = usedFrames s \ {a / pageSize})
    (hc : Covers addr cnt) :
    usedFrames (forEachPage op s addr cnt) = usedFrames s \ frames addr cnt := by
  induction cnt with
  | zero =>
    ext f
    simp [forEachPage, frames]
  | succ cnt ih =>
    have hlast := hc cnt (Nat.lt_succ_self cnt)
    rw [forEachPage, hop, frame_of_page hlast, ih fun i hi => hc i (Nat.lt_succ_of_lt hi),
      frames_succ]
    ext f
    simp only [Set.mem_sdiff, Set.mem_insert_iff, Set.mem_singleton_iff]
    tauto

theorem usedFrames_pmmReserveM (hc : Covers addr cnt) :
    usedFrames (pmmReserveM s addr cnt) = usedFrames s ∪ frames addr cnt :=
  usedFrames_mark (fun s _ => usedFrames_set_true s _) hc

theorem usedFrames_pmmReleaseM (hc : Covers addr cnt) :
    usedFrames (pmmReleaseM s addr cnt) = usedFrames s \ frames addr cnt :=
  usedFrames_clear (fun s _ => usedFrames_set_false s _) hc

theorem forEachPage_bitmapsize (hop : ∀ s a, (op s a).bitmapsize = s.bitmapsize) :
    (forEachPage op s addr cnt).bitmapsize = s.bitmapsize := by
  induction cnt with
  | zero => rfl
  | succ cnt ih => rw [forEachPage, hop, ih]

theorem pmmReserveM_bitmapsize : (pmmReserveM s addr cnt).bitmapsize = s.bitmapsize :=
  forEachPage_bitmapsize fun _ _ => rfl

theorem pmmReleaseM_bitmapsize : (pmmReleaseM s addr cnt).bitmapsize = s.bitmapsize :=
  forEachPage_bitmapsize fun _ _ => rfl

/-! ## Requests -/

def freeFrames (U : Set ℕ) : Set ℕ := {f | f < capacity ∧ f ∉ U}

theorem pmmRequestFrom_full {left : ℕ} (hfull : ∀ k, i ≤ k → k < i + left → bitmapGet s k = true) :
    pmmRequestFrom s left i = (s, 0) := by
  induction left generalizing i with
  | zero => rfl
  | succ left ih =>
    rw [pmmRequestFrom, if_pos (hfull i le_rfl (by omega))]
    exact ih fun k hlo hhi => hfull k (by omega) (by omega)

theorem pmmRequestFrom_free {left : ℕ} (hlo : i ≤ f) (hhi : f < i + left)
    (hused : ∀ k, i ≤ k → k < f → bitmapGet s k = true) (hfree : bitmapGet s f = false) :
    pmmRequestFrom s left i = (pmmAlloc s (u64 (f * pageSize)), u64 (f * pageSize)) := by
  induction left generalizing i with
  | zero => omega
  | succ left ih =>
    by_cases hif : i = f
    · subst hif
      rw [pmmRequestFrom, hfree, if_neg Bool.false_ne_true]
    · rw [pmmRequestFrom, if_pos (hused i le_rfl (by omega))]
      exact ih (by omega) (by omega) fun k hk hkf => hused k (by omega) hkf

theorem request_bound (hsize : s.bitmapsize = bufferSize) : u64 (s.bitmapsize * 8) = capacity := by
  rw [hsize]
  rfl

theorem pmmRequest_full (hsize : s.bitmapsize = bufferSize)
    (hfull : ∀ k < capacity, bitmapGet s k = true) : pmmRequest s = (s, 0) := by
  rw [pmmRequest, request_bound hsize]
  exact pmmRequestFrom_full fun k _ hk => hfull k (by omega)

theorem pmmRequest_least (hsize : s.bitmapsize = bufferSize) (hf : f < capacity)
    (hfree : bitmapGet s f = false) (hused : ∀ k < f, bitmapGet s k = true) :
    pmmRequest s = (bitmapSet s f true, f * pageSize) := by
  have hword : u64 (f * pageSize) = f * pageSize :=
    u64_of_lt (lt_trans (Nat.mul_lt_mul_of_pos_right hf (by decide)) (by decide))
  rw [pmmRequest, request_bound hsize, pmmRequestFrom_free (Nat.zero_le f) (by omega)
    (fun k _ hk => hused k hk) hfree, hword, pmmAlloc, Nat.mul_div_cancel _ (by decide)]

/-! ## Operations -/

inductive Op where
  | alloc (addr : ℕ)
  | free (addr : ℕ)
  | reserve (addr : ℕ)
  | release (addr : ℕ)
  | allocM (addr cnt : ℕ)
  | freeM (addr cnt : ℕ)
  | reserveM (addr cnt : ℕ)
  | releaseM (addr cnt : ℕ)
  | request

variable {ops : List Op}

def Op.exec : Op → Bitmap → Bitmap × Option ℕ
  | alloc addr, s => (pmmAlloc s addr, none)
  | free addr, s => (pmmFree s addr, none)
  | reserve addr, s => (pmmReserve s addr, none)
  | release addr, s => (pmmRelease s addr, none)
  | allocM addr cnt, s => (pmmAllocM s addr cnt, none)
  | freeM addr cnt, s => (pmmFreeM s addr cnt, none)
  | reserveM addr cnt, s => (pmmReserveM s addr cnt, none)
  | releaseM addr cnt, s => (pmmReleaseM s addr cnt, none)
  | request, s => ((pmmRequest s).1, some (pmmRequest s).2)

/-- All frames that are named have a bit. -/
def Op.InRange : Op → Prop
  | alloc addr | free addr | reserve addr | release addr => addr < capacity * pageSize
  | allocM addr cnt | freeM addr cnt | reserveM addr cnt | releaseM addr cnt => Covers addr cnt
  | request => True

open Classical in
noncomputable def Op.spec : Op → Set ℕ → Set ℕ × Option ℕ
  | alloc addr, U | reserve addr, U => (insert (addr / pageSize) U, none)
  | free addr, U | release addr, U => (U \ {addr / pageSize}, none)
  | allocM addr cnt, U | reserveM addr cnt, U => (U ∪ frames addr cnt, none)
  | freeM addr cnt, U | releaseM addr cnt, U => (U \ frames addr cnt, none)
  | request, U =>
    if (freeFrames U).Nonempty then
      (insert (sInf (freeFrames U)) U, some (sInf (freeFrames U) * pageSize))
    else (U, some 0)

/-- Frame `f` is among those given back. -/
def Op.Frees (f : ℕ) : Op → Prop
  | free addr | release addr => addr / pageSize = f
  | freeM addr cnt | releaseM addr cnt => f ∈ frames addr cnt
  | _ => False

theorem mem_freeFrames : f ∈ freeFrames (usedFrames s) ↔ f < capacity ∧ bitmapGet s f = false := by
  simp [freeFrames, usedFrames]

theorem pmmRequest_eq (hsize : s.bitmapsize = bufferSize) :
    (∃ f ∈ freeFrames (usedFrames s), f = sInf (freeFrames (usedFrames s)) ∧
      pmmRequest s = (bitmapSet s f true, f * pageSize)) ∨
    freeFrames (usedFrames s) = ∅ ∧ pmmRequest s = (s, 0) := by
  by_cases hne : (freeFrames (usedFrames s)).Nonempty
  · have hmem := Nat.sInf_mem hne
    refine Or.inl ⟨_, hmem, rfl, ?_⟩
    obtain ⟨hlt, hfree⟩ := mem_freeFrames.mp hmem
    refine pmmRequest_least hsize hlt hfree fun k hk => ?_
    by_contra hk'
    have hkfree : k ∈ freeFrames (usedFrames s) := mem_freeFrames.mpr ⟨by omega, by simpa using hk'⟩
    exact Nat.notMem_of_lt_sInf hk hkfree
  · rw [Set.not_nonempty_iff_eq_empty] at hne
    refine Or.inr ⟨hne, pmmRequest_full hsize fun k hk => ?_⟩
    by_contra hk'
    have hkfree : k ∈ freeFrames (usedFrames s) := mem_freeFrames.mpr ⟨hk, by simpa using hk'⟩
    simp [hne] at hkfree

theorem Op.exec_bitmapsize (o : Op) (hsize : s.bitmapsize = bufferSize) :
    (o.exec s).1.bitmapsize = bufferSize := by
  cases o with
  | alloc | free | reserve | release => exact hsize
  | allocM | freeM | reserveM | releaseM =>
    refine (forEachPage_bitmapsize ?_).trans hsize
    exact fun _ _ => rfl
  | request =>
    rcases pmmRequest_eq hsize with ⟨f, -, -, heq⟩ | ⟨-, heq⟩
    · rw [Op.exec, heq]
      exact hsize
    · rw [Op.exec, heq]
      exact hsize

theorem Op.exec_refines {o : Op} (ho : o.InRange) (hsize : s.bitmapsize = bufferSize) :
    (usedFrames (o.exec s).1, (o.exec s).2) = o.spec (usedFrames s) := by
  cases o with
  | alloc | reserve => exact congrArg (·, none) (usedFrames_set_true s _)
  | free | release => exact congrArg (·, none) (usedFrames_set_false s _)
  | allocM | reserveM =>
    exact congrArg (·, none) (usedFrames_mark (fun s a => usedFrames_set_true s _) ho)
  | freeM | releaseM =>
    exact congrArg (·, none) (usedFrames_clear (fun s a => usedFrames_set_false s _) ho)
  | request =>
    rcases pmmRequest_eq hsize with ⟨f, hf, hmin, heq⟩ | ⟨hnone, heq⟩
    · rw [Op.exec, Op.spec, if_pos ⟨f, hf⟩, heq, usedFrames_set_true, ← hmin]
    · rw [Op.exec, Op.spec, if_neg (by simp [hnone]), heq]

/-! ## Runs -/

def execAll : List Op → Bitmap → Bitmap × List (Option ℕ)
  | [], s => (s, [])
  | o :: ops, s =>
    let (s, res) := o.exec s
    let (s, ress) := execAll ops s
    (s, res :: ress)

noncomputable def specAll : List Op → Set ℕ → Set ℕ × List (Option ℕ)
  | [], U => (U, [])
  | o :: ops, U =>
    let (U, res) := o.spec U
    let (U, ress) := specAll ops U
    (U, res :: ress)

theorem execAll_refines (hops : ∀ o ∈ ops, o.InRange) (hsize : s.bitmapsize = bufferSize) :
    (execAll ops s).1.bitmapsize = bufferSize ∧
      (usedFrames (execAll ops s).1, (execAll ops s).2) = specAll ops (usedFrames s) := by
  induction ops generalizing s with
  | nil => exact ⟨hsize, rfl⟩
  | cons o ops ih =>
    have hstep := Op.exec_refines (hops o (by simp)) hsize
    obtain ⟨hsize', hrest⟩ :=
      ih (fun o ho => hops o (by simp [ho])) (o.exec_bitmapsize hsize)
    refine ⟨hsize', ?_⟩
    simp only [execAll, specAll, ← hstep, ← hrest]

theorem Op.mem_spec_of_not_frees {o : Op} (ho : ¬o.Frees f) (hf : f ∈ U) : f ∈ (o.spec U).1 := by
  cases o with
  | alloc | reserve => exact Set.mem_insert_of_mem _ hf
  | free | release => exact ⟨hf, fun h => ho (Set.mem_singleton_iff.mp h).symm⟩
  | allocM | reserveM => exact Set.mem_union_left _ hf
  | freeM | releaseM => exact ⟨hf, ho⟩
  | request =>
    rw [Op.spec]
    split
    · exact Set.mem_insert_of_mem _ hf
    · exact hf

theorem mem_specAll_of_not_frees (hops : ∀ o ∈ ops, ¬o.Frees f) (hf : f ∈ U) :
    f ∈ (specAll ops U).1 := by
  induction ops generalizing U with
  | nil => exact hf
  | cons o ops ih =>
    exact ih (fun o ho => hops o (by simp [ho])) (Op.mem_spec_of_not_frees (hops o (by simp)) hf)

theorem pmmRequest_fresh {between : List Op} (hsize : s.bitmapsize = bufferSize)
    (hbetween : ∀ o ∈ between, o.InRange ∧ ¬o.Frees ((pmmRequest s).2 / pageSize))
    (hne : (pmmRequest s).2 ≠ 0) :
    (pmmRequest (execAll between (pmmRequest s).1).1).2 ≠ (pmmRequest s).2 := by
  rcases pmmRequest_eq hsize with ⟨f, -, -, heq⟩ | ⟨-, heq⟩
  · rw [heq] at hbetween hne ⊢
    simp only [Nat.mul_div_cancel f (show 0 < pageSize by decide)] at hbetween
    have hmem : f ∈ usedFrames (bitmapSet s f true) := by simp [usedFrames_set_true]
    obtain ⟨hsize', hrun⟩ := execAll_refines (s := bitmapSet s f true)
      (fun o ho => (hbetween o ho).1) hsize
    have hkept : f ∈ usedFrames (execAll between (bitmapSet s f true)).1 := by
      rw [(Prod.mk.inj hrun).1]
      exact mem_specAll_of_not_frees (fun o ho => (hbetween o ho).2) hmem
    rcases pmmRequest_eq hsize' with ⟨g, hg, -, heq'⟩ | ⟨-, heq'⟩
    · rw [heq']
      intro hgf
      obtain rfl : g = f := Nat.eq_of_mul_eq_mul_right (by decide) hgf
      exact hg.2 hkept
    · rw [heq']
      exact hne.symm
  · exact absurd (congrArg Prod.snd heq) hne

/-- The bitmap refines the set of used frames along every sequence of calls. A request returns the
least free frame and adds exactly that frame, or null when there is none. -/
theorem pmm_refines_frame_set {s : Bitmap} {ops : List Op} (hsize : s.bitmapsize = bufferSize)
    (hops : ∀ o ∈ ops, o.InRange) :
    let s' := (execAll ops s).1
    (∀ i, bitmapGet s' i = true ↔ i ∈ (specAll ops (usedFrames s)).1) ∧
    (execAll ops s).2 = (specAll ops (usedFrames s)).2 ∧
    (∀ f, IsLeast (freeFrames (usedFrames s')) f → (pmmRequest s').2 = f * pageSize ∧
      usedFrames (pmmRequest s').1 = insert f (usedFrames s')) ∧
    (freeFrames (usedFrames s') = ∅ → pmmRequest s' = (s', 0)) ∧
    ∀ between : List Op, (∀ o ∈ between, o.InRange ∧ ¬o.Frees ((pmmRequest s').2 / pageSize)) →
      (pmmRequest s').2 ≠ 0 →
        (pmmRequest (execAll between (pmmRequest s').1).1).2 ≠ (pmmRequest s').2 := by
  intro s'
  obtain ⟨hsize', hrun⟩ := execAll_refines hops hsize
  obtain ⟨hset, hres⟩ := Prod.mk.inj hrun
  refine ⟨fun i => ?_, hres, fun f hf => ?_, fun hnone => ?_, fun between hbetween hne => ?_⟩
  · rw [← hset]
    rfl
  · rcases pmmRequest_eq hsize' with ⟨g, -, hmin, heq⟩ | ⟨hnone, -⟩
    · have hfg : f = g := by rw [hmin, hf.csInf_eq]
      rw [heq, usedFrames_set_true, hfg]
      exact ⟨rfl, rfl⟩
    · exact absurd hf.1 (by simp [s', hnone])
  · rcases pmmRequest_eq hsize' with ⟨g, hg, -, -⟩ | ⟨-, heq⟩
    · exact absurd hg (by simp [s', hnone])
    · exact heq
  · exact pmmRequest_fresh hsize' hbetween hne

theorem pmm_refines_frame_set_reserved :
    let s : Bitmap := ⟨bufferSize, fun _ => 0⟩
    (execAll [.reserveM 0 2, .free 0, .request, .request] s).2 = [none, none, some 0, some 8192] ∧
      (specAll [.reserveM 0 2, .free 0, .request, .request] (usedFrames s)).2 =
        [none, none, some 0, some 8192] := by
  have hrun : (execAll [.reserveM 0 2, .free 0, .request, .request] ⟨bufferSize, fun _ => 0⟩).2 =
      [none, none, some 0, some 8192] := by
    decide +kernel
  have hops : ∀ o ∈ [Op.reserveM 0 2, .free 0, .request, .request], o.InRange := by
    simp [Op.InRange, Covers, capacity, bufferSize, pageSize]
    omega
  have href := pmm_refines_frame_set (s := ⟨bufferSize, fun _ => 0⟩) rfl hops
  exact ⟨hrun, href.2.1.symm.trans hrun⟩

end KernelOld.Pmm
