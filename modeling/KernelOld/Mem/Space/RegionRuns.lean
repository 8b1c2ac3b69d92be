import Mathlib.Logic.Relation
import Mathlib.Data.List.Perm.Basic
import KernelOld.Mem.Space.Regions

/-!
# Runs of region reservations

Sequences of `space_alloc_region` and `space_alloc_region_at` on one address space, with the
regions granted so far as a record of their own. `list_insert` does not count the node it
adds, so the list stays consistent exactly as long as every new region goes to the end.
-/

namespace KernelOld.Space
open LinkedList MachineWord Relation List

/-- The list of regions and those that calls have returned. -/
structure RegionLog where
  list : ListT Region
  granted : List Region

inductive RegionCall
  | alloc (size : ℕ)
  | allocAt (base size : ℕ)

def RegionCall.exec (s : RegionLog) (back new : ℕ) : RegionCall → Option RegionLog
  | .alloc size =>
    (spaceAllocRegion size s.list back new).map fun (list, base) =>
      ⟨list, if base = 0 then s.granted else ⟨base, base + size⟩ :: s.granted⟩
  | .allocAt base size =>
    (spaceAllocRegionAt base size s.list back new).map fun list =>
      ⟨list, ⟨base, base + size⟩ :: s.granted⟩

/-- A size that is not zero, no sum that wraps, and a fixed range that is still free. -/
def RegionCall.Legal (s : RegionLog) : RegionCall → Prop
  | .alloc size =>
    0 < size ∧ 4096 + size < 2 ^ 64 ∧ ∀ r ∈ s.granted, r.stop + size < 2 ^ 64
  | .allocAt base size =>
    0 < size ∧ base + size < 2 ^ 64 ∧ ∀ r ∈ s.granted, Region.Apart ⟨base, base + size⟩ r

/-- The range can only go behind the regions that were granted. -/
def RegionCall.Appends (s : RegionLog) : RegionCall → Prop
  | .alloc size =>
    ∀ b, 4096 ≤ b → (∀ r ∈ s.granted, Region.Apart ⟨b, b + size⟩ r) →
      ∀ r ∈ s.granted, r.base < b + size
  | .allocAt base size => ∀ r ∈ s.granted, r.base < base + size

instance (s : RegionLog) (call : RegionCall) : Decidable (call.Legal s) := by
  cases call
  · exact inferInstanceAs (Decidable (_ ∧ _ ∧ _))
  · exact inferInstanceAs (Decidable (_ ∧ _ ∧ _))

/-- The nodes are the granted regions, each once, in order, and the counter is their number. -/
def RegionLog.Consistent (s : RegionLog) : Prop :=
  ∃ (nodes : List ℕ) (rs : List Region),
    listForeach s.list = some nodes ∧ nodes.map s.list.val = rs.map some ∧
    rs.Pairwise (fun r r' => r.base < r'.base) ∧ rs.Pairwise Region.Apart ∧
    rs.Perm s.granted ∧ s.list.cnt = nodes.length

/-- A legal and admitted call, with nodes that are new. -/
inductive RegionStep (admits : RegionLog → RegionCall → Prop) : RegionLog → RegionLog → Prop
  | call {s s' : RegionLog} {c : RegionCall} {back new : ℕ} (hlegal : c.Legal s)
      (hadmits : admits s c)
      (hnew : ∀ nodes, listForeach s.list = some nodes → NewNodes nodes back new)
      (hexec : c.exec s back new = some s') : RegionStep admits s s'

def emptyLog : RegionLog := ⟨listCreate, []⟩

structure Tracks (s : RegionLog) (as : List ℕ) (rs : List Region) : Prop extends
    Counted s.list as rs where
  perm : rs.Perm s.granted

variable {s s' : RegionLog} {as : List ℕ} {rs rs₁ rs₂ : List Region} {c : Region}

theorem Ordered.bases (h : Ordered rs) : rs.Pairwise fun r r' => r.base < r'.base :=
  h.pairwise.imp_of_mem fun hr _ hle => Nat.lt_of_lt_of_le (h.proper _ hr) hle

theorem Ordered.apart (h : Ordered rs) : rs.Pairwise Region.Apart :=
  h.pairwise.imp Or.inl

theorem Tracks.consistent (h : Tracks s as rs) : s.Consistent :=
  ⟨as, rs, h.holds.listForeach_eq (h.small.trans (by decide)), h.holds.vals, h.ordered.bases,
    h.ordered.apart, h.perm, h.cnt_eq⟩

theorem tracks_emptyLog : Tracks emptyLog [] [] where
  holds := holds_listCreate
  ordered := ⟨by simp, .nil⟩
  cnt_eq := rfl
  small := by decide
  perm := .refl _

theorem Ordered.insert (h : Ordered (rs₁ ++ rs₂)) (hc : c.Proper)
    (hbelow : ∀ r ∈ rs₁, r.stop ≤ c.base) (habove : ∀ r ∈ rs₂, c.stop ≤ r.base) :
    Ordered (rs₁ ++ c :: rs₂) := by
  obtain ⟨h₁, h₂, h₁₂⟩ := pairwise_append.mp h.pairwise
  refine ⟨fun r hr => ?_, pairwise_append.mpr ⟨h₁, pairwise_cons.mpr ⟨habove, h₂⟩, ?_⟩⟩
  · rw [mem_append, mem_cons, or_left_comm, ← mem_append] at hr
    exact hr.elim (fun hrc => hrc ▸ hc) (h.proper r)
  · intro r hr r' hr'
    rcases mem_cons.mp hr' with rfl | hr'
    · exact hbelow r hr
    · exact h₁₂ r hr r' hr'

theorem Tracks.append {l' : ListT Region} (h : Tracks s as rs) (hc : c.Proper)
    (hplaced : Placed s.list l' rs [] c) (hroom : s.granted.length + 1 < 2 ^ 32) :
    ∃ as', Tracks ⟨l', c :: s.granted⟩ as' (rs ++ [c]) := by
  obtain ⟨as', hholds⟩ := hplaced.holds
  have hlen := h.holds.length_eq
  have hlen' := hholds.length_eq
  have hperm := h.perm.length_eq
  have hcnt := h.cnt_eq
  rw [length_append, length_singleton] at hlen'
  have hord : Ordered (rs ++ []) := by simpa using h.ordered
  refine ⟨as', ⟨⟨hholds, hord.insert hc hplaced.below hplaced.above, ?_, by omega⟩, ?_⟩⟩
  · rw [hplaced.cnt_eq, if_pos rfl, u32_of_lt (by omega)]
    omega
  · exact (perm_append_singleton c rs).trans (h.perm.cons c)

theorem Tracks.not_consistent {l' : ListT Region} {granted : List Region}
    (h : Tracks s as (rs₁ ++ rs₂)) (hplaced : Placed s.list l' rs₁ rs₂ c) (hne : rs₂ ≠ [])
    (hroom : s.granted.length + 1 < 2 ^ 32) : ¬RegionLog.Consistent ⟨l', granted⟩ := by
  rintro ⟨nodes, -, hnodes, -, -, -, -, hcnt⟩
  obtain ⟨as', hholds⟩ := hplaced.holds
  have hlen := h.holds.length_eq
  have hlen' := hholds.length_eq
  have hperm := h.perm.length_eq
  have hcnt₀ := h.cnt_eq
  rw [length_append] at hlen hperm
  rw [length_append, length_cons] at hlen'
  have hforeach := hholds.listForeach_eq (by omega)
  obtain rfl : as' = nodes := Option.some.inj (hforeach.symm.trans hnodes)
  have hsame := hplaced.cnt_eq
  rw [if_neg hne] at hsame
  simp only at hcnt
  omega

def RegionCall.Outcome (s : RegionLog) (call : RegionCall) (s' : RegionLog) : Prop :=
  (call.Appends s ∧ ∃ as rs, Tracks s' as rs) ∨ (¬call.Appends s ∧ ¬s'.Consistent)

theorem exec_allocAt {back new base size : ℕ} (h : Tracks s as rs) (hnew : NewNodes as back new)
    (hlegal : RegionCall.Legal s (.allocAt base size)) (hroom : s.granted.length + 1 < 2 ^ 32) :
    ∃ s', RegionCall.exec s back new (.allocAt base size) = some s' ∧
      RegionCall.Outcome s (.allocAt base size) s' := by
  obtain ⟨hsize, hwrap, hapart⟩ := hlegal
  obtain ⟨l', rs₁, rs₂, hl', rfl, hplaced⟩ := spaceAllocRegionAt_spec h.toCounted hnew hwrap
    fun r hr => hapart r (h.perm.mem_iff.mp hr)
  refine ⟨⟨l', ⟨base, base + size⟩ :: s.granted⟩, ?_, ?_⟩
  · show (spaceAllocRegionAt base size s.list back new).map _ = _
    rw [hl', Option.map_some]
  cases rs₂ with
  | nil =>
    rw [append_nil] at h
    obtain ⟨as', h'⟩ := h.append (Nat.lt_add_of_pos_right hsize) hplaced hroom
    refine Or.inl ⟨fun r hr => ?_, as', _, h'⟩
    have hr := h.perm.mem_iff.mpr hr
    calc r.base < r.stop := h.ordered.proper r hr
      _ ≤ base := hplaced.below r hr
      _ ≤ base + size := Nat.le_add_right ..
  | cons r rs₂ =>
    refine Or.inr ⟨fun hlow => ?_, h.not_consistent hplaced (by simp) hroom⟩
    exact Nat.not_lt.mpr (hplaced.above r (by simp)) (hlow r (h.perm.mem_iff.mp (by simp)))

theorem exec_alloc_spec {back new size : ℕ} (h : Tracks s as rs) (hnew : NewNodes as back new)
    (hlegal : RegionCall.Legal s (.alloc size)) :
    ∃ c rs₁ rs₂ s', RegionCall.exec s back new (.alloc size) = some s' ∧ rs = rs₁ ++ rs₂ ∧
      Candidate size rs₁ c ∧
      ((rs₂ = [] ∧ s' = s) ∨ ∃ l', s' = ⟨l', c :: s.granted⟩ ∧ Placed s.list l' rs₁ rs₂ c) := by
  obtain ⟨-, hwrap, hwraps⟩ := hlegal
  obtain ⟨c, rs₁, rs₂, rfl, hc, hres⟩ := spaceAllocRegion_spec h.toCounted hnew hwrap
    fun r hr => hwraps r (h.perm.mem_iff.mp hr)
  have hexec : RegionCall.exec s back new (.alloc size) =
      (spaceAllocRegion size s.list back new).map _ := rfl
  rcases hres with ⟨hend, -, hsame⟩ | ⟨l', hl', hplaced⟩
  · refine ⟨c, rs₁, rs₂, s, ?_, rfl, hc, Or.inl ⟨hend, rfl⟩⟩
    rw [hexec, hsame, Option.map_some]
    rfl
  · have hbase : c.base ≠ 0 := Nat.ne_of_gt (Nat.lt_of_lt_of_le (by decide) hc.low)
    refine ⟨c, rs₁, rs₂, _, ?_, rfl, hc, Or.inr ⟨l', rfl, hplaced⟩⟩
    rw [hexec, hl', Option.map_some]
    simp only [if_neg hbase, ← hc.stop_eq]

theorem exec_alloc {back new size : ℕ} (h : Tracks s as rs) (hnew : NewNodes as back new)
    (hlegal : RegionCall.Legal s (.alloc size)) (hroom : s.granted.length + 1 < 2 ^ 32) :
    ∃ s', RegionCall.exec s back new (.alloc size) = some s' ∧
      RegionCall.Outcome s (.alloc size) s' := by
  obtain ⟨c, rs₁, rs₂, s', hexec, rfl, hc, hres⟩ := exec_alloc_spec h hnew hlegal
  have hproper : c.Proper := by
    show c.base < c.stop
    rw [hc.stop_eq]
    exact Nat.lt_add_of_pos_right hlegal.1
  -- Past the last region the candidate shows that no lower gap is wide enough.
  have happends : rs₂ = [] → RegionCall.Appends s (.alloc size) := by
    rintro rfl b hb hfree r hr
    rw [append_nil] at h
    have hcb : c.base ≤ b := hc.least b hb fun x hx => hfree x (h.perm.mem_iff.mp hx)
    have hr := h.perm.mem_iff.mpr hr
    have hlt : r.base < r.stop := h.ordered.proper r hr
    have hle := hc.past r hr
    omega
  refine ⟨s', hexec, ?_⟩
  rcases hres with ⟨hend, rfl⟩ | ⟨l', rfl, hplaced⟩
  · exact Or.inl ⟨happends hend, _, _, h⟩
  cases rs₂ with
  | nil =>
    rw [append_nil] at h
    obtain ⟨as', h'⟩ := h.append hproper hplaced hroom
    exact Or.inl ⟨happends rfl, as', _, h'⟩
  | cons r rs₂ =>
    refine Or.inr ⟨fun hlow => ?_, h.not_consistent hplaced (by simp) hroom⟩
    have hfree : ∀ x ∈ s.granted, Region.Apart ⟨c.base, c.base + size⟩ x := by
      intro x hx
      rw [← hc.stop_eq]
      rcases mem_append.mp (h.perm.mem_iff.mpr hx) with hx | hx
      · exact Or.inr (hplaced.below x hx)
      · exact Or.inl (hplaced.above x hx)
    have hlt := hlow c.base hc.low hfree r (h.perm.mem_iff.mp (by simp))
    rw [← hc.stop_eq] at hlt
    exact Nat.not_lt.mpr (hplaced.above r (by simp)) hlt

theorem exec_outcome {back new : ℕ} {call : RegionCall} (h : Tracks s as rs)
    (hnew : NewNodes as back new) (hlegal : call.Legal s) (hroom : s.granted.length + 1 < 2 ^ 32) :
    ∃ s', call.exec s back new = some s' ∧ call.Outcome s s' := by
  cases call with
  | alloc size => exact exec_alloc h hnew hlegal hroom
  | allocAt base size => exact exec_allocAt h hnew hlegal hroom

/-- The region goes to the end of a list that can still be counted. -/
def AtEnd (s : RegionLog) (call : RegionCall) : Prop :=
  call.Appends s ∧ s.granted.length + 1 < 2 ^ 32

theorem Tracks.step (h : Tracks s as rs) (hstep : RegionStep AtEnd s s') :
    ∃ as' rs', Tracks s' as' rs' := by
  obtain ⟨hlegal, ⟨happends, hroom⟩, hnew, hexec⟩ := hstep
  have hforeach := h.holds.listForeach_eq (h.small.trans (by decide))
  obtain ⟨s'', hs'', hout⟩ := exec_outcome h (hnew _ hforeach) hlegal hroom
  obtain rfl : s'' = s' := Option.some.inj (hs''.symm.trans hexec)
  exact hout.elim And.right fun hbad => absurd happends hbad.1

theorem tracks_of_run (hrun : ReflTransGen (RegionStep AtEnd) emptyLog s) :
    ∃ as rs, Tracks s as rs := by
  induction hrun with
  | refl => exact ⟨_, _, tracks_emptyLog⟩
  | tail _ hstep ih =>
    obtain ⟨as, rs, h⟩ := ih
    exact h.step hstep

/-- In every run of calls that add at the end the list is consistent. From there on each
legal call returns, and the list is consistent after it exactly when it adds at the end
too. -/
theorem region_list_runs (hrun : ReflTransGen (RegionStep AtEnd) emptyLog s) :
    s.Consistent ∧
      ∀ (call : RegionCall) (back new : ℕ), call.Legal s → s.granted.length + 1 < 2 ^ 32 →
        (∀ nodes, listForeach s.list = some nodes → NewNodes nodes back new) →
        ∃ s', call.exec s back new = some s' ∧ (s'.Consistent ↔ call.Appends s) := by
  obtain ⟨as, rs, h⟩ := tracks_of_run hrun
  refine ⟨h.consistent, fun call back new hlegal hroom hnew => ?_⟩
  have hforeach := h.holds.listForeach_eq (h.small.trans (by decide))
  obtain ⟨s', hexec, hout⟩ := exec_outcome h (hnew _ hforeach) hlegal hroom
  refine ⟨s', hexec, ?_⟩
  rcases hout with ⟨happends, as', rs', h'⟩ | ⟨hnot, hbad⟩
  · exact iff_of_true h'.consistent happends
  · exact iff_of_false hbad hnot

theorem RegionStep.of_nodes {admits : RegionLog → RegionCall → Prop} {call : RegionCall}
    (as : List ℕ) (back new : ℕ) (hlegal : call.Legal s) (hadmits : admits s call)
    (hnodes : listForeach s.list = some as) (hnew : NewNodes as back new)
    (hexec : call.exec s back new = some s') : RegionStep admits s s' := by
  refine .call hlegal hadmits (fun nodes h => ?_) hexec
  rwa [← Option.some.inj (hnodes.symm.trans h)]

def oneRegion : RegionLog :=
  ⟨listPushBack listCreate ⟨0x5000, 0x6000⟩ 0x10, [⟨0x5000, 0x6000⟩]⟩

theorem step_oneRegion {admits : RegionLog → RegionCall → Prop}
    (h : admits emptyLog (.allocAt 0x5000 0x1000)) : RegionStep admits emptyLog oneRegion :=
  .of_nodes [] 0x10 0x20 (by decide) h rfl
    ⟨by decide, by decide, by simp, by simp⟩ rfl

/-- After one region, reserving a page below it puts the list and the counter apart. -/
theorem region_list_runs_one :
    ReflTransGen (RegionStep AtEnd) emptyLog oneRegion ∧ oneRegion.Consistent ∧
      ∃ s', RegionCall.exec oneRegion 0x20 0x30 (.alloc 0x1000) = some s' ∧
        (s'.Consistent ↔ RegionCall.Appends oneRegion (.alloc 0x1000)) := by
  have hrun : ReflTransGen (RegionStep AtEnd) emptyLog oneRegion :=
    .single (step_oneRegion ⟨by simp [RegionCall.Appends, emptyLog], by decide⟩)
  obtain ⟨hconsistent, hnext⟩ := region_list_runs hrun
  refine ⟨hrun, hconsistent, hnext _ _ _ (by decide) (by decide) fun nodes h => ?_⟩
  obtain rfl : [0x10] = nodes := Option.some.inj h
  exact ⟨by decide, by decide, by decide, by decide⟩

def twoRegions : RegionLog :=
  (RegionCall.exec oneRegion 0x20 0x30 (.alloc 0x1000)).get (by decide +kernel)

def threeRegions : RegionLog :=
  (RegionCall.exec twoRegions 0x40 0x50 (.alloc 0x1000)).get (by decide +kernel)

/-- Three calls: a region at `0x5000`, then two pages below it. The second page finds its
index equal to the counter that is behind, so it is appended and inserted. -/
theorem region_list_enters_twice :
    ∃ s, ReflTransGen (RegionStep fun _ _ => True) emptyLog s ∧
      s.granted = [⟨0x2000, 0x3000⟩, ⟨0x1000, 0x2000⟩, ⟨0x5000, 0x6000⟩] ∧
      listValues s.list =
        some [⟨0x1000, 0x2000⟩, ⟨0x2000, 0x3000⟩, ⟨0x5000, 0x6000⟩, ⟨0x2000, 0x3000⟩] ∧
      s.list.cnt = 2 ∧ ¬s.Consistent := by
  have hstep₂ : RegionStep (fun _ _ => True) oneRegion twoRegions :=
    .of_nodes [0x10] 0x20 0x30 (by decide) trivial rfl
      ⟨by decide, by decide, by decide, by decide⟩ (Option.some_get _).symm
  have hstep₃ : RegionStep (fun _ _ => True) twoRegions threeRegions :=
    .of_nodes [0x30, 0x10] 0x40 0x50 (by decide +kernel) trivial (by decide +kernel)
      ⟨by decide, by decide, by decide, by decide⟩ (Option.some_get _).symm
  refine ⟨threeRegions, ((ReflTransGen.single (step_oneRegion trivial)).tail hstep₂).tail hstep₃,
    by decide +kernel, by decide +kernel, by decide +kernel, ?_⟩
  rintro ⟨nodes, -, hnodes, -, -, -, -, hcnt⟩
  have hfour : listForeach threeRegions.list = some [0x30, 0x50, 0x10, 0x40] := by decide +kernel
  have htwo : threeRegions.list.cnt = 2 := by decide +kernel
  obtain rfl := Option.some.inj (hfour.symm.trans hnodes)
  exact absurd (htwo.symm.trans hcnt) (by decide)

end KernelOld.Space
