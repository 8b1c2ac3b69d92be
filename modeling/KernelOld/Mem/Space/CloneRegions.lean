import KernelOld.Mem.Space.Fork
import KernelOld.Mem.Space.RegionRuns

/-!
# Regions of a cloned address space

`page_clone_map` gives the clone the page entries of its source, but an empty list of regions.
`space_alloc_region` starts at `0x1000` there, whatever is mapped: it is safe only for a source
that has no page from `0x1000` on.
-/

namespace KernelOld.Space
open MachineWord Paging LinkedList Relation CountedLoop

variable {s : Machine} {map : PageMap} {log log' : RegionLog} {as : List ℕ} {rs : List Region}

/-- Calls of `space_alloc_region` while the counter has room. -/
def OnlyAlloc (log : RegionLog) (call : RegionCall) : Prop :=
  (∃ size, call = .alloc size) ∧ log.granted.length + 1 < 2 ^ 32

/-- After any calls of `space_alloc_region` on `map`, the next one returns a range without
mapped addresses. -/
def AllocSafe (s : Machine) (map : PageMap) : Prop :=
  ∀ log, ReflTransGen (RegionStep OnlyAlloc) ⟨map.regions, []⟩ log →
    ∀ size back new list base, RegionCall.Legal log (.alloc size) →
      (∀ nodes, listForeach log.list = some nodes → NewNodes nodes back new) →
      spaceAllocRegion size log.list back new = some (list, base) → base ≠ 0 →
      ∀ v < 2 ^ 39, base ≤ v → v < base + size → pageGetphys s v map = 0

def Covered (granted : List Region) : Prop :=
  ∀ x, 4096 ≤ x → (∃ r ∈ granted, x < r.stop) → ∃ r ∈ granted, r.base ≤ x ∧ x < r.stop

theorem Covered.appends {size : ℕ} (h : Covered log.granted)
    (hproper : ∀ r ∈ log.granted, r.Proper) (hsize : 0 < size) :
    RegionCall.Appends log (.alloc size) := by
  intro b hb hfree r hr
  by_contra hlt
  have hbr : b < r.stop := by
    have hr' : r.base < r.stop := hproper r hr
    omega
  obtain ⟨r', hr', hlo, hhi⟩ := h b hb ⟨r, hr, hbr⟩
  have hapart := hfree r' hr'
  simp only [Region.Apart] at hapart
  omega

theorem Covered.cons {size : ℕ} {c : Region} (h : Covered log.granted) (hc : Candidate size rs c)
    (hrs : ∀ r ∈ rs, r ∈ log.granted) : Covered (c :: log.granted) := by
  intro x hx ⟨r, hr, hxr⟩
  have hold : (∃ r ∈ log.granted, x < r.stop) → ∃ r ∈ c :: log.granted, r.base ≤ x ∧ x < r.stop :=
    fun hbelow => (h x hx hbelow).imp fun r hr => ⟨List.mem_cons_of_mem c hr.1, hr.2⟩
  rcases List.mem_cons.mp hr with rfl | hr
  · by_cases hlow : r.base ≤ x
    · exact ⟨r, List.mem_cons_self, hlow, hxr⟩
    · apply hold
      by_contra hnone
      refine hlow (hc.least x hx fun r' hr' => Or.inr ?_)
      by_contra hlt
      exact hnone ⟨r', hrs r' hr', Nat.lt_of_not_le hlt⟩
  · exact hold ⟨r, hr, hxr⟩

theorem covered_of_run (hrun : ReflTransGen (RegionStep OnlyAlloc) emptyLog log) :
    (∃ as rs, Tracks log as rs) ∧ Covered log.granted := by
  induction hrun with
  | refl => exact ⟨⟨_, _, tracks_emptyLog⟩, fun _ _ hnone => by simp [emptyLog] at hnone⟩
  | tail _ hstep ih =>
    obtain ⟨⟨as, rs, h⟩, hcovered⟩ := ih
    obtain ⟨hlegal, ⟨⟨size, rfl⟩, hroom⟩, hnew, hexec⟩ := hstep
    have happends := hcovered.appends
      (fun r hr => h.ordered.proper r (h.perm.mem_iff.mpr hr)) hlegal.1
    refine ⟨h.step (.call hlegal ⟨happends, hroom⟩ hnew hexec), ?_⟩
    have hnodes := hnew _ (h.holds.listForeach_eq (h.small.trans (by decide)))
    obtain ⟨c, rs₁, rs₂, s', hs', rfl, hc, hres⟩ := exec_alloc_spec h hnodes hlegal
    obtain rfl := Option.some.inj (hs'.symm.trans hexec)
    rcases hres with ⟨-, rfl⟩ | ⟨l', rfl, -⟩
    · exact hcovered
    · exact hcovered.cons hc fun r hr => h.perm.mem_iff.mp (List.mem_append_left _ hr)

theorem spaceAllocRegion_create {size : ℕ} (back new : ℕ)
    (hfits : 4096 + size < kernelVirtualAddr) :
    spaceAllocRegion size listCreate back new =
      some (listPushBack listCreate ⟨4096, 4096 + size⟩ back, 4096) := by
  have hwrap : 4096 + size < 2 ^ 64 := hfits.trans (by decide)
  rw [spaceAllocRegion, holds_listCreate.listValues_eq (by decide), u64_of_lt hwrap]
  exact if_neg fun hfull => Nat.not_le.mpr hfits hfull.2

theorem allocSafe_iff (hregions : map.regions = listCreate) :
    AllocSafe s map ↔ ∀ v < 2 ^ 39, 4096 ≤ v → pageGetphys s v map = 0 := by
  have hstart : (⟨map.regions, []⟩ : RegionLog) = emptyLog := by
    rw [hregions]
    rfl
  constructor
  · intro hsafe v hv hlow
    have hsum : 4096 + (v + 1 - 4096) = v + 1 := by omega
    have hsize : 0 < v + 1 - 4096 := by omega
    have halloc := spaceAllocRegion_create 1 2 (by rw [hsum, kernelVirtualAddr]; omega)
    rw [AllocSafe, hstart] at hsafe
    refine hsafe emptyLog .refl _ 1 2 _ 4096 ⟨hsize, by omega, by simp [emptyLog]⟩ ?_ halloc
      (by decide) v hv hlow (by omega)
    intro nodes hnodes
    obtain rfl := Option.some.inj ((holds_listCreate.listForeach_eq (by decide)).symm.trans hnodes)
    exact ⟨by decide, by decide, by simp, by simp⟩
  · intro hnone log hrun size back new list base hlegal hnew halloc hbase v hv hlo _
    rw [hstart] at hrun
    obtain ⟨⟨as, rs, h⟩, -⟩ := covered_of_run hrun
    have hnodes := hnew _ (h.holds.listForeach_eq (h.small.trans (by decide)))
    obtain ⟨c, rs₁, rs₂, -, hc, hres⟩ := spaceAllocRegion_spec h.toCounted hnodes
      hlegal.2.1 fun r hr => hlegal.2.2 r (h.perm.mem_iff.mp hr)
    refine hnone v hv (Nat.le_trans ?_ hlo)
    rcases hres with ⟨-, -, hsame⟩ | ⟨l', hl', -⟩
    · rw [hsame] at halloc
      cases halloc
      exact absurd rfl hbase
    · rw [hl'] at halloc
      cases halloc
      exact hc.low

theorem clone_regions {w w' : World} {k : ℕ} {clone : PageMap}
    (hexec : SpaceCall.exec w (.clone k) = some w')
    (hclone : w'.maps[w.maps.length]? = some clone) : clone.regions = listCreate := by
  obtain ⟨src, -, rfl⟩ := Option.map_eq_some_iff.mp hexec
  have hlast : (w.maps ++ [(pageCloneMap w.machine src).2])[w.maps.length]? = some clone := hclone
  rw [List.getElem?_concat_length] at hlast
  rw [← Option.some.inj hlast]
  exact pageCloneMap_regions w.machine src

/-- A clone keeps `space_alloc_region` away from its pages exactly when its source has no page
from `0x1000` on. -/
theorem clone_allocSafe_iff {w w' : World} {k : ℕ} {src clone : PageMap} (hs : Supplies s)
    (hrun : ReflTransGen (SpaceStep fun _ _ => True) ⟨s, []⟩ w) (hsrc : w.maps[k]? = some src)
    (hexec : SpaceCall.exec w (.clone k) = some w')
    (hclone : w'.maps[w.maps.length]? = some clone) :
    AllocSafe w'.machine clone ↔ ∀ v < 2 ^ 39, 4096 ≤ v → pageGetphys w.machine v src = 0 := by
  obtain ⟨o, views, h, -, -⟩ :=
    run_refines (Q := fun _ => True) hs trivial (fun _ _ _ _ _ _ => trivial) hrun
  obtain ⟨o', views', W, hk, h', hspec⟩ := exec_refines h hexec
  obtain ⟨view, hview, rfl⟩ := Option.map_eq_some_iff.mp hspec
  have hsrc' := h.shows k src view hsrc hview
  have hclone' : Shows w'.machine o' w.maps.length clone
      ⟨view.entries, SpaceCall.found w (.clone k)⟩ := by
    refine h'.shows _ clone _ hclone ?_
    rw [h.length_eq, List.getElem?_concat_length]
  rw [allocSafe_iff (clone_regions hexec hclone)]
  refine forall_congr' fun v => forall_congr' fun hv => ?_
  rw [hsrc'.pageGetphys_eq hv, hclone'.pageGetphys_eq hv]
  rfl

theorem exec_alloc_eq {w : World} {k size back new base : ℕ} {regions : ListT Region}
    (hmap : w.maps[k]? = some map)
    (halloc : spaceAllocRegion size map.regions back new = some (regions, base)) :
    SpaceCall.exec w (.alloc k size back new) =
      some (w.set k (w.machine, { map with regions })) :=
  Option.bind_eq_some_iff.mpr ⟨map, hmap, Option.bind_eq_some_iff.mpr ⟨_, halloc, rfl⟩⟩

def Accounted (s : Machine) (map : PageMap) : Prop :=
  ∀ v < 2 ^ 39, pageGetphys s v map ≠ 0 →
    ∃ rs, listValues map.regions = some rs ∧ ∃ r ∈ rs, r.base ≤ v ∧ v < r.stop

theorem onePage_frame_ne_zero {v : ℕ} (hv : v < 2 ^ 39) (hne : onePage.frame v ≠ 0) :
    0x1000 ≤ v ∧ v < 0x2000 := by
  by_cases hidx : pdpIdx v = pdpIdx 0x1000 ∧ pdIdx v = pdIdx 0x1000 ∧ ptIdx v = ptIdx 0x1000
  · simp only [pdpIdx_eq, pdIdx_eq, ptIdx_eq] at hidx
    omega
  · have hentry : onePage.entries (pdpIdx v) (pdIdx v) (ptIdx v) = 0 := if_neg hidx
    rw [EntryView.frame, hentry] at hne
    exact absurd frameOf_zero hne

theorem exists_cloned_page :
    ∃ w w' src clone, ReflTransGen (SpaceStep fun _ _ => True) ⟨startMachine 0, []⟩ w ∧
      w.maps[0]? = some src ∧ SpaceCall.exec w (.clone 0) = some w' ∧
      w'.maps[w.maps.length]? = some clone ∧ Accounted w.machine src ∧
      pageGetphys w.machine 0x1000 src = 0x5000 ∧ pageGetphys w'.machine 0x1000 clone = 0x5000 := by
  obtain ⟨w₁, o₁, hrun, h₁, -, -, -, hregions⟩ :=
    exists_onePage 0 (fun _ _ => True) (fun _ => trivial) fun _ _ => trivial
  obtain ⟨map, hmap, -⟩ := h₁.exists_map (k := 0) rfl
  -- The region of the page is reserved in the source.
  have hfits : 4096 + 0x1000 < kernelVirtualAddr := by decide
  have halloc := hregions map hmap ▸ spaceAllocRegion_create 1 2 hfits
  have hw := exec_alloc_eq hmap halloc
  generalize hset : w₁.set 0 _ = w at hw
  obtain ⟨o, views, -, -, h, hspec⟩ := exec_refines h₁ hw
  obtain rfl : [onePage] = views := Option.some.inj hspec
  obtain ⟨src, hsrc, hsrc'⟩ := h.exists_map (k := 0) rfl
  obtain ⟨w', o', -, hw', -, h'⟩ := h.exists_clone (k := 0) rfl
  obtain ⟨clone, hclone, hclone'⟩ := h'.exists_map (k := 1) rfl
  have hlen : w.maps.length = 1 := h.length_eq
  refine ⟨w, w', src, clone, hrun.tail (.call trivial hw), hsrc, hw', hlen ▸ hclone, ?_, ?_, ?_⟩
  · have hvalues : listValues src.regions = some [⟨0x1000, 0x2000⟩] := by
      have hmaps : (w₁.maps.set 0 _)[0]? = some src := (congrArg (·.maps[0]?) hset).trans hsrc
      rw [List.getElem?_set_self', hmap] at hmaps
      rw [← Option.some.inj hmaps]
      change listValues (listPushBack map.regions ⟨0x1000, 0x2000⟩ 1) = _
      rw [hregions map hmap]
      exact (holds_listCreate.listPushBack Nat.one_ne_zero (by simp)).listValues_eq (by decide)
    intro v hv hne
    rw [hsrc'.pageGetphys_eq hv] at hne
    exact ⟨_, hvalues, _, List.mem_singleton_self _, onePage_frame_ne_zero hv hne⟩
  · exact (hsrc'.pageGetphys_eq (by decide)).trans frameOf_onePage
  · exact (hclone'.pageGetphys_eq (by decide)).trans frameOf_onePage

/-- A clone of a space with one page: `space_alloc_region` can return the range of the page. -/
theorem clone_allocSafe_iff_onePage :
    ∃ w w' src clone, w.maps[0]? = some src ∧ SpaceCall.exec w (.clone 0) = some w' ∧
      w'.maps[w.maps.length]? = some clone ∧ Accounted w.machine src ∧
      ¬AllocSafe w'.machine clone := by
  obtain ⟨w, w', src, clone, hrun, hsrc, hexec, hclone, hacc, hpage, -⟩ := exists_cloned_page
  refine ⟨w, w', src, clone, hsrc, hexec, hclone, hacc, fun hsafe => ?_⟩
  rw [clone_allocSafe_iff supplies_start hrun hsrc hexec hclone] at hsafe
  have hzero := hsafe 0x1000 (by decide) (by decide)
  rw [hpage] at hzero
  exact absurd hzero (by decide)

/-- The first `space_alloc_region` on a clone returns the page that its source has mapped in a
region. -/
theorem clone_alloc_returns_mapped_page :
    ∃ w w' src clone, ReflTransGen (SpaceStep fun _ _ => True) ⟨startMachine 0, []⟩ w ∧
      w.maps[0]? = some src ∧ Accounted w.machine src ∧
      SpaceCall.exec w (.clone 0) = some w' ∧ w'.maps[w.maps.length]? = some clone ∧
      pageGetphys w'.machine 0x1000 clone = 0x5000 ∧
      ∃ list, spaceAllocRegion 0x1000 clone.regions 1 2 = some (list, 0x1000) := by
  obtain ⟨w, w', src, clone, hrun, hsrc, hexec, hclone, hacc, -, hpage⟩ := exists_cloned_page
  refine ⟨w, w', src, clone, hrun, hsrc, hacc, hexec, hclone, hpage, ?_⟩
  rw [clone_regions hexec hclone, spaceAllocRegion_create 1 2 (by decide)]
  exact ⟨_, rfl⟩

end KernelOld.Space
