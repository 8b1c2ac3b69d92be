import Mathlib.Logic.Relation
import KernelOld.Mem.Space.Calls

/-!
# Several address spaces

The page maps of a running system. Seen from above an address space is only its page entries, with
the page-size bits of its directories (`EntryView`). `exec_refines` says that each call acts on the
maps as `SpaceCall.spec` acts on these views, and on no other view.
-/

namespace KernelOld.Space
open MachineWord Paging LinkedList Relation CountedLoop List

/-- All address spaces that have been made. -/
structure World where
  machine : Machine
  maps : List PageMap

inductive SpaceCall
  | mk
  | clone (k : ℕ)
  | mapMemory (k virt phys cnt : ℕ)
  | alloc (k size back new : ℕ)
  | allocAt (k base size back new : ℕ)

def World.set (w : World) (k : ℕ) (st : Machine × PageMap) : World := ⟨st.1, w.maps.set k st.2⟩

def World.add (w : World) (st : Machine × PageMap) : World := ⟨st.1, w.maps ++ [st.2]⟩

def SpaceCall.exec (w : World) : SpaceCall → Option World
  | .mk => some (w.add (pageMkMap w.machine))
  | .clone k => w.maps[k]?.map fun src => w.add (pageCloneMap w.machine src)
  | .mapMemory k virt phys cnt =>
    w.maps[k]?.map fun map => w.set k (pageMapMemory cnt virt phys (w.machine, map))
  | .alloc k size back new => do
    let map ← w.maps[k]?
    let (regions, _) ← spaceAllocRegion size map.regions back new
    some (w.set k (w.machine, { map with regions }))
  | .allocAt k base size back new => do
    let map ← w.maps[k]?
    let regions ← spaceAllocRegionAt base size map.regions back new
    some (w.set k (w.machine, { map with regions }))

theorem exec_alloc_some {w w' : World} {k size back new : ℕ}
    (hexec : SpaceCall.exec w (.alloc k size back new) = some w') :
    ∃ map regions, w.maps[k]? = some map ∧ w' = w.set k (w.machine, { map with regions }) := by
  obtain ⟨map, hmap, hrest⟩ := Option.bind_eq_some_iff.mp hexec
  obtain ⟨⟨regions, base⟩, -, hw'⟩ := Option.bind_eq_some_iff.mp hrest
  exact ⟨map, regions, hmap, (Option.some.inj hw').symm⟩

theorem exec_allocAt_some {w w' : World} {k base size back new : ℕ}
    (hexec : SpaceCall.exec w (.allocAt k base size back new) = some w') :
    ∃ map regions, w.maps[k]? = some map ∧ w' = w.set k (w.machine, { map with regions }) := by
  obtain ⟨map, hmap, hrest⟩ := Option.bind_eq_some_iff.mp hexec
  obtain ⟨regions, -, hw'⟩ := Option.bind_eq_some_iff.mp hrest
  exact ⟨map, regions, hmap, (Option.some.inj hw').symm⟩

/-- An admitted call that returns. -/
inductive SpaceStep (admits : World → SpaceCall → Prop) : World → World → Prop
  | call {w w' : World} {c : SpaceCall} (hadmits : admits w c) (hexec : c.exec w = some w') :
      SpaceStep admits w w'

structure EntryView where
  entries : ℕ → ℕ → ℕ → Entry
  large : ℕ → ℕ → Bool

def EntryView.empty : EntryView := ⟨fun _ _ _ => 0, fun _ _ => false⟩

def SpaceCall.found (w : World) : SpaceCall → ℕ → ℕ → Bool
  | .clone k => fun i j => (w.maps[k]?).elim false fun src => cloneLarge w.machine src i j
  | _ => fun _ _ => false

def SpaceCall.spec (views : List EntryView) (found : ℕ → ℕ → Bool) :
    SpaceCall → Option (List EntryView)
  | .mk => some (views ++ [.empty])
  | .clone k => views[k]?.map fun src => views ++ [⟨src.entries, found⟩]
  | .mapMemory k virt phys cnt =>
    views[k]?.map fun view => views.set k ⟨mappedAll cnt virt phys view.entries, view.large⟩
  | .alloc .. => some views
  | .allocAt .. => some views

def Shows (s : Machine) (o : Owner) (k : ℕ) (map : PageMap) (view : EntryView) : Prop :=
  Built s o k map 512 (fun _ _ => True) view.entries view.large

structure Refines (w : World) (o : Owner) (views : List EntryView) : Prop where
  valid : Valid w.machine o
  length_eq : w.maps.length = views.length
  shows : ∀ k map view, w.maps[k]? = some map → views[k]? = some view →
    Shows w.machine o k map view

def EntryView.frame (view : EntryView) (v : ℕ) : ℕ :=
  frameOf (view.entries (pdpIdx v) (pdIdx v) (ptIdx v))

variable {s s' : Machine} {o o' : Owner} {k k' v : ℕ} {map : PageMap} {w w' : World}
  {view : EntryView} {views : List EntryView} {c : SpaceCall}

theorem Shows.keeps {W : ℕ → ℕ → Prop} (h : Shows s o k map view) (hk : Keeps W s o s' o')
    (hW : ∀ f r j, o f = some (k, r) → ¬W f j) : Shows s' o' k map view := by
  have hmap := h.mapOk.keeps hk hW
  refine ⟨hmap.root, hmap.dir, fun i j hi hj _ => ?_, fun i hi hlt => ?_⟩
  · have hdir := (h.mapOk.dir i hi).dir.owned
    exact (h.filled i j hi hj trivial).keeps hdir hk hj (hW _ _ _ hdir) fun f p => hW f _ p
  · exact absurd hlt (Nat.not_lt.mpr hi)

theorem Shows.pageGetphys_ite (h : Shows s o k map view) (v : ℕ) :
    pageGetphys s v map = if pml4Idx v = 0 then view.frame v else 0 := by
  by_cases hv : pml4Idx v = 0
  · have hfilled := h.filled _ _ (pdpIdx_lt v) (pdIdx_lt v) trivial
    rw [if_pos hv, h.mapOk.coherent.pageGetphys_of_slot hv, hfilled.pte_eq _ (ptIdx_lt v),
      EntryView.frame]
  · rw [if_neg hv, pageGetphys, if_neg hv]

theorem Shows.pageGetphys_eq (h : Shows s o k map view) (hv : v < 2 ^ 39) :
    pageGetphys s v map = view.frame v := by
  rw [h.pageGetphys_ite, if_pos (pml4Idx_eq_zero hv)]

theorem Refines.exists_view (h : Refines w o views) (hmap : w.maps[k]? = some map) :
    ∃ view, views[k]? = some view := by
  have hk : k < views.length := by
    rw [← h.length_eq]
    exact (List.getElem?_eq_some_iff.mp hmap).1
  exact ⟨views[k], getElem?_eq_getElem hk⟩

theorem Refines.exists_map (h : Refines w o views) (hview : views[k]? = some view) :
    ∃ map, w.maps[k]? = some map ∧ Shows w.machine o k map view := by
  have hk : k < w.maps.length := by
    rw [h.length_eq]
    exact (List.getElem?_eq_some_iff.mp hview).1
  have hmap : w.maps[k]? = some w.maps[k] := getElem?_eq_getElem hk
  exact ⟨w.maps[k], hmap, h.shows k _ view hmap hview⟩

theorem Refines.add {st : Machine × PageMap} (h : Refines w o views)
    (hk : Keeps (Mine o w.maps.length) w.machine o st.1 o')
    (hmap : Shows st.1 o' w.maps.length st.2 view) : Refines (w.add st) o' (views ++ [view]) := by
  refine ⟨hk.valid, by simp [World.add, h.length_eq], fun k' map' view' hmap' hview' => ?_⟩
  change (w.maps ++ [st.2])[k']? = some map' at hmap'
  by_cases hlt : k' < w.maps.length
  · rw [getElem?_append_left hlt] at hmap'
    rw [getElem?_append_left (h.length_eq ▸ hlt)] at hview'
    exact (h.shows k' map' view' hmap' hview').keeps hk (not_mine (Nat.ne_of_lt hlt))
  · have heq : k' = w.maps.length := by
      have hle := (List.getElem?_eq_some_iff.mp hmap').1
      rw [length_append, length_singleton] at hle
      omega
    subst heq
    rw [getElem?_concat_length] at hmap'
    rw [h.length_eq, getElem?_concat_length] at hview'
    obtain rfl := Option.some.inj hmap'
    obtain rfl := Option.some.inj hview'
    exact hmap

theorem Refines.set {st : Machine × PageMap} (h : Refines w o views)
    (hk : Keeps (Mine o k) w.machine o st.1 o') (hmap : Shows st.1 o' k st.2 view) :
    Refines (w.set k st) o' (views.set k view) := by
  refine ⟨hk.valid, by simp [World.set, h.length_eq], fun k' map' view' hmap' hview' => ?_⟩
  change (w.maps.set k st.2)[k']? = some map' at hmap'
  by_cases heq : k = k'
  · subst heq
    rw [getElem?_set_self'] at hmap' hview'
    obtain ⟨-, -, rfl⟩ := Option.map_eq_some_iff.mp hmap'
    obtain ⟨-, -, rfl⟩ := Option.map_eq_some_iff.mp hview'
    exact hmap
  · rw [getElem?_set_ne heq] at hmap' hview'
    exact (h.shows k' map' view' hmap' hview').keeps hk (not_mine (Ne.symm heq))

theorem Shows.setRegions (h : Shows s o k map view) (regions : ListT Region) :
    Shows s o k { map with regions } view :=
  ⟨⟨h.root.pml4, h.root.pdp, h.root.names⟩, fun i hi => (h.dir i hi).congr rfl rfl rfl,
    fun i j hi hj hd => (h.filled i j hi hj hd).congr rfl rfl, h.rest⟩

theorem Refines.setRegions (h : Refines w o views) (hmap : w.maps[k]? = some map)
    (regions : ListT Region) : Refines (w.set k (w.machine, { map with regions })) o views := by
  obtain ⟨view, hview⟩ := h.exists_view hmap
  have hregions := (h.shows k map view hmap hview).setRegions regions
  have hset : Refines (w.set k (w.machine, { map with regions })) o (views.set k view) :=
    h.set h.valid.keeps hregions
  obtain ⟨hlt, rfl⟩ := List.getElem?_eq_some_iff.mp hview
  rwa [set_getElem_self] at hset

theorem exec_refines (h : Refines w o views) (hexec : c.exec w = some w') :
    ∃ o' views' W, Keeps W w.machine o w'.machine o' ∧ Refines w' o' views' ∧
      c.spec views (c.found w) = some views' := by
  cases c with
  | mk =>
    obtain ⟨o', hk, hbuilt⟩ := pageMkMap_spec h.valid w.maps.length
    obtain rfl : w.add (pageMkMap w.machine) = w' := Option.some.inj hexec
    have hshows : Shows _ o' _ _ EntryView.empty := hbuilt
    exact ⟨o', _, _, hk, h.add hk hshows, rfl⟩
  | clone k =>
    obtain ⟨src, hsrc, rfl⟩ := Option.map_eq_some_iff.mp hexec
    obtain ⟨view, hview⟩ := h.exists_view hsrc
    have hshows := h.shows k src view hsrc hview
    have hne : k ≠ w.maps.length := Nat.ne_of_lt (List.getElem?_eq_some_iff.mp hsrc).1
    obtain ⟨o', hk, hbuilt⟩ := pageCloneMap_spec h.valid hshows.mapOk.hasTables hne
    have hfound : SpaceCall.found w (.clone k) = cloneLarge w.machine src := by
      rw [SpaceCall.found, hsrc]
      rfl
    have hclone : Shows (pageCloneMap w.machine src).1 o' w.maps.length
        (pageCloneMap w.machine src).2 ⟨view.entries, SpaceCall.found w (.clone k)⟩ := by
      rw [hfound]
      refine { hbuilt with filled := fun i j hi hj hd => ?_ }
      refine (hbuilt.filled i j hi hj hd).imp (fun p hp => ?_) rfl
      exact (hshows.filled i j hi hj trivial).pte_eq p hp
    refine ⟨o', _, _, hk, h.add hk hclone, ?_⟩
    rw [SpaceCall.spec, hview, Option.map_some]
  | mapMemory k virt phys cnt =>
    obtain ⟨map, hmap, rfl⟩ := Option.map_eq_some_iff.mp hexec
    obtain ⟨view, hview⟩ := h.exists_view hmap
    obtain ⟨o', hk, hbuilt⟩ :=
      pageMapMemory_spec h.valid (h.shows k map view hmap hview) cnt virt phys
    have hshows : Shows _ o' k _ ⟨mappedAll cnt virt phys view.entries, view.large⟩ := hbuilt
    refine ⟨o', _, _, hk, h.set hk hshows, ?_⟩
    rw [SpaceCall.spec, hview, Option.map_some]
  | alloc k size back new =>
    obtain ⟨map, regions, hmap, rfl⟩ := exec_alloc_some hexec
    exact ⟨o, views, fun _ _ => False, h.valid.keeps, h.setRegions hmap regions, rfl⟩
  | allocAt k base size back new =>
    obtain ⟨map, regions, hmap, rfl⟩ := exec_allocAt_some hexec
    exact ⟨o, views, fun _ _ => False, h.valid.keeps, h.setRegions hmap regions, rfl⟩

theorem Refines.exists_clone (h : Refines w o views) (hview : views[k]? = some view) :
    ∃ w' o' W, SpaceCall.exec w (.clone k) = some w' ∧ Keeps W w.machine o w'.machine o' ∧
      Refines w' o' (views ++ [⟨view.entries, SpaceCall.found w (.clone k)⟩]) := by
  obtain ⟨src, hsrc, -⟩ := h.exists_map hview
  obtain ⟨w', hw'⟩ : ∃ w', SpaceCall.exec w (.clone k) = some w' := by
    rw [SpaceCall.exec, hsrc]
    exact ⟨_, rfl⟩
  obtain ⟨o', views', W, hk, h', hspec⟩ := exec_refines h hw'
  rw [SpaceCall.spec, hview] at hspec
  obtain rfl := Option.some.inj hspec
  exact ⟨w', o', W, hw', hk, h'⟩

def SpaceCall.cost : SpaceCall → ℕ
  | .mk => 517
  | .clone _ => 5 + 512 * 513
  | .mapMemory _ _ _ cnt => cnt
  | .alloc .. => 0
  | .allocAt .. => 0

theorem pageMkMap_frames (s : Machine) : (pageMkMap s).1.frames = s.frames + 517 := by
  have hloop : (pageMkMap s).1.frames = s.frames + 5 + 512 := by
    refine loop_induction (I := fun n (st : Machine × PageMap) => st.1.frames = s.frames + 5 + n)
      512 rfl fun n st _ hst => ?_
    rw [← Nat.add_assoc, ← hst]
    rfl
  rw [hloop, Nat.add_assoc]

theorem cloneDir_frames_le (src : PageMap) (i : ℕ) (st : Machine × PageMap) :
    (cloneDir src i st).1.frames ≤ st.1.frames + 1 + 512 := by
  refine loop_induction
    (I := fun m (st' : Machine × PageMap) => st'.1.frames ≤ st.1.frames + 1 + m) 512 ?_ ?_
  · exact Nat.le_refl _
  · intro m st' _ hst'
    rw [cloneTable_frames]
    split <;> omega

theorem pageCloneMap_frames_le (s : Machine) (src : PageMap) :
    (pageCloneMap s src).1.frames ≤ s.frames + 5 + 512 * 513 := by
  refine loop_induction
    (I := fun n (st : Machine × PageMap) => st.1.frames ≤ s.frames + 5 + n * 513) 512 ?_ ?_
  · exact Nat.le_refl _
  · intro n st _ hst
    have := cloneDir_frames_le src n st
    omega

theorem mapPage_supplies (virt phys : ℕ) (st : Machine × PageMap) :
    (mapPage virt phys st).1.frames ≤ st.1.frames + 1 ∧
      (mapPage virt phys st).1.pages ≤ st.1.pages + 1 ∧
      (mapPage virt phys st).2.regions = st.2.regions := by
  rw [mapPage]
  by_cases hpresent : present (st.1.entry (st.2.pageDirs (pdpIdx virt)) (pdIdx virt)) = true
  · rw [if_pos hpresent]
    exact ⟨Nat.le_succ _, Nat.le_succ _, rfl⟩
  · rw [if_neg hpresent]
    exact ⟨Nat.le_refl _, Nat.le_refl _, rfl⟩

theorem pageMapMemory_frames_le (cnt virt phys : ℕ) (st : Machine × PageMap) :
    (pageMapMemory cnt virt phys st).1.frames ≤ st.1.frames + cnt := by
  induction cnt generalizing virt phys st with
  | zero => exact Nat.le_refl _
  | succ cnt ih =>
    have hround := (mapPage_supplies virt phys st).1
    have hrest := ih (u64 (virt + 4096)) (u64 (phys + 4096)) (mapPage virt phys st)
    rw [pageMapMemory]
    omega

theorem exec_frames_le (hexec : c.exec w = some w') :
    w'.machine.frames ≤ w.machine.frames + c.cost := by
  cases c with
  | mk =>
    obtain rfl : w.add (pageMkMap w.machine) = w' := Option.some.inj hexec
    exact Nat.le_of_eq (pageMkMap_frames w.machine)
  | clone k =>
    obtain ⟨src, -, rfl⟩ := Option.map_eq_some_iff.mp hexec
    exact (pageCloneMap_frames_le w.machine src).trans (Nat.le_of_eq (Nat.add_assoc ..))
  | mapMemory k virt phys cnt =>
    obtain ⟨map, -, rfl⟩ := Option.map_eq_some_iff.mp hexec
    exact pageMapMemory_frames_le cnt virt phys (w.machine, map)
  | alloc k size back new =>
    obtain ⟨map, regions, -, rfl⟩ := exec_alloc_some hexec
    exact Nat.le_refl _
  | allocAt k base size back new =>
    obtain ⟨map, regions, -, rfl⟩ := exec_allocAt_some hexec
    exact Nat.le_refl _

theorem pageMkMap_regions (s : Machine) : (pageMkMap s).2.regions = listCreate :=
  loop_induction (I := fun _ (st : Machine × PageMap) => st.2.regions = listCreate) 512 rfl
    fun _ _ _ hst => hst

theorem cloneTable_regions (src : PageMap) (i j : ℕ) (st : Machine × PageMap) :
    (cloneTable src i j st).2.regions = st.2.regions := by
  rw [cloneTable]
  split <;> rfl

theorem pageCloneMap_regions (s : Machine) (src : PageMap) :
    (pageCloneMap s src).2.regions = listCreate := by
  refine loop_induction (I := fun _ (st : Machine × PageMap) => st.2.regions = listCreate) 512 rfl
    fun i st _ hst => ?_
  refine loop_induction (I := fun _ (st : Machine × PageMap) => st.2.regions = listCreate) 512 hst
    fun j st _ hst => ?_
  rw [cloneTable_regions]
  exact hst

theorem pageMapMemory_regions (cnt virt phys : ℕ) (st : Machine × PageMap) :
    (pageMapMemory cnt virt phys st).2.regions = st.2.regions := by
  induction cnt generalizing virt phys st with
  | zero => rfl
  | succ cnt ih => rw [pageMapMemory, ih, (mapPage_supplies ..).2.2]

def SpaceCall.onView (found : ℕ → ℕ → Bool) (view : EntryView) : SpaceCall → EntryView
  | .mk => .empty
  | .clone _ => ⟨view.entries, found⟩
  | .mapMemory _ virt phys cnt => ⟨mappedAll cnt virt phys view.entries, view.large⟩
  | .alloc .. => view
  | .allocAt .. => view

theorem spec_forall {Q : EntryView → Prop} {views' : List EntryView} {found : ℕ → ℕ → Bool}
    (hspec : c.spec views found = some views') (h : ∀ view ∈ views, Q view) (hempty : Q .empty)
    (hnew : ∀ view, Q view → Q (c.onView found view)) : ∀ view ∈ views', Q view := by
  cases c with
  | mk =>
    obtain rfl := Option.some.inj hspec
    exact forall_mem_append.mpr ⟨h, forall_mem_singleton.mpr hempty⟩
  | clone k =>
    obtain ⟨src, hsrc, rfl⟩ := Option.map_eq_some_iff.mp hspec
    have hlast := hnew src (h src (mem_of_getElem? hsrc))
    exact forall_mem_append.mpr ⟨h, forall_mem_singleton.mpr hlast⟩
  | mapMemory k virt phys cnt =>
    obtain ⟨src, hsrc, rfl⟩ := Option.map_eq_some_iff.mp hspec
    have hset := hnew src (h src (mem_of_getElem? hsrc))
    exact fun view hview => (mem_or_eq_of_mem_set hview).elim (h view) fun heq => heq ▸ hset
  | alloc k size back new =>
    obtain rfl := Option.some.inj hspec
    exact h
  | allocAt k base size back new =>
    obtain rfl := Option.some.inj hspec
    exact h

theorem refines_start (hs : Supplies s) : Refines ⟨s, []⟩ (fun _ => none) [] where
  valid := { hs with unused := fun _ _ => rfl, taken := nofun }
  length_eq := rfl
  shows := nofun

theorem run_refines {admits : World → SpaceCall → Prop} {Q : EntryView → Prop} (hs : Supplies s)
    (hempty : Q .empty)
    (hnew : ∀ w c view, w.machine.frameAt = s.frameAt → admits w c → Q view →
      Q (c.onView (c.found w) view))
    (hrun : ReflTransGen (SpaceStep admits) ⟨s, []⟩ w) :
    ∃ o views, Refines w o views ∧ w.machine.frameAt = s.frameAt ∧ ∀ view ∈ views, Q view := by
  induction hrun with
  | refl => exact ⟨_, _, refines_start hs, rfl, nofun⟩
  | tail _ hstep ih =>
    obtain ⟨o, views, h, hframes, hQ⟩ := ih
    obtain ⟨hadmits, hexec⟩ := hstep
    obtain ⟨o', views', W, hk, h', hspec⟩ := exec_refines h hexec
    exact ⟨o', views', h', hk.frameAt_eq.trans hframes,
      spec_forall hspec hQ hempty fun view => hnew _ _ view hframes hadmits⟩

end KernelOld.Space
