import KernelOld.Mem.Space.Agreement

/-!
# A map and its clone

`page_clone_map` copies the tables of a map into frames of its own. From then on a call of
`page_map_memory` for one of the two maps writes frames of that map, or frames that nobody has used
before.
-/

namespace KernelOld.Space
open MachineWord Paging

structure InUse (s : Machine) (p : ℕ) : Prop where
  page : ∃ n < s.pages, s.pageAt n = p
  frame : ∃ n < s.frames, s.frameAt n = s.kmap p

/-- The directories and tables of the map are in use, and a directory shares its frame with none. -/
structure Allocated (s : Machine) (map : PageMap) : Prop where
  dir : ∀ i < 512, InUse s (map.pageDirs i)
  table : ∀ i < 512, ∀ j < 512, map.pageTables i j ≠ 0 → InUse s (map.pageTables i j)
  dir_inj : ∀ i < 512, ∀ i' < 512,
    s.kmap (map.pageDirs i) = s.kmap (map.pageDirs i') → i = i'
  dir_ne : ∀ i < 512, ∀ i' < 512, ∀ j < 512, map.pageTables i' j ≠ 0 →
    s.kmap (map.pageDirs i) ≠ s.kmap (map.pageTables i' j)

inductive Side
  | src
  | clone

def Side.other : Side → Side
  | .src => .clone
  | .clone => .src

structure MapCall where
  virt : ℕ
  phys : ℕ
  cnt : ℕ

structure MapPair where
  machine : Machine
  src : PageMap
  clone : PageMap

namespace MapPair

def map (m : MapPair) : Side → PageMap
  | .src => m.src
  | .clone => m.clone

def set (m : MapPair) : Side → Machine × PageMap → MapPair
  | .src, st => { m with machine := st.1, src := st.2 }
  | .clone, st => { m with machine := st.1, clone := st.2 }

def call (m : MapPair) (side : Side) (c : MapCall) : MapPair :=
  m.set side (pageMapMemory c.cnt c.virt c.phys (m.machine, m.map side))

def run (m : MapPair) (calls : List (Side × MapCall)) : MapPair :=
  calls.foldl (fun m c => m.call c.1 c.2) m

def getphys (m : MapPair) (side : Side) (v : ℕ) : ℕ := pageGetphys m.machine v (m.map side)

end MapPair

def cloned (s : Machine) (src : PageMap) : MapPair :=
  ⟨(pageCloneMap s src).1, src, (pageCloneMap s src).2⟩

variable {s s' : Machine} {o o' : Owner} {W : ℕ → ℕ → Prop} {k : ℕ} {map src : PageMap}
  {m : MapPair} {side : Side}

/-! ## One map -/

structure Parts (s : Machine) (o : Owner) (k : ℕ) (map : PageMap) : Prop where
  dir : ∀ i < 512, Backed s o (map.pageDirs i) (s.kmap (map.pageDirs i)) (k, .dir i)
  table : ∀ i < 512, ∀ j < 512, ∃ a b, map.pageTables i j ≠ 0 →
    Backed s o (map.pageTables i j) (s.kmap (map.pageTables i j)) (k, .table a b)
  coherent : Coherent s map

theorem Backed.self {p f : ℕ} {x : ℕ × Role} (h : Backed s o p f x) :
    Backed s o p (s.kmap p) x := by
  rw [h.kmap_eq]
  exact h

theorem MapOk.parts (h : MapOk s o k map) : Parts s o k map :=
  ⟨fun i hi => (h.dir i hi).dir.self, fun i hi j hj => ⟨i, j, (h.table i hi j hj).table⟩,
    h.coherent⟩

theorem Parts.hasTables (h : Parts s o k map) : HasTables s o k map := by
  intro i hi j hj
  obtain ⟨a, b, htable⟩ := h.table i hi j hj
  exact ⟨.table a b, htable⟩

theorem Parts.keeps (h : Parts s o k map) (hk : Keeps W s o s' o')
    (hW : ∀ f i j, o f = some (k, .dir i) → ¬W f j) : Parts s' o' k map := by
  refine ⟨fun i hi => ((h.dir i hi).keeps hk).self, fun i hi j hj => ?_, fun i hi j hj => ?_⟩
  · obtain ⟨a, b, htable⟩ := h.table i hi j hj
    exact ⟨a, b, fun ht => ((htable ht).keeps hk).self⟩
  · have howned := (h.dir i hi).owned
    rw [← h.coherent i hi j hj, ((h.dir i hi).keeps hk).entry_eq, (h.dir i hi).entry_eq,
      hk.words _ _ j howned hj (hW _ _ _ howned)]

theorem Parts.pageGetphys_keeps (h : Parts s o k map) (hk : Keeps W s o s' o')
    (hW : ∀ f r j, o f = some (k, r) → ¬W f j) (v : ℕ) :
    pageGetphys s' v map = pageGetphys s v map := by
  by_cases hv : pml4Idx v = 0
  · have hcoherent := (h.keeps hk fun f i j => hW f (.dir i) j).coherent
    obtain ⟨a, b, htable⟩ := h.table _ (pdpIdx_lt v) _ (pdIdx_lt v)
    rw [hcoherent.pageGetphys_of_slot hv, h.coherent.pageGetphys_of_slot hv,
      pte_keeps htable hk (ptIdx_lt v) fun ht => hW _ _ _ (htable ht).owned]
  · rw [pageGetphys, pageGetphys, if_neg hv, if_neg hv]

theorem Parts.addTable {i j table f : ℕ} (h : Parts s o k map) (hi : i < 512)
    (hk : Keeps (fun g q => g = s.kmap (map.pageDirs i) ∧ q = j) s o s' o') (hne : table ≠ 0)
    (hback : Backed s' o' table f (k, .table i j))
    (hpresent : present (word s'.mem (s.kmap (map.pageDirs i)) j) = true) :
    Parts s' o' k { map with pageTables := setTable map.pageTables i j table } := by
  refine ⟨fun i' hi' => ((h.dir i' hi').keeps hk).self, fun i' hi' j' hj' => ?_,
    fun i' hi' j' hj' => ?_⟩
  all_goals by_cases hsame : i' = i ∧ j' = j
  · obtain ⟨rfl, rfl⟩ := hsame
    dsimp only
    rw [setTable_self]
    exact ⟨i', j', fun _ => hback.self⟩
  · obtain ⟨a, b, htable⟩ := h.table i' hi' j' hj'
    dsimp only
    rw [setTable_of_ne _ _ hsame]
    exact ⟨a, b, fun ht => ((htable ht).keeps hk).self⟩
  · obtain ⟨rfl, rfl⟩ := hsame
    dsimp only
    rw [setTable_self, ((h.dir i' hi').keeps hk).entry_eq]
    exact ⟨fun _ => hne, fun _ => hpresent⟩
  · have hword : ¬(s.kmap (map.pageDirs i') = s.kmap (map.pageDirs i) ∧ j' = j) := by
      intro hw
      refine frame_ne (h.dir i' hi').owned (h.dir i hi).owned (fun heq => hsame ⟨?_, hw.2⟩) hw.1
      cases heq
      rfl
    dsimp only
    rw [setTable_of_ne _ _ hsame, ← h.coherent i' hi' j' hj', ((h.dir i' hi').keeps hk).entry_eq,
      (h.dir i' hi').entry_eq, hk.words _ _ j' (h.dir i' hi').owned hj' hword]

theorem Parts.ensureTable {i j : ℕ} (hv : Valid s o) (h : Parts s o k map) (hi : i < 512)
    (hj : j < 512) :
    ∃ o' s' map', (if present (s.entry (map.pageDirs i) j) then (s, map)
        else pageMkTable i j (s, map)) = (s', map') ∧
      Keeps (Mine o k) s o s' o' ∧ map'.pageTables i j ≠ 0 ∧ Parts s' o' k map' := by
  by_cases hpresent : present (s.entry (map.pageDirs i) j) = true
  · exact ⟨o, s, map, if_pos hpresent, hv.keeps, (h.coherent i hi j hj).mp hpresent, h⟩
  · obtain ⟨hlink, -⟩ := newLinked_cleared hv (h.dir i hi) hj (k, .table i j)
    refine ⟨_, _, _, if_neg hpresent, hlink.keeps.mono fun f _ _ _ hf => ?_, ?_,
      h.addTable hi hlink.keeps (hv.page_ne _) hlink.backed hlink.names.1⟩
    · exact ⟨.dir i, hf.1 ▸ (h.dir i hi).owned⟩
    · dsimp only
      rw [setTable_self]
      exact hv.page_ne _

theorem Parts.link {i j p : ℕ} (hv : Valid s o) (h : Parts s o k map) (hi : i < 512)
    (hj : j < 512) (hp : p < 512) (hne : map.pageTables i j ≠ 0) (phys : ℕ) :
    Keeps (fun g q => g = s.kmap (map.pageTables i j) ∧ q = p) s o
        (s.link (map.pageTables i j) p phys) o ∧
      Mine o k (s.kmap (map.pageTables i j)) p ∧
      Parts (s.link (map.pageTables i j) p phys) o k map := by
  obtain ⟨a, b, htable⟩ := h.table i hi j hj
  have hback := htable hne
  have hlink := hback.keeps_link hv hp phys
  refine ⟨hlink, ⟨_, hback.owned⟩, h.keeps hlink fun f i j hf hw => ?_⟩
  refine frame_ne hf hback.owned (fun hrole => ?_) hw.1
  cases hrole

theorem mapPage_eq {virt phys : ℕ} {map' : PageMap}
    (hensure : (if present (s.entry (map.pageDirs (pdpIdx virt)) (pdIdx virt)) then (s, map)
      else pageMkTable (pdpIdx virt) (pdIdx virt) (s, map)) = (s', map')) :
    mapPage virt phys (s, map) =
      (s'.link (map'.pageTables (pdpIdx virt) (pdIdx virt)) (ptIdx virt) phys, map') := by
  rw [mapPage, hensure]

theorem Parts.mapPage (hv : Valid s o) (h : Parts s o k map) (virt phys : ℕ) :
    ∃ o', Keeps (Mine o k) s o (mapPage virt phys (s, map)).1 o' ∧
      Parts (mapPage virt phys (s, map)).1 o' k (mapPage virt phys (s, map)).2 := by
  have hi := pdpIdx_lt virt
  have hj := pdIdx_lt virt
  obtain ⟨o', s', map', hensure, hk, hne, hparts⟩ := h.ensureTable hv hi hj
  obtain ⟨hlink, hmine, hparts'⟩ := hparts.link hk.valid hi hj (ptIdx_lt virt) hne phys
  rw [mapPage_eq hensure]
  exact ⟨o', hk.trans_mine (hlink.mono fun f _ _ _ hf => hf.1 ▸ hmine), hparts'⟩

theorem Parts.pageMapMemory (hv : Valid s o) (h : Parts s o k map) (cnt virt phys : ℕ) :
    ∃ o', Keeps (Mine o k) s o (pageMapMemory cnt virt phys (s, map)).1 o' ∧
      Parts (pageMapMemory cnt virt phys (s, map)).1 o' k
        (pageMapMemory cnt virt phys (s, map)).2 := by
  induction cnt generalizing s o map virt phys with
  | zero => exact ⟨o, hv.keeps, h⟩
  | succ cnt ih =>
    obtain ⟨o₁, hk₁, hparts₁⟩ := h.mapPage hv virt phys
    obtain ⟨o₂, hk₂, hparts₂⟩ := ih hk₁.valid hparts₁ (u64 (virt + 4096)) (u64 (phys + 4096))
    exact ⟨o₂, hk₁.trans_mine hk₂, hparts₂⟩

/-! ## Two maps -/

def Side.num : Side → ℕ
  | .src => 1
  | .clone => 0

theorem Side.num_other_ne (side : Side) : side.other.num ≠ side.num := by
  cases side <;> decide

structure Apart (m : MapPair) (o : Owner) : Prop where
  valid : Valid m.machine o
  parts : ∀ side, Parts m.machine o side.num (m.map side)

theorem Apart.call (h : Apart m o) (side : Side) (c : MapCall) :
    ∃ o', Apart (m.call side c) o' ∧
      ∀ v, (m.call side c).getphys side.other v = m.getphys side.other v := by
  obtain ⟨o', hk, hparts⟩ := (h.parts side).pageMapMemory h.valid c.cnt c.virt c.phys
  have hother := (h.parts side.other).keeps hk fun f i j =>
    not_mine side.num_other_ne f (.dir i) j
  have hsame := (h.parts side.other).pageGetphys_keeps hk (not_mine side.num_other_ne)
  cases side with
  | src =>
    refine ⟨o', ⟨hk.valid, fun side => ?_⟩, hsame⟩
    cases side with
    | src => exact hparts
    | clone => exact hother
  | clone =>
    refine ⟨o', ⟨hk.valid, fun side => ?_⟩, hsame⟩
    cases side with
    | src => exact hother
    | clone => exact hparts

theorem Apart.run (h : Apart m o) (calls : List (Side × MapCall)) :
    ∃ o', Apart (m.run calls) o' := by
  induction calls generalizing m o with
  | nil => exact ⟨o, h⟩
  | cons c calls ih =>
    obtain ⟨o₁, h₁, -⟩ := h.call c.1 c.2
    exact ih h₁

theorem Apart.getphys_run (h : Apart m o) (side : Side) (calls : List MapCall) (v : ℕ) :
    (m.run (calls.map fun c => (side, c))).getphys side.other v = m.getphys side.other v := by
  induction calls generalizing m o with
  | nil => rfl
  | cons c calls ih =>
    obtain ⟨o₁, h₁, hsame⟩ := h.call side c
    exact (ih h₁).trans (hsame v)

/-! ## After `page_clone_map` -/

open Classical in
noncomputable def ownerOf (s : Machine) (src : PageMap) : Owner := fun f =>
  if h : ∃ i < 512, s.kmap (src.pageDirs i) = f then some (1, .dir h.choose)
  else if ∃ n < s.frames, s.frameAt n = f then some (1, .table 0 0) else none

theorem Allocated.valid (h : Allocated s src) (hs : Supplies s) : Valid s (ownerOf s src) := by
  refine ⟨hs, fun n hn => ?_, fun f x hx => ?_⟩
  · have hfree : ¬∃ n' < s.frames, s.frameAt n' = s.frameAt n := by
      rintro ⟨n', hn', heq⟩
      exact Nat.not_lt.mpr hn (hs.frame_inj heq ▸ hn')
    rw [ownerOf, dif_neg, if_neg hfree]
    rintro ⟨i, hi, heq⟩
    exact hfree (heq ▸ (h.dir i hi).frame)
  · rw [ownerOf] at hx
    split at hx
    · next hdir =>
      obtain ⟨i, hi, rfl⟩ := hdir
      exact (h.dir i hi).frame
    · split at hx
      · assumption
      · cases hx

theorem Allocated.parts (h : Allocated s src) (hsrc : Coherent s src) :
    Parts s (ownerOf s src) 1 src := by
  refine ⟨fun i hi => ⟨(h.dir i hi).page, rfl, ?_⟩, fun i hi j hj => ⟨0, 0, fun ht => ?_⟩, hsrc⟩
  · have hdir : ∃ i' < 512, s.kmap (src.pageDirs i') = s.kmap (src.pageDirs i) := ⟨i, hi, rfl⟩
    obtain ⟨hlt, heq⟩ := hdir.choose_spec
    rw [ownerOf, dif_pos hdir, h.dir_inj _ hlt i hi heq]
  · have hne : ¬∃ i' < 512, s.kmap (src.pageDirs i') = s.kmap (src.pageTables i j) := by
      rintro ⟨i', hi', heq⟩
      exact h.dir_ne i' hi' i hi j hj ht heq
    refine ⟨(h.table i hi j hj ht).page, rfl, ?_⟩
    rw [ownerOf, dif_neg hne, if_pos (h.table i hi j hj ht).frame]

theorem Parts.allocated (h : Parts s o k map) (hv : Valid s o) : Allocated s map := by
  refine ⟨fun i hi => ⟨(h.dir i hi).old, hv.taken _ _ (h.dir i hi).owned⟩,
    fun i hi j hj ht => ?_, fun i hi i' hi' heq => ?_, fun i hi i' hi' j hj ht => ?_⟩
  · obtain ⟨a, b, htable⟩ := h.table i hi j hj
    exact ⟨(htable ht).old, hv.taken _ _ (htable ht).owned⟩
  · by_contra hne
    refine frame_ne (h.dir i hi).owned (h.dir i' hi').owned (fun hrole => hne ?_) heq
    cases hrole
    rfl
  · obtain ⟨a, b, htable⟩ := h.table i' hi' j hj
    refine frame_ne (h.dir i hi).owned (htable ht).owned fun hrole => ?_
    cases hrole

/-- The maps that `page_mk_map`, `page_clone_map` and `page_map_memory` leave behind. -/
theorem MapOk.allocated (h : MapOk s o k map) (hv : Valid s o) : Allocated s map :=
  h.parts.allocated hv

/-- The clone translates as its source does, and from then on what is mapped in one of the two
is not seen in the other. -/
theorem pageCloneMap_independent (hs : Supplies s) (halloc : Allocated s src)
    (hsrc : Coherent s src) :
    (∀ side v, (cloned s src).getphys side v = pageGetphys s v src) ∧
      Coherent (cloned s src).machine (cloned s src).clone ∧
      ∀ (before : List (Side × MapCall)) (side : Side) (calls : List MapCall) (v : ℕ),
        (((cloned s src).run before).run (calls.map fun c => (side, c))).getphys side.other v =
          ((cloned s src).run before).getphys side.other v := by
  have hparts := halloc.parts hsrc
  have hne : (1 : ℕ) ≠ 0 := by decide
  obtain ⟨o, hk, hbuilt⟩ := pageCloneMap_spec (halloc.valid hs) hparts.hasTables hne
  have hkept : Parts (cloned s src).machine o 1 src :=
    hparts.keeps hk fun f i j => not_mine hne f (.dir i) j
  have hclone : Parts (cloned s src).machine o 0 (cloned s src).clone := hbuilt.mapOk.parts
  have hapart : Apart (cloned s src) o := by
    refine ⟨hk.valid, fun side => ?_⟩
    cases side with
    | src => exact hkept
    | clone => exact hclone
  refine ⟨fun side v => ?_, hclone.coherent, fun before side calls v => ?_⟩
  · cases side with
    | src => exact hparts.pageGetphys_keeps hk (not_mine hne) v
    | clone =>
      have hshows : Shows (cloned s src).machine o 0 (cloned s src).clone
        ⟨pte s src, cloneLarge s src⟩ := hbuilt
      refine (hshows.pageGetphys_ite v).trans ?_
      by_cases hv : pml4Idx v = 0
      · rw [if_pos hv, hsrc.pageGetphys_of_slot hv]
        rfl
      · rw [if_neg hv, pageGetphys, if_neg hv]
  · obtain ⟨o', h'⟩ := hapart.run before
    exact h'.getphys_run side calls v

/-- A page is mapped anew in the source; the clone has the old one. -/
theorem pageCloneMap_independent_onePage :
    ∃ s src, Allocated s src ∧ Coherent s src ∧ pageGetphys s 0x1000 src = 0x5000 ∧
      (cloned s src).getphys .clone 0x1000 = 0x5000 ∧
      ((cloned s src).run [(.src, ⟨0x1000, 0x9000, 1⟩)]).getphys .clone 0x1000 = 0x5000 := by
  obtain ⟨w, o, -, h, -⟩ := exists_onePage 0 (fun _ _ => True) (fun _ => trivial) fun _ _ => trivial
  obtain ⟨src, hsrc, -⟩ := h.exists_map (k := 0) rfl
  have hshows : Shows w.machine o 0 src onePage := h.shows 0 src onePage hsrc rfl
  have hmap := hshows.mapOk
  have hpage : pageGetphys w.machine 0x1000 src = 0x5000 := by
    rw [hshows.pageGetphys_eq (by decide)]
    exact frameOf_onePage
  obtain ⟨hequal, -, hapart⟩ :=
    pageCloneMap_independent h.valid.toSupplies (hmap.allocated h.valid) hmap.coherent
  have hclone := (hequal .clone 0x1000).trans hpage
  refine ⟨w.machine, src, hmap.allocated h.valid, hmap.coherent, hpage, hclone, ?_⟩
  exact (hapart [] .src [⟨0x1000, 0x9000, 1⟩] 0x1000).trans hclone

end KernelOld.Space
