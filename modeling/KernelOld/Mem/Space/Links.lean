import KernelOld.Mem.Space.Ownership

/-!
# Page maps and the tables behind them

`MapOk s o k map` says that the kernel's pointers to the paging structures of a map agree with
the frames that the entries name, level by level. What the map translates is then given by
its page entries (`pte`).
-/

namespace KernelOld.Space
open Paging

/-- The entry `e` leads to the frame `f`, as far as the frame bits can name it. -/
def Names (e : Entry) (f : ℕ) : Prop := present e = true ∧ frameOf e = f % 2 ^ 52

theorem Names.frameOf_eq {e : Entry} {f : ℕ} (h : Names e f) (hf : f < 2 ^ 52) : frameOf e = f := by
  rw [h.2, Nat.mod_eq_of_lt hf]

structure RootOk (s : Machine) (o : Owner) (k : ℕ) (map : PageMap) : Prop where
  pml4 : Backed s o map.pml4 map.pml4Phys (k, .pml4)
  pdp : Backed s o map.pdp map.pdpPhys (k, .pdp)
  names : Names (word s.mem map.pml4Phys 0) map.pdpPhys

structure DirOk (s : Machine) (o : Owner) (k : ℕ) (map : PageMap) (i : ℕ) : Prop where
  dir : Backed s o (map.pageDirs i) (map.pageDirsPhys i) (k, .dir i)
  names : Names (word s.mem map.pdpPhys i) (map.pageDirsPhys i)
  small : large (word s.mem map.pdpPhys i) = false

structure TableOk (s : Machine) (o : Owner) (k : ℕ) (map : PageMap) (i j : ℕ) : Prop where
  absent : map.pageTables i j = 0 → present (word s.mem (map.pageDirsPhys i) j) = false
  table : map.pageTables i j ≠ 0 →
    Backed s o (map.pageTables i j) (s.kmap (map.pageTables i j)) (k, .table i j)
  names : map.pageTables i j ≠ 0 →
    Names (word s.mem (map.pageDirsPhys i) j) (s.kmap (map.pageTables i j))

structure MapOk (s : Machine) (o : Owner) (k : ℕ) (map : PageMap) : Prop where
  root : RootOk s o k map
  dir : ∀ i < 512, DirOk s o k map i
  table : ∀ i < 512, ∀ j < 512, TableOk s o k map i j

def pte (s : Machine) (map : PageMap) (i j p : ℕ) : Entry :=
  if map.pageTables i j = 0 then 0 else s.entry (map.pageTables i j) p

def pde (s : Machine) (map : PageMap) (i j : ℕ) : Entry := word s.mem (map.pageDirsPhys i) j

variable {s s' : Machine} {o o' : Owner} {W : ℕ → ℕ → Prop} {k i j p v : ℕ} {map map' : PageMap}

theorem RootOk.keeps (h : RootOk s o k map) (hk : Keeps W s o s' o') (hW : ¬W map.pml4Phys 0) :
    RootOk s' o' k map := by
  refine ⟨h.pml4.keeps hk, h.pdp.keeps hk, ?_⟩
  rw [hk.words _ _ 0 h.pml4.owned (by decide) hW]
  exact h.names

theorem DirOk.keeps (h : DirOk s o k map i) (hroot : RootOk s o k map) (hk : Keeps W s o s' o')
    (hi : i < 512) (hW : ¬W map.pdpPhys i) : DirOk s' o' k map i := by
  have hword := hk.words _ _ i hroot.pdp.owned hi hW
  refine ⟨h.dir.keeps hk, ?_, ?_⟩
  · rw [hword]
    exact h.names
  · rw [hword]
    exact h.small

theorem TableOk.keeps (h : TableOk s o k map i j) (hdir : o (map.pageDirsPhys i) = some (k, .dir i))
    (hk : Keeps W s o s' o') (hj : j < 512) (hW : ¬W (map.pageDirsPhys i) j) :
    TableOk s' o' k map i j := by
  have hword := hk.words _ _ j hdir hj hW
  refine ⟨fun ht => ?_, fun ht => ?_, fun ht => ?_⟩
  · rw [hword]
    exact h.absent ht
  · rw [((h.table ht).keeps hk).kmap_eq]
    exact (h.table ht).keeps hk
  · rw [((h.table ht).keeps hk).kmap_eq, hword]
    exact h.names ht

theorem pte_keeps {x : ℕ × Role} (h : map.pageTables i j ≠ 0 →
      Backed s o (map.pageTables i j) (s.kmap (map.pageTables i j)) x) (hk : Keeps W s o s' o')
    (hp : p < 512) (hW : map.pageTables i j ≠ 0 → ¬W (s.kmap (map.pageTables i j)) p) :
    pte s' map i j p = pte s map i j p := by
  rw [pte, pte]
  by_cases ht : map.pageTables i j = 0
  · rw [if_pos ht, if_pos ht]
  · rw [if_neg ht, if_neg ht, ((h ht).keeps hk).entry_eq, (h ht).entry_eq]
    exact hk.words _ _ p (h ht).owned hp (hW ht)

theorem MapOk.keeps (h : MapOk s o k map) (hk : Keeps W s o s' o')
    (hW : ∀ f r j, o f = some (k, r) → ¬W f j) : MapOk s' o' k map where
  root := h.root.keeps hk (hW _ _ _ h.root.pml4.owned)
  dir i hi := (h.dir i hi).keeps h.root hk hi (hW _ _ _ h.root.pdp.owned)
  table i hi j hj :=
    (h.table i hi j hj).keeps (h.dir i hi).dir.owned hk hj (hW _ _ _ (h.dir i hi).dir.owned)

def HasTables (s : Machine) (o : Owner) (k : ℕ) (map : PageMap) : Prop :=
  ∀ i < 512, ∀ j < 512, ∃ r, map.pageTables i j ≠ 0 →
    Backed s o (map.pageTables i j) (s.kmap (map.pageTables i j)) (k, r)

theorem MapOk.hasTables (h : MapOk s o k map) : HasTables s o k map :=
  fun i hi j hj => ⟨.table i j, (h.table i hi j hj).table⟩

theorem HasTables.keeps (h : HasTables s o k map) (hk : Keeps W s o s' o') :
    HasTables s' o' k map := by
  intro i hi j hj
  obtain ⟨r, htable⟩ := h i hi j hj
  refine ⟨r, fun ht => ?_⟩
  rw [((htable ht).keeps hk).kmap_eq]
  exact (htable ht).keeps hk

theorem idx_lt (v k : ℕ) : v / k % 512 < 512 := Nat.mod_lt _ (by decide)

theorem pdpIdx_lt (v : ℕ) : pdpIdx v < 512 := by
  rw [pdpIdx_eq]
  exact idx_lt v _

theorem pdIdx_lt (v : ℕ) : pdIdx v < 512 := by
  rw [pdIdx_eq]
  exact idx_lt v _

theorem ptIdx_lt (v : ℕ) : ptIdx v < 512 := by
  rw [ptIdx_eq]
  exact idx_lt v _

theorem pml4Idx_eq_zero (hv : v < 2 ^ 39) : pml4Idx v = 0 := by
  rw [pml4Idx_eq, Nat.div_eq_of_lt hv]

theorem frameOf_zero : frameOf 0 = 0 := by decide

/-- A table is linked into its directory exactly if the map has a pointer to it. -/
def Coherent (s : Machine) (map : PageMap) : Prop :=
  ∀ i < 512, ∀ j < 512, present (s.entry (map.pageDirs i) j) = true ↔ map.pageTables i j ≠ 0

theorem MapOk.coherent (h : MapOk s o k map) : Coherent s map := by
  intro i hi j hj
  have htable := h.table i hi j hj
  rw [(h.dir i hi).dir.entry_eq]
  refine ⟨fun hpresent hnull => ?_, fun hnull => (htable.names hnull).1⟩
  rw [htable.absent hnull] at hpresent
  cases hpresent

theorem Coherent.pageGetphys_of_slot (h : Coherent s map) (hv : pml4Idx v = 0) :
    pageGetphys s v map = frameOf (pte s map (pdpIdx v) (pdIdx v) (ptIdx v)) := by
  have htable := h _ (pdpIdx_lt v) _ (pdIdx_lt v)
  rw [pageGetphys, if_pos hv, pte]
  by_cases ht : map.pageTables (pdpIdx v) (pdIdx v) = 0
  · rw [if_pos ht, frameOf_zero, if_pos]
    simp [ht]
  · rw [if_neg ht, if_neg]
    simp [ht, htable.mpr ht]

theorem MapOk.pageGetphys_eq (h : MapOk s o k map) (hv : v < 2 ^ 39) :
    pageGetphys s v map = frameOf (pte s map (pdpIdx v) (pdIdx v) (ptIdx v)) :=
  h.coherent.pageGetphys_of_slot (pml4Idx_eq_zero hv)

theorem MapOk.walk_eq_dir (h : MapOk s o k map) (hval : Valid s o) (hreach : InReach s)
    (hv : v < 2 ^ 39) :
    walk s.mem map.pml4Phys v =
      let e := pde s map (pdpIdx v) (pdIdx v)
      if !present e then none
      else if large e then some (frameOf e / 2 ^ 21 * 2 ^ 21 + v % 2 ^ 21 / 4096 * 4096)
      else
        let e' := word s.mem (frameOf e) (ptIdx v)
        if !present e' then none else some (frameOf e') := by
  have hdir := h.dir _ (pdpIdx_lt v)
  have hpdp := h.root.names.frameOf_eq (hval.lt hreach h.root.pdp.owned)
  have hframe := hdir.names.frameOf_eq (hval.lt hreach hdir.dir.owned)
  rw [walk]
  simp only [pml4Idx_eq_zero hv, h.root.names.1, hpdp, hdir.names.1, hframe, hdir.small,
    Bool.not_true, Bool.false_eq_true, if_false]
  rfl

theorem MapOk.walk_keeps (h : MapOk s o k map) (hval : Valid s o) (hreach : InReach s)
    (hk : Keeps W s o s' o') (hreach' : InReach s') (hW : ∀ f r j, o f = some (k, r) → ¬W f j)
    (hv : v < 2 ^ 39) : walk s'.mem map.pml4Phys v = walk s.mem map.pml4Phys v := by
  have hi := pdpIdx_lt v
  have hj := pdIdx_lt v
  have hdir := (h.dir _ hi).dir.owned
  have htable := h.table _ hi _ hj
  have hpde : pde s' map (pdpIdx v) (pdIdx v) = pde s map (pdpIdx v) (pdIdx v) :=
    hk.words _ _ _ hdir hj (hW _ _ _ hdir)
  rw [(h.keeps hk hW).walk_eq_dir hk.valid hreach' hv, h.walk_eq_dir hval hreach hv, hpde]
  by_cases ht : map.pageTables (pdpIdx v) (pdIdx v) = 0
  · have habsent : present (pde s map (pdpIdx v) (pdIdx v)) = false := htable.absent ht
    simp only [habsent, Bool.not_false, if_true]
  · have hown := (htable.table ht).owned
    have hframe : frameOf (pde s map (pdpIdx v) (pdIdx v)) = _ :=
      (htable.names ht).frameOf_eq (hval.lt hreach hown)
    have hpte : word s'.mem (frameOf (pde s map (pdpIdx v) (pdIdx v))) (ptIdx v) =
        word s.mem (frameOf (pde s map (pdpIdx v) (pdIdx v))) (ptIdx v) := by
      rw [hframe]
      exact hk.words _ _ _ hown (ptIdx_lt v) (hW _ _ _ hown)
    simp only [hpte]

theorem MapOk.walk_eq (h : MapOk s o k map) (hval : Valid s o) (hreach : InReach s)
    (hv : v < 2 ^ 39) (hsmall : large (pde s map (pdpIdx v) (pdIdx v)) = false) :
    walk s.mem map.pml4Phys v =
      if present (pte s map (pdpIdx v) (pdIdx v) (ptIdx v)) then
        some (frameOf (pte s map (pdpIdx v) (pdIdx v) (ptIdx v)))
      else none := by
  have htable := h.table _ (pdpIdx_lt v) _ (pdIdx_lt v)
  rw [h.walk_eq_dir hval hreach hv]
  simp only [hsmall, Bool.false_eq_true, if_false]
  by_cases ht : map.pageTables (pdpIdx v) (pdIdx v) = 0
  · rw [pde, htable.absent ht, pte, if_pos ht]
    rfl
  · have hnames := htable.names ht
    rw [pde, hnames.1, hnames.frameOf_eq (hval.lt hreach (htable.table ht).owned), pte, if_neg ht,
      Machine.entry]
    cases present (word s.mem (s.kmap (map.pageTables (pdpIdx v) (pdIdx v))) (ptIdx v)) <;> rfl

theorem MapOk.walk_large (h : MapOk s o k map) (hval : Valid s o) (hreach : InReach s)
    (hv : v < 2 ^ 39) (htable : map.pageTables (pdpIdx v) (pdIdx v) ≠ 0)
    (hlarge : large (pde s map (pdpIdx v) (pdIdx v)) = true) :
    walk s.mem map.pml4Phys v =
      some (frameOf (pde s map (pdpIdx v) (pdIdx v)) / 2 ^ 21 * 2 ^ 21 +
        v % 2 ^ 21 / 4096 * 4096) := by
  have hpresent := ((h.table _ (pdpIdx_lt v) _ (pdIdx_lt v)).names htable).1
  rw [← pde] at hpresent
  rw [h.walk_eq_dir hval hreach hv]
  simp only [hpresent, hlarge, Bool.not_true, Bool.false_eq_true, if_false, if_true]

theorem MapOk.walk_eq_getphys (h : MapOk s o k map) (hval : Valid s o) (hreach : InReach s)
    (hv : v < 2 ^ 39) (hsmall : large (pde s map (pdpIdx v) (pdIdx v)) = false)
    (hexact : present (pte s map (pdpIdx v) (pdIdx v) (ptIdx v)) = true ↔
      frameOf (pte s map (pdpIdx v) (pdIdx v) (ptIdx v)) ≠ 0) :
    walk s.mem map.pml4Phys v =
      if pageGetphys s v map = 0 then none else some (pageGetphys s v map) := by
  rw [h.walk_eq hval hreach hv hsmall, h.pageGetphys_eq hv]
  by_cases hz : frameOf (pte s map (pdpIdx v) (pdIdx v) (ptIdx v)) = 0
  · rw [if_pos hz, if_neg]
    exact fun hpresent => hexact.mp hpresent hz
  · rw [if_neg hz, if_pos (hexact.mpr hz)]

end KernelOld.Space
