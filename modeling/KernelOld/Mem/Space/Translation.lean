import KernelOld.Mem.Space.Clones
import KernelOld.Mem.Space.DataPages

/-!
# The translation of mapped pages

What `page_getphys` finds after `page_map_memory`, for a map of which only this is known: a
directory entry is present exactly where there is a table, and the directories and tables are
pages that the kernel was given, each over a frame of its own.
-/

namespace KernelOld.Space
open MachineWord Paging

def TablesApart (s : Machine) (map : PageMap) : Prop :=
  ∀ i < 512, ∀ j < 512, ∀ i' < 512, ∀ j' < 512,
    map.pageTables i j ≠ 0 → map.pageTables i' j' ≠ 0 →
      s.kmap (map.pageTables i j) = s.kmap (map.pageTables i' j') → i = i' ∧ j = j'

/-- Every directory and every table of the map has been handed out and has its frame for
itself. -/
structure Separate (s : Machine) (map : PageMap) : Prop extends Allocated s map where
  apart : TablesApart s map

structure Tabled (s : Machine) (o : Owner) (k : ℕ) (map : PageMap)
    (P : ℕ → ℕ → ℕ → Entry) : Prop extends Parts s o k map where
  apart : TablesApart s map
  pte_eq : ∀ i < 512, ∀ j < 512, ∀ p < 512, pte s map i j p = P i j p

variable {s s' : Machine} {o o' : Owner} {k i j : ℕ} {map : PageMap} {P : ℕ → ℕ → ℕ → Entry}

theorem MapOk.separate (h : MapOk s o k map) (hv : Valid s o) : Separate s map := by
  refine ⟨h.allocated hv, fun i hi j hj i' hi' j' hj' ht ht' heq => ?_⟩
  have hrole := frame_ne ((h.table i hi j hj).table ht).owned
    ((h.table i' hi' j' hj').table ht').owned
  by_contra hne
  refine hrole (fun hsame => hne ?_) heq
  cases hsame
  exact ⟨rfl, rfl⟩

/-! ## A new table -/

section
variable (hv : Valid s o) (h : Tabled s o k map P)
  (hlink : NewLinked s o (s.kmap (map.pageDirs i)) j (k, .table i j) s')
include hv h hlink

theorem Tabled.old_table {i' j' : ℕ} (hi' : i' < 512) (hj' : j' < 512)
    (ht : map.pageTables i' j' ≠ 0) :
    s'.kmap (map.pageTables i' j') = s.kmap (map.pageTables i' j') ∧
      s'.kmap (map.pageTables i' j') ≠ s'.kmap s.nextPage := by
  obtain ⟨a, b, htable⟩ := h.table i' hi' j' hj'
  have hkept : s'.kmap (map.pageTables i' j') = s.kmap (map.pageTables i' j') :=
    ((htable ht).keeps hlink.keeps).kmap_eq
  refine ⟨hkept, ?_⟩
  rw [hkept, hlink.backed.kmap_eq]
  exact (hv.ne_unused (htable ht).owned (Nat.le_refl s.frames)).symm

theorem Tabled.newTable_apart :
    TablesApart s' { map with pageTables := setTable map.pageTables i j s.nextPage } := by
  intro a ha b hb a' ha' b' hb' ht ht' heq
  dsimp only at ht ht' heq
  by_cases hnew : a = i ∧ b = j
  all_goals by_cases hnew' : a' = i ∧ b' = j
  · exact ⟨hnew.1.trans hnew'.1.symm, hnew.2.trans hnew'.2.symm⟩
  · rw [setTable_of_ne _ _ hnew'] at ht' heq
    rw [hnew.1, hnew.2, setTable_self] at heq
    exact absurd heq.symm (h.old_table hv hlink ha' hb' ht').2
  · rw [setTable_of_ne _ _ hnew] at ht heq
    rw [hnew'.1, hnew'.2, setTable_self] at heq
    exact absurd heq (h.old_table hv hlink ha hb ht).2
  · rw [setTable_of_ne _ _ hnew] at ht heq
    rw [setTable_of_ne _ _ hnew'] at ht' heq
    rw [(h.old_table hv hlink ha hb ht).1, (h.old_table hv hlink ha' hb' ht').1] at heq
    exact h.apart a ha b hb a' ha' b' hb' ht ht' heq

end

theorem Tabled.pageMkTable (hv : Valid s o) (h : Tabled s o k map P) (hi : i < 512)
    (hj : j < 512) (hnull : map.pageTables i j = 0) :
    ∃ o' s' map', pageMkTable i j (s, map) = (s', map') ∧ Valid s' o' ∧
      map'.pageTables i j ≠ 0 ∧ Tabled s' o' k map' P := by
  obtain ⟨hlink, hwords⟩ := newLinked_cleared hv (h.dir i hi) hj (k, .table i j)
  have hne : s.nextPage ≠ 0 := hv.page_ne _
  refine ⟨_, _, _, rfl, hlink.keeps.valid, ?_,
    h.addTable hi hlink.keeps hne hlink.backed hlink.names.1, h.newTable_apart hv hlink, ?_⟩
  · dsimp only
    rw [setTable_self]
    exact hne
  intro a ha b hb p hp
  rw [← h.pte_eq a ha b hb p hp]
  by_cases hsame : a = i ∧ b = j
  · obtain ⟨rfl, rfl⟩ := hsame
    simp only [pte, setTable_self, if_neg hne, if_pos hnull]
    rw [hlink.backed.entry_eq, hwords p hp]
  · obtain ⟨c, d, htable⟩ := h.table a ha b hb
    rw [← pte_keeps htable hlink.keeps hp fun ht hw => ?_]
    · simp only [pte, setTable_of_ne _ _ hsame]
    · refine frame_ne (htable ht).owned (h.dir i hi).owned (fun hrole => ?_) hw.1
      cases hrole

theorem Tabled.ensureTable (hv : Valid s o) (h : Tabled s o k map P) (hi : i < 512)
    (hj : j < 512) :
    ∃ o' s' map', (if present (s.entry (map.pageDirs i) j) then (s, map)
        else Space.pageMkTable i j (s, map)) = (s', map') ∧
      Valid s' o' ∧ map'.pageTables i j ≠ 0 ∧ Tabled s' o' k map' P := by
  by_cases hpresent : present (s.entry (map.pageDirs i) j) = true
  · exact ⟨o, s, map, if_pos hpresent, hv, (h.coherent i hi j hj).mp hpresent, h⟩
  · have hnull : map.pageTables i j = 0 := by
      by_contra hne
      exact hpresent ((h.coherent i hi j hj).mpr hne)
    rw [if_neg hpresent]
    exact h.pageMkTable hv hi hj hnull

/-! ## The page -/

variable {virt : ℕ}

theorem Tabled.link (hv : Valid s o) (h : Tabled s o k map P)
    (hne : map.pageTables (pdpIdx virt) (pdIdx virt) ≠ 0) (phys : ℕ) :
    Tabled (s.link (map.pageTables (pdpIdx virt) (pdIdx virt)) (ptIdx virt) phys) o k map
      (mapped virt phys P) := by
  have hi := pdpIdx_lt virt
  have hj := pdIdx_lt virt
  obtain ⟨hk, -, hparts⟩ := h.toParts.link hv hi hj (ptIdx_lt virt) hne phys
  refine ⟨hparts, h.apart, fun a ha b hb p hp => ?_⟩
  obtain ⟨c, d, htable⟩ := h.table a ha b hb
  rw [mapped]
  by_cases hentry : a = pdpIdx virt ∧ b = pdIdx virt ∧ p = ptIdx virt
  · obtain ⟨rfl, rfl, rfl⟩ := hentry
    have hback := htable hne
    have hold := h.pte_eq _ hi _ hj _ hp
    rw [pte, if_neg hne] at hold
    rw [if_pos ⟨rfl, rfl, rfl⟩, pte, if_neg hne, (hback.keeps hk).entry_eq, hback.word_link,
      ← hback.entry_eq, hold]
  · rw [if_neg hentry, ← h.pte_eq a ha b hb p hp]
    refine pte_keeps htable hk hp fun ht hw => hentry ?_
    obtain ⟨hai, hbj⟩ := h.apart a ha b hb _ hi _ hj ht hne hw.1
    exact ⟨hai, hbj, hw.2⟩

theorem Tabled.mapPage (hv : Valid s o) (h : Tabled s o k map P) (virt phys : ℕ) :
    ∃ o' s' map', mapPage virt phys (s, map) = (s', map') ∧ Valid s' o' ∧
      Tabled s' o' k map' (mapped virt phys P) := by
  have hi := pdpIdx_lt virt
  have hj := pdIdx_lt virt
  obtain ⟨o', s', map', hensure, hv', hne, h'⟩ := h.ensureTable hv hi hj
  obtain ⟨hk, -, -⟩ := h'.toParts.link hv' hi hj (ptIdx_lt virt) hne phys
  exact ⟨o', _, map', mapPage_eq hensure, hk.valid, h'.link hv' hne phys⟩

theorem Tabled.pageMapMemory (hv : Valid s o) (h : Tabled s o k map P) (cnt virt phys : ℕ) :
    ∃ o' s' map', pageMapMemory cnt virt phys (s, map) = (s', map') ∧ Valid s' o' ∧
      Tabled s' o' k map' (mappedAll cnt virt phys P) := by
  induction cnt generalizing s o map P virt phys with
  | zero => exact ⟨o, s, map, rfl, hv, h⟩
  | succ cnt ih =>
    obtain ⟨o₁, s₁, map₁, hpage, hv₁, h₁⟩ := h.mapPage hv virt phys
    rw [Space.pageMapMemory, hpage]
    exact ih hv₁ h₁ _ _

theorem Separate.tabled (h : Separate s map) (hcoherent : Coherent s map) :
    Tabled s (ownerOf s map) 1 map (pte s map) :=
  ⟨h.toAllocated.parts hcoherent, h.apart, fun _ _ _ _ _ _ => rfl⟩

theorem Tabled.pageGetphys_eq (h : Tabled s o k map P) {a : ℕ} (ha : a < 2 ^ 39) :
    pageGetphys s a map = frameOf (P (pdpIdx a) (pdIdx a) (ptIdx a)) := by
  rw [h.coherent.pageGetphys_of_slot (pml4Idx_eq_zero ha),
    h.pte_eq _ (pdpIdx_lt a) _ (pdIdx_lt a) _ (ptIdx_lt a)]

/-- After `page_map_memory` the pages of the range lead to consecutive frames, and all others
lead where they led. The map stays one of which this can be said again. -/
theorem pageMapMemory_translation (virt phys cnt : ℕ) (hs : Supplies s) (h : Separate s map)
    (hcoherent : Coherent s map) (hvirt : virt + cnt * 4096 ≤ 2 ^ 39)
    (hphys : phys + cnt * 4096 < 2 ^ 52) :
    ∃ s' map', pageMapMemory cnt virt phys (s, map) = (s', map') ∧
      Supplies s' ∧ Separate s' map' ∧ Coherent s' map' ∧
      ∀ a < 2 ^ 39,
        (∀ i < cnt, a / 4096 = virt / 4096 + i →
          pageGetphys s' a map' = phys / 4096 * 4096 + i * 4096) ∧
        ((∀ i < cnt, a / 4096 ≠ virt / 4096 + i) →
          pageGetphys s' a map' = pageGetphys s a map) := by
  have htabled := h.tabled hcoherent
  obtain ⟨o', s', map', hcall, hv', h'⟩ :=
    htabled.pageMapMemory (h.toAllocated.valid hs) cnt virt phys
  have hfinds : ∀ a < 2 ^ 39, pageGetphys s' a map' =
      if virt / 4096 ≤ a / 4096 ∧ a / 4096 < virt / 4096 + cnt then
        frameOf (BitVec.ofNat 64 (phys + (a / 4096 - virt / 4096) * 4096))
      else pageGetphys s a map := by
    intro a ha
    rw [h'.pageGetphys_eq ha, htabled.pageGetphys_eq ha]
    exact frame_mappedAll_page cnt ⟨pte s map, fun _ _ => false⟩ hvirt hphys.le ha
  refine ⟨s', map', hcall, hv'.toSupplies, ⟨h'.toParts.allocated hv', h'.apart⟩, h'.coherent,
    fun a ha => ⟨fun i hi hpage => ?_, fun hout => ?_⟩⟩
  · rw [hfinds a ha, if_pos (by omega), frameOf_ofNat_eq, hpage, Nat.add_sub_cancel_left,
      Nat.mod_eq_of_lt (by omega)]
    omega
  · rw [hfinds a ha, if_neg]
    rintro ⟨hlo, hhi⟩
    exact hout (a / 4096 - virt / 4096) (by omega) (by omega)

/-- One page is mapped anew and two get their first frames. -/
theorem pageMapMemory_translation_onePage :
    ∃ s map s' map', Separate s map ∧ Coherent s map ∧ pageGetphys s 0x1000 map = 0x5000 ∧
      pageMapMemory 3 0x1234 0x8765 (s, map) = (s', map') ∧
      pageGetphys s' 0x1000 map' = 0x8000 ∧ pageGetphys s' 0x3fff map' = 0xa000 ∧
      pageGetphys s' 0x4000 map' = pageGetphys s 0x4000 map := by
  obtain ⟨w, o, -, h, -⟩ := exists_onePage 0 (fun _ _ => True) (fun _ => trivial) fun _ _ => trivial
  obtain ⟨map, hmap, -⟩ := h.exists_map (k := 0) rfl
  have hshows : Shows w.machine o 0 map onePage := h.shows 0 map onePage hmap rfl
  have hsep := hshows.mapOk.separate h.valid
  have hpage : pageGetphys w.machine 0x1000 map = 0x5000 := by
    rw [hshows.pageGetphys_eq (by decide)]
    exact frameOf_onePage
  obtain ⟨s', map', hcall, -, -, -, hfinds⟩ :=
    pageMapMemory_translation 0x1234 0x8765 3 h.valid.toSupplies hsep hshows.mapOk.coherent
      (by decide) (by decide)
  refine ⟨w.machine, map, s', map', hsep, hshows.mapOk.coherent, hpage, hcall, ?_, ?_, ?_⟩
  · exact (hfinds 0x1000 (by decide)).1 0 (by decide) (by decide)
  · exact (hfinds 0x3fff (by decide)).1 2 (by decide) (by decide)
  · exact (hfinds 0x4000 (by decide)).2 (by decide)

end KernelOld.Space
