import KernelOld.Mem.Space.Worlds

/-!
# Software and hardware page tables

For every address space of a running system the processor translates as `page_getphys` does, as
long as two things do not happen: a page-size bit that is left in a frame that `page_clone_map`
does not clear, and a page mapped to the frame at address 0.
-/

namespace KernelOld.Space
open MachineWord Paging LinkedList Relation CountedLoop

/-- The walk of the processor gives the frame of `page_getphys`, or fails where that is 0. -/
def Agrees (s : Machine) (map : PageMap) : Prop :=
  ∀ v < 2 ^ 39, walk s.mem map.pml4Phys v =
    if pageGetphys s v map = 0 then none else some (pageGetphys s v map)

/-- The processor and `page_getphys` translate alike in every map. -/
def World.Agrees (w : World) : Prop := ∀ map ∈ w.maps, Space.Agrees w.machine map

/-- No page-size bit in an entry that `page_clone_map` will use, and no page at frame 0. -/
def SpaceCall.Clean (w : World) : SpaceCall → Prop
  | .clone k => ∀ src, w.maps[k]? = some src → ∀ i < 512, ∀ j < 512, src.pageTables i j ≠ 0 →
      large (word w.machine.mem (w.machine.frameAt (dirIndex w.machine src i)) j) = false
  | .mapMemory _ _ phys cnt => ∀ n < cnt, frameOf (BitVec.ofNat 64 (phys + n * 4096)) ≠ 0
  | _ => True

def NamesIfPresent (e : Entry) : Prop := present e = true ↔ frameOf e ≠ 0

structure EntryView.Plain (view : EntryView) : Prop where
  small : ∀ i < 512, ∀ j < 512, view.large i j = false
  names : ∀ i < 512, ∀ j < 512, ∀ p < 512, NamesIfPresent (view.entries i j p)

variable {s : Machine} {o : Owner} {k : ℕ} {map : PageMap} {w : World} {view : EntryView}

theorem ofNat_u64_add (x y : ℕ) : BitVec.ofNat 64 (u64 x + y) = BitVec.ofNat 64 (x + y) := by
  apply BitVec.eq_of_toNat_eq
  rw [BitVec.toNat_ofNat, BitVec.toNat_ofNat, u64, Nat.mod_add_mod]

/-- What holds of single page entries, before and after mapping, holds after any number of
pages. -/
theorem mappedAll_induction {Q : Entry → Prop} {P : ℕ → ℕ → ℕ → Entry} (cnt virt phys : ℕ)
    (hP : ∀ i < 512, ∀ j < 512, ∀ p < 512, Q (P i j p))
    (hQ : ∀ n < cnt, ∀ e, Q (setPageFrame e (BitVec.ofNat 64 (phys + n * 4096)) ||| userFlags)) :
    ∀ i < 512, ∀ j < 512, ∀ p < 512, Q (mappedAll cnt virt phys P i j p) := by
  induction cnt generalizing virt phys P with
  | zero => exact hP
  | succ cnt ih =>
    refine ih _ _ (fun i hi j hj p hp => ?_) fun n hn e => ?_
    · rw [mapped]
      split
      · simpa using hQ 0 (Nat.succ_pos cnt) (P i j p)
      · exact hP i hi j hj p hp
    · have hsum : phys + 4096 + n * 4096 = phys + (n + 1) * 4096 := by omega
      rw [ofNat_u64_add, hsum]
      exact hQ (n + 1) (Nat.succ_lt_succ hn) e

theorem plain_empty : EntryView.empty.Plain where
  small _ _ _ _ := rfl
  names _ _ _ _ _ _ := by
    show present 0 = true ↔ frameOf 0 ≠ 0
    decide

theorem SpaceCall.Clean.plain {c : SpaceCall} (hclean : c.Clean w) (h : view.Plain) :
    (c.onView (c.found w) view).Plain := by
  cases c with
  | mk => exact plain_empty
  | clone k =>
    refine ⟨fun i hi j hj => ?_, h.names⟩
    show (w.maps[k]?).elim false (fun src => cloneLarge w.machine src i j) = false
    cases hsrc : w.maps[k]? with
    | none => rfl
    | some src =>
      show cloneLarge w.machine src i j = false
      rw [cloneLarge]
      split
      · rfl
      · exact hclean src hsrc i hi j hj ‹_›
  | mapMemory k virt phys cnt =>
    refine ⟨h.small, ?_⟩
    refine mappedAll_induction (Q := NamesIfPresent) cnt virt phys h.names fun n hn e => ?_
    rw [NamesIfPresent, present_mapped_user, frameOf_mapped]
    exact iff_of_true rfl (hclean n hn)
  | alloc k size back new => exact h
  | allocAt k base size back new => exact h

theorem Shows.agrees (h : Shows s o k map view) (hval : Valid s o) (hreach : InReach s)
    (hplain : view.Plain) : Agrees s map := by
  intro v hv
  have hfilled := h.filled _ _ (pdpIdx_lt v) (pdIdx_lt v) trivial
  refine h.mapOk.walk_eq_getphys hval hreach hv ?_ ?_
  · rw [hfilled.large_eq]
    exact hplain.small _ (pdpIdx_lt v) _ (pdIdx_lt v)
  · rw [hfilled.pte_eq _ (ptIdx_lt v)]
    exact hplain.names _ (pdpIdx_lt v) _ (pdIdx_lt v) _ (ptIdx_lt v)

/-- In every run of clean calls, every space is translated by the processor as by
`page_getphys`. -/
theorem walk_agrees_with_getphys (hs : Supplies s)
    (hrun : ReflTransGen (SpaceStep SpaceCall.Clean) ⟨s, []⟩ w) (hreach : InReach w.machine) :
    w.Agrees := by
  obtain ⟨o, views, h, -, hplain⟩ :=
    run_refines hs plain_empty (fun w c view _ hclean => hclean.plain) hrun
  intro map hmap
  obtain ⟨k, hk⟩ := List.mem_iff_getElem?.mp hmap
  obtain ⟨view, hview⟩ := h.exists_view hk
  exact (h.shows k map view hk hview).agrees h.valid hreach
    (hplain view (List.mem_of_getElem? hview))

theorem Shows.table_ne {i j p : ℕ} (h : Shows s o k map view) (hi : i < 512) (hj : j < 512)
    (hp : p < 512) (hne : frameOf (view.entries i j p) ≠ 0) : map.pageTables i j ≠ 0 := by
  intro hnull
  rw [← (h.filled i j hi hj trivial).pte_eq p hp, pte, if_pos hnull] at hne
  exact hne frameOf_zero

def startMachine (fill : UInt8) : Machine where
  mem _ := fill
  kmap _ := 0
  kpml4Phys := 0
  pageAt n := (n + 1) * 4096
  frameAt n := (n + 256) * 4096
  pages := 0
  frames := 0

variable {fill : UInt8}

theorem supplies_start : Supplies (startMachine fill) where
  page_inj m n h := by
    have : (m + 1) * 4096 = (n + 1) * 4096 := h
    omega
  page_ne n := by
    show (n + 1) * 4096 ≠ 0
    omega
  frame_inj m n h := by
    have : (m + 256) * 4096 = (n + 256) * 4096 := h
    omega
  frame_aligned n := Nat.dvd_mul_left ..

theorem inReach_of_start (hframes : s.frameAt = (startMachine fill).frameAt)
    (hle : s.frames ≤ 2 ^ 39) : InReach s := by
  intro n hn
  rw [hframes]
  show (n + 256) * 4096 < 2 ^ 52
  omega

theorem word_start (p j : ℕ) :
    word (startMachine fill).mem p j = word (startMachine fill).mem 0 0 := by
  rw [word, word]
  congr 1
  exact ByteMemory.load_eq_of_bytes fun _ _ => rfl

def onePage : EntryView :=
  SpaceCall.onView (fun _ _ => false) .empty (.mapMemory 0 0x1000 0x5000 1)

theorem frameOf_onePage : frameOf (onePage.entries 0 0 1) = 0x5000 := by decide +kernel

theorem clean_onePage (w : World) : SpaceCall.Clean w (.mapMemory 0 0x1000 0x5000 1) := by
  intro n hn
  obtain rfl : n = 0 := Nat.lt_one_iff.mp hn
  decide +kernel

theorem exists_onePage (fill : UInt8) (admits : World → SpaceCall → Prop) (hmk : ∀ w, admits w .mk)
    (hmap : ∀ w, w.machine.frameAt = (startMachine fill).frameAt →
      admits w (.mapMemory 0 0x1000 0x5000 1)) :
    ∃ w o, ReflTransGen (SpaceStep admits) ⟨startMachine fill, []⟩ w ∧ Refines w o [onePage] ∧
      w.machine.frameAt = (startMachine fill).frameAt ∧ w.machine.frames ≤ 518 ∧
      (∀ n j, w.machine.frames ≤ n → j < 512 →
        word w.machine.mem ((startMachine fill).frameAt n) j =
          word (startMachine fill).mem ((startMachine fill).frameAt n) j) ∧
      ∀ map, w.maps[0]? = some map → map.regions = listCreate := by
  obtain ⟨w₁, hw₁⟩ : ∃ w₁, SpaceCall.exec ⟨startMachine fill, []⟩ .mk = some w₁ := ⟨_, rfl⟩
  obtain ⟨o₁, views₁, W₁, hk₁, h₁, hspec₁⟩ := exec_refines (refines_start supplies_start) hw₁
  obtain rfl : [EntryView.empty] = views₁ := Option.some.inj hspec₁
  obtain ⟨map, hmap₁, -⟩ := h₁.exists_map (k := 0) rfl
  obtain ⟨w₂, hw₂⟩ : ∃ w₂, SpaceCall.exec w₁ (.mapMemory 0 0x1000 0x5000 1) = some w₂ := by
    rw [SpaceCall.exec, hmap₁]
    exact ⟨_, rfl⟩
  obtain ⟨o₂, views₂, W₂, hk₂, h₂, hspec₂⟩ := exec_refines h₁ hw₂
  obtain rfl : [onePage] = views₂ := Option.some.inj hspec₂
  have hf₁ := exec_frames_le hw₁
  have hf₂ := exec_frames_le hw₂
  refine ⟨w₂, o₂, .tail (.single (.call (hmk _) hw₁)) (.call (hmap _ hk₁.frameAt_eq) hw₂), h₂,
    hk₂.frameAt_eq.trans hk₁.frameAt_eq, ?_, fun n j hn hj => ?_, fun map₂ hmap₂ => ?_⟩
  · exact hf₂.trans (Nat.add_le_add_right hf₁ 1)
  · rw [← hk₁.unused n j (hk₂.frames_le.trans hn) hj]
    have := hk₂.unused n j hn hj
    rwa [hk₁.frameAt_eq] at this
  · obtain ⟨map', hmap', rfl⟩ := Option.map_eq_some_iff.mp hw₂
    obtain rfl := Option.some.inj hw₁
    obtain rfl := Option.some.inj hmap'
    obtain rfl := Option.some.inj hmap₂
    exact (pageMapMemory_regions ..).trans (pageMkMap_regions _)

/-- Mapping a page in a new map keeps both translations in step, whatever the frames held. -/
theorem walk_agrees_with_getphys_onePage :
    ∃ w, ReflTransGen (SpaceStep SpaceCall.Clean) ⟨startMachine 0xff, []⟩ w ∧
      InReach w.machine ∧ w.Agrees := by
  obtain ⟨w, o, hrun, -, hframes, hle, -⟩ :=
    exists_onePage 0xff SpaceCall.Clean (fun _ => trivial) fun w _ => clean_onePage w
  have hreach := inReach_of_start hframes (hle.trans (by decide))
  exact ⟨w, hrun, hreach, walk_agrees_with_getphys supplies_start hrun hreach⟩

def SpaceCall.Low : SpaceCall → Prop
  | .mapMemory _ virt _ cnt => virt + cnt * 4096 ≤ 2 ^ 39
  | _ => True

/-- Over memory full of ones, a clone of a map with one page: the processor takes the table of
the page for a large page. -/
theorem walk_misses_cloned_page :
    ∃ w, ReflTransGen (SpaceStep fun _ c => c.Low) ⟨startMachine 0xff, []⟩ w ∧ InReach w.machine ∧
      ∃ map ∈ w.maps, pageGetphys w.machine 0x1000 map = 0x5000 ∧
        walk w.machine.mem map.pml4Phys 0x1000 ≠ some 0x5000 := by
  obtain ⟨w, o, hrun, h, hframes, hle, hold, -⟩ :=
    exists_onePage 0xff (fun _ c => c.Low) (fun _ => trivial) fun _ _ => by
      show 0x1000 + 1 * 4096 ≤ 2 ^ 39
      decide
  obtain ⟨src, hsrc, hsrc'⟩ := h.exists_map (k := 0) rfl
  obtain ⟨w', o', W, hw', hk, h'⟩ := h.exists_clone (k := 0) rfl
  obtain ⟨map, hmap, hshows⟩ := h'.exists_map (k := 1) rfl
  have hne : frameOf (onePage.entries 0 0 1) ≠ 0 := by
    rw [frameOf_onePage]
    decide
  have hfilled := hshows.filled 0 0 (by decide) (by decide) trivial
  -- The frame of the first directory still holds only ones.
  have hfound : SpaceCall.found w (.clone 0) 0 0 = true := by
    have hsrcne := hsrc'.table_ne (by decide) (by decide) (by decide) hne
    show (w.maps[0]?).elim false (fun src => cloneLarge w.machine src 0 0) = true
    rw [hsrc]
    show cloneLarge w.machine src 0 0 = true
    have hword := hold (dirIndex w.machine src 0) 0 (Nat.le_add_right _ 5) (by decide)
    rw [cloneLarge, if_neg hsrcne, hframes, hword, word_start]
    decide +kernel
  have hle' := (exec_frames_le hw').trans (Nat.add_le_add_right hle _)
  have hreach := inReach_of_start (hk.frameAt_eq.trans hframes) (hle'.trans (by decide))
  refine ⟨w', hrun.tail (.call (c := .clone 0) trivial hw'), hreach, map,
    List.mem_of_getElem? hmap, ?_, ?_⟩
  · rw [hshows.pageGetphys_eq (by decide)]
    exact frameOf_onePage
  · have htable : map.pageTables 0 0 ≠ 0 :=
      hshows.table_ne (p := 1) (by decide) (by decide) (by decide) hne
    rw [hshows.mapOk.walk_large (v := 0x1000) h'.valid hreach (by decide) htable
      (hfilled.large_eq.trans hfound)]
    intro heq
    have := Option.some.inj heq
    omega

end KernelOld.Space
