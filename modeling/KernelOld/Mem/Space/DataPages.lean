import KernelOld.Mem.Space.Worlds

/-!
# Pages with frames of their own

The callers of `page_map_memory` outside `mem/paging.c` map one page at a time, each to a frame
that `pmm_request` has just returned. These frames come from the same supply as those of the
paging structures, but no part of a map is in them: `Owner` does not list them.
-/

namespace KernelOld.Space
open ByteMemory MachineWord Paging LinkedList CountedLoop

namespace Machine

def takeFrame (s : Machine) : Machine := { s with frames := s.frames + 1 }

def mapKernelPage (s : Machine) (page phys : ℕ) : Machine :=
  { s with kmap := Function.update s.kmap page phys }

def fillPage (s : Machine) (page : ℕ) (bytes : ℕ → UInt8) : Machine :=
  { s with
    mem := fun a =>
      if s.kmap page ≤ a ∧ a < s.kmap page + 4096 then bytes (a - s.kmap page) else s.mem a }

end Machine

def mapNew (virt : ℕ) (st : Machine × PageMap) : Machine × PageMap :=
  pageMapMemory 1 virt st.1.nextFrame (st.1.takeFrame, st.2)

def loadPage (tmp virt : ℕ) (bytes : ℕ → UInt8) (st : Machine × PageMap) : Machine × PageMap :=
  let phys := st.1.nextFrame
  let s := st.1.takeFrame
  let s := s.mapKernelPage tmp phys
  let s := s.fillPage tmp bytes
  pageMapMemory 1 virt phys (s, st.2)

variable {s s' : Machine} {o o' : Owner} {W : ℕ → ℕ → Prop} {k v virt phys b e n : ℕ}
  {map : PageMap} {view view' : EntryView} {st : Machine × PageMap}

theorem Valid.keeps_takeFrame (h : Valid s o) : Keeps W s o s.takeFrame o where
  valid :=
    { h with
      unused := fun n hn => h.unused n (Nat.le_of_succ_le hn)
      taken := fun f x hx => (h.taken f x hx).imp fun _ hn => ⟨Nat.lt_succ_of_lt hn.1, hn.2⟩ }
  pageAt_eq := rfl
  frameAt_eq := rfl
  pages_le := Nat.le_refl _
  frames_le := Nat.le_succ _
  kmap_eq _ _ := rfl
  owner _ _ := id
  words _ _ _ _ _ _ := rfl
  unused _ _ _ _ := rfl

theorem Valid.keeps_mapKernelPage {page : ℕ} (h : Valid s o)
    (hpage : ∀ n < s.pages, s.pageAt n ≠ page) :
    Keeps W s o (s.mapKernelPage page phys) o where
  valid := { h with }
  pageAt_eq := rfl
  frameAt_eq := rfl
  pages_le := Nat.le_refl _
  frames_le := Nat.le_refl _
  kmap_eq n hn := Function.update_of_ne (hpage n hn) _ _
  owner _ _ := id
  words _ _ _ _ _ _ := rfl
  unused _ _ _ _ := rfl

theorem Valid.keeps_fillPage {page : ℕ} (h : Valid s o) (bytes : ℕ → UInt8) (hn : n < s.frames)
    (hpage : s.kmap page = s.frameAt n) (hfree : o (s.frameAt n) = none) :
    Keeps W s o (s.fillPage page bytes) o := by
  have hword : ∀ f j, 4096 ∣ f → f ≠ s.frameAt n → j < 512 →
      word (s.fillPage page bytes).mem f j = word s.mem f j := by
    intro f j hf hne hj
    refine word_congr (fun i hi => if_neg ?_) hj
    rw [hpage]
    have := h.frame_aligned n
    omega
  refine h.keeps_mem (fun f x j hx hj _ => ?_) fun m j hm hj => ?_
  · refine hword f j (h.aligned hx) ?_ hj
    rintro rfl
    rw [hfree] at hx
    cases hx
  · refine hword _ j (h.frame_aligned m) (fun heq => ?_) hj
    exact Nat.not_le.mpr hn (h.frame_inj heq ▸ hm)

theorem indices_eq_iff (hv : v < 2 ^ 39) (hvirt : virt < 2 ^ 39) :
    (pdpIdx v = pdpIdx virt ∧ pdIdx v = pdIdx virt ∧ ptIdx v = ptIdx virt) ↔
      v / 4096 = virt / 4096 := by
  simp only [pdpIdx_eq, pdIdx_eq, ptIdx_eq]
  omega

theorem frame_mapped (L : ℕ → ℕ → Bool) (hv : v < 2 ^ 39) (hvirt : virt < 2 ^ 39) :
    EntryView.frame ⟨mapped virt phys view.entries, L⟩ v =
      if v / 4096 = virt / 4096 then frameOf (BitVec.ofNat 64 phys) else view.frame v := by
  change frameOf (mapped virt phys view.entries (pdpIdx v) (pdIdx v) (ptIdx v)) = _
  rw [mapped]
  by_cases hpage : v / 4096 = virt / 4096
  · rw [if_pos hpage, if_pos ((indices_eq_iff hv hvirt).mpr hpage), frameOf_mapped]
  · rw [if_neg hpage, if_neg fun hidx => hpage ((indices_eq_iff hv hvirt).mp hidx)]
    rfl

structure Seen (s₀ : Machine) (st : Machine × PageMap) (o : Owner) (view : EntryView) :
    Prop where
  valid : Valid st.1 o
  shows : Shows st.1 o 0 st.2 view
  frameAt_eq : st.1.frameAt = s₀.frameAt
  pageAt_eq : st.1.pageAt = s₀.pageAt

structure Took (st st' : Machine × PageMap) : Prop where
  frames_lt : st.1.frames < st'.1.frames
  frames_le : st'.1.frames ≤ st.1.frames + 2
  pages_le : st'.1.pages ≤ st.1.pages + 1
  regions_eq : st'.2.regions = st.2.regions

def MapsNew (s₀ : Machine) (m virt : ℕ) (f : Machine × PageMap → Machine × PageMap) : Prop :=
  ∀ st o view, Seen s₀ st o view → st.1.pages ≤ m → Took st (f st) ∧
    ∃ o', Seen s₀ (f st) o' ⟨mapped virt st.1.nextFrame view.entries, view.large⟩

theorem Seen.mapMemory {s₀ : Machine} (h : Seen s₀ st o view)
    (hk : Keeps (fun _ _ => False) st.1 o s o) (cnt virt phys : ℕ) :
    ∃ o', Seen s₀ (pageMapMemory cnt virt phys (s, st.2)) o'
        ⟨mappedAll cnt virt phys view.entries, view.large⟩ := by
  have hshows : Shows s o 0 st.2 view := h.shows.keeps hk fun _ _ _ _ => id
  obtain ⟨o', hk', hbuilt⟩ := pageMapMemory_spec hk.valid hshows cnt virt phys
  have hseen : Shows _ o' 0 _ ⟨mappedAll cnt virt phys view.entries, view.large⟩ := hbuilt
  refine ⟨o', hk'.valid, hseen, ?_, ?_⟩
  · rw [hk'.frameAt_eq, hk.frameAt_eq, h.frameAt_eq]
  · rw [hk'.pageAt_eq, hk.pageAt_eq, h.pageAt_eq]

theorem Seen.took {s₀ : Machine} (h : Seen s₀ st o view)
    (hk : Keeps (fun _ _ => False) st.1 o s o) (hframes : s.frames = st.1.frames + 1)
    (hpages : s.pages = st.1.pages) (virt phys : ℕ) :
    Took st (pageMapMemory 1 virt phys (s, st.2)) where
  frames_lt := by
    have hshows : Shows s o 0 st.2 view := h.shows.keeps hk fun _ _ _ _ => id
    obtain ⟨o', hk', -⟩ := pageMapMemory_spec hk.valid hshows 1 virt phys
    have := hk'.frames_le
    omega
  frames_le := by
    have : (pageMapMemory 1 virt phys (s, st.2)).1.frames ≤ s.frames + 1 :=
      pageMapMemory_frames_le 1 virt phys (s, st.2)
    omega
  pages_le := hpages ▸ (mapPage_supplies virt phys (s, st.2)).2.1
  regions_eq := pageMapMemory_regions ..

theorem mapsNew_mapNew (s₀ : Machine) (m virt : ℕ) : MapsNew s₀ m virt (mapNew virt) := by
  intro st o view h _
  have hk : Keeps (fun _ _ => False) st.1 o st.1.takeFrame o := h.valid.keeps_takeFrame
  exact ⟨h.took hk rfl rfl _ _, h.mapMemory hk 1 virt _⟩

theorem mapsNew_loadPage {s₀ : Machine} {m tmp : ℕ} (virt : ℕ) (bytes : ℕ → UInt8)
    (htmp : ∀ n < m, s₀.pageAt n ≠ tmp) : MapsNew s₀ m virt (loadPage tmp virt bytes) := by
  intro st o view h hm
  have hframe : Keeps (fun _ _ => False) st.1 o st.1.takeFrame o := h.valid.keeps_takeFrame
  have hpage : Keeps (fun _ _ => False) st.1.takeFrame o
      (st.1.takeFrame.mapKernelPage tmp st.1.nextFrame) o := by
    refine hframe.valid.keeps_mapKernelPage fun n hn => ?_
    rw [hframe.pageAt_eq, h.pageAt_eq]
    exact htmp n (Nat.lt_of_lt_of_le hn hm)
  have hfill : Keeps (fun _ _ => False) (st.1.takeFrame.mapKernelPage tmp st.1.nextFrame) o
      ((st.1.takeFrame.mapKernelPage tmp st.1.nextFrame).fillPage tmp bytes) o :=
    hpage.valid.keeps_fillPage bytes (n := st.1.frames) (Nat.lt_succ_self _)
      (Function.update_self ..) (h.valid.unused _ (Nat.le_refl _))
  have hk := (hframe.trans hpage fun _ _ _ _ => id).trans hfill fun _ _ _ _ => id
  exact ⟨h.took hk rfl rfl _ _, h.mapMemory hk 1 virt _⟩

/-- The addresses from `b` up to `e` have been given frames of the supply, the others are as
they were. -/
structure Populates (s : Machine) (b e : ℕ) (view view' : EntryView) : Prop where
  outside : ∀ v < 2 ^ 39, v < b ∨ e ≤ v → view'.frame v = view.frame v
  inside : ∀ v, b ≤ v → v < e → ∃ n < s.frames,
    view'.frame v = frameOf (BitVec.ofNat 64 (s.frameAt n))

theorem Populates.next (h : Populates s b e view view') (hb : 4096 ∣ b) (he : 4096 ∣ e)
    (hbe : b ≤ e) (hbound : e + 4096 ≤ 2 ^ 39) (hframeAt : s'.frameAt = s.frameAt)
    (hframes : s.frames < s'.frames) :
    Populates s' b (e + 4096) view
      ⟨mapped e (s.frameAt s.frames) view'.entries, view'.large⟩ := by
  have hframe : ∀ v < 2 ^ 39,
      EntryView.frame ⟨mapped e (s.frameAt s.frames) view'.entries, view'.large⟩ v =
        if v / 4096 = e / 4096 then frameOf (BitVec.ofNat 64 (s.frameAt s.frames))
        else view'.frame v := fun v hv => frame_mapped _ hv (by omega)
  refine ⟨fun v hv hout => ?_, fun v hlo hhi => ?_⟩
  · rw [hframe v hv, if_neg (by omega)]
    exact h.outside v hv (by omega)
  · rw [hframe v (by omega), hframeAt]
    by_cases hlast : v / 4096 = e / 4096
    · exact ⟨s.frames, hframes, if_pos hlast⟩
    · obtain ⟨n, hn, hvn⟩ := h.inside v hlo (by omega)
      exact ⟨n, hn.trans hframes, (if_neg hlast).trans hvn⟩

theorem Seen.populate {s₀ : Machine} {f : ℕ → Machine × PageMap → Machine × PageMap}
    (h : Seen s₀ st o view) (hb : 4096 ∣ b) (hbound : b + n * 4096 ≤ 2 ^ 39)
    (hf : ∀ i < n, MapsNew s₀ (st.1.pages + i) (b + i * 4096) (f i)) :
    (∃ o' view', Seen s₀ (loop f n st) o' view' ∧
      Populates (loop f n st).1 b (b + n * 4096) view view') ∧
      (loop f n st).1.frames ≤ st.1.frames + 2 * n ∧ (loop f n st).1.pages ≤ st.1.pages + n ∧
      (loop f n st).2.regions = st.2.regions := by
  refine loop_induction
    (I := fun i (st' : Machine × PageMap) => (∃ o' view', Seen s₀ st' o' view' ∧
      Populates st'.1 b (b + i * 4096) view view') ∧ st'.1.frames ≤ st.1.frames + 2 * i ∧
        st'.1.pages ≤ st.1.pages + i ∧ st'.2.regions = st.2.regions) n ?_ ?_
  · exact ⟨⟨o, view, h, fun _ _ _ => rfl, fun v hlo hhi => absurd hlo (by omega)⟩,
      Nat.le_refl _, Nat.le_refl _, rfl⟩
  · rintro i st' hi ⟨⟨o', view', h', hpop⟩, hframes, hpages, hregions⟩
    obtain ⟨htook, o'', h''⟩ := hf i hi st' o' view' h' hpages
    have hle := htook.frames_le
    have hle' := htook.pages_le
    have hsum : b + i * 4096 + 4096 = b + (i + 1) * 4096 := by omega
    have hnext := hpop.next hb (by omega) (by omega) (by omega)
      (h''.frameAt_eq.trans h'.frameAt_eq.symm) htook.frames_lt
    rw [hsum] at hnext
    exact ⟨⟨o'', _, h'', hnext⟩, by omega, by omega, htook.regions_eq.trans hregions⟩

theorem frame_mappedAll_page (cnt : ℕ) (view : EntryView) (hbound : virt + cnt * 4096 ≤ 2 ^ 39)
    (hphys : phys + cnt * 4096 ≤ 2 ^ 52) (hv : v < 2 ^ 39) :
    EntryView.frame ⟨mappedAll cnt virt phys view.entries, view.large⟩ v =
      if virt / 4096 ≤ v / 4096 ∧ v / 4096 < virt / 4096 + cnt then
        frameOf (BitVec.ofNat 64 (phys + (v / 4096 - virt / 4096) * 4096))
      else view.frame v := by
  induction cnt generalizing virt phys view with
  | zero => exact (if_neg (by omega)).symm
  | succ cnt ih =>
    rw [mappedAll, u64_of_lt (by omega), u64_of_lt (by omega),
      ih ⟨mapped virt phys view.entries, view.large⟩ (by omega) (by omega),
      frame_mapped _ hv (by omega)]
    by_cases hfirst : v / 4096 = virt / 4096
    · rw [if_neg (by omega), if_pos hfirst, if_pos (by omega), hfirst, Nat.sub_self, Nat.zero_mul,
        Nat.add_zero]
    · rw [if_neg hfirst]
      by_cases hin : virt / 4096 + 1 ≤ v / 4096 ∧ v / 4096 < virt / 4096 + 1 + cnt
      · have hpage : phys + 4096 + (v / 4096 - (virt + 4096) / 4096) * 4096 =
            phys + (v / 4096 - virt / 4096) * 4096 := by omega
        rw [if_pos (by omega), if_pos (by omega), hpage]
      · rw [if_neg (by omega), if_neg (by omega)]

theorem frame_mappedAll (cnt : ℕ) (view : EntryView) (hvirt : 4096 ∣ virt)
    (hbound : virt + cnt * 4096 ≤ 2 ^ 39) (hphys : phys + cnt * 4096 ≤ 2 ^ 52)
    (hv : v < 2 ^ 39) :
    EntryView.frame ⟨mappedAll cnt virt phys view.entries, view.large⟩ v =
      if virt ≤ v ∧ v < virt + cnt * 4096 then
        frameOf (BitVec.ofNat 64 (phys + (v - virt) / 4096 * 4096))
      else view.frame v := by
  have hpage : v / 4096 - virt / 4096 = (v - virt) / 4096 := by omega
  rw [frame_mappedAll_page cnt view hbound hphys hv, hpage]
  refine if_congr ?_ rfl rfl
  omega

end KernelOld.Space
