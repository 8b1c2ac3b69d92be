import KernelOld.Mem.Space.DataPages
import KernelOld.Mem.Space.Fork

/-!
# The memory of a process

What a process reads, while pages are loaded into its space. The frames of its pages come from the
supply of the paging structures; `Owner` lists them as parts of a map that does not exist, and so
every operation on the space leaves their bytes alone (`Keeps.byte_eq`).
-/

namespace KernelOld.Space
open ByteMemory MachineWord Paging CountedLoop Function

/-- What a data frame is listed as: the space itself is the map with number 0. -/
def dataPart : ℕ × Role := (1, .pml4)

def EntryView.entry (view : EntryView) (v : ℕ) : Entry :=
  view.entries (pdpIdx v) (pdIdx v) (ptIdx v)

structure InFrame (s : Machine) (o : Owner) (view : EntryView) (v n : ℕ) (b : UInt8) : Prop where
  taken : n < s.frames
  frame_eq : frameOf (view.entry v) = s.frameAt n % 2 ^ 52
  owned : o (s.frameAt n) = some dataPart
  byte_eq : s.mem (s.frameAt n + v % 4096) = b

structure Contents (s₀ : Machine) (st : Machine × PageMap) (o : Owner) (view : EntryView)
    (byte : ℕ → Option UInt8) : Prop extends Seen s₀ st o view where
  small : ∀ i < 512, ∀ j < 512, view.large i j = false
  absent : ∀ v < 2 ^ 39, byte v = none → present (view.entry v) = false
  held : ∀ v < 2 ^ 39, ∀ b, byte v = some b →
    present (view.entry v) = true ∧ ∃ n, InFrame st.1 o view v n b

variable {s s' s₀ : Machine} {o o' : Owner} {W : ℕ → ℕ → Prop} {v virt f n q tmp : ℕ} {b : UInt8}
  {x : ℕ × Role} {view : EntryView} {bytes : ℕ → UInt8} {st : Machine × PageMap}
  {byte : ℕ → Option UInt8}

theorem Keeps.byte_eq (hk : Keeps W s o s' o') (hf : o f = some x) (hW : ∀ j, ¬W f j)
    (hq : q < 4096) : s'.mem (f + q) = s.mem (f + q) :=
  byte_eq_of_words (fun j hj => hk.words f x j hf hj (hW j)) hq

theorem InFrame.keeps (h : InFrame s o view v n b) (hk : Keeps W s o s' o')
    (hW : ∀ j, ¬W (s.frameAt n) j) : InFrame s' o' view v n b where
  taken := h.taken.trans_le hk.frames_le
  frame_eq := by
    rw [hk.frameAt_eq]
    exact h.frame_eq
  owned := by
    rw [hk.frameAt_eq]
    exact hk.owner _ _ h.owned
  byte_eq := by
    rw [hk.frameAt_eq, hk.byte_eq h.owned hW (Nat.mod_lt v (by decide))]
    exact h.byte_eq

theorem contents_pageMkMap (hs : Supplies s) :
    ∃ o, Contents s (pageMkMap s) o .empty fun _ => none := by
  have hval : Valid s fun _ => none := { hs with unused := fun _ _ => rfl, taken := by simp }
  obtain ⟨o, hk, hbuilt⟩ := pageMkMap_spec hval 0
  refine ⟨o, ⟨hk.valid, hbuilt, hk.frameAt_eq, hk.pageAt_eq⟩, ?_, ?_, ?_⟩
  · intro i hi j hj
    rfl
  · intro v hv hnone
    exact present_zero
  · intro v hv b hsome
    cases hsome

theorem Contents.walk_eq (h : Contents s₀ st o view byte) (hreach : InReach st.1)
    (hv : v < 2 ^ 39) :
    walk st.1.mem st.2.pml4Phys v =
      if present (view.entry v) then some (frameOf (view.entry v)) else none := by
  have hfilled := h.shows.filled _ _ (pdpIdx_lt v) (pdIdx_lt v) trivial
  have hpte : pte st.1 st.2 (pdpIdx v) (pdIdx v) (ptIdx v) = view.entry v :=
    hfilled.pte_eq _ (ptIdx_lt v)
  have hsmall : large (pde st.1 st.2 (pdpIdx v) (pdIdx v)) = false :=
    hfilled.large_eq.trans (h.small _ (pdpIdx_lt v) _ (pdIdx_lt v))
  rw [h.shows.mapOk.walk_eq h.valid hreach hv hsmall, hpte]

theorem InFrame.frameOf_eq (h : InFrame s o view v n b) (hreach : InReach s) :
    frameOf (view.entry v) = s.frameAt n := by
  rw [h.frame_eq, Nat.mod_eq_of_lt (hreach n h.taken)]

theorem Contents.userRead_eq (h : Contents s₀ st o view byte) (hreach : InReach st.1)
    (hv : v < 2 ^ 39) : userRead st.1 st.2 v = byte v := by
  rw [userRead, h.walk_eq hreach hv]
  cases hbyte : byte v with
  | none =>
    rw [h.absent v hv hbyte]
    rfl
  | some b =>
    obtain ⟨hpresent, n, hn⟩ := h.held v hv b hbyte
    rw [if_pos hpresent, Option.map_some, hn.frameOf_eq hreach, hn.byte_eq]

theorem Valid.keeps_takeData (h : Valid s o) :
    Keeps W s o s.takeFrame (update o s.nextFrame (some dataPart)) where
  valid :=
    { (h.keeps_newPage (W := W) (some dataPart)).valid with }
  pageAt_eq := rfl
  frameAt_eq := rfl
  pages_le := Nat.le_refl _
  frames_le := Nat.le_succ _
  kmap_eq _ _ := rfl
  owner := (h.keeps_newPage (W := W) (some dataPart)).owner
  words _ _ _ _ _ _ := rfl
  unused _ _ _ _ := rfl

def filled (s : Machine) (tmp : ℕ) (bytes : ℕ → UInt8) : Machine :=
  (s.takeFrame.mapKernelPage tmp s.nextFrame).fillPage tmp bytes

theorem filled_mem (s : Machine) (tmp : ℕ) (bytes : ℕ → UInt8) (a : ℕ) :
    (filled s tmp bytes).mem a =
      if s.nextFrame ≤ a ∧ a < s.nextFrame + 4096 then bytes (a - s.nextFrame) else s.mem a := by
  have hkmap : (s.takeFrame.mapKernelPage tmp s.nextFrame).kmap tmp = s.nextFrame :=
    update_self ..
  show (if _ ∧ _ then _ else _) = _
  rw [hkmap]
  rfl

theorem Valid.keeps_filled (h : Valid s o) (tmp : ℕ) (bytes : ℕ → UInt8)
    (htmp : ∀ n < s.pages, s.pageAt n ≠ tmp) :
    Keeps (fun g _ => g = s.nextFrame) s o (filled s tmp bytes)
      (update o s.nextFrame (some dataPart)) := by
  have htake : Keeps (fun _ _ => False) s o _ _ := h.keeps_takeData
  have hmap : Keeps (fun _ _ => False) s.takeFrame _
      (s.takeFrame.mapKernelPage tmp s.nextFrame) _ := htake.valid.keeps_mapKernelPage htmp
  have hown : update o s.nextFrame (some dataPart) s.nextFrame = some dataPart :=
    update_self ..
  have hfill : Keeps (fun g _ => g = s.nextFrame) (s.takeFrame.mapKernelPage tmp s.nextFrame)
      (update o s.nextFrame (some dataPart)) (filled s tmp bytes)
      (update o s.nextFrame (some dataPart)) := by
    refine hmap.valid.keeps_write hown ?_ fun j _ hne => absurd rfl hne
    intro g j hg hne hj
    refine word_congr (fun i hi => ?_) hj
    have haligned : 4096 ∣ s.nextFrame := h.frame_aligned _
    have hout := filled_mem s tmp bytes (g + i)
    rw [if_neg (by omega)] at hout
    exact hout
  have hboth := htake.trans hmap fun _ _ _ _ => id
  exact (hboth.mono fun _ _ _ _ => False.elim).trans hfill fun _ _ _ _ => id

theorem inFrame_new (h : Valid s o) (htaken : s.frames < s'.frames)
    (hframeAt : s'.frameAt = s.frameAt)
    (hframe : frameOf (view.entry v) = frameOf (BitVec.ofNat 64 s.nextFrame))
    (hbyte : s'.mem (s.nextFrame + v % 4096) = b) :
    InFrame s' (update o s.nextFrame (some dataPart)) view v s.frames b where
  taken := htaken
  frame_eq := by
    rw [hframeAt]
    exact hframe.trans (frameOf_ofNat (h.frame_aligned _))
  owned := by
    rw [hframeAt]
    exact update_self ..
  byte_eq := by
    rw [hframeAt]
    exact hbyte

def lowPage (virt : ℕ) : ℕ := virt % 2 ^ 39 / 4096

theorem lowPage_of_lt (h : virt < 2 ^ 39) : lowPage virt = virt / 4096 := by
  rw [lowPage, Nat.mod_eq_of_lt h]

theorem indices_eq_iff_lowPage (hv : v < 2 ^ 39) :
    (pdpIdx v = pdpIdx virt ∧ pdIdx v = pdIdx virt ∧ ptIdx v = ptIdx virt) ↔
      v / 4096 = lowPage virt := by
  simp only [pdpIdx_eq, pdIdx_eq, ptIdx_eq, lowPage]
  omega

theorem entry_mapped (view : EntryView) (virt phys : ℕ) (L : ℕ → ℕ → Bool) (hv : v < 2 ^ 39) :
    EntryView.entry ⟨mapped virt phys view.entries, L⟩ v =
      if v / 4096 = lowPage virt then
        setPageFrame (view.entry v) (BitVec.ofNat 64 phys) ||| userFlags
      else view.entry v := by
  show mapped virt phys view.entries (pdpIdx v) (pdIdx v) (ptIdx v) = _
  rw [mapped]
  simp only [indices_eq_iff_lowPage hv]
  rfl

/-- One page is mapped to frame `n`, which holds `bytes`: what was on that page is replaced, the
rest stays. -/
structure Adds (s₀ : Machine) (st : Machine × PageMap) (o : Owner) (view : EntryView) (page n : ℕ)
    (bytes : ℕ → UInt8) (st' : Machine × PageMap) (o' : Owner) (view' : EntryView) : Prop extends
    Seen s₀ st' o' view' where
  large_eq : view'.large = view.large
  new : ∀ v < 2 ^ 39, v / 4096 = page →
    present (view'.entry v) = true ∧ InFrame st'.1 o' view' v n (bytes (v % 4096))
  old : ∀ v < 2 ^ 39, v / 4096 ≠ page → view'.entry v = view.entry v ∧
    ∀ m b, InFrame st.1 o view v m b → InFrame st'.1 o' view' v m b

theorem Adds.contents {page : ℕ} {st' : Machine × PageMap} {view' : EntryView}
    (ha : Adds s₀ st o view page n bytes st' o' view') (h : Contents s₀ st o view byte) :
    Contents s₀ st' o' view' fun v =>
      if v / 4096 = page then some (bytes (v % 4096)) else byte v where
  toSeen := ha.toSeen
  small i hi j hj := by
    rw [ha.large_eq]
    exact h.small i hi j hj
  absent v hv hnone := by
    by_cases hpage : v / 4096 = page
    · rw [if_pos hpage] at hnone
      cases hnone
    · rw [if_neg hpage] at hnone
      rw [(ha.old v hv hpage).1]
      exact h.absent v hv hnone
  held v hv b hsome := by
    by_cases hpage : v / 4096 = page
    · rw [if_pos hpage] at hsome
      obtain rfl := Option.some.inj hsome
      exact ⟨(ha.new v hv hpage).1, n, (ha.new v hv hpage).2⟩
    · rw [if_neg hpage] at hsome
      obtain ⟨hpresent, m, hm⟩ := h.held v hv b hsome
      obtain ⟨hentry, hkeep⟩ := ha.old v hv hpage
      exact ⟨hentry ▸ hpresent, m, hkeep m b hm⟩

theorem Seen.addPage (h : Seen s₀ st o view) (bytes : ℕ → UInt8)
    (hk : Keeps (fun g _ => g = st.1.nextFrame) st.1 o s
      (update o st.1.nextFrame (some dataPart))) (htaken : st.1.frames < s.frames)
    (hbytes : ∀ q < 4096, s.mem (st.1.nextFrame + q) = bytes q) (virt : ℕ) :
    ∃ o' view', Adds s₀ st o view (lowPage virt) st.1.frames bytes
      (pageMapMemory 1 virt st.1.nextFrame (s, st.2)) o' view' := by
  have hnew : o st.1.nextFrame = none := h.valid.unused _ (Nat.le_refl _)
  have hshows : Shows s (update o st.1.nextFrame (some dataPart)) 0 st.2 view := by
    refine h.shows.keeps hk fun g r j hg hgf => ?_
    rw [hgf, hnew] at hg
    cases hg
  obtain ⟨o', hk', hbuilt⟩ := pageMapMemory_spec hk.valid hshows 1 virt st.1.nextFrame
  -- a data frame is no part of map 0, so mapping the page leaves its bytes
  have hdata : ∀ {view' : EntryView} {v n b},
      InFrame s (update o st.1.nextFrame (some dataPart)) view' v n b →
      InFrame (pageMapMemory 1 virt st.1.nextFrame (s, st.2)).1 o' view' v n b := by
    intro view' v n b hn
    refine hn.keeps hk' fun j hmine => ?_
    obtain ⟨r, hr⟩ := hmine
    rw [hn.owned] at hr
    cases hr
  refine ⟨o', ⟨mapped virt st.1.nextFrame view.entries, view.large⟩, ⟨hk'.valid, hbuilt, ?_, ?_⟩,
    rfl, fun v hv hpage => ?_, fun v hv hpage => ?_⟩
  · rw [hk'.frameAt_eq, hk.frameAt_eq, h.frameAt_eq]
  · rw [hk'.pageAt_eq, hk.pageAt_eq, h.pageAt_eq]
  · have hentry := entry_mapped view virt st.1.nextFrame view.large hv
    rw [if_pos hpage] at hentry
    rw [hentry]
    refine ⟨present_mapped_user _ _,
      hdata (inFrame_new h.valid htaken hk.frameAt_eq ?_ (hbytes _ (Nat.mod_lt v (by decide))))⟩
    rw [hentry, frameOf_mapped]
  · have hentry := entry_mapped view virt st.1.nextFrame view.large hv
    rw [if_neg hpage] at hentry
    refine ⟨hentry, fun n b hn => ?_⟩
    have hne : st.1.frameAt n ≠ st.1.nextFrame := by
      intro heq
      rw [← heq, hn.owned] at hnew
      cases hnew
    have hold := hn.keeps hk fun _ => hne
    exact hdata ⟨hold.taken, (congrArg frameOf hentry).trans hold.frame_eq, hold.owned,
      hold.byte_eq⟩

theorem Seen.loadPage (h : Seen s₀ st o view) (bytes : ℕ → UInt8)
    (htmp : ∀ n, s₀.pageAt n ≠ tmp) (virt : ℕ) :
    ∃ o' view', Adds s₀ st o view (lowPage virt) st.1.frames bytes (loadPage tmp virt bytes st) o'
      view' := by
  have hk := h.valid.keeps_filled tmp bytes fun n _ => h.pageAt_eq ▸ htmp n
  refine h.addPage bytes hk (Nat.lt_succ_self _) (fun q hq => ?_) virt
  show (filled st.1 tmp bytes).mem (st.1.nextFrame + q) = bytes q
  rw [filled_mem, if_pos ⟨Nat.le_add_right _ _, Nat.add_lt_add_left hq _⟩,
    Nat.add_sub_cancel_left]

theorem Seen.mapNew (h : Seen s₀ st o view) (virt : ℕ) :
    ∃ o' view', Adds s₀ st o view (lowPage virt) st.1.frames
      (fun q => st.1.mem (st.1.nextFrame + q)) (mapNew virt st) o' view' :=
  h.addPage (fun q => st.1.mem (st.1.nextFrame + q)) h.valid.keeps_takeData (Nat.lt_succ_self _)
    (fun _ _ => rfl) virt

theorem Contents.loadPage (h : Contents s₀ st o view byte) (bytes : ℕ → UInt8)
    (htmp : ∀ n, s₀.pageAt n ≠ tmp) (hvirt : virt < 2 ^ 39) :
    ∃ o' view', Contents s₀ (loadPage tmp virt bytes st) o' view' fun v =>
      if v / 4096 = virt / 4096 then some (bytes (v % 4096)) else byte v := by
  obtain ⟨o', view', ha⟩ := h.toSeen.loadPage bytes htmp virt
  rw [lowPage_of_lt hvirt] at ha
  exact ⟨o', view', ha.contents h⟩

end KernelOld.Space
