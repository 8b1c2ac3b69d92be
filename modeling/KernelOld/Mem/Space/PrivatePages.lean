import KernelOld.Mem.Space.UserMemory

/-!
# Pages with frames of their own

In a space that has been filled by taking a frame for every page, no two pages are in one frame.
A byte that is written is then read at its own address and nowhere else (`Pages.userWrite`).
-/

namespace KernelOld.Space
open ByteMemory MachineWord Paging CountedLoop Function

structure Private (s₀ : Machine) (st : Machine × PageMap) (o : Owner) (view : EntryView)
    (byte : ℕ → Option UInt8) (frame : ℕ → ℕ) : Prop extends Contents s₀ st o view byte where
  own : ∀ v < 2 ^ 39, ∀ b, byte v = some b → InFrame st.1 o view v (frame (v / 4096)) b
  inj : ∀ v < 2 ^ 39, ∀ w < 2 ^ 39, byte v ≠ none → byte w ≠ none →
    frame (v / 4096) = frame (w / 4096) → v / 4096 = w / 4096

def Pages (s₀ : Machine) (st : Machine × PageMap) (byte : ℕ → Option UInt8) : Prop :=
  ∃ o view frame, Private s₀ st o view byte frame

variable {s s' s₀ : Machine} {o o' : Owner} {v w virt n tmp : ℕ} {b : UInt8} {view : EntryView}
  {bytes : ℕ → UInt8} {st : Machine × PageMap} {byte : ℕ → Option UInt8}

theorem pages_pageMkMap (hs : Supplies s) : Pages s (pageMkMap s) fun _ => none := by
  obtain ⟨o, h⟩ := contents_pageMkMap hs
  exact ⟨o, .empty, id, { h with
    own := fun v _ b hsome => absurd hsome.symm (Option.some_ne_none b)
    inj := fun v _ w _ hne => absurd rfl hne }⟩

theorem Adds.pages {page : ℕ} {st' : Machine × PageMap} {view' : EntryView} {frame : ℕ → ℕ}
    (ha : Adds s₀ st o view page st.1.frames bytes st' o' view')
    (h : Private s₀ st o view byte frame) :
    Pages s₀ st' fun v => if v / 4096 = page then some (bytes (v % 4096)) else byte v := by
  have hold : ∀ v < 2 ^ 39, byte v ≠ none → frame (v / 4096) ≠ st.1.frames := by
    intro v hv hne
    obtain ⟨b, hb⟩ := Option.ne_none_iff_exists'.mp hne
    exact Nat.ne_of_lt (h.own v hv b hb).taken
  refine ⟨o', view', update frame page st.1.frames, { ha.contents h.toContents with
    own := fun v hv b hsome => ?_, inj := fun v hv w hw hbyte hbyte' heq => ?_ }⟩
  · by_cases hpage : v / 4096 = page
    · rw [if_pos hpage] at hsome
      obtain rfl := Option.some.inj hsome
      rw [hpage, update_self]
      exact (ha.new v hv hpage).2
    · rw [if_neg hpage] at hsome
      rw [update_of_ne hpage]
      exact (ha.old v hv hpage).2 _ b (h.own v hv b hsome)
  · by_cases hpage : v / 4096 = page
    · by_cases hpage' : w / 4096 = page
      · rw [hpage, hpage']
      · rw [if_neg hpage'] at hbyte'
        rw [hpage, update_self, update_of_ne hpage'] at heq
        exact absurd heq.symm (hold w hw hbyte')
    · rw [if_neg hpage] at hbyte
      rw [update_of_ne hpage] at heq
      by_cases hpage' : w / 4096 = page
      · rw [hpage', update_self] at heq
        exact absurd heq (hold v hv hbyte)
      · rw [if_neg hpage'] at hbyte'
        rw [update_of_ne hpage'] at heq
        exact h.inj v hv w hw hbyte hbyte' heq

theorem Pages.loadPage (h : Pages s₀ st byte) (bytes : ℕ → UInt8)
    (htmp : ∀ n, s₀.pageAt n ≠ tmp) (virt : ℕ) :
    Pages s₀ (loadPage tmp virt bytes st) fun v =>
      if v / 4096 = lowPage virt then some (bytes (v % 4096)) else byte v := by
  obtain ⟨o, view, frame, hp⟩ := h
  obtain ⟨o', view', ha⟩ := hp.toSeen.loadPage bytes htmp virt
  exact ha.pages hp

theorem Pages.mapNew (h : Pages s₀ st byte) (virt : ℕ) :
    Pages s₀ (mapNew virt st) fun v =>
      if v / 4096 = lowPage virt then some (st.1.mem (st.1.nextFrame + v % 4096)) else byte v := by
  obtain ⟨o, view, frame, hp⟩ := h
  obtain ⟨o', view', ha⟩ := hp.toSeen.mapNew virt
  exact ha.pages hp

theorem Pages.frames_le (h : Pages s₀ st byte) (virt : ℕ) :
    (Space.mapNew virt st).1.frames ≤ st.1.frames + 2 := by
  obtain ⟨o, view, frame, hp⟩ := h
  exact (mapsNew_mapNew s₀ st.1.pages virt st o view hp.toSeen (Nat.le_refl _)).1.frames_le

def OnPages (b n v : ℕ) : Prop := b / 4096 ≤ v / 4096 ∧ v / 4096 < b / 4096 + n

theorem Pages.mapNews (h : Pages s₀ st byte) {b : ℕ} (n : ℕ) (hbound : b + n * 4096 ≤ 2 ^ 39) :
    ∃ byte', Pages s₀ (loop (fun i => Space.mapNew (u64 (b + i * 4096))) n st) byte' ∧
      (∀ v, OnPages b n v → byte' v ≠ none) ∧ (∀ v, ¬OnPages b n v → byte' v = byte v) ∧
      (loop (fun i => Space.mapNew (u64 (b + i * 4096))) n st).1.frames ≤ st.1.frames + 2 * n := by
  refine loop_induction (I := fun i (st' : Machine × PageMap) => ∃ byte', Pages s₀ st' byte' ∧
    (∀ v, OnPages b i v → byte' v ≠ none) ∧ (∀ v, ¬OnPages b i v → byte' v = byte v) ∧
      st'.1.frames ≤ st.1.frames + 2 * i) n ?_ ?_
  · exact ⟨byte, h, fun v hv => absurd hv (by rw [OnPages]; omega), fun _ _ => rfl, Nat.le_refl _⟩
  · rintro i st' hi ⟨byte', h', hin, hout, hframes⟩
    have hvirt : b + i * 4096 < 2 ^ 39 := by omega
    rw [u64_of_lt (hvirt.trans (by decide))]
    have hnext := h'.mapNew (b + i * 4096)
    rw [lowPage_of_lt hvirt] at hnext
    refine ⟨_, hnext, fun v hv => ?_, fun v hv => ?_, ?_⟩
    · by_cases hpage : v / 4096 = (b + i * 4096) / 4096
      · rw [if_pos hpage]
        exact Option.some_ne_none _
      · rw [if_neg hpage]
        refine hin v ?_
        rw [OnPages] at hv ⊢
        omega
    · rw [OnPages] at hv
      rw [if_neg (by omega)]
      refine hout v ?_
      rw [OnPages]
      omega
    · have hle := h'.frames_le (b + i * 4096)
      omega

/-! ## Reading and writing -/

theorem Pages.userRead_eq (h : Pages s₀ st byte) (hreach : InReach st.1) (hv : v < 2 ^ 39) :
    userRead st.1 st.2 v = byte v := by
  obtain ⟨o, view, frame, hp⟩ := h
  exact hp.toContents.userRead_eq hreach hv

theorem Pages.none_of_page (h : Pages s₀ st byte) (hv : v < 2 ^ 39) (hw : w < 2 ^ 39)
    (hpage : v / 4096 = w / 4096) (hnone : byte v = none) : byte w = none := by
  obtain ⟨o, view, frame, hp⟩ := h
  have hentry : view.entry w = view.entry v := by
    obtain ⟨h1, h2, h3⟩ := (indices_eq_iff hv hw).mpr hpage
    rw [EntryView.entry, EntryView.entry, h1, h2, h3]
  have habsent := hp.absent v hv hnone
  rw [← hentry] at habsent
  by_contra hne
  obtain ⟨b, hb⟩ := Option.ne_none_iff_exists'.mp hne
  rw [(hp.held w hw b hb).1] at habsent
  cases habsent

theorem Pages.ne_none_of_write (h : Pages s₀ st byte) (hreach : InReach st.1) (hv : v < 2 ^ 39)
    (hwrite : userWrite st.1 st.2 v b = some s') : byte v ≠ none := by
  intro hnone
  obtain ⟨o, view, frame, hp⟩ := h
  rw [userWrite, hp.walk_eq hreach hv, hp.absent v hv hnone] at hwrite
  cases hwrite

theorem Private.place_inj {frame : ℕ → ℕ} (h : Private s₀ st o view byte frame) (hv : v < 2 ^ 39)
    (hw : w < 2 ^ 39) (hbyte : byte v ≠ none) (hbyte' : byte w ≠ none)
    (hplace : st.1.frameAt (frame (w / 4096)) + w % 4096 =
      st.1.frameAt (frame (v / 4096)) + v % 4096) : w = v := by
  have haligned := h.valid.frame_aligned (frame (v / 4096))
  have haligned' := h.valid.frame_aligned (frame (w / 4096))
  have hframe : st.1.frameAt (frame (w / 4096)) = st.1.frameAt (frame (v / 4096)) := by omega
  have hpage := h.inj w hw v hv hbyte' hbyte (h.valid.frame_inj hframe)
  omega

def setByte (s : Machine) (a : ℕ) (b : UInt8) : Machine :=
  { s with mem := Function.update s.mem a b }

theorem Contents.keeps_setByte (h : Contents s₀ st o view byte) {b₀ : UInt8}
    (hn : InFrame st.1 o view v n b₀) (b : UInt8) :
    Keeps (fun g _ => g = st.1.frameAt n) st.1 o (setByte st.1 (st.1.frameAt n + v % 4096) b)
      o := by
  refine h.valid.keeps_write hn.owned (fun g j hg hne hj => ?_) fun j _ hne => absurd rfl hne
  exact word_update (h.valid.frame_aligned n) hg hne.symm (Nat.mod_lt v (by decide)) hj

theorem update_eq_none_iff (hbyte : byte v ≠ none) (b : UInt8) :
    update byte v (some b) w = none ↔ byte w = none := by
  by_cases hwv : w = v
  · rw [hwv, update_self]
    exact iff_of_false (Option.some_ne_none b) hbyte
  · rw [update_of_ne hwv]

theorem Private.inFrame_setByte {frame : ℕ → ℕ} (h : Private s₀ st o view byte frame)
    (hv : v < 2 ^ 39) (hw : w < 2 ^ 39) (hbyte : byte v ≠ none) {c : UInt8}
    (hsome : update byte v (some b) w = some c) :
    InFrame (setByte st.1 (st.1.frameAt (frame (v / 4096)) + v % 4096) b) o view w
      (frame (w / 4096)) c := by
  by_cases hwv : w = v
  · subst hwv
    obtain ⟨b₀, hb₀⟩ := Option.ne_none_iff_exists'.mp hbyte
    have hn := h.own w hw b₀ hb₀
    rw [update_self] at hsome
    obtain rfl := Option.some.inj hsome
    exact ⟨hn.taken, hn.frame_eq, hn.owned, update_self ..⟩
  · rw [update_of_ne hwv] at hsome
    have hm := h.own w hw c hsome
    refine ⟨hm.taken, hm.frame_eq, hm.owned, Eq.trans (update_of_ne ?_ _ _) hm.byte_eq⟩
    exact fun hplace => hwv (h.place_inj hv hw hbyte (by rw [hsome]; simp) hplace)

theorem Pages.userWrite (h : Pages s₀ st byte) (hreach : InReach st.1) (hv : v < 2 ^ 39)
    (hbyte : byte v ≠ none) (b : UInt8) :
    ∃ s', userWrite st.1 st.2 v b = some s' ∧ InReach s' ∧
      Pages s₀ (s', st.2) (update byte v (some b)) := by
  obtain ⟨o, view, frame, hp⟩ := h
  obtain ⟨b₀, hb₀⟩ := Option.ne_none_iff_exists'.mp hbyte
  have hpresent := (hp.held v hv b₀ hb₀).1
  have hn := hp.own v hv b₀ hb₀
  have hwalk : walk st.1.mem st.2.pml4Phys v = some (st.1.frameAt (frame (v / 4096))) := by
    rw [hp.walk_eq hreach hv, if_pos hpresent, hn.frameOf_eq hreach]
  have hk := hp.toContents.keeps_setByte hn b
  have hshows := hp.shows.keeps hk fun g r j hg hgf => by
    rw [hgf, hn.owned] at hg
    cases hg
  have hown := fun w (hw : w < 2 ^ 39) c => hp.inFrame_setByte (b := b) (c := c) hv hw hbyte
  have hold : ∀ {w}, update byte v (some b) w ≠ none → byte w ≠ none :=
    mt (update_eq_none_iff hbyte b).mpr
  have hwrite : Space.userWrite st.1 st.2 v b =
      some (setByte st.1 (st.1.frameAt (frame (v / 4096)) + v % 4096) b) := by
    rw [Space.userWrite, hwalk]
    rfl
  refine ⟨_, hwrite, hreach, o, view, frame, ⟨⟨⟨hk.valid, hshows, hp.frameAt_eq, hp.pageAt_eq⟩,
    hp.small, fun w hw hnone => ?_, fun w hw c hsome => ?_⟩, hown,
    fun w hw w' hw' hbyte hbyte' => hp.inj w hw w' hw' (hold hbyte) (hold hbyte')⟩⟩
  · exact hp.absent w hw ((update_eq_none_iff hbyte b).mp hnone)
  · obtain ⟨c₀, hc₀⟩ := Option.ne_none_iff_exists'.mp (hold (by rw [hsome]; simp))
    exact ⟨(hp.held w hw c₀ hc₀).1, _, hown w hw c hsome⟩

end KernelOld.Space
