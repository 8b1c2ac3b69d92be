import KernelOld.Mem.Space.Agreement

/-!
# Memory after a fork

`sched_fork` gives the child the address space that `page_clone_map` makes. The clone has
tables of its own, but its page entries name the frames of the parent, and no page is ever
copied. User accesses go through the walk of the processor.
-/

namespace KernelOld.Space
open Paging Relation

def userRead (s : Machine) (map : PageMap) (v : ℕ) : Option UInt8 :=
  (walk s.mem map.pml4Phys v).map fun f => s.mem (f + v % 4096)

def userWrite (s : Machine) (map : PageMap) (v : ℕ) (b : UInt8) : Option Machine :=
  (walk s.mem map.pml4Phys v).map fun f =>
    { s with mem := Function.update s.mem (f + v % 4096) b }

/-- A write of one byte by the parent or the child. -/
inductive UserStep (parent child : PageMap) : Machine → Machine → Prop
  | write {s s' : Machine} {map : PageMap} {v : ℕ} {b : UInt8}
      (hmap : map = parent ∨ map = child) (hv : v < 2 ^ 39)
      (hwrite : userWrite s map v b = some s') : UserStep parent child s s'

/-- The call maps no frame of the supply for paging structures. -/
def SpaceCall.Apart (w : World) : SpaceCall → Prop
  | .mapMemory _ _ phys cnt =>
    ∀ n < cnt, ∀ m, w.machine.frameAt m ≠ frameOf (BitVec.ofNat 64 (phys + n * 4096))
  | _ => True

def EntryView.Private (F : ℕ → ℕ) (view : EntryView) : Prop :=
  ∀ i < 512, ∀ j < 512, ∀ p < 512, frameOf (view.entries i j p) ≠ 0 →
    ∀ n, F n ≠ frameOf (view.entries i j p)

variable {s s' : Machine} {o o' : Owner} {k k' v f : ℕ} {b : UInt8} {map parent child : PageMap}
  {w w' : World} {view view' : EntryView}

theorem private_empty (F : ℕ → ℕ) : EntryView.empty.Private F :=
  fun _ _ _ _ _ _ hne => absurd frameOf_zero hne

theorem SpaceCall.Apart.onView {c : SpaceCall} {found : ℕ → ℕ → Bool} (h : c.Apart w)
    (hview : view.Private w.machine.frameAt) :
    (c.onView found view).Private w.machine.frameAt := by
  cases c with
  | mk => exact private_empty _
  | clone k => exact hview
  | mapMemory k virt phys cnt =>
    refine mappedAll_induction (Q := fun e => frameOf e ≠ 0 → ∀ n, w.machine.frameAt n ≠ frameOf e)
      cnt virt phys hview fun n hn e _ m => ?_
    rw [frameOf_mapped]
    exact h n hn m
  | alloc k size back new => exact hview
  | allocAt k base size back new => exact hview

structure Serves (s : Machine) (o : Owner) (view : EntryView) (map : PageMap) : Prop where
  shows : ∃ k view', Shows s o k map view' ∧ view'.entries = view.entries
  agrees : Agrees s map

theorem Serves.walk_eq (h : Serves s o view map) (hv : v < 2 ^ 39) :
    walk s.mem map.pml4Phys v = if view.frame v = 0 then none else some (view.frame v) := by
  obtain ⟨k, view', hshows, heq⟩ := h.shows
  rw [h.agrees v hv, hshows.pageGetphys_eq hv, EntryView.frame, EntryView.frame, heq]

theorem Serves.keeps {W : ℕ → ℕ → Prop} (h : Serves s o view map) (hval : Valid s o)
    (hreach : InReach s) (hk : Keeps W s o s' o') (hreach' : InReach s') (hW : ∀ f j, ¬W f j) :
    Serves s' o' view map := by
  obtain ⟨k, view', hshows, heq⟩ := h.shows
  have hshows' := hshows.keeps hk fun f _ j _ => hW f j
  refine ⟨⟨k, view', hshows', heq⟩, fun v hv => ?_⟩
  rw [hshows.mapOk.walk_keeps hval hreach hk hreach' (fun f _ j _ => hW f j) hv, h.agrees v hv,
    hshows.pageGetphys_eq hv, hshows'.pageGetphys_eq hv]

structure Shared (s : Machine) (o : Owner) (view : EntryView) (parent child : PageMap) :
    Prop where
  valid : Valid s o
  reach : InReach s
  serves : ∀ map, map = parent ∨ map = child → Serves s o view map
  own : view.Private s.frameAt

theorem shared_of_shows (hval : Valid s o) (hreach : InReach s) (hown : view.Private s.frameAt)
    (hshows : ∀ map, map = parent ∨ map = child →
      ∃ k view', Shows s o k map view' ∧ view'.entries = view.entries)
    (hparent : Agrees s parent) (hchild : Agrees s child) : Shared s o view parent child where
  valid := hval
  reach := hreach
  serves map hmap := ⟨hshows map hmap, hmap.elim (· ▸ hparent) (· ▸ hchild)⟩
  own := hown

theorem Shared.step (h : Shared s o view parent child) (hstep : UserStep parent child s s') :
    Shared s' o view parent child := by
  cases hstep with
  | @write map v b hmap hv hwrite =>
    obtain ⟨f, hf, rfl⟩ := Option.map_eq_some_iff.mp hwrite
    rw [(h.serves map hmap).walk_eq hv] at hf
    obtain ⟨hne, hf⟩ := Option.ite_none_left_eq_some.mp hf
    obtain rfl := Option.some.inj hf
    have hk : Keeps (fun _ _ => False) s o _ o :=
      h.valid.keeps_byte b (dvd_frameOf _)
        (h.own _ (pdpIdx_lt v) _ (pdIdx_lt v) _ (ptIdx_lt v) hne) (Nat.mod_lt v (by decide))
    exact ⟨hk.valid, h.reach,
      fun map hmap => (h.serves map hmap).keeps h.valid h.reach hk h.reach fun _ _ => id, h.own⟩

theorem Shared.run (h : Shared s o view parent child)
    (hrun : ReflTransGen (UserStep parent child) s s') : Shared s' o view parent child := by
  induction hrun with
  | refl => exact h
  | tail _ hstep ih => exact ih.step hstep

theorem Shared.write_visible {map' : PageMap} (h : Shared s o view parent child)
    (hmap : map = parent ∨ map = child) (hmap' : map' = parent ∨ map' = child) (hv : v < 2 ^ 39)
    (hwrite : userWrite s map v b = some s') : userRead s' map' v = some b := by
  have h' := h.step (.write hmap hv hwrite)
  obtain ⟨f, hf, rfl⟩ := Option.map_eq_some_iff.mp hwrite
  rw [userRead, (h'.serves map' hmap').walk_eq hv, ← (h.serves map hmap).walk_eq hv, hf,
    Option.map_some]
  exact congrArg some (Function.update_self ..)

theorem clone_shows (hs : Supplies s)
    (hrun : ReflTransGen (SpaceStep SpaceCall.Apart) ⟨s, []⟩ w)
    (hexec : SpaceCall.exec w (.clone k) = some w') (hparent : w'.maps[k]? = some parent)
    (hchild : w'.maps[w.maps.length]? = some child) :
    ∃ (o : Owner) (view : EntryView), Valid w'.machine o ∧ view.Private w'.machine.frameAt ∧
      ∀ map, map = parent ∨ map = child →
        ∃ k view', Shows w'.machine o k map view' ∧ view'.entries = view.entries := by
  obtain ⟨o, views, h, hframes, hQ⟩ := run_refines (Q := EntryView.Private s.frameAt) hs
    (private_empty _)
    (fun w c view hframes hapart hview => hframes ▸ hapart.onView (hframes.symm ▸ hview)) hrun
  obtain ⟨o', views', W, hk, h', hspec⟩ := exec_refines h hexec
  obtain ⟨view, hview, rfl⟩ := Option.map_eq_some_iff.mp hspec
  have hlt : k < views.length := (List.getElem?_eq_some_iff.mp hview).1
  refine ⟨o', view, h'.valid, ?_, fun map hmap => ?_⟩
  · rw [hk.frameAt_eq, hframes]
    exact hQ view (List.mem_of_getElem? hview)
  rcases hmap with rfl | rfl
  · refine ⟨k, view, h'.shows k map view hparent ?_, rfl⟩
    rw [List.getElem?_append_left hlt]
    exact hview
  · refine ⟨_, ⟨view.entries, SpaceCall.found w (.clone k)⟩, h'.shows _ map _ hchild ?_, rfl⟩
    rw [h.length_eq, List.getElem?_concat_length]

/-- After a fork every page of the parent is mapped to the same frame in the child. Where the
processor translates both as `page_getphys` does, this stays so through any user writes on
either side: both read the same, and what one writes the other reads. -/
theorem fork_shares_memory (hs : Supplies s)
    (hrun : ReflTransGen (SpaceStep SpaceCall.Apart) ⟨s, []⟩ w)
    (hexec : SpaceCall.exec w (.clone k) = some w') (hreach : InReach w'.machine)
    (hparent : w'.maps[k]? = some parent) (hchild : w'.maps[w.maps.length]? = some child) :
    (∀ v < 2 ^ 39, pageGetphys w'.machine v child = pageGetphys w'.machine v parent) ∧
      (Agrees w'.machine parent → Agrees w'.machine child →
        ∀ s', ReflTransGen (UserStep parent child) w'.machine s' → ∀ v < 2 ^ 39,
          userRead s' child v = userRead s' parent v ∧
            ∀ b s'', (userWrite s' parent v b = some s'' → userRead s'' child v = some b) ∧
              (userWrite s' child v b = some s'' → userRead s'' parent v = some b)) := by
  obtain ⟨o, view, hval, hown, hshows⟩ := clone_shows hs hrun hexec hparent hchild
  constructor
  · intro v hv
    obtain ⟨k₁, view₁, h₁, heq₁⟩ := hshows parent (Or.inl rfl)
    obtain ⟨k₂, view₂, h₂, heq₂⟩ := hshows child (Or.inr rfl)
    rw [h₁.pageGetphys_eq hv, h₂.pageGetphys_eq hv, EntryView.frame, EntryView.frame, heq₁, heq₂]
  · intro hagrees hagrees' s' hs' v hv
    have h := (shared_of_shows hval hreach hown hshows hagrees hagrees').run hs'
    refine ⟨?_, fun b s'' => ⟨?_, ?_⟩⟩
    · rw [userRead, userRead, (h.serves child (Or.inr rfl)).walk_eq hv,
        (h.serves parent (Or.inl rfl)).walk_eq hv]
    · exact h.write_visible (Or.inl rfl) (Or.inr rfl) hv
    · exact h.write_visible (Or.inr rfl) (Or.inl rfl) hv

theorem le_dirIndex (s : Machine) (src : PageMap) (i : ℕ) : s.frames ≤ dirIndex s src i := by
  induction i with
  | zero => exact Nat.le_add_right ..
  | succ i ih => exact ih.trans ((Nat.le_add_right ..).trans (Nat.le_add_right ..))

theorem apart_onePage (hframes : w.machine.frameAt = (startMachine 0).frameAt) :
    SpaceCall.Apart w (.mapMemory 0 0x1000 0x5000 1) := by
  intro n hn m
  obtain rfl : n = 0 := Nat.lt_one_iff.mp hn
  have hframe : frameOf (BitVec.ofNat 64 (0x5000 + 0 * 4096)) = 0x5000 := by decide +kernel
  rw [hframes, hframe]
  show (m + 256) * 4096 ≠ 0x5000
  omega

theorem exists_fork :
    ∃ w w' parent child, ReflTransGen (SpaceStep SpaceCall.Apart) ⟨startMachine 0, []⟩ w ∧
      SpaceCall.exec w (.clone 0) = some w' ∧ InReach w'.machine ∧
      w'.maps[0]? = some parent ∧ w'.maps[w.maps.length]? = some child ∧
      Agrees w'.machine parent ∧ Agrees w'.machine child ∧
      pageGetphys w'.machine 0x1000 parent = 0x5000 := by
  obtain ⟨w, o, hrun, h, hframes, hle, hold, -⟩ :=
    exists_onePage 0 SpaceCall.Apart (fun _ => trivial) fun _ => apart_onePage
  obtain ⟨w', o', W, hw', hk, h'⟩ := h.exists_clone (k := 0) rfl
  obtain ⟨parent, hparent, hparent'⟩ := h'.exists_map (k := 0) rfl
  obtain ⟨child, hchild, hchild'⟩ := h'.exists_map (k := 1) rfl
  have hlen : w.maps.length = 1 := h.length_eq
  have hle' := (exec_frames_le hw').trans (Nat.add_le_add_right hle _)
  have hreach := inReach_of_start (hk.frameAt_eq.trans hframes) (hle'.trans (by decide))
  have hplain : onePage.Plain := (clean_onePage w).plain plain_empty
  have hclean : SpaceCall.Clean w (.clone 0) := by
    intro src _ i _ j hj _
    rw [hframes, hold _ j (le_dirIndex ..) hj, word_start]
    decide +kernel
  refine ⟨w, w', parent, child, hrun, hw', hreach, hparent, hlen ▸ hchild,
    hparent'.agrees h'.valid hreach hplain,
    hchild'.agrees h'.valid hreach (hclean.plain hplain), ?_⟩
  rw [hparent'.pageGetphys_eq (by decide)]
  exact frameOf_onePage

/-- A fork of a process with one page: the page of the child is the page of the parent. -/
theorem fork_shares_memory_onePage :
    ∃ s parent child, pageGetphys s 0x1000 parent = 0x5000 ∧ pageGetphys s 0x1000 child = 0x5000 ∧
      ∀ s', ReflTransGen (UserStep parent child) s s' →
        userRead s' child 0x1000 = userRead s' parent 0x1000 := by
  obtain ⟨w, w', parent, child, hrun, hexec, hreach, hparent, hchild, hagrees, hagrees', hpage⟩ :=
    exists_fork
  have h := fork_shares_memory supplies_start hrun hexec hreach hparent hchild
  refine ⟨w'.machine, parent, child, hpage, ?_, fun s' hs' => ?_⟩
  · rw [h.1 0x1000 (by decide)]
    exact hpage
  · exact (h.2 hagrees hagrees' s' hs' 0x1000 (by decide)).1

/-- Two writes of the parent, and the child reads one after the other. -/
theorem fork_writes_seen_by_child :
    ∃ w w' parent child, ReflTransGen (SpaceStep SpaceCall.Apart) ⟨startMachine 0, []⟩ w ∧
      SpaceCall.exec w (.clone 0) = some w' ∧ w'.maps[0]? = some parent ∧
      w'.maps[w.maps.length]? = some child ∧
      walk w'.machine.mem parent.pml4Phys 0x1000 = some 0x5000 ∧
      walk w'.machine.mem child.pml4Phys 0x1000 = some 0x5000 ∧
      ∃ s₁ s₂, userWrite w'.machine parent 0x1000 1 = some s₁ ∧
        userRead s₁ child 0x1000 = some 1 ∧ userWrite s₁ parent 0x1000 2 = some s₂ ∧
        userRead s₂ child 0x1000 = some 2 := by
  obtain ⟨w, w', parent, child, hrun, hexec, hreach, hparent, hchild, hagrees, hagrees', hpage⟩ :=
    exists_fork
  obtain ⟨o, view, hval, hown, hshows⟩ := clone_shows supplies_start hrun hexec hparent hchild
  have h := shared_of_shows hval hreach hown hshows hagrees hagrees'
  have hv : 0x1000 < 2 ^ 39 := by decide
  have hwalk : walk w'.machine.mem parent.pml4Phys 0x1000 = some 0x5000 := by
    rw [hagrees 0x1000 hv, hpage]
    rfl
  have hframe := ((h.serves parent (Or.inl rfl)).walk_eq hv).symm.trans hwalk
  obtain ⟨s₁, hs₁⟩ : ∃ s₁, userWrite w'.machine parent 0x1000 1 = some s₁ := by
    rw [userWrite, hwalk]
    exact ⟨_, rfl⟩
  have h₁ := h.step (.write (Or.inl rfl) hv hs₁)
  obtain ⟨s₂, hs₂⟩ : ∃ s₂, userWrite s₁ parent 0x1000 2 = some s₂ := by
    rw [userWrite, (h₁.serves parent (Or.inl rfl)).walk_eq hv, hframe]
    exact ⟨_, rfl⟩
  exact ⟨w, w', parent, child, hrun, hexec, hparent, hchild, hwalk,
    ((h.serves child (Or.inr rfl)).walk_eq hv).trans hframe,
    s₁, s₂, hs₁, h.write_visible (Or.inl rfl) (Or.inr rfl) hv hs₁, hs₂,
    h₁.write_visible (Or.inl rfl) (Or.inr rfl) hv hs₂⟩

end KernelOld.Space
