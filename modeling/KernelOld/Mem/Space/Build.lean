import KernelOld.Mem.Space.Links

/-!
# Building page maps

The effect of `page_mk_table`, `page_mk_map`, `page_clone_map` and `page_map_memory` on one page
map. Every function changes one table at a time or adds one directory to a map under construction
(`Built`).
-/

namespace KernelOld.Space
open ByteMemory Stdlib Paging LinkedList CountedLoop Function

variable {s s' s₁ : Machine} {o o' : Owner} {W : ℕ → ℕ → Prop} {k i j n : ℕ}
  {map map' : PageMap} {x y : ℕ × Role}

structure NewLinked (s : Machine) (o : Owner) (f j : ℕ) (y : ℕ × Role) (s' : Machine) : Prop where
  keeps : Keeps (fun g q => g = f ∧ q = j) s o s' (Function.update o s.nextFrame (some y))
  backed : Backed s' (Function.update o s.nextFrame (some y)) s.nextPage s.nextFrame y
  names : Names (word s'.mem f j) s.nextFrame
  large_eq : large (word s'.mem f j) = large (word s.mem f j)

theorem newLinked {p f : ℕ} (hv : Valid s o) (hb : Backed s o p f x) (hj : j < 512)
    (hfill : Keeps (fun g _ => g = s.nextFrame) s.newPage
      (update o s.nextFrame (some y)) s₁ (update o s.nextFrame (some y))) :
    NewLinked s o f j y (s₁.link p j s.nextFrame) ∧
      ∀ q < 512, word (s₁.link p j s.nextFrame).mem s.nextFrame q = word s₁.mem s.nextFrame q := by
  have hne : f ≠ s.nextFrame := (hv.ne_unused hb.owned (Nat.le_refl _)).symm
  have hnew : Keeps (fun _ _ => False) s o s.newPage _ := hv.keeps_newPage (some y)
  have hfilled : Keeps (fun _ _ => False) s o s₁ _ :=
    hnew.trans hfill fun g z q hz hg => hv.ne_unused hz (Nat.le_refl _) hg.symm
  have hback := (backed_newPage s o y).keeps hfill
  have hb₁ := hb.keeps hfilled
  have hlink := hb₁.keeps_link hfilled.valid hj s.nextFrame
  have hword : word (s₁.link p j s.nextFrame).mem f j = _ := hb₁.word_link j _
  rw [hfilled.words f x j hb.owned hj id] at hword
  refine ⟨⟨?_, hback.keeps hlink, ?_, ?_⟩, ?_⟩
  · exact (hfilled.mono fun _ _ _ _ => False.elim).trans hlink fun _ _ _ _ => id
  · rw [hword]
    exact ⟨present_mapped_user _ _,
      (frameOf_mapped _ _).trans (frameOf_ofNat (hv.frame_aligned s.frames))⟩
  · rw [hword, large_mapped_user]
  · intro q hq
    exact hlink.words _ _ q hback.owned hq fun hg => hne hg.1.symm

theorem newLinked_cleared {p f : ℕ} (hv : Valid s o) (hb : Backed s o p f x) (hj : j < 512)
    (y : ℕ × Role) :
    NewLinked s o f j y ((s.newPage.clearPage s.nextPage).link p j s.nextFrame) ∧
      ∀ q < 512,
        word ((s.newPage.clearPage s.nextPage).link p j s.nextFrame).mem s.nextFrame q = 0 := by
  have hnew : Keeps (fun _ _ => False) s o s.newPage _ := hv.keeps_newPage (some y)
  have hback := backed_newPage s o y
  obtain ⟨hlink, hwords⟩ := newLinked hv hb hj (hback.keeps_clearPage hnew.valid)
  exact ⟨hlink, fun q hq => (hwords q hq).trans (hback.word_clearPage hq)⟩

theorem newLinked_raw {p f : ℕ} (hv : Valid s o) (hb : Backed s o p f x) (hj : j < 512)
    (y : ℕ × Role) :
    NewLinked s o f j y (s.newPage.link p j s.nextFrame) ∧
      ∀ q < 512, word (s.newPage.link p j s.nextFrame).mem s.nextFrame q =
        word s.mem s.nextFrame q := by
  have hnew : Keeps (fun _ _ => False) s o s.newPage _ := hv.keeps_newPage (some y)
  exact newLinked hv hb hj hnew.valid.keeps

structure Filled (s : Machine) (o : Owner) (k : ℕ) (map : PageMap) (P : ℕ → Entry) (L : Bool)
    (i j : ℕ) : Prop extends TableOk s o k map i j where
  pte_eq : ∀ p < 512, pte s map i j p = P p
  large_eq : large (pde s map i j) = L

structure Built (s : Machine) (o : Owner) (k : ℕ) (map : PageMap) (n : ℕ) (D : ℕ → ℕ → Prop)
    (P : ℕ → ℕ → ℕ → Entry) (L : ℕ → ℕ → Bool) : Prop where
  root : RootOk s o k map
  dir : ∀ i < n, DirOk s o k map i
  filled : ∀ i j, i < n → j < 512 → D i j → Filled s o k map (P i j) (L i j) i j
  rest : ∀ i, n ≤ i → i < 512 → word s.mem map.pdpPhys i = 0

theorem DirOk.congr (h : DirOk s o k map i) (hpdp : map'.pdpPhys = map.pdpPhys)
    (hdir : map'.pageDirs i = map.pageDirs i)
    (hphys : map'.pageDirsPhys i = map.pageDirsPhys i) : DirOk s o k map' i := by
  refine ⟨?_, ?_, ?_⟩
  · rw [hdir, hphys]
    exact h.dir
  · rw [hpdp, hphys]
    exact h.names
  · rw [hpdp]
    exact h.small

theorem Filled.congr {P : ℕ → Entry} {L : Bool} (h : Filled s o k map P L i j)
    (hphys : map'.pageDirsPhys i = map.pageDirsPhys i)
    (htable : map'.pageTables i j = map.pageTables i j) : Filled s o k map' P L i j := by
  refine ⟨⟨?_, ?_, ?_⟩, ?_, ?_⟩
  · rw [hphys, htable]
    exact h.absent
  · rw [htable]
    exact h.table
  · rw [hphys, htable]
    exact h.names
  · intro p hp
    rw [← h.pte_eq p hp, pte, pte, htable]
  · rw [← h.large_eq, pde, pde, hphys]

theorem Filled.keeps {P : ℕ → Entry} {L : Bool} (h : Filled s o k map P L i j)
    (hdir : o (map.pageDirsPhys i) = some (k, .dir i)) (hk : Keeps W s o s' o') (hj : j < 512)
    (hW : ¬W (map.pageDirsPhys i) j) (hWt : ∀ f p, o f = some (k, .table i j) → ¬W f p) :
    Filled s' o' k map P L i j := by
  refine ⟨h.toTableOk.keeps hdir hk hj hW, fun p hp => ?_, ?_⟩
  · rw [pte_keeps h.table hk hp fun ht => hWt _ p (h.table ht).owned]
    exact h.pte_eq p hp
  · rw [← h.large_eq, pde, hk.words _ _ j hdir hj hW, pde]

variable {D D' : ℕ → ℕ → Prop} {P P' : ℕ → ℕ → ℕ → Entry} {L L' : ℕ → ℕ → Bool}

theorem MapOk.built (h : MapOk s o k map) :
    Built s o k map 512 (fun _ _ => True) (pte s map) (fun i j => large (pde s map i j)) where
  root := h.root
  dir := h.dir
  filled i j hi hj _ := ⟨h.table i hi j hj, fun _ _ => rfl, rfl⟩
  rest _ hn hi := absurd hi (Nat.not_lt.mpr hn)

theorem Built.mapOk (h : Built s o k map 512 (fun _ _ => True) P L) : MapOk s o k map :=
  ⟨h.root, h.dir, fun i hi j hj => (h.filled i j hi hj trivial).toTableOk⟩

theorem setTable_self (tables : ℕ → ℕ → ℕ) (i j table : ℕ) :
    setTable tables i j table i j = table := by
  rw [setTable, update_self, update_self]

theorem setTable_of_ne {i' j' : ℕ} (tables : ℕ → ℕ → ℕ) (table : ℕ)
    (hne : ¬(i' = i ∧ j' = j)) : setTable tables i j table i' j' = tables i' j' := by
  rw [setTable]
  by_cases hi : i' = i
  · subst hi
    rw [update_self, update_of_ne fun hj => hne ⟨rfl, hj⟩]
  · rw [update_of_ne hi]

/-- One table changes. The operation writes the directory entry of the table and the
frames of the table, and nothing else of the map. -/
theorem Built.replace (h : Built s o k map n D P L) (hi : i < n) (hn : n ≤ 512)
    (hk : Keeps (Touches o k i j) s o s' o') {table : ℕ}
    (hmap : map' = { map with pageTables := setTable map.pageTables i j table })
    (hnew : Filled s' o' k map' (P' i j) (L' i j) i j)
    (hold : ∀ i' j', D' i' j' → (i' = i ∧ j' = j) ∨
      (D i' j' ∧ P' i' j' = P i' j' ∧ L' i' j' = L i' j')) :
    Built s' o' k map' n D' P' L' := by
  subst hmap
  have hWpdp : ∀ q, ¬Touches o k i j map.pdpPhys q := fun q =>
    not_touches h.root.pdp.owned nofun nofun
  have hroot := h.root.keeps hk (not_touches h.root.pml4.owned nofun nofun)
  refine ⟨⟨hroot.pml4, hroot.pdp, hroot.names⟩, fun i' hi' => ?_, fun i' j' hi' hj' hd => ?_,
    fun i' hi' hlt => ?_⟩
  · exact ((h.dir i' hi').keeps h.root hk (hi'.trans_le hn) (hWpdp i')).congr rfl rfl rfl
  · by_cases hsame : i' = i ∧ j' = j
    · obtain ⟨rfl, rfl⟩ := hsame
      exact hnew
    obtain ⟨hd, hP, hL⟩ := (hold i' j' hd).resolve_left hsame
    rw [hP, hL]
    have hdir := (h.dir i' hi').dir.owned
    refine ((h.filled i' j' hi' hj' hd).keeps hdir hk hj' ?_ ?_).congr rfl ?_
    · refine not_touches hdir (fun heq hjj => hsame ⟨?_, hjj⟩) nofun
      cases heq
      rfl
    · refine fun f p hf => not_touches hf nofun fun heq => hsame ?_
      cases heq
      exact ⟨rfl, rfl⟩
    · exact setTable_of_ne _ table hsame
  · rw [← h.rest i' hi' hlt]
    exact hk.words _ _ i' h.root.pdp.owned hlt (hWpdp i')

theorem Built.addDir (h : Built s o k map n D P L) (hn : n < 512)
    (hnew : NewLinked s o map.pdpPhys n (k, .dir n) s') {tables : ℕ → ℕ → ℕ}
    (hmap : map' =
      { map with
        pageDirs := update map.pageDirs n s.nextPage
        pageDirsPhys := update map.pageDirsPhys n s.nextFrame
        pageTables := tables })
    (htables : ∀ i < n, tables i = map.pageTables i) (hD : ∀ i j, i < n → D' i j → D i j)
    (hfilled : ∀ j < 512, D' n j →
      Filled s' (update o s.nextFrame (some (k, .dir n))) k map' (P n j) (L n j) n j) :
    Built s' (update o s.nextFrame (some (k, .dir n))) k map' (n + 1) D' P L := by
  subst hmap
  have hk := hnew.keeps
  have hroot := h.root.keeps hk fun hw => frame_ne h.root.pml4.owned h.root.pdp.owned nofun hw.1
  refine ⟨⟨hroot.pml4, hroot.pdp, hroot.names⟩, fun i hi => ?_, fun i j hi hj hd => ?_,
    fun i hi hlt => ?_⟩
  · rcases Nat.lt_succ_iff_lt_or_eq.mp hi with hi | rfl
    · have hne : i ≠ n := Nat.ne_of_lt hi
      exact ((h.dir i hi).keeps h.root hk (hi.trans hn) fun hw => hne hw.2).congr rfl
        (update_of_ne hne _ _) (update_of_ne hne _ _)
    · refine ⟨?_, ?_, ?_⟩
      · show Backed s' _ (update map.pageDirs i s.nextPage i)
          (update map.pageDirsPhys i s.nextFrame i) _
        rw [update_self, update_self]
        exact hnew.backed
      · show Names _ (update map.pageDirsPhys i s.nextFrame i)
        rw [update_self]
        exact hnew.names
      · show large (word s'.mem map.pdpPhys i) = false
        rw [hnew.large_eq, h.rest i (Nat.le_refl _) hn]
        decide
  · rcases Nat.lt_succ_iff_lt_or_eq.mp hi with hi | rfl
    · have hne : i ≠ n := Nat.ne_of_lt hi
      have hdir := h.dir i hi
      refine ((h.filled i j hi hj (hD i j hi hd)).keeps hdir.dir.owned hk hj ?_ ?_).congr
        (update_of_ne hne _ _) (congrFun (htables i hi) j)
      · exact fun hw => frame_ne hdir.dir.owned h.root.pdp.owned nofun hw.1
      · exact fun f p hf hw => frame_ne hf h.root.pdp.owned nofun hw.1
    · exact hfilled j hj hd
  · rw [← h.rest i (Nat.le_of_succ_le hi) hlt]
    exact hk.words _ _ i h.root.pdp.owned hlt fun hw => Nat.ne_of_gt hi hw.2

theorem present_zero : present 0 = false := by decide

theorem large_zero : large 0 = false := by decide

theorem filled_empty (htable : map.pageTables i j = 0) (hword : pde s map i j = 0) :
    Filled s o k map (fun _ => 0) false i j where
  absent _ := by
    rw [← pde, hword, present_zero]
  table ht := absurd htable ht
  names ht := absurd htable ht
  pte_eq p _ := by rw [pte, if_pos htable]
  large_eq := by rw [hword, large_zero]

theorem newRoot_spec (hv : Valid s o) (k : ℕ) (D : ℕ → ℕ → Prop) (P : ℕ → ℕ → ℕ → Entry)
    (L : ℕ → ℕ → Bool) :
    ∃ o', Keeps (Mine o k) s o (newRoot s).1 o' ∧
      Built (newRoot s).1 o' k (newRoot s).2 0 D P L := by
  have h₁ : Keeps (Mine o k) s o s.newPage _ := hv.keeps_newPage (some (k, .pml4))
  have hb₁ := backed_newPage s o (k, .pml4)
  have h₂ := hb₁.keeps_copyPage h₁.valid s.kpml4Phys
  have hb₂ := hb₁.keeps h₂
  obtain ⟨hlink, hwords⟩ := newLinked_cleared h₂.valid hb₂ (by decide : 0 < 512) (k, .pdp)
  have h₁₂ := h₁.trans_mine (h₂.mono fun f _ _ _ hf => ⟨.pml4, hf ▸ hb₁.owned⟩)
  have h₃ := h₁₂.trans_mine (hlink.keeps.mono fun f _ _ _ hf => ⟨.pml4, hf.1 ▸ hb₂.owned⟩)
  have hroot : RootOk _ _ k (newRoot s).2 := ⟨hb₂.keeps hlink.keeps, hlink.backed, hlink.names⟩
  -- The pages of the three arrays.
  have h₄ : Keeps (fun _ _ => False) _ _ _ _ := h₃.valid.keeps_newPage none
  have h₅ : Keeps (fun _ _ => False) _ _ _ _ := h₄.valid.keeps_newPage none
  have h₆ : Keeps (fun _ _ => False) _ _ _ _ := h₅.valid.keeps_newPage none
  have hrest := (h₄.trans h₅ fun _ _ _ _ => id).trans h₆ fun _ _ _ _ => id
  refine ⟨_, h₃.trans hrest fun _ _ _ _ => False.elim, hroot.keeps hrest id, ?_, ?_, ?_⟩
  · exact fun i hi => absurd hi (Nat.not_lt_zero i)
  · exact fun i j hi => absurd hi (Nat.not_lt_zero i)
  · intro i _ hi
    rw [← hwords i hi]
    exact hrest.words _ _ i hlink.backed.owned hi id

theorem mkDir_spec (hv : Valid s o) (hn : n < 512)
    (h : Built s o k map n (fun _ _ => True) (fun _ _ _ => 0) fun _ _ => false) :
    ∃ o', Keeps (Mine o k) s o (mkDir n (s, map)).1 o' ∧
      Built (mkDir n (s, map)).1 o' k (mkDir n (s, map)).2 (n + 1) (fun _ _ => True)
        (fun _ _ _ => 0) fun _ _ => false := by
  obtain ⟨hlink, hwords⟩ := newLinked_cleared hv h.root.pdp hn (k, .dir n)
  refine ⟨_, hlink.keeps.mono fun f y q hy hf => ?_, h.addDir hn hlink rfl ?_ ?_ ?_⟩
  · exact ⟨.pdp, hf.1 ▸ h.root.pdp.owned⟩
  · exact fun i hi => update_of_ne (Nat.ne_of_lt hi) _ _
  · exact fun _ _ _ _ => trivial
  · intro j hj _
    refine filled_empty ?_ ?_
    · show update map.pageTables n (fun _ => 0) n j = 0
      rw [update_self]
    · show word _ (update map.pageDirsPhys n s.nextFrame n) j = 0
      rw [update_self]
      exact hwords j hj

theorem pageMkMap_spec (hv : Valid s o) (k : ℕ) :
    ∃ o', Keeps (Mine o k) s o (pageMkMap s).1 o' ∧
      Built (pageMkMap s).1 o' k (pageMkMap s).2 512 (fun _ _ => True) (fun _ _ _ => 0)
        fun _ _ => false := by
  refine loop_induction (I := fun n (st : Machine × PageMap) =>
    ∃ o', Keeps (Mine o k) s o st.1 o' ∧
      Built st.1 o' k st.2 n (fun _ _ => True) (fun _ _ _ => 0) fun _ _ => false) 512
    (newRoot_spec hv k _ _ _) ?_
  rintro n ⟨s₁, map⟩ hn ⟨o₁, hk, hbuilt⟩
  obtain ⟨o₂, hk₂, hbuilt₂⟩ := mkDir_spec hk.valid hn hbuilt
  exact ⟨o₂, hk.trans_mine hk₂, hbuilt₂⟩

theorem pageMkTable_spec (hv : Valid s o)
    (hdir : Backed s o (map.pageDirs i) (map.pageDirsPhys i) (k, .dir i)) (hj : j < 512) :
    ∃ o', Keeps (Touches o k i j) s o (pageMkTable i j (s, map)).1 o' ∧
      Filled (pageMkTable i j (s, map)).1 o' k (pageMkTable i j (s, map)).2 (fun _ => 0)
        (large (pde s map i j)) i j ∧
      (pageMkTable i j (s, map)).2.pageTables i j ≠ 0 := by
  obtain ⟨hlink, hwords⟩ := newLinked_cleared hv hdir hj (k, .table i j)
  have htable : (pageMkTable i j (s, map)).2.pageTables i j = s.nextPage := setTable_self ..
  have hne : s.nextPage ≠ 0 := hv.page_ne _
  have hback : Backed (pageMkTable i j (s, map)).1 _ s.nextPage s.nextFrame _ := hlink.backed
  refine ⟨_, hlink.keeps.mono fun f _ q _ hf => Or.inl ⟨hf.1 ▸ hdir.owned, hf.2⟩, ?_, htable ▸ hne⟩
  refine ⟨⟨fun ht => absurd (htable.symm.trans ht) hne, fun _ => ?_, fun _ => ?_⟩,
    fun p hp => ?_, ?_⟩
  · rw [htable, hback.kmap_eq]
    exact hback
  · rw [htable, hback.kmap_eq]
    exact hlink.names
  · rw [pte, htable, if_neg hne, hback.entry_eq]
    exact hwords p hp
  · exact hlink.large_eq

theorem Filled.write {P P' : ℕ → Entry} {L : Bool} (h : Filled s o k map P L i j)
    (hdir : o (map.pageDirsPhys i) = some (k, .dir i)) (hj : j < 512)
    (ht : map.pageTables i j ≠ 0) (hk : Keeps W s o s' o')
    (hW : ∀ f q, W f q → f = s.kmap (map.pageTables i j))
    (hwords : ∀ p < 512, word s'.mem (s.kmap (map.pageTables i j)) p = P' p) :
    Filled s' o' k map P' L i j := by
  have hWdir : ¬W (map.pageDirsPhys i) j := fun hw =>
    frame_ne hdir (h.table ht).owned nofun (hW _ _ hw)
  refine ⟨h.toTableOk.keeps hdir hk hj hWdir, fun p hp => ?_, ?_⟩
  · rw [pte, if_neg ht, ((h.table ht).keeps hk).entry_eq]
    exact hwords p hp
  · rw [← h.large_eq, pde, hk.words _ _ j hdir hj hWdir, pde]

/-- One round of the inner loop of `page_clone_map`. The page-size bit of a directory entry
that is used comes from the frame of the directory as it was found. -/
theorem cloneTable_spec {src : PageMap} {k' : ℕ} {r : Role} (hv : Valid s o)
    (hdir : Backed s o (map.pageDirs i) (map.pageDirsPhys i) (k, .dir i)) (hj : j < 512)
    (hsrc : src.pageTables i j ≠ 0 →
      Backed s o (src.pageTables i j) (s.kmap (src.pageTables i j)) (k', r)) (hne : k' ≠ k) :
    ∃ o' table, Keeps (Touches o k i j) s o (cloneTable src i j (s, map)).1 o' ∧
      (cloneTable src i j (s, map)).2 =
        { map with pageTables := setTable map.pageTables i j table } ∧
      Filled (cloneTable src i j (s, map)).1 o' k (cloneTable src i j (s, map)).2 (pte s src i j)
        (if src.pageTables i j = 0 then false else large (pde s map i j)) i j := by
  by_cases hnull : src.pageTables i j = 0
  · have hzero : pte s src i j = fun _ => 0 := funext fun p => if_pos hnull
    have hclone : cloneTable src i j (s, map) = (s.setEntry (map.pageDirs i) j 0,
        { map with pageTables := setTable map.pageTables i j 0 }) := if_neg (not_not.mpr hnull)
    rw [hclone, hzero, if_pos hnull]
    refine ⟨o, 0, ?_, rfl, filled_empty (setTable_self ..) hdir.word_setEntry⟩
    exact (hdir.keeps_setEntry hv hj).mono fun f _ q _ hf => Or.inl ⟨hf.1 ▸ hdir.owned, hf.2⟩
  · obtain ⟨o₁, hk₁, hfilled, hne₁⟩ := pageMkTable_spec hv hdir hj
    have hclone : cloneTable src i j (s, map) =
        ((pageMkTable i j (s, map)).1.copyPage ((pageMkTable i j (s, map)).2.pageTables i j)
          ((pageMkTable i j (s, map)).1.kmap (src.pageTables i j)),
        (pageMkTable i j (s, map)).2) := if_pos hnull
    have hback := hfilled.table hne₁
    have hown := (hsrc hnull).owned
    have hsrc₁ := (hsrc hnull).keeps hk₁
    have hk₂ := hback.keeps_copyPage hk₁.valid
      ((pageMkTable i j (s, map)).1.kmap (src.pageTables i j))
    have hroles : ∀ r', (k', r) ≠ (k, r') := fun r' heq => hne (congrArg Prod.fst heq)
    rw [hclone, if_neg hnull]
    refine ⟨o₁, s.nextPage, ?_, rfl, ?_⟩
    · exact hk₁.trans_touches (hk₂.mono fun f _ q _ hf => Or.inr (hf ▸ hback.owned))
    · refine hfilled.write (hdir.keeps hk₁).owned hj hne₁ hk₂ (fun f q hf => hf) fun p hp => ?_
      have hother := frame_ne hback.owned hsrc₁.owned (hroles _).symm
      rw [hsrc₁.kmap_eq, hback.word_copyPage hk₁.valid hsrc₁.owned hother hp,
        hk₁.words _ _ p hown hp (not_touches hown (fun heq => absurd heq (hroles _)) (hroles _)),
        pte, if_neg hnull, Machine.entry]

end KernelOld.Space
