import Mathlib.Data.Nat.Count
import KernelOld.Mem.Space.Build

/-!
# `page_clone_map` and `page_map_memory`

The page entries of a clone are those of its source. Its directory entries are not
determined by the source: where the source has a table, the page-size bit is the one found in
the frame that `pmm_request` returned for the directory (`cloneLarge`).
-/

namespace KernelOld.Space
open MachineWord Paging LinkedList CountedLoop

def dirIndex (s : Machine) (src : PageMap) : ℕ → ℕ
  | 0 => s.frames + 5
  | i + 1 => dirIndex s src i + 1 + Nat.count (fun j => src.pageTables i j ≠ 0) 512

def cloneLarge (s : Machine) (src : PageMap) (i j : ℕ) : Bool :=
  if src.pageTables i j = 0 then false
  else large (word s.mem (s.frameAt (dirIndex s src i)) j)

variable {s s' s₀ : Machine} {o o' o₀ : Owner} {k k' i j m n : ℕ} {map map' src : PageMap}
  {st : Machine × PageMap} {D D' : ℕ → ℕ → Prop} {P : ℕ → ℕ → ℕ → Entry} {L : ℕ → ℕ → Bool}

theorem Filled.imp {P P' : ℕ → Entry} {L L' : Bool} (h : Filled s o k map P L i j)
    (hP : ∀ p < 512, P p = P' p) (hL : L = L') : Filled s o k map P' L' i j :=
  ⟨h.toTableOk, fun p hp => (h.pte_eq p hp).trans (hP p hp), h.large_eq.trans hL⟩

theorem Built.imp (h : Built s o k map n D P L)
    (hD : ∀ i j, i < n → j < 512 → D' i j → D i j) : Built s o k map n D' P L :=
  { h with filled := fun i j hi hj hd => h.filled i j hi hj (hD i j hi hj hd) }

structure Cloning (s₀ : Machine) (o₀ : Owner) (k : ℕ) (src : PageMap) (i m : ℕ)
    (st : Machine × PageMap) (o : Owner) : Prop where
  keeps : Keeps (Mine o₀ k) s₀ o₀ st.1 o
  built : Built st.1 o k st.2 (i + 1) (fun i' j' => i' < i ∨ i' = i ∧ j' < m)
    (pte s₀ src) (cloneLarge s₀ src)
  raw : ∀ j, m ≤ j → j < 512 →
    pde st.1 st.2 i j = word s₀.mem (s₀.frameAt (dirIndex s₀ src i)) j
  frames_eq : st.1.frames = dirIndex s₀ src i + 1 + Nat.count (fun j => src.pageTables i j ≠ 0) m

theorem cloneTable_frames (src : PageMap) (i j : ℕ) (st : Machine × PageMap) :
    (cloneTable src i j st).1.frames = st.1.frames + if src.pageTables i j ≠ 0 then 1 else 0 := by
  rw [cloneTable]
  split <;> rfl

theorem Cloning.step (h : Cloning s₀ o₀ k src i m st o) (hsrc : HasTables s₀ o₀ k' src)
    (hne : k' ≠ k) (hi : i < 512) (hm : m < 512) :
    ∃ o', Cloning s₀ o₀ k src i (m + 1) (cloneTable src i m st) o' := by
  obtain ⟨s, map⟩ := st
  have hdir := h.built.dir i (Nat.lt_succ_self i)
  obtain ⟨r, htable⟩ := hsrc i hi m hm
  obtain ⟨r', htable'⟩ := hsrc.keeps h.keeps i hi m hm
  obtain ⟨o', table, hk, hmap, hfilled⟩ :=
    cloneTable_spec h.keeps.valid hdir.dir hm htable' hne
  refine ⟨o', h.keeps.trans_mine hk.mine, ?_, fun j hj hlt => ?_, ?_⟩
  · refine h.built.replace (Nat.lt_succ_self i) hi hk hmap (hfilled.imp (fun p hp => ?_) ?_) ?_
    · exact pte_keeps htable h.keeps hp fun ht => not_mine hne _ _ _ (htable ht).owned
    · rw [cloneLarge, h.raw m (Nat.le_refl _) hm]
    · rintro i' j' (hlt | ⟨rfl, hlt⟩)
      · exact Or.inr ⟨Or.inl hlt, rfl, rfl⟩
      · rcases Nat.lt_succ_iff_lt_or_eq.mp hlt with hlt | rfl
        · exact Or.inr ⟨Or.inr ⟨rfl, hlt⟩, rfl, rfl⟩
        · exact Or.inl ⟨rfl, rfl⟩
  · rw [← h.raw j (Nat.le_of_succ_le hj) hlt, hmap]
    exact hk.words _ _ j hdir.dir.owned hlt
      (not_touches hdir.dir.owned (fun _ => Nat.ne_of_gt hj) nofun)
  · rw [cloneTable_frames, h.frames_eq, Nat.count_succ, Nat.add_assoc]

structure ClonedDirs (s₀ : Machine) (o₀ : Owner) (k : ℕ) (src : PageMap) (n : ℕ)
    (st : Machine × PageMap) (o : Owner) : Prop where
  keeps : Keeps (Mine o₀ k) s₀ o₀ st.1 o
  built : Built st.1 o k st.2 n (fun _ _ => True) (pte s₀ src) (cloneLarge s₀ src)
  frames_eq : st.1.frames = dirIndex s₀ src n

theorem ClonedDirs.start (h : ClonedDirs s₀ o₀ k src i st o) (hi : i < 512) :
    ∃ o', Cloning s₀ o₀ k src i 0 (cloneDirStart i st) o' := by
  obtain ⟨s, map⟩ := st
  obtain ⟨hlink, hwords⟩ := newLinked_raw h.keeps.valid h.built.root.pdp hi (k, .dir i)
  have hmine := hlink.keeps.mono fun f _ _ _ hf =>
    (⟨.pdp, hf.1 ▸ h.built.root.pdp.owned⟩ : Mine o k f _)
  have hframe : s.nextFrame = s₀.frameAt (dirIndex s₀ src i) := by
    rw [Machine.nextFrame, h.keeps.frameAt_eq, h.frames_eq]
  refine ⟨_, h.keeps.trans_mine hmine, h.built.addDir hi hlink rfl ?_ ?_ ?_, fun j _ hj => ?_, ?_⟩
  · exact fun _ _ => rfl
  · exact fun _ _ _ _ => trivial
  · rintro j - (hlt | ⟨-, hlt⟩)
    · exact absurd hlt (Nat.lt_irrefl i)
    · exact absurd hlt (Nat.not_lt_zero j)
  · show word _ (Function.update map.pageDirsPhys i s.nextFrame i) j = _
    rw [Function.update_self]
    refine (hwords j hj).trans ?_
    rw [hframe]
    exact h.keeps.unused _ j (Nat.le_of_eq h.frames_eq) hj
  · rw [Nat.count_zero, ← h.frames_eq]
    rfl

theorem ClonedDirs.step (h : ClonedDirs s₀ o₀ k src i st o) (hsrc : HasTables s₀ o₀ k' src)
    (hne : k' ≠ k) (hi : i < 512) :
    ∃ o', ClonedDirs s₀ o₀ k src (i + 1) (cloneDir src i st) o' := by
  obtain ⟨o', hc⟩ : ∃ o', Cloning s₀ o₀ k src i 512 (cloneDir src i st) o' := by
    refine loop_induction (I := fun m st => ∃ o', Cloning s₀ o₀ k src i m st o') 512
      (h.start hi) ?_
    rintro m st hm ⟨o', hc⟩
    exact hc.step hsrc hne hi hm
  refine ⟨o', hc.keeps, hc.built.imp fun i' j' hi' hj' _ => ?_, hc.frames_eq⟩
  exact (Nat.lt_succ_iff_lt_or_eq.mp hi').imp id fun heq => ⟨heq, hj'⟩

theorem pageCloneMap_spec (hv : Valid s o) (hsrc : HasTables s o k' src) (hne : k' ≠ k) :
    ∃ o', Keeps (Mine o k) s o (pageCloneMap s src).1 o' ∧
      Built (pageCloneMap s src).1 o' k (pageCloneMap s src).2 512 (fun _ _ => True)
        (pte s src) (cloneLarge s src) := by
  obtain ⟨o', h⟩ : ∃ o', ClonedDirs s o k src 512 (pageCloneMap s src) o' := by
    refine loop_induction (I := fun n st => ∃ o', ClonedDirs s o k src n st o') 512 ?_ ?_
    · obtain ⟨o', hk, hbuilt⟩ := newRoot_spec hv k (fun _ _ => True) (pte s src) (cloneLarge s src)
      exact ⟨o', hk, hbuilt, rfl⟩
    · rintro n st hn ⟨o', h⟩
      exact h.step hsrc hne hn
  exact ⟨o', h.keeps, h.built⟩

def mapped (virt phys : ℕ) (P : ℕ → ℕ → ℕ → Entry) (i j p : ℕ) : Entry :=
  if i = pdpIdx virt ∧ j = pdIdx virt ∧ p = ptIdx virt then
    setPageFrame (P i j p) (BitVec.ofNat 64 phys) ||| userFlags
  else P i j p

theorem ensureTable_spec (hv : Valid s o) (h : MapOk s o k map) (hi : i < 512) (hj : j < 512) :
    ∃ o' s' map', (if present (s.entry (map.pageDirs i) j) then (s, map)
        else pageMkTable i j (s, map)) = (s', map') ∧
      Keeps (Touches o k i j) s o s' o' ∧ map'.pageTables i j ≠ 0 ∧
      Built s' o' k map' 512 (fun _ _ => True) (pte s map) (fun i j => large (pde s map i j)) := by
  have hdir := (h.dir i hi).dir
  have htable := h.table i hi j hj
  rw [hdir.entry_eq]
  by_cases hnull : map.pageTables i j = 0
  · obtain ⟨o', hk, hfilled, hne⟩ := pageMkTable_spec hv hdir hj
    refine ⟨o', _, _, if_neg ?_, hk, hne, h.built.replace hi (Nat.le_refl _) hk rfl ?_ ?_⟩
    · rw [htable.absent hnull]
      exact Bool.false_ne_true
    · exact hfilled.imp (fun p _ => (if_pos hnull).symm) rfl
    · exact fun _ _ _ => Or.inr ⟨trivial, rfl, rfl⟩
  · exact ⟨o, s, map, if_pos (htable.names hnull).1, hv.keeps, hnull, h.built⟩

theorem setTable_eq_self (tables : ℕ → ℕ → ℕ) (i j : ℕ) :
    setTable tables i j (tables i j) = tables := by
  rw [setTable, Function.update_eq_self, Function.update_eq_self]

theorem mapPage_spec (hv : Valid s o) (h : MapOk s o k map) (virt phys : ℕ) :
    ∃ o', Keeps (Mine o k) s o (mapPage virt phys (s, map)).1 o' ∧
      Built (mapPage virt phys (s, map)).1 o' k (mapPage virt phys (s, map)).2 512
        (fun _ _ => True) (mapped virt phys (pte s map)) (fun i j => large (pde s map i j)) := by
  have hi := pdpIdx_lt virt
  have hj := pdIdx_lt virt
  obtain ⟨o', s', map', hensure, hk, hne, hbuilt⟩ := ensureTable_spec hv h hi hj
  have hmap : mapPage virt phys (s, map) =
      (s'.link (map'.pageTables (pdpIdx virt) (pdIdx virt)) (ptIdx virt) phys, map') := by
    rw [mapPage, hensure]
  have hfilled := hbuilt.filled _ _ hi hj trivial
  have hback := hfilled.table hne
  have hlink := hback.keeps_link hk.valid (ptIdx_lt virt) phys
  have hword := hback.word_link (ptIdx virt) phys
  have htouch := hlink.mono fun f _ q _ hf =>
    (Or.inr (hf.1 ▸ hback.owned) : Touches o' k (pdpIdx virt) (pdIdx virt) f q)
  have hpte : ∀ p < 512, word s'.mem (s'.kmap (map'.pageTables (pdpIdx virt) (pdIdx virt))) p =
      pte s map (pdpIdx virt) (pdIdx virt) p := fun p hp => by
    rw [← hfilled.pte_eq p hp, pte, if_neg hne, Machine.entry]
  rw [hmap]
  have htables : map' = { map' with
      pageTables := setTable map'.pageTables (pdpIdx virt) (pdIdx virt)
        (map'.pageTables (pdpIdx virt) (pdIdx virt)) } := by
    rw [setTable_eq_self]
  refine ⟨o', hk.mine.trans_mine htouch.mine,
    hbuilt.replace hi (Nat.le_refl _) htouch htables ?_ fun i' j' _ => ?_⟩
  · refine hfilled.write (hbuilt.dir _ hi).dir.owned hj hne hlink (fun _ _ hf => hf.1) ?_
    intro p hp
    rw [mapped]
    by_cases hpt : p = ptIdx virt
    · subst hpt
      rw [if_pos ⟨rfl, rfl, rfl⟩, hword, hpte _ hp]
    · rw [if_neg fun hw => hpt hw.2.2, ← hpte p hp]
      exact hlink.words _ _ p hback.owned hp fun hw => hpt hw.2
  · by_cases hsame : i' = pdpIdx virt ∧ j' = pdIdx virt
    · exact Or.inl hsame
    · refine Or.inr ⟨trivial, ?_, rfl⟩
      funext p
      exact if_neg fun hw => hsame ⟨hw.1, hw.2.1⟩

def mappedAll : ℕ → ℕ → ℕ → (ℕ → ℕ → ℕ → Entry) → ℕ → ℕ → ℕ → Entry
  | 0, _, _, P => P
  | cnt + 1, virt, phys, P =>
    mappedAll cnt (u64 (virt + 4096)) (u64 (phys + 4096)) (mapped virt phys P)

theorem mapped_congr {P P' : ℕ → ℕ → ℕ → Entry} {virt phys p : ℕ} (hP : P i j p = P' i j p) :
    mapped virt phys P i j p = mapped virt phys P' i j p := by
  rw [mapped, mapped, hP]

theorem pageMapMemory_spec (hv : Valid s o)
    (h : Built s o k map 512 (fun _ _ => True) P L) (cnt virt phys : ℕ) :
    ∃ o', Keeps (Mine o k) s o (pageMapMemory cnt virt phys (s, map)).1 o' ∧
      Built (pageMapMemory cnt virt phys (s, map)).1 o' k
        (pageMapMemory cnt virt phys (s, map)).2 512 (fun _ _ => True)
        (mappedAll cnt virt phys P) L := by
  induction cnt generalizing s o map virt phys P with
  | zero => exact ⟨o, hv.keeps, h⟩
  | succ cnt ih =>
    obtain ⟨o₁, hk₁, hbuilt₁⟩ := mapPage_spec hv h.mapOk virt phys
    have hnext : Built (mapPage virt phys (s, map)).1 o₁ k (mapPage virt phys (s, map)).2 512
        (fun _ _ => True) (mapped virt phys P) L := by
      have hL : ∀ i < 512, ∀ j < 512, large (pde s map i j) = L i j := fun i hi j hj =>
        (h.filled i j hi hj trivial).large_eq
      refine { hbuilt₁ with filled := fun i j hi hj hd => ?_ }
      refine (hbuilt₁.filled i j hi hj hd).imp (fun p hp => ?_) (hL i hi j hj)
      exact mapped_congr ((h.filled i j hi hj trivial).pte_eq p hp)
    obtain ⟨o₂, hk₂, hbuilt₂⟩ := ih hk₁.valid hnext (u64 (virt + 4096)) (u64 (phys + 4096))
    rw [pageMapMemory, mappedAll]
    exact ⟨o₂, hk₁.trans_mine hk₂, hbuilt₂⟩

end KernelOld.Space
