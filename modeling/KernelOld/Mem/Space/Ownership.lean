import KernelOld.Mem.Space.Maps

/-!
# Who uses which frame

`Owner` is a record on the side of the frames in use: the number of the map that uses a frame, and
its part in it. `Keeps W s o s' o'` says what all operations have in common: frames in use stay in
use, and of the entries in them only those in `W` may have changed.
-/

namespace KernelOld.Space
open ByteMemory Stdlib Paging Function

inductive Role
  | pml4
  | pdp
  | dir (i : ℕ)
  | table (i j : ℕ)

abbrev Owner := ℕ → Option (ℕ × Role)

/-- No page or frame is handed out twice. -/
structure Supplies (s : Machine) : Prop where
  page_inj : Function.Injective s.pageAt
  page_ne : ∀ n, s.pageAt n ≠ 0
  frame_inj : Function.Injective s.frameAt
  frame_aligned : ∀ n, 4096 ∣ s.frameAt n

structure Valid (s : Machine) (o : Owner) : Prop extends Supplies s where
  unused : ∀ n, s.frames ≤ n → o (s.frameAt n) = none
  taken : ∀ f x, o f = some x → ∃ n < s.frames, s.frameAt n = f

structure Keeps (W : ℕ → ℕ → Prop) (s : Machine) (o : Owner) (s' : Machine) (o' : Owner) :
    Prop where
  valid : Valid s' o'
  pageAt_eq : s'.pageAt = s.pageAt
  frameAt_eq : s'.frameAt = s.frameAt
  pages_le : s.pages ≤ s'.pages
  frames_le : s.frames ≤ s'.frames
  kmap_eq : ∀ n < s.pages, s'.kmap (s.pageAt n) = s.kmap (s.pageAt n)
  owner : ∀ f x, o f = some x → o' f = some x
  words : ∀ f x j, o f = some x → j < 512 → ¬W f j → word s'.mem f j = word s.mem f j
  unused : ∀ n j, s'.frames ≤ n → j < 512 →
    word s'.mem (s.frameAt n) j = word s.mem (s.frameAt n) j

structure Backed (s : Machine) (o : Owner) (p f : ℕ) (x : ℕ × Role) : Prop where
  old : ∃ n < s.pages, s.pageAt n = p
  kmap_eq : s.kmap p = f
  owned : o f = some x

variable {s s' s'' : Machine} {o o' o'' : Owner} {W W' : ℕ → ℕ → Prop} {p f j : ℕ}
  {x : ℕ × Role} {e : Entry}

theorem Valid.aligned (h : Valid s o) (hf : o f = some x) : 4096 ∣ f := by
  obtain ⟨n, -, rfl⟩ := h.taken f x hf
  exact h.frame_aligned n

/-- An entry has room for the address of every frame that was handed out. -/
def InReach (s : Machine) : Prop := ∀ n < s.frames, s.frameAt n < 2 ^ 52

theorem Valid.lt (h : Valid s o) (hreach : InReach s) (hf : o f = some x) : f < 2 ^ 52 := by
  obtain ⟨n, hn, rfl⟩ := h.taken f x hf
  exact hreach n hn

theorem Valid.keeps (h : Valid s o) : Keeps W s o s o :=
  ⟨h, rfl, rfl, Nat.le_refl _, Nat.le_refl _, fun _ _ => rfl, fun _ _ => id,
    fun _ _ _ _ _ _ => rfl, fun _ _ _ _ => rfl⟩

theorem Keeps.trans (h : Keeps W s o s' o') (h' : Keeps W' s' o' s'' o'')
    (hW : ∀ f x j, o f = some x → W' f j → W f j) : Keeps W s o s'' o'' where
  valid := h'.valid
  pageAt_eq := h'.pageAt_eq.trans h.pageAt_eq
  frameAt_eq := h'.frameAt_eq.trans h.frameAt_eq
  pages_le := h.pages_le.trans h'.pages_le
  frames_le := h.frames_le.trans h'.frames_le
  kmap_eq n hn := by
    rw [← h.kmap_eq n hn, ← h.pageAt_eq]
    exact h'.kmap_eq n (hn.trans_le h.pages_le)
  owner f x hx := h'.owner f x (h.owner f x hx)
  words f x j hx hj hf := by
    rw [← h.words f x j hx hj hf]
    exact h'.words f x j (h.owner f x hx) hj fun hW' => hf (hW f x j hx hW')
  unused n j hn hj := by
    rw [← h.unused n j (h'.frames_le.trans hn) hj, ← h.frameAt_eq]
    exact h'.unused n j hn hj

theorem Keeps.mono (h : Keeps W s o s' o') (hW : ∀ f x j, o f = some x → W f j → W' f j) :
    Keeps W' s o s' o' :=
  { h with words := fun f x j hx hj hf => h.words f x j hx hj fun hw => hf (hW f x j hx hw) }

def Mine (o : Owner) (k f _q : ℕ) : Prop := ∃ r, o f = some (k, r)

def Touches (o : Owner) (k i j f q : ℕ) : Prop :=
  (o f = some (k, .dir i) ∧ q = j) ∨ o f = some (k, .table i j)

theorem frame_ne {g : ℕ} {y : ℕ × Role} (hf : o f = some x) (hg : o g = some y) (hne : x ≠ y) :
    f ≠ g := by
  rintro rfl
  exact hne (Option.some.inj (hf.symm.trans hg))

theorem not_mine {k k' : ℕ} (hne : k' ≠ k) : ∀ f r j, o f = some (k', r) → ¬Mine o k f j := by
  rintro f r j hf ⟨r', hf'⟩
  exact frame_ne hf hf' (fun heq => hne (congrArg Prod.fst heq)) rfl

theorem not_touches {k i q : ℕ} (hf : o f = some x) (hdir : x = (k, .dir i) → q ≠ j)
    (htable : x ≠ (k, .table i j)) : ¬Touches o k i j f q := by
  rintro (⟨hw, hq⟩ | hw)
  · exact hdir (Option.some.inj (hf.symm.trans hw)) hq
  · exact frame_ne hf hw htable rfl

theorem Keeps.trans_mine {k : ℕ} (h : Keeps (Mine o k) s o s' o')
    (h' : Keeps (Mine o' k) s' o' s'' o'') : Keeps (Mine o k) s o s'' o'' := by
  refine h.trans h' fun f y q hy hw => ?_
  obtain ⟨r, hr⟩ := hw
  rw [h.owner f y hy] at hr
  exact ⟨r, hy.trans hr⟩

theorem Keeps.trans_touches {k i j : ℕ} (h : Keeps (Touches o k i j) s o s' o')
    (h' : Keeps (Touches o' k i j) s' o' s'' o'') : Keeps (Touches o k i j) s o s'' o'' := by
  refine h.trans h' fun f y q hy hw => ?_
  rw [Touches, h.owner f y hy, ← hy] at hw
  exact hw

theorem Keeps.mine {k i j : ℕ} (h : Keeps (Touches o k i j) s o s' o') :
    Keeps (Mine o k) s o s' o' :=
  h.mono fun _ _ _ _ hw => hw.elim (fun hd => ⟨_, hd.1⟩) fun ht => ⟨_, ht⟩

theorem Backed.keeps (hb : Backed s o p f x) (h : Keeps W s o s' o') : Backed s' o' p f x := by
  obtain ⟨⟨n, hn, rfl⟩, hk, hx⟩ := hb
  refine ⟨⟨n, hn.trans_le h.pages_le, ?_⟩, ?_, h.owner f x hx⟩
  · rw [h.pageAt_eq]
  · rw [h.kmap_eq n hn, hk]

theorem Valid.ne_unused {n : ℕ} (h : Valid s o) (hf : o f = some x) (hn : s.frames ≤ n) :
    s.frameAt n ≠ f := by
  rintro rfl
  rw [h.unused n hn] at hf
  cases hf

theorem Valid.keeps_newPage (h : Valid s o) (x : Option (ℕ × Role)) :
    Keeps W s o s.newPage (update o s.nextFrame x) where
  valid :=
    { h with
      unused := fun n hn => by
        have hne : s.frameAt n ≠ s.nextFrame := fun heq =>
          Nat.ne_of_gt hn (h.frame_inj heq)
        rw [← h.unused n (Nat.le_of_succ_le hn)]
        exact update_of_ne hne _ _
      taken := fun f y hy => by
        by_cases hf : f = s.nextFrame
        · exact ⟨s.frames, Nat.lt_succ_self _, hf.symm⟩
        · rw [update_of_ne hf] at hy
          obtain ⟨n, hn, rfl⟩ := h.taken f y hy
          exact ⟨n, Nat.lt_succ_of_lt hn, rfl⟩ }
  pageAt_eq := rfl
  frameAt_eq := rfl
  pages_le := Nat.le_succ _
  frames_le := Nat.le_succ _
  kmap_eq n hn := update_of_ne (fun heq => Nat.ne_of_lt hn (h.page_inj heq)) _ _
  owner f y hy := by
    rw [← hy]
    exact update_of_ne (h.ne_unused hy (Nat.le_refl _)).symm _ _
  words _ _ _ _ _ _ := rfl
  unused _ _ _ _ := rfl

theorem backed_newPage (s : Machine) (o : Owner) (x : ℕ × Role) :
    Backed s.newPage (update o s.nextFrame (some x)) s.nextPage s.nextFrame x :=
  ⟨⟨s.pages, Nat.lt_succ_self _, rfl⟩, update_self .., update_self ..⟩

theorem Valid.keeps_mem {m : Mem} (h : Valid s o)
    (hwords : ∀ f x j, o f = some x → j < 512 → ¬W f j → word m f j = word s.mem f j)
    (hunused : ∀ n j, s.frames ≤ n → j < 512 →
      word m (s.frameAt n) j = word s.mem (s.frameAt n) j) :
    Keeps W s o { s with mem := m } o where
  valid := { h with }
  pageAt_eq := rfl
  frameAt_eq := rfl
  pages_le := Nat.le_refl _
  frames_le := Nat.le_refl _
  kmap_eq _ _ := rfl
  owner _ _ := id
  words := hwords
  unused := hunused

theorem Valid.keeps_write {m : Mem} (h : Valid s o) (hf : o f = some x)
    (hother : ∀ g j, 4096 ∣ g → g ≠ f → j < 512 → word m g j = word s.mem g j)
    (hin : ∀ j, j < 512 → ¬W f j → word m f j = word s.mem f j) :
    Keeps W s o { s with mem := m } o := by
  refine h.keeps_mem (fun g y j hy hj hg => ?_) fun n j hn hj => ?_
  · by_cases hgf : g = f
    · subst hgf
      exact hin j hj hg
    · exact hother g j (h.aligned hy) hgf hj
  · exact hother _ j (h.frame_aligned n) (h.ne_unused hf hn) hj

theorem Valid.keeps_byte {q : ℕ} (h : Valid s o) (b : UInt8) (hf : 4096 ∣ f)
    (hne : ∀ n, s.frameAt n ≠ f) (hq : q < 4096) :
    Keeps W s o { s with mem := update s.mem (f + q) b } o := by
  refine h.keeps_mem (fun g y j hy hj _ => ?_) fun n j _ hj => ?_
  · obtain ⟨n, -, rfl⟩ := h.taken g y hy
    exact word_update hf (h.frame_aligned n) (hne n).symm hq hj
  · exact word_update hf (h.frame_aligned n) (hne n).symm hq hj

theorem Backed.keeps_setEntry (hb : Backed s o p f x) (h : Valid s o) (hj : j < 512) :
    Keeps (fun g k => g = f ∧ k = j) s o (s.setEntry p j e) o := by
  have ha := h.aligned hb.owned
  rw [Machine.setEntry, hb.kmap_eq]
  refine h.keeps_write hb.owned ?_ ?_
  · intro g k hg hgf hk
    exact word_setWord_of_ne ha hg hj hk (Or.inl hgf.symm)
  · intro k hk hkj
    exact word_setWord_of_ne ha ha hj hk (Or.inr fun hjk => hkj ⟨rfl, hjk.symm⟩)

theorem Backed.keeps_clearPage (hb : Backed s o p f x) (h : Valid s o) :
    Keeps (fun g _ => g = f) s o (s.clearPage p) o := by
  have ha := h.aligned hb.owned
  rw [Machine.clearPage, hb.kmap_eq]
  refine h.keeps_write hb.owned ?_ ?_
  · intro g k hg hgf hk
    exact word_memset_of_ne ha hg hgf.symm hk
  · intro k _ hkf
    exact absurd rfl hkf

theorem Backed.keeps_copyPage (hb : Backed s o p f x) (h : Valid s o) (phys : ℕ) :
    Keeps (fun g _ => g = f) s o (s.copyPage p phys) o := by
  have ha := h.aligned hb.owned
  rw [Machine.copyPage, hb.kmap_eq]
  refine h.keeps_write hb.owned ?_ ?_
  · intro g k hg hgf hk
    exact word_memcpy_of_ne ha hg hgf.symm hk
  · intro k _ hkf
    exact absurd rfl hkf

theorem Backed.word_setEntry (hb : Backed s o p f x) : word (s.setEntry p j e).mem f j = e := by
  rw [Machine.setEntry, hb.kmap_eq]
  exact word_setWord ..

theorem Backed.word_clearPage (hb : Backed s o p f x) (hj : j < 512) :
    word (s.clearPage p).mem f j = 0 := by
  rw [Machine.clearPage, hb.kmap_eq]
  exact word_memset hj

theorem Backed.word_copyPage {g : ℕ} {y : ℕ × Role} (hb : Backed s o p f x) (h : Valid s o)
    (hg : o g = some y) (hne : f ≠ g) (hj : j < 512) :
    word (s.copyPage p g).mem f j = word s.mem g j := by
  rw [Machine.copyPage, hb.kmap_eq]
  exact word_memcpy (h.aligned hb.owned) (h.aligned hg) hne hj

theorem Backed.entry_eq (hb : Backed s o p f x) : s.entry p j = word s.mem f j := by
  rw [Machine.entry, hb.kmap_eq]

theorem Backed.keeps_link (hb : Backed s o p f x) (h : Valid s o) (hj : j < 512) (phys : ℕ) :
    Keeps (fun g k => g = f ∧ k = j) s o (s.link p j phys) o :=
  hb.keeps_setEntry h hj

theorem Backed.word_link (hb : Backed s o p f x) (j phys : ℕ) :
    word (s.link p j phys).mem f j =
      setPageFrame (word s.mem f j) (BitVec.ofNat 64 phys) ||| userFlags := by
  rw [← hb.entry_eq]
  exact hb.word_setEntry

end KernelOld.Space
