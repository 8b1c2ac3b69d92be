import KernelOld.Mem.Kheap.Alloc

/-!
# The calls of the kernel heap

What `kmalloc` and `kfree` do to the list of blocks (`kmalloc_spec`, `kfree_spec`). `growth` says
before the call how far a request makes the heap grow.
-/

namespace KernelOld.Kheap
open ByteMemory MachineWord Stdlib DoublyLinked List

variable {h h' : Heap} {l r bs bs' : List Block} {b c : Block} {top n size rounds : ℕ}

def walk (m : Mem) : ℕ → ℕ → List Block
  | 0, _ => []
  | fuel + 1, curr =>
    ⟨curr, len m curr, free m curr⟩ ::
      if next m curr = 0 then [] else walk m fuel (next m curr)

def blocks (h : Heap) : List Block := walk h.mem (2 ^ 64) h.heapStart

def heapTop (h : Heap) : ℕ := h.lastBlock + headerSize + len h.mem h.lastBlock

theorem walk_eq {fuel : ℕ} (L : Layout h (l ++ b :: r) top) (hfuel : r.length < fuel) :
    walk h.mem fuel b.addr = b :: r := by
  induction r generalizing l b fuel with
  | nil =>
    obtain ⟨fuel, rfl⟩ := Nat.exists_eq_succ_of_ne_zero (by omega : fuel ≠ 0)
    have hnext : next h.mem b.addr = 0 := by simpa using L.neighbours.1
    rw [walk, L.len_eq b (by simp), L.free_eq b (by simp), if_pos hnext]
  | cons c r ih =>
    obtain ⟨fuel, rfl⟩ := Nat.exists_eq_succ_of_ne_zero (by omega : fuel ≠ 0)
    obtain ⟨hnext, hc0, L'⟩ := L.next_cons
    rw [walk, L.len_eq b (by simp), L.free_eq b (by simp), hnext, if_neg hc0,
      ih L' (by simpa using hfuel)]

theorem Layout.ne_nil (L : Layout h bs top) : bs ≠ [] := by
  rintro rfl
  simpa using L.last

theorem Layout.length_lt (L : Layout h bs top) : bs.length < 2 ^ 64 := by
  have hle := L.tiled.length_le
  have hpos := L.start_pos
  have htop := L.top_le
  omega

theorem Layout.blocks_eq (L : Layout h bs top) : blocks h = bs := by
  cases bs with
  | nil => exact absurd rfl L.ne_nil
  | cons b r =>
    have hlen := L.length_lt
    have hstart : b.addr = h.heapStart := L.tiled.1
    have L' : Layout h ([] ++ b :: r) top := L
    rw [blocks, ← hstart]
    exact walk_eq L' (by simp only [length_cons] at hlen; omega)

theorem Layout.last_eq (L : Layout h (l ++ [b]) top) :
    h.lastBlock = b.addr ∧ b.stop = top := by
  have hlast := L.last
  rw [map_append, map_singleton, getLast?_concat] at hlast
  obtain ⟨mid, -, -, hstop⟩ := tiled_append.mp L.tiled
  exact ⟨(Option.some.inj hlast).symm, hstop⟩

theorem Layout.heapTop_eq (L : Layout h bs top) : heapTop h = top := by
  obtain ⟨l, b, rfl⟩ := (eq_nil_or_concat' bs).resolve_left L.ne_nil
  obtain ⟨hlast, hstop⟩ := L.last_eq
  rw [heapTop, hlast, L.len_eq b (by simp)]
  exact hstop

/-! ## Expansion -/

structure Grown (h : Heap) (bs : List Block) (h' : Heap) (bs' : List Block) : Prop where
  start_eq : h'.heapStart = h.heapStart
  end_eq : h'.heapEnd = h.heapEnd
  used_eq : used bs' = used bs
  keeps : KeepsPayloads (used bs) h.mem h'.mem

/-- The end of the list after an expansion by `n` bytes: a free last block absorbs
the new block. -/
def expanded (b : Block) (n : ℕ) : List Block :=
  if b.free then [b.merge ⟨b.stop, n, true⟩] else [b, ⟨b.stop, n, true⟩]

theorem heapCombineBack_statics (h : Heap) (a : ℕ) :
    (heapCombineBack h a).heapStart = h.heapStart ∧
      (heapCombineBack h a).heapEnd = h.heapEnd ∧
        (heapCombineBack h a).kheapLock = h.kheapLock := by
  rw [heapCombineBack]
  split
  · exact heapCombineForward_statics h _
  · exact ⟨rfl, rfl, rfl⟩

theorem used_expanded (l : List Block) (b : Block) (n : ℕ) :
    used (l ++ expanded b n) = used (l ++ [b]) := by
  cases hb : b.free <;> simp [used, expanded, Block.merge, hb]

theorem coalesced_expanded (hc : (l ++ [b]).IsChain NotBothFree) :
    (l ++ expanded b n).IsChain NotBothFree := by
  have hl := (isChain_append.mp hc).1
  cases hb : b.free with
  | true =>
    rw [expanded, hb]
    exact coalesced_between hl .nil (last_used hc hb) (by simp)
  | false =>
    rw [expanded, hb]
    exact coalesced_of_used hl (.singleton _) hb

theorem len_dvd_expanded (hl : ∀ c ∈ l ++ [b], 16 ∣ c.len) (hn : 16 ∣ n) :
    ∀ c ∈ l ++ expanded b n, 16 ∣ c.len := by
  have hb := hl b (by simp)
  intro c hc
  rcases mem_append.mp hc with hc | hc
  · exact hl c (by simp [hc])
  · rw [expanded] at hc
    split at hc
    · obtain rfl := mem_singleton.mp hc
      show 16 ∣ b.len + n + 32
      omega
    · rcases mem_pair.mp hc with rfl | rfl
      · exact hb
      · exact hn

theorem Layout.expanded {m : Mem}
    (L : Layout { h with mem := m, lastBlock := top } (l ++ [b, ⟨top, n, true⟩]) (top + 32 + n))
    (hstop : b.stop = top) :
    let h' := heapCombineBack { h with mem := m, lastBlock := top } top
    Layout h' (l ++ Kheap.expanded b n) (top + 32 + n) ∧
      Frame ((l ++ [b, ⟨top, n, true⟩]).map Block.addr) m h'.mem := by
  cases hb : b.free with
  | true =>
    rw [Kheap.expanded, hb, hstop]
    exact L.combineBack hb rfl
  | false =>
    have L' : Layout { h with mem := m, lastBlock := top } ((l ++ [b]) ++ ⟨top, n, true⟩ :: [])
        (top + 32 + n) := by simpa using L
    have hstay := L'.combineBack_stay (by simp [hb])
    rw [Kheap.expanded, hb, hstop, hstay]
    exact ⟨L, Frame.refl _ _⟩

theorem kheapExpand_spec (I : Inv h (l ++ [b]) top) (hroom : top + 32 + n ≤ 2 ^ 64)
    (hn : 16 ∣ n) :
    ∃ h', kheapExpand h n = some h' ∧ Inv h' (l ++ expanded b n) (top + 32 + n) ∧
      Grown h (l ++ [b]) h' (l ++ expanded b n) := by
  obtain ⟨hlast, hstop⟩ := I.layout.last_eq
  have hnew : u64 (b.addr + len h.mem b.addr + headerSize) = top := by
    have hlen := I.layout.len_eq b (by simp)
    rw [Block.stop] at hstop
    rw [hlen, u64_add_headerSize (by omega)]
    omega
  obtain ⟨La, hframe⟩ := I.layout.append hroom
  -- memory with the new header, before it is merged with a free last block
  generalize hm : setLen (setNext (setNext (setPrev (setFree h.mem top true) top b.addr)
    b.addr top) top 0) top n = m at La hframe
  have hrun : kheapExpand h n =
      some (heapCombineBack { h with mem := m, lastBlock := top } top) := by
    simp only [kheapExpand, I.unlocked, hlast, hnew, hm, Bool.false_eq_true, if_false]
  obtain ⟨L', hframe'⟩ := La.expanded hstop
  obtain ⟨hstart, hend, hlock⟩ :=
    heapCombineBack_statics { h with mem := m, lastBlock := top } top
  have hscratch : ∀ a ∈ (l ++ [b, ⟨top, n, true⟩]).map Block.addr, ∀ x, InHeader a x →
      Scratch (l ++ [b]) top x := by
    intro a ha x hx
    obtain ⟨c, hc, rfl⟩ := mem_map.mp ha
    simp only [mem_append, mem_cons, not_mem_nil, or_false] at hc
    rcases hc with hc | rfl | rfl
    · exact Or.inl ⟨c, by simp [hc], hx⟩
    · exact Or.inl ⟨c, by simp, hx⟩
    · exact Or.inr (Or.inr hx.1)
  have hkeeps : KeepsPayloads (used (l ++ [b])) h.mem
      (heapCombineBack { h with mem := m, lastBlock := top } top).mem := by
    refine keepsPayloads_of_scratch I.layout.tiled fun x hx => ?_
    rw [scratch_of_frame hframe' hscratch hx]
    exact scratch_of_frame hframe (fun a ha => hscratch a (by simp_all)) hx
  refine ⟨_, hrun, ⟨L', hlock.trans I.unlocked, ?_, len_dvd_expanded I.len_dvd hn,
    coalesced_expanded I.coalesced⟩, ⟨hstart, hend, used_expanded l b n, hkeeps⟩⟩
  rw [hstart]
  exact I.start_dvd

/-! ## Allocation -/

theorem roundUp16_dvd (n : ℕ) : 16 ∣ roundUp16 n := by
  rw [roundUp16, u64]
  split <;> omega

theorem roundUp16_of_dvd (hn : 16 ∣ n) : roundUp16 n = n := by
  rw [roundUp16, if_neg (by omega)]

theorem le_roundUp16 (hn : n + 15 < 2 ^ 64) : n ≤ roundUp16 n := by
  rw [roundUp16]
  split
  · rw [u64_of_lt (by omega)]
    omega
  · exact le_rfl

def Block.fits (n : ℕ) (b : Block) : Bool := b.free && (decide (n + 32 < b.len) || b.len == n)

theorem Block.accepts_eq_fits (hn : n + 32 < 2 ^ 64) (b : Block) : b.accepts n = b.fits n := by
  rw [Block.accepts, Block.fits, headerSize, u64_of_lt hn]

def growth (bs : List Block) (n : ℕ) : ℕ :=
  if bs.any (Block.fits n) then 0
  else if bs.getLast?.any fun b => b.free && b.len == 0 then 2 * (n + 32)
  else n + 32

def reach (h : Heap) (size : ℕ) : ℕ := heapTop h + growth (blocks h) (roundUp16 size)

/-- The block that a request for `n` bytes gets: the first one that takes it, or what the
expansions make of the end of the list. -/
def served (bs : List Block) (n : ℕ) : Option Block :=
  match bs.find? (Block.fits n) with
  | some b => some (b.taken n)
  | none => bs.getLast?.map fun b =>
    if b.free then { b with len := b.len + growth bs n }.taken n else ⟨b.stop, n, false⟩

structure Allocated (h : Heap) (bs : List Block) (h' : Heap) (bs' : List Block) (n : ℕ)
    (b : Block) : Prop where
  served_eq : served bs n = some b
  start_eq : h'.heapStart = h.heapStart
  end_eq : h'.heapEnd = h.heapEnd
  used_perm : (used bs').Perm (b :: used bs)
  room : n ≤ b.len
  zeroed : ∀ i < n, h'.mem (b.addr + 32 + i) = 0
  keeps : KeepsPayloads (used bs) h.mem h'.mem

theorem Grown.allocated {h₁ : Heap} {bs₁ : List Block} (g : Grown h bs h₁ bs₁)
    (hserved : served bs₁ n = served bs n) (a : Allocated h₁ bs₁ h' bs' n b) :
    Allocated h bs h' bs' n b := by
  refine ⟨hserved ▸ a.served_eq, a.start_eq.trans g.start_eq, a.end_eq.trans g.end_eq, ?_, a.room,
    a.zeroed, ?_⟩
  · rw [← g.used_eq]
    exact a.used_perm
  · intro c hc x hlo hhi
    have hc' : c ∈ used bs₁ := by rwa [g.used_eq]
    rw [a.keeps c hc' x hlo hhi, g.keeps c hc x hlo hhi]

theorem Inv.search (I : Inv h bs top) (hn : n + 32 < 2 ^ 64) :
    findBlock h.mem n (2 ^ 64) h.heapStart = some ((bs.find? (Block.fits n)).map Block.addr) := by
  have haccepts : Block.accepts n = Block.fits n := funext fun b => Block.accepts_eq_fits hn b
  cases bs with
  | nil => exact absurd rfl I.layout.ne_nil
  | cons b r =>
    have hlen := I.layout.length_lt
    have hstart : b.addr = h.heapStart := I.layout.tiled.1
    have L : Layout h ([] ++ b :: r) top := I.layout
    rw [← hstart, findBlock_eq L (by simp only [length_cons] at hlen; omega), haccepts]

theorem kmalloc_of_fits (I : Inv h bs top) (hn : roundUp16 size = n) (hword : n + 32 < 2 ^ 64)
    (hfit : bs.any (Block.fits n) = true) :
    ∃ h' bs' b, (∀ rounds, kmalloc (rounds + 1) h size = some (h', u64 (b.addr + 32))) ∧
      Inv h' bs' top ∧ Allocated h bs h' bs' n b := by
  have hstart : h.heapStart ≠ 0 := Nat.ne_of_gt I.layout.start_pos
  have hsearch := I.search hword
  have hdvd : 16 ∣ n := hn ▸ roundUp16_dvd size
  cases hfind : bs.find? (Block.fits n) with
  | none =>
    obtain ⟨b, hb, hbfit⟩ := any_eq_true.mp hfit
    exact absurd hbfit (find?_eq_none.mp hfind b hb)
  | some b =>
    obtain ⟨hbfit, l, r, rfl, -⟩ := find?_eq_some_iff_append.mp hfind
    simp only [Block.fits, Bool.and_eq_true, Bool.or_eq_true, decide_eq_true_eq,
      beq_iff_eq] at hbfit
    have ht : Takes n b := ⟨hbfit.1, hbfit.2.symm, I.len_dvd b (by simp), hdvd⟩
    obtain ⟨I', hzero, hsame⟩ := takeBlock_spec I ht
    obtain ⟨hst, hen⟩ := takeBlock_statics h n b.addr
    refine ⟨takeBlock h n b.addr, _, b.taken n, fun rounds => ?_, I', by rw [served, hfind], hst,
      hen, used_carve_perm ht.free, ht.le_taken, ?_, keepsPayloads_of_scratch I.layout.tiled hsame⟩
    · simp only [kmalloc, hn, I.unlocked, hstart, hsearch, hfind, Option.map_some,
        Bool.false_eq_true, if_false, Block.taken_addr, headerSize]
    · rw [Block.taken_addr]
      exact hzero

theorem kmalloc_of_not_fits (I : Inv h (l ++ [b]) top) (hn : roundUp16 size = n)
    (hroom : top + 32 + n ≤ 2 ^ 64) (hfit : (l ++ [b]).any (Block.fits n) = false) :
    ∃ h', kheapExpand h n = some h' ∧ Inv h' (l ++ expanded b n) (top + 32 + n) ∧
      Grown h (l ++ [b]) h' (l ++ expanded b n) ∧
        ∀ rounds, kmalloc (rounds + 1) h size = kmalloc rounds h' n := by
  have hstart : h.heapStart ≠ 0 := Nat.ne_of_gt I.layout.start_pos
  have hpos : 0 < top := lt_of_lt_of_le I.layout.start_pos I.layout.tiled.le
  have hsearch := I.search (n := n) (by omega)
  have hdvd : 16 ∣ n := hn ▸ roundUp16_dvd size
  have hfind : (l ++ [b]).find? (Block.fits n) = none := by
    rw [find?_eq_none]
    exact any_eq_false.mp hfit
  obtain ⟨h', hexpand, I', g⟩ := kheapExpand_spec I hroom hdvd
  refine ⟨h', hexpand, I', g, fun rounds => ?_⟩
  simp only [kmalloc, hn, I.unlocked, hstart, hsearch, hfind, Option.map_none, hexpand,
    Option.bind_some, Bool.false_eq_true, if_false]

/-- One expansion is enough, unless the last block is free and empty. -/
theorem any_fits_expanded (hb : b.free = true → b.len ≠ 0) :
    (l ++ expanded b n).any (Block.fits n) = true := by
  rw [any_append, Bool.or_eq_true]
  refine Or.inr ?_
  cases hfree : b.free with
  | true =>
    have hpos : 0 < b.len := Nat.pos_of_ne_zero (hb hfree)
    simp [expanded, Block.fits, Block.merge, hfree, hpos]
  | false => simp [expanded, Block.fits, hfree]

/-- A free empty last block becomes 32 bytes longer than the request, which neither test of
the search accepts. -/
theorem not_fits_expanded (hfit : (l ++ [b]).any (Block.fits n) = false) (hlen : b.len = 0) :
    (l ++ [b.merge ⟨b.stop, n, true⟩]).any (Block.fits n) = false := by
  rw [any_append, Bool.or_eq_false_iff] at hfit ⊢
  refine ⟨hfit.1, ?_⟩
  simp [Block.fits, Block.merge, hlen]

theorem growth_of_fits (hfit : bs.any (Block.fits n) = true) : growth bs n = 0 := by
  rw [growth, if_pos hfit]

theorem growth_of_not_fits (hfit : (l ++ [b]).any (Block.fits n) = false) :
    growth (l ++ [b]) n = if b.free = true ∧ b.len = 0 then 32 + n + 32 + n else 32 + n := by
  rw [growth, hfit, getLast?_concat, Option.any_some]
  by_cases hempty : b.free = true ∧ b.len = 0
  · rw [if_pos hempty]
    simp only [hempty.1, hempty.2, beq_self_eq_true, Bool.and_self, if_true, Bool.false_eq_true,
      if_false]
    omega
  · have hlast : (b.free && b.len == 0) = false := by simpa using hempty
    simp only [hempty, hlast, Bool.false_eq_true, if_false]
    omega

theorem growth_expanded (hfit : (l ++ [b]).any (Block.fits n) = false) :
    growth (l ++ [b]) n = 32 + n + growth (l ++ expanded b n) n := by
  rw [growth_of_not_fits hfit]
  by_cases hempty : b.free = true ∧ b.len = 0
  · have hlen : (b.merge ⟨b.stop, n, true⟩).len ≠ 0 := by simp [Block.merge]
    rw [if_pos hempty, expanded, if_pos hempty.1,
      growth_of_not_fits (not_fits_expanded hfit hempty.2), if_neg fun h => hlen h.2]
    omega
  · rw [if_neg hempty, growth_of_fits (any_fits_expanded fun hfree hlen => hempty ⟨hfree, hlen⟩),
      Nat.add_zero]

theorem served_expanded (hfit : (l ++ [b]).any (Block.fits n) = false) :
    served (l ++ expanded b n) n = served (l ++ [b]) n := by
  have hgrowth := growth_expanded hfit
  have hfind : (l ++ [b]).find? (Block.fits n) = none :=
    find?_eq_none.mpr (any_eq_false.mp hfit)
  have hl : l.find? (Block.fits n) = none := by
    rw [find?_append, Option.or_eq_none_iff] at hfind
    exact hfind.1
  rw [served, served, hfind, find?_append, hl, Option.none_or]
  cases hb : b.free with
  | false =>
    simp [expanded, hb, Block.fits, Block.taken]
  | true =>
    have hmerge : b.merge ⟨b.stop, n, true⟩ = ⟨b.addr, b.len + n + 32, true⟩ := by
      rw [Block.merge, hb]
    have hsum : ∀ k, b.len + (32 + n + k) = b.len + n + 32 + k := by omega
    rw [expanded, if_pos hb, hmerge] at hgrowth ⊢
    simp only [getLast?_concat, Option.map_some, hb, if_true, hgrowth, hsum]
    -- the merged block takes the request, or it grows once more
    cases hfit' : Block.fits n ⟨b.addr, b.len + n + 32, true⟩ with
    | true =>
      rw [growth_of_fits (by rw [any_append, any_cons, hfit']; simp)]
      simp only [find?_singleton, hfit', if_true, Nat.add_zero]
    | false => simp only [find?_singleton, hfit', Bool.false_eq_true, if_false]

theorem kmalloc_expand_once (I : Inv h (l ++ [b]) top) (hn : roundUp16 size = n)
    (hroom : top + 32 + n ≤ 2 ^ 64) (hfit : (l ++ [b]).any (Block.fits n) = false)
    (hb : b.free = true → b.len ≠ 0) :
    ∃ h' bs' b', (∀ rounds, kmalloc (rounds + 2) h size = some (h', u64 (b'.addr + 32))) ∧
      Inv h' bs' (top + 32 + n) ∧ Allocated h (l ++ [b]) h' bs' n b' := by
  have hidem : roundUp16 n = n := roundUp16_of_dvd (hn ▸ roundUp16_dvd size)
  have hpos : 0 < top := lt_of_lt_of_le I.layout.start_pos I.layout.tiled.le
  obtain ⟨h₁, -, I₁, g, hstep⟩ := kmalloc_of_not_fits I hn hroom hfit
  obtain ⟨h', bs', b', hrun, I', a⟩ :=
    kmalloc_of_fits I₁ hidem (by omega) (any_fits_expanded hb)
  refine ⟨h', bs', b', fun rounds => ?_, I', g.allocated (served_expanded hfit) a⟩
  rw [hstep (rounds + 1)]
  exact hrun rounds

theorem kmalloc_expand_twice (I : Inv h (l ++ [b]) top) (hn : roundUp16 size = n)
    (hroom : top + 32 + n + 32 + n ≤ 2 ^ 64) (hfit : (l ++ [b]).any (Block.fits n) = false)
    (hfree : b.free = true) (hlen : b.len = 0) :
    ∃ h' bs' b', (∀ rounds, kmalloc (rounds + 3) h size = some (h', u64 (b'.addr + 32))) ∧
      Inv h' bs' (top + 32 + n + 32 + n) ∧ Allocated h (l ++ [b]) h' bs' n b' := by
  have hidem : roundUp16 n = n := roundUp16_of_dvd (hn ▸ roundUp16_dvd size)
  have hmerged : expanded b n = [b.merge ⟨b.stop, n, true⟩] := by rw [expanded, if_pos hfree]
  obtain ⟨h₁, -, I₁, g, hstep⟩ := kmalloc_of_not_fits I hn (by omega) hfit
  rw [hmerged] at I₁ g
  obtain ⟨h', bs', b', hrun, I', a⟩ :=
    kmalloc_expand_once I₁ hidem hroom (not_fits_expanded hfit hlen) (by simp [Block.merge])
  refine ⟨h', bs', b', fun rounds => ?_, I', g.allocated (hmerged ▸ served_expanded hfit) a⟩
  rw [hstep (rounds + 2)]
  exact hrun rounds

theorem Inv.word_of_fits (I : Inv h bs top) (hfit : bs.any (Block.fits n) = true) :
    n + 32 < 2 ^ 64 := by
  obtain ⟨b, hb, hbfit⟩ := any_eq_true.mp hfit
  have hbound := (I.layout.tiled.mem_bounds hb).2
  have hpos := I.layout.addr_pos hb
  have htop := I.layout.top_le
  simp only [Block.fits, Block.stop, Bool.and_eq_true, Bool.or_eq_true, decide_eq_true_eq,
    beq_iff_eq] at hbfit hbound
  omega

def expansions (bs : List Block) (n : ℕ) : ℕ :=
  if bs.any (Block.fits n) then 0
  else if bs.getLast?.any fun b => b.free && b.len == 0 then 2
  else 1

theorem expansions_le (bs : List Block) (n : ℕ) : expansions bs n ≤ 2 := by
  rw [expansions]
  split
  · exact Nat.zero_le 2
  · split
    · exact Nat.le_refl 2
    · exact Nat.le_succ 1

theorem expansions_of_not_fits (hfit : (l ++ [b]).any (Block.fits n) = false) :
    expansions (l ++ [b]) n = if b.free = true ∧ b.len = 0 then 2 else 1 := by
  rw [expansions, hfit, getLast?_concat, Option.any_some]
  simp

theorem kmalloc_expansions_succ (I : Inv h bs top) (hn : roundUp16 size = n)
    (hroom : top + growth bs n ≤ 2 ^ 64) :
    ∃ h' bs' b, kmalloc (expansions bs n + 1) h size = some (h', u64 (b.addr + 32)) ∧
      Inv h' bs' (top + growth bs n) ∧ Allocated h bs h' bs' n b := by
  cases hfit : bs.any (Block.fits n) with
  | true =>
    rw [growth_of_fits hfit, expansions, if_pos hfit]
    obtain ⟨h', bs', b, hrun, I', a⟩ := kmalloc_of_fits I hn (I.word_of_fits hfit) hfit
    exact ⟨h', bs', b, hrun 0, I', a⟩
  | false =>
    obtain ⟨l, b, rfl⟩ := (eq_nil_or_concat' bs).resolve_left I.layout.ne_nil
    rw [growth_of_not_fits hfit] at hroom ⊢
    rw [expansions_of_not_fits hfit]
    by_cases hempty : b.free = true ∧ b.len = 0
    · simp only [if_pos hempty, ← Nat.add_assoc] at hroom ⊢
      obtain ⟨h', bs', b', hrun, hrest⟩ := kmalloc_expand_twice I hn hroom hfit hempty.1 hempty.2
      exact ⟨h', bs', b', hrun 0, hrest⟩
    · simp only [if_neg hempty, ← Nat.add_assoc] at hroom ⊢
      obtain ⟨h', bs', b', hrun, hrest⟩ :=
        kmalloc_expand_once I hn hroom hfit fun hfree hlen => hempty ⟨hfree, hlen⟩
      exact ⟨h', bs', b', hrun 0, hrest⟩

theorem kmalloc_mono {res : Heap × ℕ} (hrun : kmalloc rounds h size = some res) (k : ℕ) :
    kmalloc (rounds + k) h size = some res := by
  induction rounds generalizing h size with
  | zero => simp [kmalloc] at hrun
  | succ rounds ih =>
    have hassoc : rounds + 1 + k = rounds + k + 1 := by omega
    rw [hassoc]
    have hagain : ∀ o : Option Heap,
        (o.bind fun h' => kmalloc rounds h' (roundUp16 size)) = some res →
          (o.bind fun h' => kmalloc (rounds + k) h' (roundUp16 size)) = some res := by
      intro o ho
      obtain ⟨h₁, rfl, hrest⟩ := Option.bind_eq_some_iff.mp ho
      exact ih hrest
    by_cases hlock : h.kheapLock = true
    · simp [kmalloc, hlock] at hrun
    by_cases hnull : h.heapStart = 0
    · simp only [kmalloc, hlock, hnull, if_true, Bool.false_eq_true, if_false] at hrun ⊢
      exact hagain _ hrun
    cases hsearch : findBlock h.mem (roundUp16 size) (2 ^ 64) h.heapStart with
    | none =>
      simp only [kmalloc, hlock, hnull, hsearch, Bool.false_eq_true, if_false] at hrun
      exact absurd hrun (by simp)
    | some found =>
      simp only [kmalloc, hlock, hnull, hsearch, Bool.false_eq_true, if_false] at hrun ⊢
      cases found with
      | some curr => exact hrun
      | none => exact hagain _ hrun

theorem kmalloc_spec (I : Inv h bs top) (hn : roundUp16 size = n)
    (hroom : top + growth bs n ≤ 2 ^ 64) :
    ∃ h' bs' b, (∀ rounds, kmalloc (rounds + 3) h size = some (h', u64 (b.addr + 32))) ∧
      Inv h' bs' (top + growth bs n) ∧ Allocated h bs h' bs' n b := by
  obtain ⟨h', bs', b, hrun, hrest⟩ := kmalloc_expansions_succ I hn hroom
  refine ⟨h', bs', b, fun rounds => ?_, hrest⟩
  have hle := expansions_le bs n
  have hmore := kmalloc_mono hrun (rounds + 2 - expansions bs n)
  rwa [show expansions bs n + 1 + (rounds + 2 - expansions bs n) = rounds + 3 by omega] at hmore

theorem kmalloc_result (I : Inv h bs top) (hn : roundUp16 size = n)
    (hroom : top + growth bs n ≤ 2 ^ 64) {p : ℕ} (hrun : kmalloc rounds h size = some (h', p)) :
    ∃ bs' b, p = u64 (b.addr + 32) ∧ Inv h' bs' (top + growth bs n) ∧
      Allocated h bs h' bs' n b := by
  obtain ⟨h'', bs', b, hspec, I', a⟩ := kmalloc_spec I hn hroom
  have heq := (hspec rounds).symm.trans (kmalloc_mono hrun 3)
  obtain ⟨rfl, rfl⟩ := Prod.mk.inj (Option.some.inj heq)
  exact ⟨bs', b, rfl, I', a⟩

/-! ## Release -/

structure Released (h : Heap) (bs : List Block) (h' : Heap) (bs' : List Block) (b : Block) :
    Prop where
  start_eq : h'.heapStart = h.heapStart
  end_eq : h'.heapEnd = h.heapEnd
  used_perm : (b :: used bs').Perm (used bs)
  keeps : KeepsPayloads (used bs) h.mem h'.mem

/-- The blocks on the right of a freed block `b` after the forward merge, and the
block that `b` has become. -/
def mergeRight (b : Block) : List Block → Block × List Block
  | [] => (b, [])
  | c :: r => if c.free then (b.merge c, r) else (b, c :: r)

/-- The blocks on the left of a freed block after the backward merge, and the
block that it has become. -/
def mergeLeft (l : List Block) (b : Block) : List Block × Block :=
  match l.getLast? with
  | none => (l, b)
  | some a => if a.free then (l.dropLast, a.merge b) else (l, b)

theorem Layout.mergeRight (L : Layout h (l ++ b :: r) top) :
    Layout (heapCombineForward h b.addr) (l ++ (mergeRight b r).1 :: (mergeRight b r).2) top ∧
      Frame ((l ++ b :: r).map Block.addr) h.mem (heapCombineForward h b.addr).mem := by
  cases r with
  | nil =>
    rw [L.combineForward_stay (by simp)]
    exact ⟨L, Frame.refl _ _⟩
  | cons c r =>
    cases hc : c.free with
    | true =>
      simp only [Kheap.mergeRight, hc, if_true]
      exact L.combineForward hc
    | false =>
      rw [L.combineForward_stay (by simp [hc])]
      simp only [Kheap.mergeRight, hc, Bool.false_eq_true, if_false]
      exact ⟨L, Frame.refl _ _⟩

theorem Layout.mergeLeft (L : Layout h (l ++ b :: r) top) (hb : b.free = true) :
    Layout (heapCombineBack h b.addr) ((mergeLeft l b).1 ++ (mergeLeft l b).2 :: r) top ∧
      Frame ((l ++ b :: r).map Block.addr) h.mem (heapCombineBack h b.addr).mem := by
  rcases eq_nil_or_concat' l with rfl | ⟨l, a, rfl⟩
  · rw [L.combineBack_stay (by simp)]
    exact ⟨L, Frame.refl _ _⟩
  · cases ha : a.free with
    | true =>
      have L' : Layout h (l ++ a :: b :: r) top := by simpa using L
      simpa [Kheap.mergeLeft, ha] using L'.combineBack ha hb
    | false =>
      rw [L.combineBack_stay (by simp [ha])]
      simp only [Kheap.mergeLeft, getLast?_concat, ha, Bool.false_eq_true, if_false]
      exact ⟨L, Frame.refl _ _⟩

theorem mergeRight_same (b : Block) (r : List Block) :
    (mergeRight b r).1.addr = b.addr ∧ (mergeRight b r).1.free = b.free ∧
      used (mergeRight b r).2 = used r ∧ (mergeRight b r).2 <:+ r := by
  cases r with
  | nil => simp [mergeRight]
  | cons c r => cases hc : c.free <;> simp [mergeRight, Block.merge, used, hc]

theorem mergeRight_head (hr : r.IsChain NotBothFree) :
    ∀ c ∈ (mergeRight b r).2.head?, c.free = false := by
  cases r with
  | nil => simp [mergeRight]
  | cons c r =>
    cases hc : c.free with
    | true =>
      simp only [mergeRight, hc, if_true]
      exact head_used hr hc
    | false => simp [mergeRight, hc]

theorem mergeRight_dvd (hb : 16 ∣ b.len) (hr : ∀ c ∈ r, 16 ∣ c.len) :
    16 ∣ (mergeRight b r).1.len := by
  cases r with
  | nil => exact hb
  | cons c r =>
    have hc := hr c (by simp)
    rw [mergeRight]
    split
    · show 16 ∣ b.len + c.len + 32
      omega
    · exact hb

theorem mergeLeft_same (l : List Block) (b : Block) :
    used (mergeLeft l b).1 = used l ∧ (mergeLeft l b).1 <+: l := by
  rcases eq_nil_or_concat' l with rfl | ⟨l, a, rfl⟩
  · simp [mergeLeft]
  · cases ha : a.free <;> simp [mergeLeft, used, ha]

theorem mergeLeft_free (hb : b.free = true) : (mergeLeft l b).2.free = true := by
  rcases eq_nil_or_concat' l with rfl | ⟨l, a, rfl⟩
  · exact hb
  · cases ha : a.free <;> simp [mergeLeft, Block.merge, ha, hb]

theorem mergeLeft_last (hl : l.IsChain NotBothFree) :
    ∀ c ∈ (mergeLeft l b).1.getLast?, c.free = false := by
  rcases eq_nil_or_concat' l with rfl | ⟨l, a, rfl⟩
  · simp [mergeLeft]
  · cases ha : a.free with
    | true => simpa [mergeLeft, ha] using last_used hl ha
    | false => simp [mergeLeft, ha]

theorem mergeLeft_dvd (hl : ∀ a ∈ l, 16 ∣ a.len) (hb : 16 ∣ b.len) :
    16 ∣ (mergeLeft l b).2.len := by
  cases ha : l.getLast? with
  | none =>
    rw [mergeLeft, ha]
    exact hb
  | some a =>
    have hlen := hl a (mem_of_getLast? ha)
    simp only [mergeLeft, ha]
    split
    · show 16 ∣ a.len + b.len + 32
      omega
    · exact hb

def freed (l : List Block) (b : Block) (r : List Block) : List Block :=
  let right := mergeRight { b with free := true } r
  let left := mergeLeft l right.1
  left.1 ++ left.2 :: right.2

theorem used_freed (l r : List Block) (hb : b.free = false) :
    (b :: used (freed l b r)).Perm (used (l ++ b :: r)) := by
  obtain ⟨-, hfree, hright, -⟩ := mergeRight_same { b with free := true } r
  obtain ⟨hleft, -⟩ := mergeLeft_same l (mergeRight { b with free := true } r).1
  have hcons : ∀ (c : Block) (s : List Block), c.free = true → used (c :: s) = used s := by
    intro c s hc
    simp [used, hc]
  have hbr : used (b :: r) = b :: used r := by simp [used, hb]
  rw [freed, used_append, hcons _ _ (mergeLeft_free hfree), hleft, hright, used_append, hbr]
  exact perm_middle.symm

theorem coalesced_freed (hc : (l ++ b :: r).IsChain NotBothFree) :
    (freed l b r).IsChain NotBothFree := by
  have hl := (isChain_append.mp hc).1
  have hr : r.IsChain NotBothFree := hc.right_of_append.tail
  refine coalesced_between ?_ ?_ (mergeLeft_last hl) (mergeRight_head hr)
  · obtain ⟨-, l', hl'⟩ := mergeLeft_same l (mergeRight { b with free := true } r).1
    rw [← hl'] at hl
    exact (isChain_append.mp hl).1
  · obtain ⟨-, -, -, r', hr'⟩ := mergeRight_same { b with free := true } r
    rw [← hr'] at hr
    exact hr.right_of_append

theorem len_dvd_freed (hd : ∀ c ∈ l ++ b :: r, 16 ∣ c.len) : ∀ c ∈ freed l b r, 16 ∣ c.len := by
  have hl : ∀ c ∈ l, 16 ∣ c.len := fun c hc => hd c (by simp [hc])
  have hr : ∀ c ∈ r, 16 ∣ c.len := fun c hc => hd c (by simp [hc])
  have hb : 16 ∣ ({ b with free := true } : Block).len := hd b (by simp)
  obtain ⟨-, -, -, hsuf⟩ := mergeRight_same { b with free := true } r
  obtain ⟨-, hpre⟩ := mergeLeft_same l (mergeRight { b with free := true } r).1
  intro c hc
  rcases mem_append.mp hc with hc | hc
  · exact hl c (hpre.subset hc)
  · rcases mem_cons.mp hc with rfl | hc
    · exact mergeLeft_dvd hl (mergeRight_dvd hb hr)
    · exact hr c (hsuf.subset hc)

/-- The memory side of `kfree`: only headers of the list are written. -/
theorem Layout.freed (L : Layout h (l ++ b :: r) top) :
    let h' := heapCombineBack (heapCombineForward
      { h with mem := Kheap.setFree h.mem b.addr true } b.addr) b.addr
    Layout h' (Kheap.freed l b r) top ∧ Frame ((l ++ b :: r).map Block.addr) h.mem h'.mem := by
  obtain ⟨L₂, hframe₂⟩ := (L.setFree true).mergeRight
  obtain ⟨haddr, hfree, -, hsuf⟩ := mergeRight_same { b with free := true } r
  obtain ⟨L₃, hframe₃⟩ := L₂.mergeLeft hfree
  rw [haddr] at L₃ hframe₃
  refine ⟨L₃, ?_⟩
  have hframe₁ : Frame ((l ++ b :: r).map Block.addr) h.mem (Kheap.setFree h.mem b.addr true) :=
    frame_setFree (by simp)
  refine (hframe₁.trans (by simpa using hframe₂)).trans (hframe₃.mono ?_)
  intro a ha
  simp only [map_append, map_cons, haddr, mem_append, mem_cons] at ha ⊢
  exact ha.imp_right fun ha => ha.imp_right fun ha => (hsuf.map Block.addr).subset ha

theorem Layout.sub64_headerSize (L : Layout h bs top) (hb : b ∈ bs) :
    sub64 (u64 (b.addr + 32)) headerSize = b.addr := by
  have hlt := L.addr_lt hb
  simp only [sub64, u64, headerSize]
  omega

theorem kfree_spec (I : Inv h bs top) (hb : b ∈ used bs) :
    ∃ h' bs', kfree h (u64 (b.addr + 32)) = some h' ∧ Inv h' bs' top ∧ Released h bs h' bs' b := by
  obtain ⟨hmem, hused⟩ := mem_used.mp hb
  obtain ⟨l, r, rfl⟩ := append_of_mem hmem
  have hblock := I.layout.sub64_headerSize hmem
  obtain ⟨L, hframe⟩ := I.layout.freed
  obtain ⟨hst₂, hen₂, hlk₂⟩ :=
    heapCombineForward_statics { h with mem := setFree h.mem b.addr true } b.addr
  obtain ⟨hst₃, hen₃, hlk₃⟩ := heapCombineBack_statics
    (heapCombineForward { h with mem := setFree h.mem b.addr true } b.addr) b.addr
  have hscratch : ∀ a ∈ (l ++ b :: r).map Block.addr, ∀ x, InHeader a x →
      Scratch (l ++ b :: r) top x := by
    intro a ha x hx
    obtain ⟨c, hc, rfl⟩ := mem_map.mp ha
    exact Or.inl ⟨c, hc, hx⟩
  refine ⟨_, freed l b r, ?_, ⟨L, hlk₃.trans (hlk₂.trans I.unlocked), ?_, len_dvd_freed I.len_dvd,
    coalesced_freed I.coalesced⟩, hst₃.trans hst₂, hen₃.trans hen₂, used_freed l r hused,
    keepsPayloads_of_scratch I.layout.tiled fun x hx => scratch_of_frame hframe hscratch hx⟩
  · simp only [kfree, I.unlocked, hblock, Bool.false_eq_true, if_false]
  · rw [hst₃, hst₂]
    exact I.start_dvd

end KernelOld.Kheap
