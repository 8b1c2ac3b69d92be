import KernelOld.Mem.Kheap.Blocks

/-!
# Merging, splitting and expanding the block list

What the four list operations of `kheap.c` leave, as lists of blocks. Each lemma
also says which bytes the operation may have written.
-/

namespace KernelOld.Kheap
open ByteMemory MachineWord Stdlib DoublyLinked List

variable {h : Heap} {l r bs : List Block} {b c : Block} {top : ℕ}

variable {a n : ℕ} {m : Mem}

theorem mem_nonnull_headD (ha : a ∈ nonnull ((r.map Block.addr).headD 0)) :
    a ∈ r.map Block.addr := by
  obtain ⟨rfl, h0⟩ := mem_nonnull.mp ha
  cases r with
  | nil => simp at h0
  | cons f r => simp

theorem Layout.combineForward (L : Layout h (l ++ b :: c :: r) top) (hfree : c.free = true) :
    Layout (heapCombineForward h b.addr) (l ++ b.merge c :: r) top ∧
      Frame ((l ++ b :: c :: r).map Block.addr) h.mem (heapCombineForward h b.addr).mem := by
  have L' : Layout h ((l ++ [b]) ++ c :: r) top := by simpa using L
  have hbn : next h.mem b.addr = c.addr := L.neighbours.1
  have hcn : next h.mem c.addr = (r.map Block.addr).headD 0 := L'.neighbours.1
  have hmerged := tiled_merge L.tiled
  have hbr : ∀ f ∈ c :: r, Clear b.addr f.addr := fun f hf =>
    L.tiled.clear_of_mem [b] (mem_singleton_self b) (mem_append_right _ hf)
  have hcr : ∀ f ∈ r, Clear c.addr f.addr := fun f hf =>
    L'.tiled.clear_of_mem [c] (mem_singleton_self c) (mem_append_right _ hf)
  have hlen : len h.mem b.addr + len h.mem c.addr + 32 < 2 ^ 64 := by
    have hpos := L.addr_pos (b := b) (by simp)
    have hbound := (hmerged.mem_bounds (b := b.merge c) (by simp)).2
    have htop := L.top_le
    rw [L.len_eq b (by simp), L.len_eq c (by simp)]
    simp only [Block.merge, Block.stop] at hbound
    omega
  have hb64 := L.addr_lt (b := b) (by simp)
  obtain ⟨hlast, hb', hd', hframe⟩ := heapCombineForward_headers hbn
    (L.threaded.ne_null c.addr (by simp)) ((L.free_eq c (by simp)).trans hfree) hcn
    (hbr c mem_cons_self) (clear_headD fun f hf => hbr f (mem_cons_of_mem c hf))
    (clear_headD hcr) (by omega) hlen
  obtain ⟨hstart, -, -⟩ := heapCombineForward_statics h b.addr
  rw [L.len_eq b (by simp), L.len_eq c (by simp), L.free_eq b (by simp)] at hb'
  generalize heapCombineForward h b.addr = h' at hlast hb' hd' hframe hstart ⊢
  constructor
  · have A : Around l r h.mem h'.mem := around_of_frame [b.merge c] hmerged hframe
      (fun e he => (L.addr_pos (by simp [he])).ne') fun h0 => ⟨_, hd' h0⟩
    refine L.replace [c] [] A rfl ?_ ?_ ?_ ?_ ?_ ?_ L.top_le
    · rw [prev_header, hb']
    · intro e he
      obtain rfl := mem_singleton.mp he
      refine ⟨L.threaded.ne_null b.addr (by simp), ?_, ?_⟩
      · rw [len_header, Block.merge, hb']
      · rw [free_header, Block.merge, hb']
    · refine .cons_cons ⟨fun _ => ?_, fun h0 => ?_⟩ (.singleton _)
      · rw [next_header, Block.merge, hb']
      · rw [prev_header, hd' h0, Block.merge]
    · rw [hstart]
      exact hmerged
    · rw [hstart]
      exact L.start_pos
    · rw [hlast]
      refine (last_replace [b, c] [b.merge c] rfl rfl L.last hcr).trans (congrArg some ?_)
      exact if_congr eq_comm rfl rfl
  · refine hframe.mono (forall_mem_cons.mpr ⟨by simp, fun a ha => ?_⟩)
    have hmem := mem_nonnull_headD ha
    simp only [map_append, map_cons, mem_append, mem_cons]
    exact Or.inr (Or.inr (Or.inr hmem))

theorem Layout.combineForward_stay (L : Layout h (l ++ b :: r) top)
    (hr : ∀ c ∈ r.head?, c.free = false) : heapCombineForward h b.addr = h := by
  have hnext := L.neighbours.1
  cases r with
  | nil =>
    have h0 : next h.mem b.addr = 0 := by simpa using hnext
    simp [heapCombineForward, h0]
  | cons c r =>
    have hc : next h.mem b.addr = c.addr := by simpa using hnext
    have hfree : free h.mem c.addr = false := (L.free_eq c (by simp)).trans (hr c (by simp))
    simp [heapCombineForward, hc, hfree]

theorem Layout.combineBack (L : Layout h (l ++ b :: c :: r) top) (hb : b.free = true)
    (hc : c.free = true) :
    Layout (heapCombineBack h c.addr) (l ++ b.merge c :: r) top ∧
      Frame ((l ++ b :: c :: r).map Block.addr) h.mem (heapCombineBack h c.addr).mem := by
  have hprev : prev h.mem c.addr = b.addr := by
    have hsplit : Layout h ((l ++ [b]) ++ c :: r) top := by simpa using L
    simpa using hsplit.neighbours.2
  have hfree : free h.mem b.addr = true := (L.free_eq b (by simp)).trans hb
  have heq : heapCombineBack h c.addr = heapCombineForward h b.addr := by
    have hb0 := L.threaded.ne_null b.addr (by simp)
    simp [heapCombineBack, hprev, hfree, hb0]
  rw [heq]
  exact L.combineForward hc

theorem Layout.combineBack_stay (L : Layout h (l ++ b :: r) top)
    (hl : ∀ c ∈ l.getLast?, c.free = false) : heapCombineBack h b.addr = h := by
  have hprev := L.neighbours.2
  cases l using List.reverseRecOn with
  | nil =>
    have h0 : prev h.mem b.addr = 0 := by simpa using hprev
    simp [heapCombineBack, h0]
  | append_singleton l c =>
    have hc : prev h.mem b.addr = c.addr := by simpa using hprev
    have hfree : free h.mem c.addr = false := (L.free_eq c (by simp)).trans (hl c (by simp))
    simp [heapCombineBack, hc, hfree]

theorem Layout.congr (L : Layout h bs top) (hm : ∀ b ∈ bs, ∀ x, InHeader b.addr x → m x = h.mem x) :
    Layout { h with mem := m } bs top := by
  have hsame : ∀ b ∈ bs, header m b.addr = header h.mem b.addr :=
    fun b hb => header_congr (hm b hb)
  refine ⟨L.threaded.congr ?_ ?_, ?_, ?_, L.tiled, L.last, L.start_pos, L.top_le⟩
  · intro a ha
    obtain ⟨b, hb, rfl⟩ := mem_map.mp ha
    rw [next_header, hsame b hb, ← next_header]
  · intro a ha
    obtain ⟨b, hb, rfl⟩ := mem_map.mp ha
    rw [prev_header, hsame b hb, ← prev_header]
  · intro b hb
    rw [len_header, hsame b hb, ← len_header]
    exact L.len_eq b hb
  · intro b hb
    rw [free_header, hsame b hb, ← free_header]
    exact L.free_eq b hb

theorem Layout.setFree (L : Layout h (l ++ b :: r) top) (v : Bool) :
    Layout { h with mem := setFree h.mem b.addr v } (l ++ { b with free := v } :: r) top := by
  have hframe : Frame [b.addr] h.mem (Kheap.setFree h.mem b.addr v) := frame_setFree (by simp)
  have hself : header (Kheap.setFree h.mem b.addr v) b.addr =
      { header h.mem b.addr with free := v } := header_setFree
  have hbr : ∀ f ∈ r, Clear b.addr f.addr := fun f hf =>
    L.tiled.clear_of_mem [b] (mem_singleton_self b) (mem_append_right _ hf)
  have hd : (r.map Block.addr).headD 0 ≠ 0 →
      header (Kheap.setFree h.mem b.addr v) ((r.map Block.addr).headD 0) =
        header h.mem ((r.map Block.addr).headD 0) :=
    fun h0 => hframe.header_eq (by simpa using clear_headD hbr h0)
  have hT : Tiled h.heapStart (l ++ { b with free := v } :: r) top := by
    obtain ⟨mid, hTl, hTb, hTr⟩ := tiled_append.mp L.tiled
    exact tiled_append.mpr ⟨mid, hTl, hTb, hTr⟩
  have A : Around l r h.mem (Kheap.setFree h.mem b.addr v) :=
    around_of_frame [{ b with free := v }] hT (hframe.mono (by simp))
      (fun e he => (L.addr_pos (by simp [he])).ne') fun h0 => ⟨_, hd h0⟩
  refine L.replace [] [] A rfl ?_ ?_ ?_ hT L.start_pos (by simpa using L.last) L.top_le
  · rw [prev_header, hself, prev_header]
  · intro e he
    obtain rfl := mem_singleton.mp he
    refine ⟨L.threaded.ne_null b.addr (by simp), ?_, ?_⟩
    · rw [len_header, hself, ← L.len_eq b (by simp), len_header]
    · rw [free_header, hself]
  · refine .cons_cons ⟨fun _ => ?_, fun h0 => ?_⟩ (.singleton _)
    · rw [next_header, hself, ← L.neighbours.1, next_header]
    · rw [prev_header, hd h0, ← prev_header]
      cases r with
      | nil => simp at h0
      | cons f r =>
        have hsplit : Layout h ((l ++ [b]) ++ f :: r) top := by simpa using L
        simpa using hsplit.neighbours.2

theorem heapSplitBlock_statics (h : Heap) (a n : ℕ) :
    (heapSplitBlock h a n).1.heapStart = h.heapStart ∧
      (heapSplitBlock h a n).1.heapEnd = h.heapEnd ∧
        (heapSplitBlock h a n).1.kheapLock = h.kheapLock := by
  unfold heapSplitBlock
  dsimp only
  split
  · exact ⟨rfl, rfl, rfl⟩
  · split
    · exact ⟨rfl, rfl, rfl⟩
    · exact ⟨rfl, rfl, rfl⟩

theorem splitBlockLen_eq (hroom : n + 32 ≤ len m a) :
    sub64 (sub64 (len m a) n) headerSize = len m a - n - 32 := by
  have hword : len m a < 2 ^ 64 := load_lt _ _ 8
  rw [sub64_of_le hword (by omega), headerSize, sub64_of_le (by omega) (by omega)]

theorem splitStores_headers {new d k : ℕ} (hclear : Clear new a) (ha : a < 2 ^ 64)
    (hnew : new < 2 ^ 64) (hd : d < 2 ^ 64) (hn : n < 2 ^ 64) (hk : k < 2 ^ 64) :
    let m₁ := setNext m new d
    let m₂ := setNext m₁ a new
    let m₃ := setPrev m₂ new a
    let m₄ := setLen m₃ new k
    let m₅ := setFree m₄ new (free m₄ a)
    let m₆ := setLen m₅ a n
    header m₆ a = ⟨n, free m a, prev m a, new⟩ ∧ header m₆ new = ⟨k, free m a, a, d⟩ ∧
      Frame [a, new] m m₆ := by
  intro m₁ m₂ m₃ m₄ m₅ m₆
  have hother : ∀ {m m' : Mem}, Frame [new] m m' → header m' a = header m a :=
    fun hF => hF.header_eq (by simpa using hclear)
  have hself : ∀ {m m' : Mem}, Frame [a] m m' → header m' new = header m new :=
    fun hF => hF.header_eq (by simpa using hclear.symm)
  have ha₂ : header m₂ a = { header m a with next := new } := by
    rw [header_setNext hnew, hother (frame_setNext (by simp))]
  have hF₄ : Frame [new] m₂ m₄ := (frame_setPrev (by simp)).trans (frame_setLen (by simp))
  have hF₅ : Frame [new] m₂ m₅ := hF₄.trans (frame_setFree (by simp))
  have hfree : free m₄ a = free m a := by
    rw [free_header, hother hF₄, ha₂, free_header]
  have hn₂ : header m₂ new = { header m new with next := d } := by
    rw [hself (frame_setNext (by simp)), header_setNext hd]
  have hn₅ : header m₅ new = ⟨k, free m a, a, d⟩ := by
    rw [header_setFree, header_setLen hk, header_setPrev ha, hn₂, hfree]
  refine ⟨?_, ?_, ?_⟩
  · rw [header_setLen hn, hother hF₅, ha₂]
    rfl
  · rw [hself (frame_setLen (by simp)), hn₅]
  · have hF₂ : Frame [a, new] m m₂ := (frame_setNext (by simp)).trans (frame_setNext (by simp))
    exact (hF₂.trans (hF₅.mono (by simp))).trans (frame_setLen (by simp))

theorem heapSplitBlock_headers {h : Heap} {d : ℕ} (hn : 16 ≤ n) (hroom : n + 48 ≤ len h.mem a)
    (hsigned : len h.mem a - n - 32 < 2 ^ 63) (hend : a + 32 + len h.mem a ≤ 2 ^ 64)
    (hd : next h.mem a = d) (had : d ≠ 0 → Clear a d) (hnd : d ≠ 0 → Clear (a + n + 32) d) :
    let h' := (heapSplitBlock h a n).1
    h'.lastBlock = (if h.lastBlock = a then a + n + 32 else h.lastBlock) ∧
      header h'.mem a = ⟨n, free h.mem a, prev h.mem a, a + n + 32⟩ ∧
        header h'.mem (a + n + 32) = ⟨len h.mem a - n - 32, free h.mem a, a, d⟩ ∧
          (d ≠ 0 → header h'.mem d = { header h.mem d with prev := a + n + 32 }) ∧
            Frame (a :: (a + n + 32) :: nonnull d) h.mem h'.mem := by
  have hd64 : d < 2 ^ 64 := by
    rw [← hd]
    exact load_lt _ _ 8
  have hpos : ¬toInt64 (len h.mem a - n - 32) < 16 := by
    rw [toInt64, if_pos hsigned]
    omega
  have hanew : Clear (a + n + 32) a := Or.inr (by omega)
  obtain ⟨hframe, hself⟩ := guardedSetPrev_spec h.mem (p := d) (v := a + n + 32) (by omega)
  simp only [heapSplitBlock, hd, splitBlockLen_eq (by omega : n + 32 ≤ len h.mem a),
    u64_add_headerSize (by omega : a + n + 32 < 2 ^ 64), if_neg (Nat.not_lt.mpr hn), if_neg hpos]
  generalize (if d ≠ 0 then setPrev h.mem d (a + n + 32) else h.mem) = m at hframe hself ⊢
  have hma : header m a = header h.mem a := hframe.header_eq fun x hx => by
    obtain ⟨rfl, h0⟩ := mem_nonnull.mp hx
    exact (had h0).symm
  have hnext : next m a = d := by
    rw [next_header, hma, ← next_header, hd]
  obtain ⟨hfront, hrear, hwrite⟩ := splitStores_headers (m := m) (k := len h.mem a - n - 32) hanew
    (by omega) (by omega) hd64 (by omega : n < 2 ^ 64) (by omega)
  rw [free_header m, hma, ← free_header] at hfront hrear
  rw [prev_header m, hma, ← prev_header] at hfront
  rw [hnext]
  refine ⟨trivial, hfront, hrear, fun h0 => ?_, ?_⟩
  · rw [hwrite.header_eq (by simpa using ⟨had h0, hnd h0⟩), hself h0]
  · exact (hframe.mono (by simp_all)).trans (hwrite.mono (by simp))

def Block.front (b : Block) (n : ℕ) : Block := ⟨b.addr, n, b.free⟩

def Block.rear (b : Block) (n : ℕ) : Block := ⟨b.addr + n + 32, b.len - n - 32, b.free⟩

theorem tiled_split (hT : Tiled a (l ++ b :: r) top) (hroom : n + 32 ≤ b.len) :
    Tiled a (l ++ b.front n :: b.rear n :: r) top := by
  obtain ⟨mid, hl, hb, hr⟩ := tiled_append.mp hT
  refine tiled_append.mpr ⟨mid, hl, hb, ?_, ?_⟩
  · simp only [Block.front, Block.rear, Block.stop]
    omega
  · have hstop : (b.rear n).stop = b.stop := by
      simp only [Block.rear, Block.stop]
      omega
    rwa [hstop]

theorem Layout.split (L : Layout h (l ++ b :: r) top) (hn : 16 ≤ n) (hroom : n + 48 ≤ b.len)
    (hsigned : b.len - n - 32 < 2 ^ 63) :
    Layout (heapSplitBlock h b.addr n).1 (l ++ b.front n :: b.rear n :: r) top ∧
      Frame (b.addr :: (b.addr + n + 32) :: r.map Block.addr) h.mem
        (heapSplitBlock h b.addr n).1.mem := by
  have hlenb := L.len_eq b (by simp)
  have hbound := (L.tiled.mem_bounds (b := b) (by simp)).2
  rw [Block.stop] at hbound
  have htop := L.top_le
  -- Both halves stay clear of every other block.
  have hsplit := tiled_split L.tiled (n := n) (by omega)
  have hbr : ∀ f ∈ r, Clear b.addr f.addr := fun f hf =>
    hsplit.clear_of_mem [b.front n, b.rear n] (b := b.front n) (by simp)
      (mem_append_right _ hf)
  have hnr : ∀ f ∈ r, Clear (b.addr + n + 32) f.addr := fun f hf =>
    hsplit.clear_of_mem [b.front n, b.rear n] (b := b.rear n) (by simp)
      (mem_append_right _ hf)
  obtain ⟨hlast, hfront, hrear, hd', hframe⟩ := heapSplitBlock_headers (h := h) (a := b.addr)
    hn (by omega) (by omega) (by omega) L.neighbours.1 (clear_headD hbr) (clear_headD hnr)
  obtain ⟨hstart, -, -⟩ := heapSplitBlock_statics h b.addr n
  rw [hlenb, L.free_eq b (by simp)] at hrear
  rw [L.free_eq b (by simp)] at hfront
  generalize (heapSplitBlock h b.addr n).1 = h' at hlast hfront hrear hd' hframe hstart ⊢
  constructor
  · have A : Around l r h.mem h'.mem := around_of_frame [b.front n, b.rear n] hsplit hframe
      (fun e he => (L.addr_pos (by simp [he])).ne') fun h0 => ⟨_, hd' h0⟩
    refine L.replace [] [b.rear n] A rfl ?_ ?_ ?_ ?_ ?_ ?_ L.top_le
    · rw [prev_header, hfront]
    · intro e he
      rcases mem_pair.mp he with rfl | rfl
      · refine ⟨L.threaded.ne_null b.addr (by simp), ?_, ?_⟩
        · rw [len_header, Block.front, hfront]
        · rw [free_header, Block.front, hfront]
      · refine ⟨by simp [Block.rear], ?_, ?_⟩
        · rw [len_header, Block.rear, hrear]
        · rw [free_header, Block.rear, hrear]
    · refine .cons_cons ⟨fun _ => ?_, fun _ => ?_⟩
        (.cons_cons ⟨fun _ => ?_, fun h0 => ?_⟩ (.singleton _))
      · rw [next_header, Block.front, hfront, Block.rear]
      · rw [prev_header, Block.rear, hrear, Block.front]
      · rw [next_header, Block.rear, hrear]
      · rw [prev_header, hd' h0, Block.rear]
    · rw [hstart]
      exact hsplit
    · rw [hstart]
      exact L.start_pos
    · rw [hlast]
      exact last_replace [b] [b.front n, b.rear n] rfl rfl L.last hbr
  · refine hframe.mono (forall_mem_cons.mpr ⟨by simp, forall_mem_cons.mpr
      ⟨by simp, fun a ha => ?_⟩⟩)
    exact mem_cons_of_mem _ (mem_cons_of_mem _ (mem_nonnull_headD ha))

theorem appendStores_headers {new : ℕ} (hclear : Clear new a) (ha : a < 2 ^ 64)
    (hnew : new < 2 ^ 64) (hn : n < 2 ^ 64) :
    let m₁ := setFree m new true
    let m₂ := setPrev m₁ new a
    let m₃ := setNext m₂ a new
    let m₄ := setNext m₃ new 0
    let m₅ := setLen m₄ new n
    header m₅ a = { header m a with next := new } ∧ header m₅ new = ⟨n, true, a, 0⟩ ∧
      Frame [a, new] m m₅ := by
  intro m₁ m₂ m₃ m₄ m₅
  have hF₂ : Frame [new] m m₂ := (frame_setFree (by simp)).trans (frame_setPrev (by simp))
  have hF₃ : Frame [a] m₂ m₃ := frame_setNext (by simp)
  have hF₅ : Frame [new] m₃ m₅ := (frame_setNext (by simp)).trans (frame_setLen (by simp))
  refine ⟨?_, ?_, ?_⟩
  · rw [hF₅.header_eq (by simpa using hclear), header_setNext hnew,
      hF₂.header_eq (by simpa using hclear)]
  · rw [header_setLen hn, header_setNext (by decide), hF₃.header_eq (by simpa using hclear.symm),
      header_setPrev ha, header_setFree]
  · exact ((hF₂.mono (by simp)).trans (hF₃.mono (by simp))).trans (hF₅.mono (by simp))

theorem Layout.append (L : Layout h (l ++ [b]) top) (hn : top + 32 + n ≤ 2 ^ 64) :
    let m := setLen (setNext (setNext (setPrev (Kheap.setFree h.mem top true) top b.addr)
      b.addr top) top 0) top n
    Layout { h with mem := m, lastBlock := top } (l ++ [b, ⟨top, n, true⟩]) (top + 32 + n) ∧
      Frame [b.addr, top] h.mem m := by
  obtain ⟨mid, hTl, hTb, hstop⟩ := tiled_append.mp L.tiled
  have hstop : b.stop = top := hstop
  have hT : Tiled h.heapStart (l ++ [b, ⟨top, n, true⟩]) (top + 32 + n) :=
    tiled_append.mpr ⟨mid, hTl, hTb, hstop.symm, rfl⟩
  have hclear : Clear top b.addr := by
    rw [← hstop, Block.stop]
    exact Or.inr (by omega)
  have htop0 : top ≠ 0 := by
    have hle := L.tiled.le
    have hpos := L.start_pos
    omega
  have hb64 := L.addr_lt (b := b) (by simp)
  intro m
  obtain ⟨hb', hnew, hframe⟩ : header m b.addr = { header h.mem b.addr with next := top } ∧
      header m top = ⟨n, true, b.addr, 0⟩ ∧ Frame [b.addr, top] h.mem m :=
    appendStores_headers hclear (by omega) (by omega) (by omega)
  refine ⟨?_, hframe⟩
  have A : Around l [] h.mem m :=
    around_of_frame [b, ⟨top, n, true⟩] hT hframe (by simp) fun h0 => absurd rfl h0
  refine L.replace [] [⟨top, n, true⟩] A rfl ?_ ?_ ?_ hT L.start_pos (by simp) hn
  · rw [prev_header, hb', prev_header]
  · intro e he
    rcases mem_pair.mp he with rfl | rfl
    · refine ⟨L.threaded.ne_null e.addr (by simp), ?_, ?_⟩
      · rw [len_header, hb', ← L.len_eq e (by simp), len_header]
      · rw [free_header, hb', ← L.free_eq e (by simp), free_header]
    · refine ⟨htop0, ?_, ?_⟩
      · rw [len_header, hnew]
      · rw [free_header, hnew]
  · refine .cons_cons ⟨fun _ => ?_, fun _ => ?_⟩
      (.cons_cons ⟨fun _ => ?_, fun h0 => absurd rfl h0⟩ (.singleton _))
    · rw [next_header, hb']
    · rw [prev_header, hnew]
    · rw [next_header, hnew]
      rfl

end KernelOld.Kheap
