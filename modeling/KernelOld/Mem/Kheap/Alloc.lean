import KernelOld.Mem.Kheap.Ops

/-!
# Taking a block from the list

`Inv` is the representation invariant of the heap. The search loop of `kmalloc` finds the
first block that takes the request, and `carve` says what becomes of it.
-/

namespace KernelOld.Kheap
open ByteMemory MachineWord Stdlib DoublyLinked List

variable {h : Heap} {l r bs : List Block} {b c : Block} {top n : ℕ}

def NotBothFree (b c : Block) : Prop := ¬(b.free = true ∧ c.free = true)

/-- The heap is a coalesced list of blocks with lengths that are multiples of 16. -/
structure Inv (h : Heap) (bs : List Block) (top : ℕ) : Prop where
  layout : Layout h bs top
  unlocked : h.kheapLock = false
  start_dvd : 16 ∣ h.heapStart
  len_dvd : ∀ b ∈ bs, 16 ∣ b.len
  coalesced : bs.IsChain NotBothFree

def used (bs : List Block) : List Block := bs.filter fun b => !b.free

theorem mem_used {b : Block} : b ∈ used bs ↔ b ∈ bs ∧ b.free = false := by
  simp [used]

def KeepsPayloads (us : List Block) (m m' : Mem) : Prop :=
  ∀ b ∈ us, ∀ x, b.addr + 32 ≤ x → x < b.stop → m' x = m x

/-- What the heap may write itself: headers, free blocks and what lies after the last block. -/
def Scratch (bs : List Block) (top x : ℕ) : Prop :=
  (∃ b ∈ bs, InHeader b.addr x) ∨ (∃ b ∈ bs, b.free = true ∧ b.addr ≤ x ∧ x < b.stop) ∨ top ≤ x

theorem Tiled.apart {a : ℕ} (hT : Tiled a bs top) {b c : Block} (hb : b ∈ bs) (hc : c ∈ bs) :
    b = c ∨ b.stop ≤ c.addr ∨ c.stop ≤ b.addr := by
  have hP : bs.Pairwise fun b c => b.stop ≤ c.addr ∨ c.stop ≤ b.addr := hT.pairwise.imp Or.inl
  have hsymm : Std.Symm fun b c : Block => b.stop ≤ c.addr ∨ c.stop ≤ b.addr :=
    ⟨fun b c hbc => hbc.symm⟩
  by_cases hbc : b = c
  · exact Or.inl hbc
  · exact Or.inr (hP.forall hb hc hbc)

theorem keepsPayloads_of_scratch {a : ℕ} {m m' : Mem} (hT : Tiled a bs top)
    (hm : ∀ x, ¬Scratch bs top x → m' x = m x) : KeepsPayloads (used bs) m m' := by
  intro b hb x hlo hhi
  obtain ⟨hmem, hused⟩ := mem_used.mp hb
  refine hm x ?_
  rintro (⟨c, hc, hin⟩ | ⟨c, hc, hfree, hclo, hchi⟩ | htop)
  · obtain ⟨hxlo, hxhi⟩ := hin
    have hbc := hT.apart hmem hc
    simp only [Block.stop] at hbc hhi
    rcases hbc with rfl | hbc | hbc <;> omega
  · rcases hT.apart hmem hc with rfl | hbc | hbc
    · simp [hused] at hfree
    · omega
    · omega
  · have hbound := (hT.mem_bounds hmem).2
    omega

theorem scratch_of_frame {S : List ℕ} {m m' : Mem} (hF : Frame S m m')
    (hS : ∀ a ∈ S, ∀ x, InHeader a x → Scratch bs top x) {x : ℕ} (hx : ¬Scratch bs top x) :
    m' x = m x :=
  hF x fun a ha hin => hx (hS a ha x hin)

def Block.accepts (n : ℕ) (b : Block) : Bool :=
  b.free && (decide (b.len > u64 (n + headerSize)) || b.len == n)

theorem Layout.accepts_eq (L : Layout h bs top) (hb : b ∈ bs) :
    accepts h.mem n b.addr = b.accepts n := by
  rw [accepts, Block.accepts, L.len_eq b hb, L.free_eq b hb]

theorem Layout.next_cons {c : Block} (L : Layout h (l ++ b :: c :: r) top) :
    next h.mem b.addr = c.addr ∧ c.addr ≠ 0 ∧ Layout h ((l ++ [b]) ++ c :: r) top :=
  ⟨by simpa using L.neighbours.1, L.threaded.ne_null c.addr (by simp), by simpa using L⟩

theorem findBlock_eq {fuel : ℕ} (L : Layout h (l ++ b :: r) top) (hfuel : r.length < fuel) :
    findBlock h.mem n fuel b.addr =
      some (((b :: r).find? (Block.accepts n)).map Block.addr) := by
  induction r generalizing l b fuel with
  | nil =>
    obtain ⟨fuel, rfl⟩ := Nat.exists_eq_succ_of_ne_zero (by omega : fuel ≠ 0)
    have hnext : next h.mem b.addr = 0 := by simpa using L.neighbours.1
    rw [findBlock, L.accepts_eq (by simp), hnext]
    cases hb : b.accepts n <;> simp [hb]
  | cons c r ih =>
    obtain ⟨fuel, rfl⟩ := Nat.exists_eq_succ_of_ne_zero (by omega : fuel ≠ 0)
    obtain ⟨hnext, hc0, L'⟩ := L.next_cons
    have hfuel' : r.length < fuel := by simpa using hfuel
    have hrest := ih L' hfuel'
    rw [findBlock, L.accepts_eq (by simp), hnext, if_neg hc0, hrest]
    cases hb : b.accepts n <;> simp [hb]

theorem heapSplitBlock_stay {a : ℕ} (hroom : n + 32 ≤ len h.mem a)
    (hno : n < 16 ∨ 2 ^ 63 ≤ len h.mem a - n - 32) : (heapSplitBlock h a n).1 = h := by
  by_cases hn : n < 16
  · simp [heapSplitBlock, hn]
  · have hword : len h.mem a < 2 ^ 64 := load_lt _ _ 8
    have hneg : toInt64 (len h.mem a - n - 32) < 16 := by
      rw [toInt64, if_neg (by omega)]
      omega
    simp [heapSplitBlock, hn, splitBlockLen_eq hroom, hneg]

def carve (n : ℕ) (b : Block) : List Block :=
  if n + 32 < b.len ∧ 16 ≤ n ∧ b.len - n - 32 < 2 ^ 63 then
    [{ b.front n with free := false }, b.rear n]
  else [{ b with free := false }]

structure Takes (n : ℕ) (b : Block) : Prop where
  free : b.free = true
  fits : b.len = n ∨ n + 32 < b.len
  len_dvd : 16 ∣ b.len
  size_dvd : 16 ∣ n

theorem Layout.carve (L : Layout h (l ++ b :: r) top) (ht : Takes n b) :
    let h' := if len h.mem b.addr > u64 (n + headerSize) then (heapSplitBlock h b.addr n).1 else h
    Layout { h' with mem := Kheap.setFree h'.mem b.addr false } (l ++ Kheap.carve n b ++ r) top ∧
      ∀ x, ¬Scratch (l ++ b :: r) top x → Kheap.setFree h'.mem b.addr false x = h.mem x := by
  have hlen := L.len_eq b (by simp)
  have hbound := (L.tiled.mem_bounds (b := b) (by simp)).2
  have htop := L.top_le
  have hpos := L.addr_pos (b := b) (by simp)
  rw [Block.stop] at hbound
  have hfit := ht.fits
  have hword : u64 (n + headerSize) = n + 32 := u64_add_headerSize (by omega)
  have hbx : ∀ x, InHeader b.addr x → Scratch (l ++ b :: r) top x :=
    fun x hx => Or.inl ⟨b, by simp, hx⟩
  have hfree : ∀ m : Mem, Frame [b.addr] m (Kheap.setFree m b.addr false) :=
    fun m => frame_setFree (by simp)
  rw [hword, hlen]
  by_cases hsplit : n + 32 < b.len ∧ 16 ≤ n ∧ b.len - n - 32 < 2 ^ 63
  · have hroom : n + 48 ≤ b.len := by
      have hd := ht.len_dvd
      have hd' := ht.size_dvd
      omega
    obtain ⟨Lsplit, hframe⟩ := L.split hsplit.2.1 hroom hsplit.2.2
    rw [if_pos hsplit.1, Kheap.carve, if_pos hsplit]
    refine ⟨by simpa [Block.front] using Lsplit.setFree false, fun x hx => ?_⟩
    have hnx : ∀ a ∈ b.addr :: (b.addr + n + 32) :: r.map Block.addr, ∀ x, InHeader a x →
        Scratch (l ++ b :: r) top x := by
      intro a ha x hin
      simp only [mem_cons, mem_map] at ha
      rcases ha with rfl | rfl | ⟨e, he, rfl⟩
      · exact hbx x hin
      · refine Or.inr (Or.inl ⟨b, by simp, ht.free, ?_, ?_⟩)
        · exact le_trans (by omega) hin.1
        · rw [Block.stop]
          exact hin.2.trans_le (by omega)
      · exact Or.inl ⟨e, by simp [he], hin⟩
    rw [scratch_of_frame (hfree _) (by simpa using hbx) hx, scratch_of_frame hframe hnx hx]
  · have hstay : (if b.len > n + 32 then (heapSplitBlock h b.addr n).1 else h) = h := by
      by_cases hgt : b.len > n + 32
      · rw [if_pos hgt]
        exact heapSplitBlock_stay (by omega) (by omega)
      · rw [if_neg hgt]
    rw [hstay, Kheap.carve, if_neg hsplit]
    refine ⟨by simpa using L.setFree false, fun x hx => ?_⟩
    exact scratch_of_frame (hfree _) (by simpa using hbx) hx

theorem coalesced_of_used (hl : l.IsChain NotBothFree) (hr : r.IsChain NotBothFree)
    (hb : b.free = false) : (l ++ b :: r).IsChain NotBothFree := by
  refine hl.append (hr.cons fun c _ => ?_) ?_
  · simp [NotBothFree, hb]
  · rintro c - d hd
    obtain rfl : b = d := by simpa using hd
    simp [NotBothFree, hb]

theorem coalesced_between (hl : l.IsChain NotBothFree) (hr : r.IsChain NotBothFree)
    (hlast : ∀ c ∈ l.getLast?, c.free = false) (hhead : ∀ c ∈ r.head?, c.free = false) :
    (l ++ b :: r).IsChain NotBothFree := by
  refine hl.append (hr.cons fun c hc => ?_) ?_
  · simp [NotBothFree, hhead c hc]
  · intro c hc d _
    simp [NotBothFree, hlast c hc]

theorem head_used (hc : (b :: r).IsChain NotBothFree) (hb : b.free = true) :
    ∀ c ∈ r.head?, c.free = false := by
  intro c hr
  have hbc : NotBothFree b c := (isChain_cons.mp hc).1 c hr
  simpa [NotBothFree, hb] using hbc

theorem last_used (hc : (l ++ b :: r).IsChain NotBothFree) (hb : b.free = true) :
    ∀ c ∈ l.getLast?, c.free = false := by
  intro c hl
  have hcb : NotBothFree c b := (isChain_append.mp hc).2.2 c hl b (by simp)
  simpa [NotBothFree, hb] using hcb

theorem coalesced_carve (hb : b.free = true) (hc : (l ++ b :: r).IsChain NotBothFree) :
    (l ++ carve n b ++ r).IsChain NotBothFree := by
  have hl := (isChain_append.mp hc).1
  have hbr : (b :: r).IsChain NotBothFree := hc.right_of_append
  rw [carve]
  split
  · have hrear : (b.rear n :: r).IsChain NotBothFree :=
      coalesced_between (l := []) .nil hbr.tail (by simp) (head_used hbr hb)
    simpa using coalesced_of_used (b := { b.front n with free := false }) hl hrear rfl
  · simpa using coalesced_of_used (b := { b with free := false }) hl hbr.tail rfl

def Block.taken (n : ℕ) (b : Block) : Block :=
  if n + 32 < b.len ∧ 16 ≤ n ∧ b.len - n - 32 < 2 ^ 63 then { b.front n with free := false }
  else { b with free := false }

theorem Block.taken_addr (n : ℕ) (b : Block) : (b.taken n).addr = b.addr := by
  rw [Block.taken]
  split <;> rfl

theorem Takes.le_taken (ht : Takes n b) : n ≤ (b.taken n).len := by
  have hfit := ht.fits
  rw [Block.taken]
  split
  · exact le_rfl
  · show n ≤ b.len
    omega

theorem taken_mem_carve (n : ℕ) (b : Block) : b.taken n ∈ carve n b := by
  rw [Block.taken, carve]
  split <;> simp

theorem used_append (l r : List Block) : used (l ++ r) = used l ++ used r := by
  simp [used]

theorem used_carve (hb : b.free = true) : used (carve n b) = [b.taken n] := by
  rw [carve, Block.taken, used]
  split
  · simp [Block.rear, hb]
  · simp

theorem used_carve_perm (hb : b.free = true) :
    (used (l ++ carve n b ++ r)).Perm (b.taken n :: used (l ++ b :: r)) := by
  have hdrop : used (b :: r) = used r := by simp [used, hb]
  rw [used_append, used_append, used_carve hb, used_append, hdrop, append_assoc]
  exact perm_middle

theorem takes_len_dvd (ht : Takes n b) : ∀ c ∈ carve n b, 16 ∣ c.len := by
  have hb := ht.len_dvd
  have hn := ht.size_dvd
  intro c hc
  rw [carve] at hc
  split at hc
  · rcases mem_pair.mp hc with rfl | rfl
    · exact hn
    · show 16 ∣ b.len - n - 32
      omega
  · obtain rfl := mem_singleton.mp hc
    exact hb

theorem Layout.withLock (L : Layout h bs top) (v : Bool) :
    Layout { h with kheapLock := v } bs top :=
  ⟨L.threaded, L.len_eq, L.free_eq, L.tiled, L.last, L.start_pos, L.top_le⟩

theorem takeBlock_statics (h : Heap) (n a : ℕ) :
    (takeBlock h n a).heapStart = h.heapStart ∧ (takeBlock h n a).heapEnd = h.heapEnd := by
  have hs := heapSplitBlock_statics h a n
  unfold takeBlock
  dsimp only
  split
  · exact ⟨hs.1, hs.2.1⟩
  · exact ⟨rfl, rfl⟩

theorem takeBlock_spec (I : Inv h (l ++ b :: r) top) (ht : Takes n b) :
    Inv (takeBlock h n b.addr) (l ++ carve n b ++ r) top ∧
      (∀ i < n, (takeBlock h n b.addr).mem (b.addr + 32 + i) = 0) ∧
        ∀ x, ¬Scratch (l ++ b :: r) top x → (takeBlock h n b.addr).mem x = h.mem x := by
  obtain ⟨Lc, hsame⟩ := I.layout.carve ht
  have hmem : b.taken n ∈ l ++ carve n b ++ r := by simp [taken_mem_carve]
  have hle := ht.le_taken
  have haddr := b.taken_addr n
  have hptr : n = 0 ∨ u64 (b.addr + headerSize) = b.addr + 32 := by
    have hbound := (I.layout.tiled.mem_bounds (b := b) (by simp)).2
    have htop := I.layout.top_le
    have hfit := ht.fits
    simp only [Block.stop] at hbound
    by_cases hn : n = 0
    · exact Or.inl hn
    · exact Or.inr (u64_add_headerSize (by omega))
  -- the cleared bytes lie in the payload of the block handed out
  have hclear : ∀ c ∈ l ++ carve n b ++ r, ∀ x, InHeader c.addr x →
      x < u64 (b.addr + headerSize) ∨ u64 (b.addr + headerSize) + n ≤ x := by
    rintro c hc x ⟨hlo, hhi⟩
    have hapart := Lc.tiled.apart hmem hc
    simp only [Block.stop] at hapart
    rcases hapart with rfl | hapart | hapart <;> omega
  have hstart := (takeBlock_statics h n b.addr).1
  refine ⟨⟨?_, rfl, ?_, ?_, coalesced_carve ht.free I.coalesced⟩, ?_, ?_⟩
  · refine (Lc.congr (m := (takeBlock h n b.addr).mem) ?_).withLock false
    intro c hc x hx
    exact memset_apply_of_notMem (hclear c hc x hx)
  · rw [hstart]
    exact I.start_dvd
  · intro c hc
    simp only [mem_append] at hc
    rcases hc with (hc | hc) | hc
    · exact I.len_dvd c (by simp [hc])
    · exact takes_len_dvd ht c hc
    · exact I.len_dvd c (by simp [hc])
  · intro i hi
    exact memset_apply_of_mem (by omega) (by omega)
  · intro x hx
    refine Eq.trans (memset_apply_of_notMem ?_) (hsame x hx)
    by_contra hin
    have hfit := ht.fits
    refine hx (Or.inr (Or.inl ⟨b, by simp, ht.free, by omega, ?_⟩))
    simp only [Block.stop]
    omega

end KernelOld.Kheap
