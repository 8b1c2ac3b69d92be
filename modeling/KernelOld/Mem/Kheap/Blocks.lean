import KernelOld.Lib.DoublyLinked
import KernelOld.Mem.Kheap.Defs

/-!
# The block list of the kernel heap

The abstract view of the heap is the list of its blocks in address order (`Layout`). Every operation
is described by what it does to the headers it writes, and by the list it leaves. `Layout.replace`
leads from the one to the other.
-/

namespace KernelOld.Kheap
open ByteMemory MachineWord Stdlib DoublyLinked List

variable {m m' : Mem} {a : ℕ} {S : List ℕ}

theorem u64_add_headerSize {x : ℕ} (hx : x + 32 < 2 ^ 64) : u64 (x + headerSize) = x + 32 :=
  u64_of_lt hx

structure Header where
  len : ℕ
  free : Bool
  prev : ℕ
  next : ℕ

def header (m : Mem) (a : ℕ) : Header := ⟨len m a, free m a, prev m a, next m a⟩

theorem len_header (m : Mem) (a : ℕ) : len m a = (header m a).len := rfl
theorem free_header (m : Mem) (a : ℕ) : free m a = (header m a).free := rfl
theorem prev_header (m : Mem) (a : ℕ) : prev m a = (header m a).prev := rfl
theorem next_header (m : Mem) (a : ℕ) : next m a = (header m a).next := rfl

def InHeader (a x : ℕ) : Prop := a ≤ x ∧ x < a + 32

def Clear (a b : ℕ) : Prop := a + 32 ≤ b ∨ b + 32 ≤ a

theorem Clear.symm {b : ℕ} (h : Clear a b) : Clear b a := Or.symm h

theorem header_congr (h : ∀ x, InHeader a x → m' x = m x) :
    header m' a = header m a := by
  have hload : ∀ o w, o + w ≤ 32 → load m' (a + o) w = load m (a + o) w := by
    intro o w how
    apply load_congr
    intro x hlo hhi
    exact h x ⟨by omega, by omega⟩
  simp only [header, len, free, prev, next]
  rw [hload 8 4 (by omega), hload 16 8 (by omega), hload 24 8 (by omega)]
  congr 1
  exact hload 0 8 (by omega)

/-- `m'` differs from `m` only inside the headers at the addresses `S`. -/
def Frame (S : List ℕ) (m m' : Mem) : Prop := ∀ x, (∀ a ∈ S, ¬InHeader a x) → m' x = m x

theorem Frame.refl (S : List ℕ) (m : Mem) : Frame S m m := fun _ _ => rfl

theorem Frame.trans {m'' : Mem} (h : Frame S m m') (h' : Frame S m' m'') :
    Frame S m m'' := fun x hx => (h' x hx).trans (h x hx)

theorem Frame.mono {T : List ℕ} (h : Frame S m m') (hST : ∀ a ∈ S, a ∈ T) :
    Frame T m m' := fun x hx => h x fun a ha => hx a (hST a ha)

theorem Frame.header_eq {e : ℕ} (h : Frame S m m') (hS : ∀ a ∈ S, Clear a e) :
    header m' e = header m e := by
  apply header_congr
  rintro x ⟨hlo, hhi⟩
  refine h x fun a ha => ?_
  rintro ⟨hlo', hhi'⟩
  have hae := hS a ha
  rw [Clear] at hae
  omega

private theorem frame_store {o w v : ℕ} (ha : a ∈ S) (how : o + w ≤ 32) :
    Frame S m (store m (a + o) w v) := by
  intro x hx
  have hax := hx a ha
  rw [InHeader] at hax
  apply store_apply_of_notMem
  omega

theorem frame_setLen {v : ℕ} (ha : a ∈ S) :
    Frame S m (setLen m a v) := frame_store (o := 0) ha (by omega)

theorem frame_setFree {v : Bool} (ha : a ∈ S) :
    Frame S m (setFree m a v) := frame_store ha (by omega)

theorem frame_setPrev {v : ℕ} (ha : a ∈ S) :
    Frame S m (setPrev m a v) := frame_store ha (by omega)

theorem frame_setNext {v : ℕ} (ha : a ∈ S) :
    Frame S m (setNext m a v) := frame_store ha (by omega)

theorem header_setLen {v : ℕ} (hv : v < 2 ^ 64) :
    header (setLen m a v) a = { header m a with len := v } := by
  simp only [header, len, free, prev, next, setLen]
  rw [load_store_of_lt (by simpa using hv), load_store_of_apart (Or.inl (by omega)),
    load_store_of_apart (Or.inl (by omega)), load_store_of_apart (Or.inl (by omega))]

theorem header_setFree {v : Bool} :
    header (setFree m a v) a = { header m a with free := v } := by
  have hv : v.toNat < 256 ^ 4 := by cases v <;> decide
  simp only [header, len, free, prev, next, setFree]
  rw [load_store_of_lt hv, load_store_of_apart (Or.inr (by omega)),
    load_store_of_apart (Or.inl (by omega)), load_store_of_apart (Or.inl (by omega))]
  cases v <;> rfl

theorem header_setPrev {v : ℕ} (hv : v < 2 ^ 64) :
    header (setPrev m a v) a = { header m a with prev := v } := by
  simp only [header, len, free, prev, next, setPrev]
  rw [load_store_of_lt (by simpa using hv), load_store_of_apart (Or.inr (by omega)),
    load_store_of_apart (Or.inr (by omega)), load_store_of_apart (Or.inl (by omega))]

theorem header_setNext {v : ℕ} (hv : v < 2 ^ 64) :
    header (setNext m a v) a = { header m a with next := v } := by
  simp only [header, len, free, prev, next, setNext]
  rw [load_store_of_lt (by simpa using hv), load_store_of_apart (Or.inr (by omega)),
    load_store_of_apart (Or.inr (by omega)), load_store_of_apart (Or.inr (by omega))]

/-- A header of the list, without its links. -/
structure Block where
  addr : ℕ
  len : ℕ
  free : Bool
deriving DecidableEq, Repr

def Block.stop (b : Block) : ℕ := b.addr + 32 + b.len

def Tiled : ℕ → List Block → ℕ → Prop
  | a, [], top => a = top
  | a, b :: bs, top => b.addr = a ∧ Tiled b.stop bs top

theorem tiled_append {top : ℕ} {l r : List Block} :
    Tiled a (l ++ r) top ↔ ∃ mid, Tiled a l mid ∧ Tiled mid r top := by
  induction l generalizing a with
  | nil => simp [Tiled]
  | cons b l ih =>
    simp only [cons_append, Tiled, ih]
    constructor
    · rintro ⟨ha, mid, hl, hr⟩
      exact ⟨mid, ⟨ha, hl⟩, hr⟩
    · rintro ⟨mid, ⟨ha, hl⟩, hr⟩
      exact ⟨ha, mid, hl, hr⟩

theorem Tiled.le {top : ℕ} {bs : List Block} (h : Tiled a bs top) : a ≤ top := by
  induction bs generalizing a with
  | nil => exact Nat.le_of_eq h
  | cons b bs ih =>
    have hle := ih h.2
    have ha := h.1
    rw [Block.stop] at hle
    omega

theorem Tiled.mem_bounds {top : ℕ} {bs : List Block} (h : Tiled a bs top) {b : Block}
    (hb : b ∈ bs) : a ≤ b.addr ∧ b.stop ≤ top := by
  induction bs generalizing a with
  | nil => simp at hb
  | cons c bs ih =>
    have ha := h.1
    rcases mem_cons.mp hb with rfl | hb
    · exact ⟨Nat.le_of_eq h.1.symm, h.2.le⟩
    · have htail := ih h.2 hb
      exact ⟨ha ▸ (Nat.le_trans (by rw [Block.stop]; omega) htail.1), htail.2⟩

theorem Tiled.pairwise {top : ℕ} {bs : List Block} (h : Tiled a bs top) :
    bs.Pairwise fun b c => b.stop ≤ c.addr := by
  induction bs generalizing a with
  | nil => exact .nil
  | cons b bs ih =>
    exact .cons (fun c hc => (h.2.mem_bounds hc).1) (ih h.2)

theorem Tiled.length_le {top : ℕ} {bs : List Block} (h : Tiled a bs top) :
    a + 32 * bs.length ≤ top := by
  induction bs generalizing a with
  | nil => simpa [Tiled] using Nat.le_of_eq h
  | cons b bs ih =>
    have hle := ih h.2
    have ha := h.1
    simp only [Block.stop, length_cons] at hle ⊢
    omega

/-- Memory holds exactly the blocks `bs`, from `heap_start` up to `top`. -/
structure Layout (h : Heap) (bs : List Block) (top : ℕ) : Prop where
  threaded : Threaded (prev h.mem) (next h.mem) (bs.map Block.addr)
  len_eq : ∀ b ∈ bs, len h.mem b.addr = b.len
  free_eq : ∀ b ∈ bs, free h.mem b.addr = b.free
  tiled : Tiled h.heapStart bs top
  last : (bs.map Block.addr).getLast? = some h.lastBlock
  start_pos : 0 < h.heapStart
  top_le : top ≤ 2 ^ 64

variable {h : Heap} {l r bs : List Block} {b c : Block} {top : ℕ}

theorem Layout.neighbours (L : Layout h (l ++ b :: r) top) :
    next h.mem b.addr = (r.map Block.addr).headD 0 ∧
      prev h.mem b.addr = (l.map Block.addr).getLastD 0 := by
  have hT := L.threaded
  rw [map_append, map_cons] at hT
  exact hT.neighbours

theorem Layout.addr_lt (L : Layout h bs top) (hb : b ∈ bs) : b.addr + 32 ≤ 2 ^ 64 := by
  have hbound := (L.tiled.mem_bounds hb).2
  have htop := L.top_le
  rw [Block.stop] at hbound
  omega

theorem Layout.addr_pos (L : Layout h bs top) (hb : b ∈ bs) : 0 < b.addr :=
  Nat.pos_of_ne_zero (L.threaded.ne_null b.addr (mem_map_of_mem hb))

theorem Tiled.clear_of_mem (mid : List Block) (hT : Tiled a (l ++ (mid ++ r)) top) (hb : b ∈ mid)
    (hc : c ∈ l ++ r) : Clear b.addr c.addr := by
  have hP := hT.pairwise
  simp only [pairwise_append, mem_append] at hP
  obtain ⟨-, ⟨-, -, hright⟩, hleft⟩ := hP
  rcases mem_append.mp hc with hc | hc
  · have hle := hleft c hc b (Or.inl hb)
    rw [Block.stop] at hle
    exact Or.inr (by omega)
  · have hle := hright b hb c hc
    rw [Block.stop] at hle
    exact Or.inl (by omega)

theorem heapCombineForward_statics (h : Heap) (a : ℕ) :
    (heapCombineForward h a).heapStart = h.heapStart ∧
      (heapCombineForward h a).heapEnd = h.heapEnd ∧
        (heapCombineForward h a).kheapLock = h.kheapLock := by
  unfold heapCombineForward
  dsimp only
  split
  · exact ⟨rfl, rfl, rfl⟩
  · split
    · exact ⟨rfl, rfl, rfl⟩
    · exact ⟨rfl, rfl, rfl⟩

def nonnull (p : ℕ) : List ℕ := if p = 0 then [] else [p]

theorem mem_nonnull {p : ℕ} : a ∈ nonnull p ↔ a = p ∧ p ≠ 0 := by
  rw [nonnull]
  split <;> simp_all

theorem guardedSetPrev_spec (m : Mem) {p v : ℕ} (hv : v < 2 ^ 64) :
    let m' := if p ≠ 0 then setPrev m p v else m
    Frame (nonnull p) m m' ∧ (p ≠ 0 → header m' p = { header m p with prev := v }) := by
  by_cases hp : p = 0
  · subst hp
    simpa using Frame.refl _ m
  · simp only [ne_eq, hp, not_false_eq_true, if_true]
    exact ⟨frame_setPrev (mem_nonnull.mpr ⟨rfl, hp⟩), fun _ => header_setPrev hv⟩

theorem heapCombineForward_headers {h : Heap} {c d : ℕ} (hc : next h.mem a = c) (hc0 : c ≠ 0)
    (hfree : free h.mem c = true) (hd : next h.mem c = d) (hac : Clear a c)
    (had : d ≠ 0 → Clear a d) (hcd : d ≠ 0 → Clear c d) (ha : a < 2 ^ 64)
    (hlen : len h.mem a + len h.mem c + 32 < 2 ^ 64) :
    let h' := heapCombineForward h a
    h'.lastBlock = (if c = h.lastBlock then a else h.lastBlock) ∧
      header h'.mem a = ⟨len h.mem a + len h.mem c + 32, free h.mem a, prev h.mem a, d⟩ ∧
        (d ≠ 0 → header h'.mem d = { header h.mem d with prev := a }) ∧
          Frame (a :: nonnull d) h.mem h'.mem := by
  have hd64 : d < 2 ^ 64 := by
    rw [← hd]
    exact load_lt _ _ 8
  obtain ⟨hframe, hself⟩ := guardedSetPrev_spec h.mem (p := d) ha
  simp only [heapCombineForward, hc, if_neg hc0, hfree, hd, Bool.not_true, Bool.false_eq_true,
    if_false]
  generalize (if d ≠ 0 then setPrev h.mem d a else h.mem) = m at hframe hself ⊢
  have hother : ∀ e, (d ≠ 0 → Clear d e) → header m e = header h.mem e := by
    intro e he
    refine hframe.header_eq fun x hx => ?_
    obtain ⟨rfl, hx0⟩ := mem_nonnull.mp hx
    exact he hx0
  have hma : header m a = header h.mem a := hother a fun h0 => (had h0).symm
  have hmc : header m c = header h.mem c := hother c fun h0 => (hcd h0).symm
  have hsum : u64 (len m a + (len m c + headerSize)) = len h.mem a + len h.mem c + 32 := by
    rw [len_header m, len_header m, hma, hmc, ← len_header, ← len_header, ← Nat.add_assoc]
    exact u64_add_headerSize hlen
  have hnext : next (setLen m a (len h.mem a + len h.mem c + 32)) c = d := by
    rw [next_header, (frame_setLen (S := [a]) (by simp)).header_eq (by simpa using hac), hmc]
    exact hd
  rw [hsum, hnext]
  have hwrite : Frame [a] m (setNext (setLen m a (len h.mem a + len h.mem c + 32)) a d) :=
    (frame_setLen (by simp)).trans (frame_setNext (by simp))
  refine ⟨trivial, ?_, fun h0 => ?_, ?_⟩
  · rw [header_setNext hd64, header_setLen hlen, hma]
    rfl
  · rw [hwrite.header_eq (by simpa using had h0), hself h0]
  · exact (hframe.mono (by simp_all)).trans (hwrite.mono (by simp))

theorem clear_headD {e : ℕ} (hr : ∀ f ∈ r, Clear e f.addr)
    (h0 : (r.map Block.addr).headD 0 ≠ 0) : Clear e ((r.map Block.addr).headD 0) := by
  cases r with
  | nil => simp at h0
  | cons f r => simpa using hr f (by simp)

/-- The headers of `l` and `r` are unchanged, up to `prev` of the first of `r`. -/
structure Around (l r : List Block) (m m' : Mem) : Prop where
  same : ∀ e ∈ l ++ r.tail, header m' e.addr = header m e.addr
  first : ∀ e ∈ r.head?, ∃ p, header m' e.addr = { header m e.addr with prev := p }

theorem Around.fields (A : Around l r m m') (hb : b ∈ l ++ r) :
    len m' b.addr = len m b.addr ∧ free m' b.addr = free m b.addr ∧
      next m' b.addr = next m b.addr := by
  obtain ⟨p, hp⟩ : ∃ p, header m' b.addr = { header m b.addr with prev := p } := by
    rcases mem_append.mp hb with hb | hb
    · exact ⟨_, A.same b (mem_append_left _ hb)⟩
    · cases r with
      | nil => simp at hb
      | cons f r =>
        rcases mem_cons.mp hb with rfl | hb
        · exact A.first b rfl
        · exact ⟨_, A.same b (mem_append_right _ hb)⟩
  simp only [len_header, free_header, next_header, hp]
  trivial

theorem around_of_frame {a : ℕ} {m m' : Mem} (mid : List Block)
    (hT : Tiled a (l ++ (mid ++ r)) top)
    (hframe : Frame (mid.map Block.addr ++ nonnull ((r.map Block.addr).headD 0)) m m')
    (hne : ∀ e ∈ r, e.addr ≠ 0)
    (hfirst : (r.map Block.addr).headD 0 ≠ 0 → ∃ p, header m' ((r.map Block.addr).headD 0) =
      { header m ((r.map Block.addr).headD 0) with prev := p }) :
    Around l r m m' := by
  refine ⟨fun e he => hframe.header_eq fun x hx => ?_, fun e he => ?_⟩
  · rcases mem_append.mp hx with hx | hx
    · obtain ⟨b, hb, rfl⟩ := mem_map.mp hx
      refine hT.clear_of_mem mid hb (mem_append.mpr ?_)
      exact (mem_append.mp he).imp_right mem_of_mem_tail
    · obtain ⟨rfl, h0⟩ := mem_nonnull.mp hx
      cases r with
      | nil => simp at h0
      | cons f r =>
        have hT' : Tiled a ((l ++ mid) ++ ([f] ++ r)) top := by simpa using hT
        refine hT'.clear_of_mem [f] (mem_singleton_self f) ?_
        rw [append_assoc]
        simp only [tail_cons, mem_append] at he ⊢
        exact he.imp_right Or.inr
  · cases r with
    | nil => simp at he
    | cons f r =>
      obtain rfl : f = e := by simpa using he
      exact hfirst (hne f mem_cons_self)

variable {b' : Block} {h' : Heap}

theorem Layout.link_left (L : Layout h (l ++ b :: r) top)
    (hl : ∀ e ∈ l, next m e.addr = next h.mem e.addr) (hb : prev m b.addr = prev h.mem b.addr) :
    Link (prev m) (next m) ((l.map Block.addr).getLastD 0) b.addr := by
  have hlink : Link (prev h.mem) (next h.mem) ((l.map Block.addr).getLastD 0) b.addr := by
    have hT := L.threaded.links
    rw [map_append, isChain_border_append] at hT
    simpa using hT.2.2
  refine ⟨fun h0 => ?_, fun h0 => hb.trans (hlink.2 h0)⟩
  cases l using List.reverseRecOn with
  | nil => simp at h0
  | append_singleton l e =>
    simp only [map_append, map_cons, map_nil, getLastD_concat] at h0 hlink ⊢
    rw [hl e (by simp)]
    exact hlink.1 h0

/-- Surgery on a layout: `b` and the blocks `old` after it give way to blocks that start at
the same address. What is written are the headers of the new blocks, and `prev` of the block
after them. -/
theorem Layout.replace {top' : ℕ} (old new : List Block)
    (L : Layout h (l ++ b :: (old ++ r)) top) (A : Around l r h.mem h'.mem)
    (haddr : b'.addr = b.addr) (hprev : prev h'.mem b.addr = prev h.mem b.addr)
    (hnew : ∀ e ∈ b' :: new, e.addr ≠ 0 ∧ len h'.mem e.addr = e.len ∧ free h'.mem e.addr = e.free)
    (hlinks : List.IsChain (Link (prev h'.mem) (next h'.mem))
      ((b' :: new).map Block.addr ++ [(r.map Block.addr).headD 0]))
    (htiled : Tiled h'.heapStart (l ++ b' :: (new ++ r)) top') (hpos : 0 < h'.heapStart)
    (hlast : ((l ++ b' :: (new ++ r)).map Block.addr).getLast? = some h'.lastBlock)
    (htop : top' ≤ 2 ^ 64) :
    Layout h' (l ++ b' :: (new ++ r)) top' := by
  have hcases : ∀ e ∈ l ++ b' :: (new ++ r), e ∈ b' :: new ∨ e ∈ l ++ r := by
    intro e he
    simp only [mem_append, mem_cons] at he ⊢
    tauto
  have hold : ∀ e ∈ l ++ r, e ∈ l ++ b :: (old ++ r) := by
    intro e he
    simp only [mem_append, mem_cons] at he ⊢
    tauto
  refine ⟨?_, fun e he => ?_, fun e he => ?_, htiled, hlast, hpos, htop⟩
  · have hT : Threaded (prev h.mem) (next h.mem)
        (l.map Block.addr ++ (b :: old).map Block.addr ++ r.map Block.addr) := by
      simpa using L.threaded
    suffices hU : Threaded (prev h'.mem) (next h'.mem)
        (l.map Block.addr ++ (b' :: new).map Block.addr ++ r.map Block.addr) by simpa using hU
    refine hT.replace ?_ ?_ ?_ ?_
    · exact forall_mem_map.mpr fun e he => (hnew e he).1
    · have hleft := L.link_left (fun e he => (A.fields (mem_append_left r he)).2.2) hprev
      rw [← haddr] at hleft
      exact .cons_cons hleft hlinks
    · intro x hx
      have hmem : x ∈ (l ++ r).map Block.addr := by
        rw [map_append, mem_append]
        exact (mem_append.mp hx).imp_left (dropLast_subset _ ·)
      obtain ⟨e, he, rfl⟩ := mem_map.mp hmem
      exact (A.fields he).2.2
    · intro y hy
      rw [← map_tail, ← map_append] at hy
      obtain ⟨e, he, rfl⟩ := mem_map.mp hy
      rw [prev_header, A.same e he, ← prev_header]
  · rcases hcases e he with he | he
    · exact (hnew e he).2.1
    · exact (A.fields he).1.trans (L.len_eq e (hold e he))
  · rcases hcases e he with he | he
    · exact (hnew e he).2.2
    · exact (A.fields he).2.1.trans (L.free_eq e (hold e he))

theorem last_replace {a' last : ℕ} (old new : List Block)
    (hold : (old.map Block.addr).getLast? = some a)
    (hnew : (new.map Block.addr).getLast? = some a')
    (hlast : ((l ++ (old ++ r)).map Block.addr).getLast? = some last)
    (hr : ∀ f ∈ r, Clear a f.addr) :
    ((l ++ (new ++ r)).map Block.addr).getLast? = some (if last = a then a' else last) := by
  rw [← append_assoc, map_append, getLast?_append] at hlast ⊢
  cases r using List.reverseRecOn with
  | nil =>
    rw [map_append, getLast?_append, hold] at hlast
    obtain rfl : a = last := by simpa using hlast
    simp [hnew]
  | append_singleton r e =>
    obtain rfl : e.addr = last := by simpa using hlast
    have hne : e.addr ≠ a := by
      have hae := hr e (by simp)
      rw [Clear] at hae
      omega
    simp [hne]

def Block.merge (b c : Block) : Block := ⟨b.addr, b.len + c.len + 32, b.free⟩

theorem tiled_merge (hT : Tiled a (l ++ b :: c :: r) top) :
    Tiled a (l ++ b.merge c :: r) top := by
  obtain ⟨mid, hl, hb, hc, hr⟩ := tiled_append.mp hT
  refine tiled_append.mpr ⟨mid, hl, hb, ?_⟩
  have hstop : (b.merge c).stop = c.stop := by
    simp only [Block.merge, Block.stop] at hc ⊢
    omega
  rwa [hstop]

end KernelOld.Kheap
