import KernelOld.Mem.Kheap.Client

/-!
# How a request is served

`kmalloc` searches the list, and when no block takes the request it expands the heap and starts
again. `kmallocCounted` keeps account of the expansions. The sums of the request with other lengths
and with addresses wrap at `2 ^ 64`; `Checked.kmalloc` fails where one of them does.
-/

namespace KernelOld.Kheap
open ByteMemory MachineWord List

variable {h h' : Heap} {bs bs' l : List Block} {b : Block} {top n size rounds k p : ℕ}

def kmallocCounted : ℕ → Heap → ℕ → Option (ℕ × Heap × ℕ)
  | 0, _, _ => none
  | rounds + 1, h, size =>
    let n := roundUp16 size
    if h.kheapLock then none
    else if h.heapStart = 0 then
      (kheapExpand { h with kheapLock := true } n).bind fun h' =>
        (kmallocCounted rounds h' n).map fun r => (r.1 + 1, r.2)
    else
      match findBlock h.mem n (2 ^ 64) h.heapStart with
      | none => none
      | some (some curr) => some (0, takeBlock h n curr, u64 (curr + headerSize))
      | some none =>
        (kheapExpand h n).bind fun h' => (kmallocCounted rounds h' n).map fun r => (r.1 + 1, r.2)

theorem kmalloc_round (h : Heap) (size : ℕ) :
    (∀ rounds, kmalloc (rounds + 1) h size = none ∧ kmallocCounted (rounds + 1) h size = none) ∨
    (∃ res, ∀ rounds, kmalloc (rounds + 1) h size = some res ∧
      kmallocCounted (rounds + 1) h size = some (0, res)) ∨
    ∃ h' n, ∀ rounds, kmalloc (rounds + 1) h size = kmalloc rounds h' n ∧
      kmallocCounted (rounds + 1) h size =
        (kmallocCounted rounds h' n).map fun r => (r.1 + 1, r.2) := by
  by_cases hlock : h.kheapLock = true
  · exact Or.inl fun rounds => by simp [kmalloc, kmallocCounted, hlock]
  by_cases hnull : h.heapStart = 0
  · -- `kheap_expand` waits for the lock
    refine Or.inl fun rounds => ?_
    simp [kmalloc, kmallocCounted, hlock, hnull, kheapExpand]
  simp only [kmalloc, kmallocCounted, hlock, hnull, Bool.false_eq_true, if_false]
  cases findBlock h.mem (roundUp16 size) (2 ^ 64) h.heapStart with
  | none => exact Or.inl fun _ => ⟨rfl, rfl⟩
  | some found =>
    cases found with
    | some curr => exact Or.inr (Or.inl ⟨_, fun _ => ⟨rfl, rfl⟩⟩)
    | none =>
      cases kheapExpand h (roundUp16 size) with
      | none => exact Or.inl fun _ => ⟨rfl, rfl⟩
      | some h' => exact Or.inr (Or.inr ⟨h', roundUp16 size, fun _ => ⟨rfl, rfl⟩⟩)

theorem kmallocCounted_erase (rounds : ℕ) (h : Heap) (size : ℕ) :
    (kmallocCounted rounds h size).map Prod.snd = kmalloc rounds h size := by
  induction rounds generalizing h size with
  | zero => rfl
  | succ rounds ih =>
    obtain hstuck | ⟨res, hret⟩ | ⟨h', n, hnext⟩ := kmalloc_round h size
    · rw [(hstuck rounds).1, (hstuck rounds).2]
      rfl
    · rw [(hret rounds).1, (hret rounds).2]
      rfl
    · rw [(hnext rounds).1, (hnext rounds).2, ← ih h' n, Option.map_map]
      rfl

theorem kmallocCounted_of_returns {res : Heap × ℕ} (hret : kmalloc (k + 1) h size = some res)
    (hearly : kmalloc k h size = none) (rounds : ℕ) :
    kmallocCounted (rounds + (k + 1)) h size = some (k, res) := by
  induction k generalizing h size with
  | zero =>
    obtain hstuck | ⟨res', hdone⟩ | ⟨h', n, hnext⟩ := kmalloc_round h size
    · rw [(hstuck 0).1] at hret
      cases hret
    · rw [(hdone 0).1] at hret
      cases hret
      exact (hdone rounds).2
    · rw [(hnext 0).1, kmalloc] at hret
      cases hret
  | succ k ih =>
    obtain hstuck | ⟨res', hdone⟩ | ⟨h', n, hnext⟩ := kmalloc_round h size
    · rw [(hstuck _).1] at hret
      cases hret
    · rw [(hdone _).1] at hearly
      cases hearly
    · rw [(hnext _).1] at hret hearly
      rw [← Nat.add_assoc, (hnext _).2, ih hret hearly]
      rfl

theorem kmalloc_expansions (I : Inv h bs top) (hn : roundUp16 size = n)
    (hroom : top + growth bs n ≤ 2 ^ 64) : kmalloc (expansions bs n) h size = none := by
  cases hfit : bs.any (Block.fits n) with
  | true =>
    rw [expansions, if_pos hfit]
    rfl
  | false =>
    obtain ⟨l, b, rfl⟩ := (eq_nil_or_concat' bs).resolve_left I.layout.ne_nil
    have hidem : roundUp16 n = n := roundUp16_of_dvd (hn ▸ roundUp16_dvd size)
    rw [growth_of_not_fits hfit] at hroom
    rw [expansions_of_not_fits hfit]
    by_cases hempty : b.free = true ∧ b.len = 0
    · rw [if_pos hempty] at hroom ⊢
      obtain ⟨h₁, -, I₁, -, hstep⟩ := kmalloc_of_not_fits I hn (by omega) hfit
      rw [expanded, if_pos hempty.1] at I₁
      obtain ⟨h₂, -, -, -, hstep₂⟩ := kmalloc_of_not_fits I₁ hidem (by omega)
        (not_fits_expanded hfit hempty.2)
      rw [hstep 1, hstep₂ 0]
      rfl
    · rw [if_neg hempty] at hroom ⊢
      obtain ⟨h₁, -, -, -, hstep⟩ := kmalloc_of_not_fits I hn (by omega) hfit
      rw [hstep 0]
      rfl

/-- The pointer is that of a block in use that has `size` bytes in the address space. -/
def Backed (h : Heap) (p size : ℕ) : Prop :=
  ∃ b ∈ blocks h, b.ptr = p ∧ b.free = false ∧ size ≤ b.len ∧ b.stop ≤ 2 ^ 64

theorem Allocated.backed (I' : Inv h' bs' top) (a : Allocated h bs h' bs' n b)
    (hsize : size ≤ n) : Backed h' b.ptr size := by
  have hb : b ∈ used bs' := a.used_perm.symm.subset mem_cons_self
  obtain ⟨hmem, hfree⟩ := mem_used.mp hb
  refine ⟨b, ?_, rfl, hfree, hsize.trans a.room, ?_⟩
  · rw [I'.layout.blocks_eq]
    exact hmem
  · exact (I'.layout.tiled.mem_bounds hmem).2.trans I'.layout.top_le

/-! ## Sums that wrap -/

namespace Checked

def roundUp16 (n : ℕ) : Option ℕ :=
  if n % 16 = 0 then some n else if n - n % 16 + 16 < 2 ^ 64 then some (n - n % 16 + 16) else none

/-- The new block ends inside the address space. The length of a block that it is merged with
is then no longer than that. -/
def kheapExpand (h : Heap) (n : ℕ) : Option Heap :=
  if heapTop h + headerSize + n ≤ 2 ^ 64 then Kheap.kheapExpand h n else none

/-- `heap_split_block` is called for a block longer than `n + 32`, and subtracts just that; what may
wrap is the address of the new block. -/
def takeBlock (h : Heap) (n curr : ℕ) : Option Heap :=
  if n + headerSize < len h.mem curr ∧ 2 ^ 64 ≤ curr + n + headerSize then none
  else some (Kheap.takeBlock h n curr)

def kmalloc : ℕ → Heap → ℕ → Option (Heap × ℕ)
  | 0, _, _ => none
  | rounds + 1, h, size => do
    let n ← roundUp16 size
    if 2 ^ 64 ≤ n + headerSize ∨ h.kheapLock ∨ h.heapStart = 0 then none
    else
      match findBlock h.mem n (2 ^ 64) h.heapStart with
      | none => none
      | some (some curr) => (takeBlock h n curr).map fun h' => (h', u64 (curr + headerSize))
      | some none => (kheapExpand h n).bind fun h' => kmalloc rounds h' n

end Checked

theorem roundUp16_of_checked (hn : Checked.roundUp16 size = some n) :
    roundUp16 size = n ∧ (n < 2 ^ 64 → size + 15 < 2 ^ 64) := by
  rw [Checked.roundUp16] at hn
  by_cases hmod : size % 16 = 0
  · rw [if_pos hmod, Option.some.injEq] at hn
    subst hn
    exact ⟨roundUp16_of_dvd (Nat.dvd_of_mod_eq_zero hmod), fun _ => by omega⟩
  · rw [if_neg hmod] at hn
    by_cases hlt : size - size % 16 + 16 < 2 ^ 64
    · rw [if_pos hlt, Option.some.injEq] at hn
      exact ⟨by rw [roundUp16, if_pos hmod, u64_of_lt hlt, hn], fun _ => by omega⟩
    · rw [if_neg hlt] at hn
      cases hn

theorem checked_roundUp16_eq (hsize : size + 15 < 2 ^ 64) :
    Checked.roundUp16 size = some (roundUp16 size) := by
  rw [Checked.roundUp16, roundUp16]
  by_cases hmod : size % 16 = 0
  · rw [if_pos hmod, if_neg (not_not.mpr hmod)]
  · rw [if_neg hmod, if_pos hmod, if_pos (by omega), u64_of_lt (by omega)]

theorem Inv.word_of_growth (I : Inv h bs top) (hroom : top + growth bs n ≤ 2 ^ 64) :
    n + 32 < 2 ^ 64 := by
  cases hfit : bs.any (Block.fits n) with
  | true => exact I.word_of_fits hfit
  | false =>
    have hpos : 0 < top := lt_of_lt_of_le I.layout.start_pos I.layout.tiled.le
    obtain ⟨l, b, rfl⟩ := (eq_nil_or_concat' bs).resolve_left I.layout.ne_nil
    rw [growth_expanded hfit] at hroom
    omega

theorem checked_kmalloc_of_fits (I : Inv h bs top) (hn : Checked.roundUp16 size = some n)
    (hfit : bs.any (Block.fits n) = true) (rounds : ℕ) :
    Checked.kmalloc (rounds + 1) h size = kmalloc (rounds + 1) h size := by
  have hword := I.word_of_fits hfit
  have hstart : h.heapStart ≠ 0 := Nat.ne_of_gt I.layout.start_pos
  cases hfind : bs.find? (Block.fits n) with
  | none =>
    obtain ⟨b, hb, hbfit⟩ := any_eq_true.mp hfit
    exact absurd hbfit (find?_eq_none.mp hfind b hb)
  | some b =>
    have hmem := mem_of_find?_eq_some hfind
    -- a block that is split ends behind the header of the second half
    have htake : Checked.takeBlock h n b.addr = some (takeBlock h n b.addr) := by
      have hbound := (I.layout.tiled.mem_bounds hmem).2
      have htop := I.layout.top_le
      rw [Block.stop] at hbound
      rw [Checked.takeBlock, I.layout.len_eq b hmem, headerSize, if_neg (by omega)]
    have hnot : ¬2 ^ 64 ≤ n + headerSize := Nat.not_le.mpr hword
    simp only [Checked.kmalloc, kmalloc, hn, (roundUp16_of_checked hn).1, I.unlocked, hstart,
      I.search hword, hfind, Option.map_some, htake, hnot, Option.bind_eq_bind, Option.bind_some,
      Bool.false_eq_true, or_self, if_false]

theorem checked_kmalloc_of_not_fits (I : Inv h bs top) (hn : Checked.roundUp16 size = some n)
    (hfit : bs.any (Block.fits n) = false) (rounds : ℕ) :
    Checked.kmalloc (rounds + 1) h size =
      if top + 32 + n ≤ 2 ^ 64 then (kheapExpand h n).bind fun h' => Checked.kmalloc rounds h' n
      else none := by
  have hstart : h.heapStart ≠ 0 := Nat.ne_of_gt I.layout.start_pos
  have hpos : 0 < top := lt_of_lt_of_le I.layout.start_pos I.layout.tiled.le
  rw [Checked.kmalloc, hn, Option.bind_eq_bind, Option.bind_some]
  -- where the length with its header wraps, it does not fit behind the heap either
  by_cases hword : 2 ^ 64 ≤ n + headerSize
  · rw [if_pos (Or.inl hword), if_neg (by rw [headerSize] at hword; omega)]
  · have hfind : bs.find? (Block.fits n) = none :=
      find?_eq_none.mpr (any_eq_false.mp hfit)
    simp only [hword, I.unlocked, hstart, I.search (Nat.not_le.mp hword), hfind, Option.map_none,
      Checked.kheapExpand, I.layout.heapTop_eq, Bool.false_eq_true, or_self, if_false]
    rw [headerSize]
    by_cases hroom : top + 32 + n ≤ 2 ^ 64
    · rw [if_pos hroom, if_pos hroom]
    · rw [if_neg hroom, if_neg hroom, Option.bind_none]

/-- The checks of a whole call come to one: the end of the heap after the call, as a sum that does
not wrap, is inside the address space. -/
theorem checked_kmalloc_eq (I : Inv h bs top) (hn : Checked.roundUp16 size = some n)
    (rounds : ℕ) :
    Checked.kmalloc rounds h size =
      if top + growth bs n ≤ 2 ^ 64 then kmalloc rounds h size else none := by
  induction rounds generalizing h bs top size with
  | zero =>
    rw [Checked.kmalloc, kmalloc, ite_self]
  | succ rounds ih =>
    cases hfit : bs.any (Block.fits n) with
    | true =>
      rw [checked_kmalloc_of_fits I hn hfit, growth_of_fits hfit]
      exact (if_pos I.layout.top_le).symm
    | false =>
      obtain ⟨l, b, rfl⟩ := (eq_nil_or_concat' bs).resolve_left I.layout.ne_nil
      rw [checked_kmalloc_of_not_fits I hn hfit, growth_expanded hfit]
      -- the recursive call is for the rounded length, on the heap with one more block
      by_cases hroom : top + 32 + n ≤ 2 ^ 64
      · have hdvd : 16 ∣ n := (roundUp16_of_checked hn).1 ▸ roundUp16_dvd size
        have hidem : Checked.roundUp16 n = some n := by
          rw [Checked.roundUp16, if_pos (Nat.mod_eq_zero_of_dvd hdvd)]
        obtain ⟨h', hexpand, I', -, hstep⟩ :=
          kmalloc_of_not_fits I (roundUp16_of_checked hn).1 hroom hfit
        rw [if_pos hroom, hexpand, Option.bind_some, ih I' hidem, hstep, ← Nat.add_assoc,
          ← Nat.add_assoc]
      · rw [if_neg hroom, if_neg (by omega)]

section Reachable
variable {m : Mem} {a : ℕ} {c : Client}

/-- In every state of every client run a request that stays inside the address space is served
after at most two expansions, and it depends on the list of blocks alone how many there are. -/
theorem kmalloc_expands_at_most_twice (ha : 16 ∣ a) (hpos : 0 < a) (htop : a + 32 ≤ 2 ^ 64)
    (hrun : ClientRun NoWrap (Client.init m a) c) (hok : NoWrap c.heap size) :
    ∃ k h' p, k ≤ 2 ∧ k = expansions (blocks c.heap) (roundUp16 size) ∧
      (∀ rounds, k < rounds → kmallocCounted rounds c.heap size = some (k, h', p)) ∧
        Backed h' p size := by
  obtain ⟨os, bs, top, S⟩ := hrun.serves ha hpos htop
  have hreach := hok.2
  rw [S.reach_eq] at hreach
  have hearly := kmalloc_expansions S.inv rfl hreach
  obtain ⟨h', bs', b, hret, I', al⟩ := kmalloc_expansions_succ S.inv rfl hreach
  refine ⟨expansions bs (roundUp16 size), h', b.ptr, expansions_le _ _, ?_, fun rounds hk => ?_,
    al.backed I' (le_roundUp16 hok.1)⟩
  · rw [S.inv.layout.blocks_eq]
  · have hcount := kmallocCounted_of_returns hret hearly
      (rounds - (expansions bs (roundUp16 size) + 1))
    rwa [Nat.sub_add_cancel hk] at hcount

/-- Right after `kheap_init` the only block is free and empty. -/
theorem kmalloc_expands_twice_after_init :
    ∃ h' p, kmallocCounted 3 (kheapInit (fun _ => 0) 4096) 24 = some (2, h', p) ∧
      Backed h' p 24 := by
  have hblocks : blocks (kheapInit (fun _ => 0) 4096) = [⟨4096, 0, true⟩] :=
    (kheapInit_inv (by decide) (by decide) (by decide)).layout.blocks_eq
  have hok : NoWrap (kheapInit (fun _ => 0) 4096) 24 := ⟨by decide, by decide +kernel⟩
  obtain ⟨k, h', p, -, hk, hcount, hbacked⟩ := kmalloc_expands_at_most_twice
    (c := Client.init (fun _ => 0) 4096) (by decide) (by decide) (by decide) .refl hok
  obtain rfl : k = 2 := by
    rw [hk]
    show expansions (blocks (kheapInit (fun _ => 0) 4096)) 32 = 2
    rw [hblocks]
    rfl
  exact ⟨h', p, hcount 3 (by decide), hbacked⟩

/-- In every state of every client run a call does all its sums without wrapping, and returns a
block with room for the request, if and only if rounding the request does not wrap and the heap
stays inside the address space. Where the rounding wraps no block that is returned has the room. -/
theorem kmalloc_backed_iff (ha : 16 ∣ a) (hpos : 0 < a) (htop : a + 32 ≤ 2 ^ 64)
    (hrun : ClientRun NoWrap (Client.init m a) c) (size : ℕ) :
    ((∃ h' p, (∀ rounds, 3 ≤ rounds → Checked.kmalloc rounds c.heap size = some (h', p) ∧
      kmalloc rounds c.heap size = some (h', p)) ∧ Backed h' p size) ↔
        size + 15 < 2 ^ 64 ∧ reach c.heap size ≤ 2 ^ 64) ∧
    (2 ^ 64 ≤ size + 15 → ∀ rounds h' p, kmalloc rounds c.heap size = some (h', p) →
      ¬Backed h' p size) := by
  obtain ⟨os, bs, top, S⟩ := hrun.serves ha hpos htop
  refine ⟨⟨?_, ?_⟩, ?_⟩
  · rintro ⟨h', p, hcall, -⟩
    obtain ⟨hcheck, -⟩ := hcall 3 le_rfl
    cases hn : Checked.roundUp16 size with
    | none => simp [Checked.kmalloc, hn] at hcheck
    | some n =>
      obtain ⟨rfl, hsize⟩ := roundUp16_of_checked hn
      rw [checked_kmalloc_eq S.inv hn] at hcheck
      by_cases hroom : top + growth bs (roundUp16 size) ≤ 2 ^ 64
      · have hword := S.inv.word_of_growth hroom
        exact ⟨hsize (by omega), by rwa [S.reach_eq]⟩
      · rw [if_neg hroom] at hcheck
        cases hcheck
  · rintro ⟨hsize, hreach⟩
    rw [S.reach_eq] at hreach
    obtain ⟨h', bs', b, hcall, I', al⟩ := kmalloc_spec S.inv rfl hreach
    refine ⟨h', b.ptr, fun rounds hrounds => ?_, al.backed I' (le_roundUp16 hsize)⟩
    obtain ⟨k, rfl⟩ := Nat.exists_eq_add_of_le' hrounds
    rw [checked_kmalloc_eq S.inv (checked_roundUp16_eq hsize), if_pos hreach]
    exact ⟨hcall k, hcall k⟩
  · -- no block of an address space is that long
    rintro hsize rounds h' p - ⟨b, -, -, -, hlen, hstop⟩
    rw [Block.stop] at hstop
    omega

theorem kmalloc_backed_iff_after_init :
    ∃ h' p, kmalloc 3 (kheapInit (fun _ => 0) 4096) 24 = some (h', p) ∧ Backed h' p 24 := by
  obtain ⟨h', p, hcall, hbacked⟩ := (kmalloc_backed_iff (c := Client.init (fun _ => 0) 4096)
    (by decide) (by decide) (by decide) .refl 24).1.mpr ⟨by decide, by decide +kernel⟩
  exact ⟨h', p, (hcall 3 le_rfl).2, hbacked⟩

/-- A request for `2 ^ 64 - 1` bytes becomes one for none, and gets an empty block. -/
theorem kmalloc_under_allocates :
    ∃ h', kmalloc 1 (kheapInit (fun _ => 0) 4096) (2 ^ 64 - 1) = some (h', 4128) ∧
      blocks h' = [⟨4096, 0, false⟩] ∧ ¬Backed h' 4128 (2 ^ 64 - 1) := by
  have hres : ((kmalloc 1 (kheapInit (fun _ => 0) 4096) (2 ^ 64 - 1)).map fun r =>
      (r.2, blocks r.1)) = some (4128, [⟨4096, 0, false⟩]) := by
    decide +kernel
  obtain ⟨⟨h', p⟩, hret, heq⟩ := Option.map_eq_some_iff.mp hres
  obtain ⟨rfl, hblocks⟩ := Prod.mk.inj heq
  refine ⟨h', hret, hblocks, ?_⟩
  rintro ⟨b, hb, -, -, hlen, -⟩
  rw [show blocks h' = [⟨4096, 0, false⟩] from hblocks, mem_singleton] at hb
  rw [hb] at hlen
  exact absurd hlen (by decide)

end Reachable

end KernelOld.Kheap
