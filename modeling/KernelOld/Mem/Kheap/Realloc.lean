import KernelOld.Mem.Kheap.Requests

/-!
# `krealloc`

`krealloc` compares the wrong way round. A block that is too short for the new size is returned as
it is; for any other one a new block is allocated, and the whole of the old block is copied into
it, however short the new block is.
-/

namespace KernelOld.Kheap
open ByteMemory MachineWord Stdlib List

def krealloc (rounds : ℕ) (h : Heap) (ptr size : ℕ) : Option (Heap × ℕ) :=
  let blockSz := len h.mem (sub64 ptr headerSize)
  if blockSz < size then some (h, ptr)
  else do
    let (h, new) ← kmalloc rounds h size
    let h ← kfree { h with mem := memcpy h.mem new ptr blockSz } ptr
    some (h, new)

/-- What `krealloc` should make of the live pointer `p` to a block of `length` bytes. -/
structure Reallocated (c : Client) (p length size : ℕ) (h' : Heap) (q : ℕ) : Prop where
  backed : Backed h' q size
  copied : ∀ i < min length size, h'.mem (q + i) = c.heap.mem (p + i)
  others : ∀ a ∈ c.live, a.1 ≠ p → ∀ x, InRange a x → h'.mem x = c.heap.mem x
  listed : Represents h' ((blocks h').map Block.addr)
  headers : ∀ b ∈ blocks c.heap, b.free = false → b.ptr ≠ p → b ∈ blocks h'

/-- Behind the header of the block at `addr`, `length` bytes end inside the address space and meet
no other block of the list. -/
def spares (h : Heap) (addr length : ℕ) : Bool :=
  decide (addr + headerSize + length ≤ 2 ^ 64) &&
    (blocks h).all fun b =>
      b.addr == addr || decide (addr + headerSize + length ≤ b.addr) || decide (b.stop ≤ addr)

/-- `krealloc`, which fails where a sum wraps and where the copy leaves the new block for another
one. -/
def Checked.krealloc (rounds : ℕ) (h : Heap) (ptr size : ℕ) : Option (Heap × ℕ) :=
  let blockSz := len h.mem (sub64 ptr headerSize)
  if blockSz < size then some (h, ptr)
  else do
    let (h, new) ← Checked.kmalloc rounds h size
    if spares h (sub64 new headerSize) blockSz then
      let h ← kfree { h with mem := memcpy h.mem new ptr blockSz } ptr
      some (h, new)
    else none

/-- `length` bytes have room in `b`, or `b` is the last block and there is room behind it. -/
def Block.Room (b : Block) (top length : ℕ) : Prop :=
  length ≤ b.len ∨ b.stop = top ∧ b.addr + 32 + length ≤ 2 ^ 64

/-- The block of the list that gets the request has room for the copy. -/
def CopyRoom (h : Heap) (size length : ℕ) : Prop :=
  ∃ b, served (blocks h) (roundUp16 size) = some b ∧ b.Room (reach h size) length

variable {h h' : Heap} {bs bs' : List Block} {b b' d : Block} {top n size p q length rounds : ℕ}
  {m : Mem}

def InBlock (b : Block) (top q length : ℕ) : Prop :=
  ∀ x, q ≤ x → x < q + length → b.addr + 32 ≤ x ∧ (x < b.stop ∨ top ≤ x)

theorem Block.Room.inBlock (L : Layout h bs top) (hb : b ∈ bs) (hroom : b.Room top length) :
    InBlock b top b.ptr length := by
  intro x hlo hhi
  have hstop := (L.tiled.mem_bounds hb).2
  have htop := L.top_le
  have hptr : b.ptr = b.addr + 32 := by
    rw [Block.Room, Block.stop] at hroom
    rw [Block.stop] at hstop
    exact u64_of_lt (by omega)
  rw [hptr] at hlo hhi
  rw [Block.Room, Block.stop] at hroom
  rw [Block.stop]
  omega

/-- The copy spares the other blocks if and only if it has room. -/
theorem spares_iff (L : Layout h bs top) (hb : b ∈ bs) :
    spares h b.addr length = true ↔ b.Room top length := by
  rw [spares, Bool.and_eq_true, decide_eq_true_eq, all_eq_true, L.blocks_eq]
  simp only [Bool.or_eq_true, beq_iff_eq, decide_eq_true_eq, or_assoc]
  rw [Block.Room, headerSize]
  have hstop := (L.tiled.mem_bounds hb).2
  have htop := L.top_le
  constructor
  · rintro ⟨hend, hothers⟩
    obtain ⟨l, r, rfl⟩ := append_of_mem hb
    obtain ⟨mid, -, -, hr⟩ := tiled_append.mp L.tiled
    cases r with
    | nil => exact Or.inr ⟨hr, hend⟩
    | cons d r =>
      -- the next block starts where this one stops
      have hd : d.addr = b.stop := hr.1
      have hapart := hothers d (by simp)
      simp only [Block.stop] at hapart hd
      exact Or.inl (by omega)
  · intro hroom
    rw [Block.stop] at hroom hstop
    refine ⟨by omega, fun d hd => ?_⟩
    have hdtop := (L.tiled.mem_bounds hd).2
    have hapart := L.tiled.apart hb hd
    simp only [Block.stop] at hapart hdtop ⊢
    rcases hapart with rfl | hapart | hapart
    · exact Or.inl rfl
    all_goals omega

theorem InBlock.apart {a x : ℕ} (hin : InBlock b top q length) (hT : Tiled a bs top) (hb : b ∈ bs)
    (hd : d ∈ bs) (hlo : q ≤ x) (hhi : x < q + length) :
    ¬InHeader d.addr x ∧ (d ≠ b → ¬(d.addr ≤ x ∧ x < d.stop)) := by
  obtain ⟨hx, hstop⟩ := hin x hlo hhi
  have hbtop := (hT.mem_bounds hb).2
  have hdtop := (hT.mem_bounds hd).2
  have hapart := hT.apart hb hd
  rw [InHeader]
  simp only [Block.stop] at hstop hbtop hdtop hapart ⊢
  constructor
  · rcases hapart with rfl | hapart | hapart
    all_goals omega
  · intro hne
    rcases hapart with rfl | hapart | hapart
    · exact absurd rfl hne
    all_goals omega

theorem Inv.copied (I : Inv h bs top) (hb : b ∈ bs) (hin : InBlock b top q length) (src : ℕ) :
    Inv { h with mem := memcpy h.mem q src length } bs top := by
  refine ⟨I.layout.congr fun d hd x hx => ?_, I.unlocked, I.start_dvd, I.len_dvd, I.coalesced⟩
  refine memcpy_apply_of_notMem ?_
  by_contra hout
  rw [not_or, Nat.not_lt, Nat.not_le] at hout
  exact (hin.apart I.layout.tiled hb hd hout.1 hout.2).1 hx

theorem keeps_copied (I : Inv h bs top) (hb : b ∈ bs) (hin : InBlock b top q length) (src : ℕ)
    (hd : d ∈ bs) (hne : d ≠ b) {x : ℕ} (hlo : d.addr + 32 ≤ x) (hhi : x < d.stop) :
    memcpy h.mem q src length x = h.mem x := by
  refine memcpy_apply_of_notMem ?_
  by_contra hout
  rw [not_or, Nat.not_lt, Nat.not_le] at hout
  exact (hin.apart I.layout.tiled hb hd hout.1 hout.2).2 hne ⟨by omega, hhi⟩

theorem copied_eq (I : Inv h bs top) (hb : b ∈ bs) (hin : InBlock b top q d.len) (hd : d ∈ bs)
    (hne : d ≠ b) {i : ℕ} (hi : i < d.len) :
    memcpy h.mem q d.ptr d.len (q + i) = h.mem (d.ptr + i) := by
  have hptr : d.ptr = d.addr + 32 := I.layout.ptr_eq hd (by omega)
  have hout : ∀ x, q ≤ x → x < q + d.len → ¬(d.addr ≤ x ∧ x < d.stop) := fun x hlo hhi =>
    (hin.apart I.layout.tiled hb hd hlo hhi).2 hne
  have hapart : Apart q d.len d.ptr d.len := by
    -- if they overlapped, the higher of the two starts would be in both
    have hfirst := hout q
    have hsecond := hout (d.addr + 32)
    rw [Block.stop] at hfirst hsecond
    rw [Apart, hptr]
    omega
  rw [memcpy_apply hapart, if_pos (by omega), Nat.add_sub_cancel_left]

theorem Allocated.notMem_used (I' : Inv h' bs' top) (a : Allocated h bs h' bs' n b) :
    b ∉ used bs := by
  have hnodup : (used bs').Nodup := I'.layout.ptr_nodup.of_map.filter _
  exact (nodup_cons.mp (a.used_perm.nodup_iff.mp hnodup)).1

section Client
variable {c : Client} {os : List (Block × ℕ)}

theorem Client.Serves.word_of_le (S : c.Serves os bs top) (hb : b ∈ used bs)
    (hsize : size ≤ b.len) : size + 15 < 2 ^ 64 := by
  have hstop := (S.inv.layout.tiled.mem_bounds (mem_used.mp hb).1).2
  have htop := S.inv.layout.top_le
  rw [Block.stop] at hstop
  omega

theorem reallocated_of_room (S : c.Serves os bs top) (hsizes : ∀ o ∈ os, o.2 + 15 < 2 ^ 64)
    (hb : b ∈ used bs) (hsize : size ≤ b.len)
    (S' : Client.Serves ⟨h, (b'.ptr, size) :: c.live⟩ ((b', size) :: os) bs' (reach c.heap size))
    (al : Allocated c.heap bs h bs' (roundUp16 size) b')
    (hroom' : b'.Room (reach c.heap size) b.len) :
    ∃ h', kfree { h with mem := memcpy h.mem b'.ptr b.ptr b.len } b.ptr = some h' ∧
      Reallocated c b.ptr b.len size h' b'.ptr := by
  -- the block that is returned was not in use before
  have hsub : ∀ d ∈ used bs, d ∈ used bs' ∧ d ≠ b' := by
    intro d hd
    refine ⟨al.used_perm.symm.subset (mem_cons_of_mem b' hd), ?_⟩
    rintro rfl
    exact al.notMem_used S'.inv hd
  have hb' : b' ∈ used bs' := al.used_perm.symm.subset mem_cons_self
  obtain ⟨hbused, hne⟩ := hsub b hb
  have hmem' := (mem_used.mp hb').1
  have hin := hroom'.inBlock S'.inv.layout hmem'
  have I₁ := S'.inv.copied hmem' hin b.ptr
  obtain ⟨h', bs'', hfree, I'', rel⟩ := kfree_spec I₁ hbused
  have hroom : size ≤ b'.len := (le_roundUp16 (S.word_of_le hb hsize)).trans al.room
  have hkept : ∀ d ∈ used bs', d ≠ b → d ∈ used bs'' := by
    intro d hd hdb
    exact (mem_cons.mp (rel.used_perm.symm.subset hd)).resolve_left hdb
  -- the three calls leave every payload but that of the new block alone
  have hkeeps : KeepsPayloads (used bs) c.heap.mem h'.mem := by
    intro d hd x hlo hhi
    obtain ⟨hd', hdne⟩ := hsub d hd
    rw [rel.keeps d hd' x hlo hhi]
    show memcpy h.mem b'.ptr b.ptr b.len x = _
    rw [keeps_copied S'.inv hmem' hin b.ptr (mem_used.mp hd').1 hdne hlo hhi]
    exact al.keeps d hd x hlo hhi
  refine ⟨h', hfree, ⟨b', ?_, rfl, (mem_used.mp hb').2, hroom, ?_⟩, fun i hi => ?_,
    fun a ha _ x hx => S.keeps hsizes hkeeps ha hx, I''.represents, fun d hd hfree' hptr => ?_⟩
  · rw [I''.layout.blocks_eq]
    exact (mem_used.mp (hkept b' hb' hne.symm)).1
  · exact (S'.inv.layout.tiled.mem_bounds hmem').2.trans S'.inv.layout.top_le
  · have hi' : i < b.len ∧ i < size := by omega
    have hptr : b.ptr = b.addr + 32 := S.inv.layout.ptr_eq (mem_used.mp hb).1 (by omega)
    have hptr' : b'.ptr = b'.addr + 32 := S'.inv.layout.ptr_eq hmem' (by omega)
    rw [rel.keeps b' hb' _ (by omega) (by rw [Block.stop]; omega)]
    show memcpy h.mem b'.ptr b.ptr b.len (b'.ptr + i) = _
    rw [copied_eq S'.inv hmem' hin (mem_used.mp hbused).1 hne hi'.1]
    exact al.keeps b hb _ (by omega) (by rw [Block.stop]; omega)
  · rw [S.inv.layout.blocks_eq] at hd
    rw [I''.layout.blocks_eq]
    refine (mem_used.mp (hkept d (hsub d (mem_used.mpr ⟨hd, hfree'⟩)).1 ?_)).1
    rintro rfl
    exact hptr rfl

theorem Client.Serves.len_ptr (S : c.Serves os bs top) (hb : b ∈ used bs) :
    len c.heap.mem (sub64 b.ptr headerSize) = b.len := by
  rw [Block.ptr, S.inv.layout.sub64_headerSize (mem_used.mp hb).1]
  exact S.inv.layout.len_eq b (mem_used.mp hb).1

theorem Client.Serves.not_backed (S : c.Serves os bs top) (hb : b ∈ used bs)
    (hlen : b.len < size) : ¬Backed c.heap b.ptr size := by
  rintro ⟨d, hd, hptr, -, hle, -⟩
  rw [S.inv.layout.blocks_eq] at hd
  obtain rfl := inj_on_of_nodup_map S.inv.layout.ptr_nodup hd (mem_used.mp hb).1 hptr
  omega

theorem checked_krealloc_eq (S : c.Serves os bs top) (hb : b ∈ used bs) (hsize : size ≤ b.len)
    (hcheck : Checked.kmalloc rounds c.heap size = some (h, b'.ptr))
    (S' : Client.Serves ⟨h, (b'.ptr, size) :: c.live⟩ ((b', size) :: os) bs' (reach c.heap size))
    (hb' : b' ∈ bs') :
    Checked.krealloc rounds c.heap b.ptr size =
      if spares h b'.addr b.len then
        (kfree { h with mem := memcpy h.mem b'.ptr b.ptr b.len } b.ptr).bind fun h' =>
          some (h', b'.ptr)
      else none := by
  have haddr : sub64 b'.ptr headerSize = b'.addr := S'.inv.layout.sub64_headerSize hb'
  rw [Checked.krealloc, S.len_ptr hb, if_neg (Nat.not_lt.mpr hsize), hcheck, Option.bind_eq_bind,
    Option.bind_some]
  dsimp only
  rw [haddr]
  rfl

theorem Client.Serves.checked_kmalloc (S : c.Serves os bs top) (hsize : size + 15 < 2 ^ 64) :
    Checked.kmalloc rounds c.heap size =
      if reach c.heap size ≤ 2 ^ 64 then Kheap.kmalloc rounds c.heap size else none := by
  rw [checked_kmalloc_eq S.inv (checked_roundUp16_eq hsize), ← S.reach_eq]

theorem copyRoom_of_checked {r : Heap × ℕ} (S : c.Serves os bs top) (hb : b ∈ used bs)
    (hsize : size ≤ b.len) (hret : Checked.krealloc rounds c.heap b.ptr size = some r) :
    reach c.heap size ≤ 2 ^ 64 ∧ CopyRoom c.heap size b.len := by
  cases hcheck : Checked.kmalloc rounds c.heap size with
  | none =>
    simp [Checked.krealloc, S.len_ptr hb, Nat.not_lt.mpr hsize, hcheck] at hret
  | some r' =>
    obtain ⟨h, q⟩ := r'
    have hcall := hcheck
    rw [S.checked_kmalloc (S.word_of_le hb hsize)] at hcall
    by_cases hreach : reach c.heap size ≤ 2 ^ 64
    · rw [if_pos hreach] at hcall
      obtain ⟨b', bs', S', rfl, al⟩ := S.kmalloc hreach hcall
      have hb' := (mem_used.mp (al.used_perm.symm.subset mem_cons_self)).1
      rw [checked_krealloc_eq S hb hsize hcheck S' hb'] at hret
      by_cases hspares : spares h b'.addr b.len = true
      · refine ⟨hreach, b', ?_, (spares_iff S'.inv.layout hb').mp hspares⟩
        rw [S.inv.layout.blocks_eq]
        exact al.served_eq
      · rw [if_neg hspares] at hret
        cases hret
    · rw [if_neg hreach] at hcall
      cases hcall

theorem krealloc_of_copyRoom (S : c.Serves os bs top) (hsizes : ∀ o ∈ os, o.2 + 15 < 2 ^ 64)
    (hb : b ∈ used bs) (hsize : size ≤ b.len) (hreach : reach c.heap size ≤ 2 ^ 64)
    (hcopy : CopyRoom c.heap size b.len) :
    ∃ h' q, (∀ rounds, 3 ≤ rounds → Checked.krealloc rounds c.heap b.ptr size = some (h', q) ∧
      krealloc rounds c.heap b.ptr size = some (h', q)) ∧ Reallocated c b.ptr b.len size h' q := by
  obtain ⟨b₁, hserved, hroom⟩ := hcopy
  obtain ⟨h, _, _, hcall, -⟩ := kmalloc_spec S.inv rfl (S.reach_eq size ▸ hreach)
  obtain ⟨b', bs', S', hptr, al⟩ := S.kmalloc hreach (hcall 0)
  -- the list alone says which block the request gets
  obtain rfl : b' = b₁ := by
    rw [S.inv.layout.blocks_eq, al.served_eq] at hserved
    exact Option.some.inj hserved
  rw [hptr] at S'
  have hb' := (mem_used.mp (al.used_perm.symm.subset mem_cons_self)).1
  obtain ⟨h', hfree, hdone⟩ := reallocated_of_room S hsizes hb hsize S' al hroom
  refine ⟨h', b'.ptr, fun rounds hrounds => ?_, hdone⟩
  obtain ⟨k, rfl⟩ := Nat.exists_eq_add_of_le' hrounds
  have hret : kmalloc (k + 3) c.heap size = some (h, b'.ptr) := by rw [hcall k, hptr]
  have hcheck : Checked.kmalloc (k + 3) c.heap size = some (h, b'.ptr) := by
    rw [S.checked_kmalloc (S.word_of_le hb hsize), if_pos hreach, hret]
  constructor
  · rw [checked_krealloc_eq S hb hsize hcheck S' hb',
      if_pos ((spares_iff S'.inv.layout hb').mpr hroom), hfree, Option.bind_some]
  · rw [krealloc, S.len_ptr hb]
    simp only [Nat.not_lt.mpr hsize, if_false, hret, Option.bind_eq_bind, Option.bind_some, hfree]

end Client

/-- In every state of every client run `krealloc` does what it should, with every sum exact and
without a copy over another block, if and only if the request is not longer than the block, the heap
stays inside the address space and the block that the request gets has room for the copy of the
whole block. For a longer request the pointer to the block that is too short comes back. -/
theorem krealloc_spec {a : ℕ} {c : Client} (ha : 16 ∣ a) (hpos : 0 < a) (htop : a + 32 ≤ 2 ^ 64)
    (hrun : ClientRun NoWrap (Client.init m a) c) (hlive : (p, n) ∈ c.live)
    (hlength : len c.heap.mem (sub64 p headerSize) = length) (size : ℕ) :
    ((∃ h' q, (∀ rounds, 3 ≤ rounds → Checked.krealloc rounds c.heap p size = some (h', q) ∧
        krealloc rounds c.heap p size = some (h', q)) ∧ Reallocated c p length size h' q) ↔
      size ≤ length ∧ reach c.heap size ≤ 2 ^ 64 ∧ CopyRoom c.heap size length) ∧
    (length < size →
      (∀ rounds, krealloc rounds c.heap p size = some (c.heap, p)) ∧ ¬Backed c.heap p size) := by
  obtain ⟨os, bs, top, S⟩ := hrun.serves ha hpos htop
  have hadmitted : ∀ x ∈ c.live, x.2 + 15 < 2 ^ 64 :=
    hrun.live_admitted (fun _ _ h => h.1) (by simp [Client.init])
  obtain ⟨b, ho, rfl⟩ := S.owner hlive
  have hb := (S.bytes ho).1
  obtain rfl : b.len = length := (S.len_ptr hb).symm.trans hlength
  have hshort : b.len < size →
      (∀ rounds, krealloc rounds c.heap b.ptr size = some (c.heap, b.ptr)) ∧
        ¬Backed c.heap b.ptr size := by
    intro hlt
    refine ⟨fun rounds => ?_, S.not_backed hb hlt⟩
    rw [krealloc, hlength]
    simp only [hlt, if_true]
  refine ⟨⟨?_, ?_⟩, hshort⟩
  · rintro ⟨h', q, hcall, hdone⟩
    obtain ⟨hchecked, hplain⟩ := hcall 3 le_rfl
    have hsize : size ≤ b.len := by
      by_contra hlt
      obtain ⟨hback, hbacked⟩ := hshort (Nat.not_le.mp hlt)
      rw [hback 3, Option.some.injEq, Prod.mk.injEq] at hplain
      obtain ⟨rfl, rfl⟩ := hplain
      exact hbacked hdone.backed
    exact ⟨hsize, copyRoom_of_checked S hb hsize hchecked⟩
  · rintro ⟨hsize, hreach, hcopy⟩
    refine krealloc_of_copyRoom S (fun o ho => ?_) hb hsize hreach hcopy
    refine hadmitted (o.1.ptr, o.2) ?_
    rw [S.live_eq]
    exact mem_map_of_mem ho

/-- From 24 to 30 bytes: both are rounded up to 32. -/
theorem krealloc_spec_same_room :
    ∃ c h' q, ClientRun NoWrap (Client.init (fun _ => 0) 4096) c ∧ c.live = [(4128, 24)] ∧
      krealloc 3 c.heap 4128 30 = some (h', q) ∧ Reallocated c 4128 32 30 h' q := by
  have hres : ((kmalloc 3 (kheapInit (fun _ => 0) 4096) 24).map fun r =>
      (r.2, len r.1.mem (sub64 4128 headerSize), served (blocks r.1) (roundUp16 30),
        decide (reach r.1 30 ≤ 2 ^ 64))) = some (4128, 32, some ⟨4160, 32, false⟩, true) := by
    decide +kernel
  obtain ⟨⟨h, p⟩, hcall, heq⟩ := Option.map_eq_some_iff.mp hres
  simp only [Prod.mk.injEq, decide_eq_true_eq] at heq
  obtain ⟨rfl, hlength, hserved, hreach⟩ := heq
  have hok : NoWrap (kheapInit (fun _ => 0) 4096) 24 := ⟨by decide, by decide +kernel⟩
  have hrun : ClientRun NoWrap (Client.init (fun _ => 0) 4096) ⟨h, [(4128, 24)]⟩ :=
    .single (.kmalloc hok hcall)
  have hroom : CopyRoom h 30 32 := ⟨_, hserved, Or.inl (by decide)⟩
  obtain ⟨h', q, hcall', hdone⟩ := (krealloc_spec (by decide) (by decide) (by decide) hrun
    (mem_singleton.mpr rfl) hlength 30).1.mpr ⟨by decide, hreach, hroom⟩
  exact ⟨_, h', q, hrun, rfl, (hcall' 3 le_rfl).2, hdone⟩

/-- A block of 64 bytes. For 65 bytes it is returned as it is. For 16 bytes it is copied over the
header behind the new block of 16 bytes, which reads as the header of an empty block in use. -/
theorem krealloc_damages :
    ∃ c h', ClientRun NoWrap (Client.init (fun _ => 0) 4096) c ∧ c.live = [(4128, 64)] ∧
      blocks c.heap = [⟨4096, 64, false⟩, ⟨4192, 96, true⟩] ∧
      krealloc 3 c.heap 4128 65 = some (c.heap, 4128) ∧
      krealloc 3 c.heap 4128 16 = some (h', 4224) ∧
      blocks h' = [⟨4096, 64, true⟩, ⟨4192, 16, false⟩, ⟨4240, 0, false⟩] ∧
      ¬Represents h' ((blocks h').map Block.addr) := by
  have hres : ((kmalloc 3 (kheapInit (fun _ => 0) 4096) 64).bind fun r =>
      (krealloc 3 r.1 4128 16).map fun s => (r.2, blocks r.1, s.2, blocks s.1, prev s.1.mem 4240)) =
        some (4128, [⟨4096, 64, false⟩, ⟨4192, 96, true⟩], 4224,
          [⟨4096, 64, true⟩, ⟨4192, 16, false⟩, ⟨4240, 0, false⟩], 0) := by
    decide +kernel
  have hlong : ((kmalloc 3 (kheapInit (fun _ => 0) 4096) 64).map fun r =>
      len r.1.mem (sub64 4128 headerSize)) = some 64 := by
    decide +kernel
  obtain ⟨⟨h, p⟩, hcall, hrest⟩ := Option.bind_eq_some_iff.mp hres
  obtain ⟨⟨h', q⟩, hshort, heq⟩ := Option.map_eq_some_iff.mp hrest
  simp only [Prod.mk.injEq] at heq
  obtain ⟨rfl, hblocks, rfl, hblocks', hprev⟩ := heq
  rw [hcall, Option.map_some, Option.some.injEq] at hlong
  have hok : NoWrap (kheapInit (fun _ => 0) 4096) 64 := ⟨by decide, by decide +kernel⟩
  have hrun : ClientRun NoWrap (Client.init (fun _ => 0) 4096) ⟨h, [(4128, 64)]⟩ :=
    .single (.kmalloc hok hcall)
  refine ⟨_, h', hrun, rfl, hblocks, ?_, hshort, hblocks', fun hrep => ?_⟩
  · rw [krealloc, hlong]
    rfl
  · have hchain := hrep.chain
    rw [hblocks'] at hchain
    have hlink := (isChain_cons_cons.mp (isChain_cons_cons.mp hchain).2).1
    rw [hlink.2.1] at hprev
    exact absurd hprev (by decide)

end KernelOld.Kheap
