import Mathlib.Logic.Relation
import KernelOld.Mem.Kheap.Calls

/-!
# Clients of the kernel heap

A client run starts from the heap that `kheap_init` leaves and consists of `kmalloc` calls, `kfree`
calls on live pointers, and writes of single bytes into live allocations. The list of live
allocations is a ghost variable, which `Client.Serves` relates to the block list.
-/

namespace KernelOld.Kheap
open ByteMemory MachineWord List

variable {h h' : Heap} {bs bs' : List Block} {b : Block} {top n size : ℕ}

/-- The heap together with the allocations that have not been freed: pointer and
requested size. -/
structure Client where
  heap : Heap
  live : List (ℕ × ℕ)

inductive ClientStep (admits : Heap → ℕ → Prop) : Client → Client → Prop
  | kmalloc {h h' : Heap} {live : List (ℕ × ℕ)} {size p rounds : ℕ} (hok : admits h size)
      (hrun : kmalloc rounds h size = some (h', p)) :
      ClientStep admits ⟨h, live⟩ ⟨h', (p, size) :: live⟩
  | kfree {h h' : Heap} {live : List (ℕ × ℕ)} {p n : ℕ} (hlive : (p, n) ∈ live)
      (hrun : kfree h p = some h') :
      ClientStep admits ⟨h, live⟩ ⟨h', live.erase (p, n)⟩
  -- the padding that rounding adds belongs to the client as well
  | write {h : Heap} {live : List (ℕ × ℕ)} {p n x : ℕ} {v : UInt8} (hlive : (p, n) ∈ live)
      (hlo : p ≤ x) (hhi : x < p + roundUp16 n) :
      ClientStep admits ⟨h, live⟩ ⟨{ h with mem := Function.update h.mem x v }, live⟩

/-- Runs whose requests are all admitted. -/
abbrev ClientRun (admits : Heap → ℕ → Prop) : Client → Client → Prop :=
  Relation.ReflTransGen (ClientStep admits)

def Client.init (m : Mem) (addr : ℕ) : Client := ⟨kheapInit m addr, []⟩

def Block.ptr (b : Block) : ℕ := u64 (b.addr + 32)

structure Client.Serves (c : Client) (os : List (Block × ℕ)) (bs : List Block) (top : ℕ) :
    Prop where
  inv : Inv c.heap bs top
  owners : (os.map Prod.fst).Perm (used bs)
  live_eq : c.live = os.map fun o => (o.1.ptr, o.2)
  room : ∀ o ∈ os, roundUp16 o.2 ≤ o.1.len

variable {m : Mem} {p x : ℕ}

theorem Layout.ptr_eq (L : Layout h bs top) (hb : b ∈ bs) (hlen : 0 < b.len) :
    b.ptr = b.addr + 32 := by
  have hbound := (L.tiled.mem_bounds hb).2
  have htop := L.top_le
  simp only [Block.stop] at hbound
  exact u64_of_lt (by omega)

theorem Layout.ptr_nodup (L : Layout h bs top) : (bs.map Block.ptr).Nodup := by
  rw [List.Nodup, pairwise_map]
  refine L.tiled.pairwise.imp_of_mem fun {b c} hb hc hle heq => ?_
  have hb₁ := L.addr_lt hb
  have hc₁ := L.addr_lt hc
  have hb₀ := L.addr_pos hb
  have hc₀ := L.addr_pos hc
  rw [Block.stop] at hle
  rw [Block.ptr, Block.ptr, u64, u64] at heq
  omega

theorem kheapInit_inv {a : ℕ} (ha : 16 ∣ a) (hpos : 0 < a) (htop : a + 32 ≤ 2 ^ 64) :
    Inv (kheapInit m a) [⟨a, 0, true⟩] (a + 32) := by
  have hheader : header (kheapInit m a).mem a = ⟨0, true, 0, 0⟩ := by
    simp only [kheapInit]
    rw [header_setFree, header_setPrev (by decide), header_setNext (by decide),
      header_setLen (by decide)]
  have hthreaded : DoublyLinked.Threaded (prev (kheapInit m a).mem) (next (kheapInit m a).mem)
      [a] := by
    refine DoublyLinked.threaded_singleton (Nat.ne_of_gt hpos) ?_ ?_
    · rw [prev_header, hheader]
    · rw [next_header, hheader]
  refine ⟨⟨hthreaded, ?_, ?_, ⟨rfl, rfl⟩, rfl, hpos, htop⟩, rfl, ha, by simp, .singleton _⟩
  · intro b hb
    obtain rfl := mem_singleton.mp hb
    rw [len_header, hheader]
  · intro b hb
    obtain rfl := mem_singleton.mp hb
    rw [free_header, hheader]

theorem Client.serves_init {a : ℕ} (ha : 16 ∣ a) (hpos : 0 < a) (htop : a + 32 ≤ 2 ^ 64) :
    (Client.init m a).Serves [] [⟨a, 0, true⟩] (a + 32) :=
  ⟨kheapInit_inv ha hpos htop, by simp [used], rfl, by simp⟩

section Serving

variable {c c' : Client} {os : List (Block × ℕ)} {admits : Heap → ℕ → Prop} {limit : ℕ}

/-- The bytes that a client may use lie in the payload of its block. -/
theorem Client.Serves.bytes (S : c.Serves os bs top) {b : Block} {n : ℕ} (ho : (b, n) ∈ os) :
    b ∈ used bs ∧ roundUp16 n ≤ b.len ∧
      ∀ x, b.ptr ≤ x → x < b.ptr + roundUp16 n → b.addr + 32 ≤ x ∧ x < b.stop := by
  have hused : b ∈ used bs := S.owners.subset (mem_map_of_mem ho)
  have hroom : roundUp16 n ≤ b.len := S.room _ ho
  refine ⟨hused, hroom, fun x hlo hhi => ?_⟩
  have hptr := S.inv.layout.ptr_eq (mem_used.mp hused).1 (by omega)
  simp only [hptr, Block.stop] at *
  omega

theorem Client.Serves.owner (S : c.Serves os bs top) {a : ℕ × ℕ} (ha : a ∈ c.live) :
    ∃ b, (b, a.2) ∈ os ∧ a.1 = b.ptr := by
  rw [S.live_eq] at ha
  obtain ⟨⟨b, n⟩, ho, rfl⟩ := mem_map.mp ha
  exact ⟨b, ho, rfl⟩

/-- A write into a live allocation leaves every header alone. -/
theorem Client.Serves.write (S : c.Serves os bs top) (hlive : (p, n) ∈ c.live) (hlo : p ≤ x)
    (hhi : x < p + roundUp16 n) (v : UInt8) :
    Client.Serves ⟨{ c.heap with mem := Function.update c.heap.mem x v }, c.live⟩ os bs top := by
  obtain ⟨b, ho, rfl⟩ := S.owner hlive
  obtain ⟨hused, -, hin⟩ := S.bytes ho
  obtain ⟨hxlo, hxhi⟩ := hin x hlo hhi
  have I := S.inv
  refine ⟨⟨I.layout.congr fun d hd y hy => ?_, I.unlocked, I.start_dvd, I.len_dvd, I.coalesced⟩,
    S.owners, S.live_eq, S.room⟩
  refine Function.update_of_ne ?_ _ _
  rintro rfl
  obtain ⟨hylo, hyhi⟩ := hy
  have hapart := I.layout.tiled.apart (mem_used.mp hused).1 hd
  simp only [Block.stop] at hapart hxhi
  rcases hapart with rfl | hapart | hapart <;> omega

theorem Client.Serves.reach_eq (S : c.Serves os bs top) (size : ℕ) :
    reach c.heap size = top + growth bs (roundUp16 size) := by
  rw [reach, S.inv.layout.heapTop_eq, S.inv.layout.blocks_eq]

theorem Client.Serves.kmalloc {rounds : ℕ} (S : c.Serves os bs top)
    (hreach : reach c.heap size ≤ 2 ^ 64) (hrun : kmalloc rounds c.heap size = some (h', p)) :
    ∃ b bs', Client.Serves ⟨h', (p, size) :: c.live⟩ ((b, size) :: os) bs' (reach c.heap size) ∧
      p = b.ptr ∧ Allocated c.heap bs h' bs' (roundUp16 size) b := by
  rw [S.reach_eq] at hreach ⊢
  obtain ⟨bs', b, hp, I', a⟩ := kmalloc_result S.inv rfl hreach hrun
  refine ⟨b, bs', ⟨I', ?_, ?_, ?_⟩, hp, a⟩
  · exact (S.owners.cons b).trans a.used_perm.symm
  · rw [map_cons, ← S.live_eq, hp]
    rfl
  · intro o ho
    rcases mem_cons.mp ho with rfl | ho
    · exact a.room
    · exact S.room o ho

theorem Client.Serves.kfree (S : c.Serves os bs top) (hlive : (p, n) ∈ c.live) :
    ∃ h' os' bs' b, kfree c.heap p = some h' ∧ p = b.ptr ∧
      Client.Serves ⟨h', c.live.erase (p, n)⟩ os' bs' top ∧ Released c.heap bs h' bs' b := by
  obtain ⟨live₁, live₂, -, hlive_eq, herase⟩ := exists_erase_eq hlive
  rw [S.live_eq] at hlive_eq
  obtain ⟨os₁, os₂', rfl, rfl, hos₂⟩ := map_eq_append_iff.mp hlive_eq
  obtain ⟨⟨b, k⟩, os₂, rfl, heq, rfl⟩ := map_eq_cons_iff.mp hos₂
  obtain ⟨rfl, rfl⟩ := Prod.mk.inj heq
  have hperm := S.owners
  rw [map_append, map_cons] at hperm
  have hused : b ∈ used bs := hperm.subset (by simp)
  obtain ⟨h', bs', hrun, I', rel⟩ := kfree_spec S.inv hused
  refine ⟨h', os₁ ++ os₂, bs', b, hrun, rfl, ⟨I', ?_, ?_, ?_⟩, rel⟩
  · have hcons : (b :: (os₁ ++ os₂).map Prod.fst).Perm (b :: used bs') := by
      rw [map_append]
      exact (perm_middle.symm.trans hperm).trans rel.used_perm.symm
    exact hcons.cons_inv
  · rw [herase, map_append]
  · intro o ho
    refine S.room o ?_
    simp only [mem_append, mem_cons] at ho ⊢
    exact ho.imp_right Or.inr

/-- One step keeps the heap below `limit` when every admitted request does. -/
theorem Client.Serves.step (S : c.Serves os bs top) (htop : top ≤ limit) (hlimit : limit ≤ 2 ^ 64)
    (hadmits : ∀ size, admits c.heap size → reach c.heap size ≤ limit)
    (hstep : ClientStep admits c c') :
    ∃ os' bs' top', c'.Serves os' bs' top' ∧ top' ≤ limit ∧
      c'.heap.heapStart = c.heap.heapStart ∧ c'.heap.heapEnd = c.heap.heapEnd := by
  cases hstep with
  | kmalloc hok hrun =>
    have hreach := hadmits _ hok
    obtain ⟨b, bs', S', -, a⟩ := S.kmalloc (hreach.trans hlimit) hrun
    exact ⟨_, _, _, S', hreach, a.start_eq, a.end_eq⟩
  | kfree hlive hrun =>
    obtain ⟨h', os', bs', b, hrun', -, S', rel⟩ := S.kfree hlive
    obtain rfl := Option.some.inj (hrun'.symm.trans hrun)
    exact ⟨_, _, _, S', htop, rel.start_eq, rel.end_eq⟩
  | write hlive hlo hhi => exact ⟨_, _, _, S.write hlive hlo hhi _, htop, rfl, rfl⟩

theorem Client.Serves.run {start : ℕ} (S : c.Serves os bs top) (htop : top ≤ limit)
    (hlimit : limit ≤ 2 ^ 64) (hstart : c.heap.heapStart = start)
    (hadmits : ∀ h size, h.heapStart = start → admits h size → reach h size ≤ limit)
    (hrun : ClientRun admits c c') :
    ∃ os' bs' top', c'.Serves os' bs' top' ∧ top' ≤ limit ∧
      c'.heap.heapStart = start ∧ c'.heap.heapEnd = c.heap.heapEnd := by
  induction hrun with
  | refl => exact ⟨_, _, _, S, htop, hstart, rfl⟩
  | tail _ hstep ih =>
    obtain ⟨os₁, bs₁, top₁, S₁, htop₁, hstart₁, hend₁⟩ := ih
    obtain ⟨os₂, bs₂, top₂, S₂, htop₂, hstart₂, hend₂⟩ :=
      S₁.step htop₁ hlimit (fun size => hadmits _ size hstart₁) hstep
    exact ⟨os₂, bs₂, top₂, S₂, htop₂, hstart₂.trans hstart₁, hend₂.trans hend₁⟩

theorem ClientRun.live_admitted {P : ℕ → Prop} (hP : ∀ h size, admits h size → P size)
    (hc : ∀ a ∈ c.live, P a.2) (hrun : ClientRun admits c c') : ∀ a ∈ c'.live, P a.2 := by
  induction hrun with
  | refl => exact hc
  | tail _ hstep ih =>
    cases hstep with
    | kmalloc hok _ =>
      intro a ha
      rcases mem_cons.mp ha with rfl | ha
      · exact hP _ _ hok
      · exact ih a ha
    | kfree => exact fun a ha => ih a (mem_of_mem_erase ha)
    | write => exact ih

end Serving

/-- Rounding the request does not wrap, and the heap stays inside the address space. -/
def NoWrap (h : Heap) (size : ℕ) : Prop := size + 15 < 2 ^ 64 ∧ reach h size ≤ 2 ^ 64

def InRange (a : ℕ × ℕ) (x : ℕ) : Prop := a.1 ≤ x ∧ x < a.1 + a.2

/-- What a client can rely on. -/
structure ClientView (c : Client) : Prop where
  aligned : ∀ a ∈ c.live, 16 ∣ a.1
  room : ∀ a ∈ c.live, ∃ b ∈ blocks c.heap, b.ptr = a.1 ∧ b.free = false ∧ a.2 ≤ b.len
  disjoint : c.live.Pairwise fun a b => ∀ x, ¬(InRange a x ∧ InRange b x)
  headers : ∀ a ∈ c.live, ∀ b ∈ blocks c.heap, ∀ x, InRange a x → ¬InHeader b.addr x
  alloc : ∀ size, NoWrap c.heap size → ∃ h' p,
    (∀ rounds, 3 ≤ rounds → kmalloc rounds c.heap size = some (h', p)) ∧
      (∀ x, InRange (p, size) x → h'.mem x = 0) ∧
        ∀ a ∈ c.live, ∀ x, InRange a x → h'.mem x = c.heap.mem x
  release : ∀ a ∈ c.live, ∃ h', kfree c.heap a.1 = some h' ∧
    ∀ b ∈ c.live.erase a, ∀ x, InRange b x → h'.mem x = c.heap.mem x

theorem Tiled.addr_dvd {a : ℕ} (hT : Tiled a bs top) (ha : 16 ∣ a)
    (hlen : ∀ b ∈ bs, 16 ∣ b.len) : ∀ b ∈ bs, 16 ∣ b.addr := by
  induction bs generalizing a with
  | nil => simp
  | cons b bs ih =>
    obtain ⟨hb, hrest⟩ := hT
    have hstop : 16 ∣ b.stop := by
      have hlen_b := hlen b (by simp)
      simp only [Block.stop]
      omega
    intro c hc
    rcases mem_cons.mp hc with rfl | hc
    · rwa [hb]
    · exact ih hrest hstop (fun d hd => hlen d (by simp [hd])) c hc

section ClientView

variable {c : Client} {os : List (Block × ℕ)}

theorem Client.Serves.payload (S : c.Serves os bs top) {b : Block} {n : ℕ} (ho : (b, n) ∈ os)
    (hn : n + 15 < 2 ^ 64) (hx : InRange (b.ptr, n) x) : b.addr + 32 ≤ x ∧ x < b.stop := by
  have hle := le_roundUp16 hn
  obtain ⟨-, -, hin⟩ := S.bytes ho
  obtain ⟨hlo, hhi⟩ := hx
  exact hin x hlo (lt_of_lt_of_le hhi (Nat.add_le_add_left hle _))

theorem Client.Serves.ptr_dvd (S : c.Serves os bs top) (hb : b ∈ used bs) : 16 ∣ b.ptr := by
  have haddr := S.inv.layout.tiled.addr_dvd S.inv.start_dvd S.inv.len_dvd b (mem_used.mp hb).1
  rw [Block.ptr, u64]
  omega

theorem Client.Serves.disjoint (S : c.Serves os bs top) (hsizes : ∀ o ∈ os, o.2 + 15 < 2 ^ 64) :
    c.live.Pairwise fun a b => ∀ x, ¬(InRange a x ∧ InRange b x) := by
  have hused : (used bs).Pairwise fun b d => b.stop ≤ d.addr ∨ d.stop ≤ b.addr :=
    (S.inv.layout.tiled.pairwise.imp Or.inl).sublist filter_sublist
  have howners := (S.owners.pairwise_iff fun {b d} hbd => hbd.symm).mpr hused
  rw [pairwise_map] at howners
  rw [S.live_eq, pairwise_map]
  refine howners.imp_of_mem ?_
  rintro o o' ho ho' hapart x ⟨hx, hx'⟩
  have hb := S.payload ho (hsizes o ho) hx
  have hb' := S.payload ho' (hsizes o' ho') hx'
  omega

theorem Client.Serves.headers (S : c.Serves os bs top) {b d : Block} {n : ℕ} (ho : (b, n) ∈ os)
    (hn : n + 15 < 2 ^ 64) (hd : d ∈ bs) (hx : InRange (b.ptr, n) x) :
    ¬InHeader d.addr x := by
  obtain ⟨hlo, hhi⟩ := S.payload ho hn hx
  have hapart := S.inv.layout.tiled.apart (mem_used.mp (S.bytes ho).1).1 hd
  rintro ⟨hxlo, hxhi⟩
  simp only [Block.stop] at hapart hhi
  rcases hapart with rfl | hapart | hapart <;> omega

theorem Client.Serves.keeps (S : c.Serves os bs top) (hsizes : ∀ o ∈ os, o.2 + 15 < 2 ^ 64)
    (hkeeps : KeepsPayloads (used bs) c.heap.mem m) {a : ℕ × ℕ} (ha : a ∈ c.live)
    (hx : InRange a x) : m x = c.heap.mem x := by
  obtain ⟨b, ho, hp⟩ := S.owner ha
  have hx' : InRange (b.ptr, a.2) x := by rwa [← hp]
  obtain ⟨hlo, hhi⟩ := S.payload ho (hsizes _ ho) hx'
  exact hkeeps b (S.bytes ho).1 x hlo hhi

theorem Client.Serves.alloc (S : c.Serves os bs top) (hsizes : ∀ o ∈ os, o.2 + 15 < 2 ^ 64)
    (hok : NoWrap c.heap size) :
    ∃ h' p, (∀ rounds, 3 ≤ rounds → Kheap.kmalloc rounds c.heap size = some (h', p)) ∧
      (∀ x, InRange (p, size) x → h'.mem x = 0) ∧
        ∀ a ∈ c.live, ∀ x, InRange a x → h'.mem x = c.heap.mem x := by
  obtain ⟨hsize, hreach⟩ := hok
  have hroom := hreach
  rw [S.reach_eq] at hroom
  obtain ⟨h', bs', b, hrun, I', a⟩ := kmalloc_spec S.inv rfl hroom
  obtain ⟨b', bs'', S', hp, a'⟩ := S.kmalloc hreach (hrun 0)
  refine ⟨h', b'.ptr, fun rounds hr => ?_, fun x hx => ?_, fun d hd x hx => ?_⟩
  · obtain ⟨k, rfl⟩ := Nat.exists_eq_add_of_le' hr
    rw [hrun k, hp]
  · obtain ⟨hlo, hhi⟩ := hx
    have hle := le_roundUp16 hsize
    have hused' : b' ∈ used bs'' := a'.used_perm.mem_iff.mpr (by simp)
    have hroom' := a'.room
    have hptr := S'.inv.layout.ptr_eq (mem_used.mp hused').1 (by simp only at hlo hhi; omega)
    simp only [hptr] at hlo hhi
    obtain ⟨i, rfl⟩ := Nat.exists_eq_add_of_le hlo
    exact a'.zeroed i (by omega)
  · exact S.keeps hsizes a.keeps hd hx

theorem Client.Serves.clientView (S : c.Serves os bs top)
    (hlive : ∀ a ∈ c.live, a.2 + 15 < 2 ^ 64) : ClientView c := by
  have hblocks := S.inv.layout.blocks_eq
  have hsizes : ∀ o ∈ os, o.2 + 15 < 2 ^ 64 := by
    intro o ho
    refine hlive (o.1.ptr, o.2) ?_
    rw [S.live_eq]
    exact mem_map_of_mem ho
  refine ⟨?_, ?_, S.disjoint hsizes, ?_, fun size hok => S.alloc hsizes hok, ?_⟩
  · intro a ha
    obtain ⟨b, ho, hp⟩ := S.owner ha
    rw [hp]
    exact S.ptr_dvd (S.bytes ho).1
  · intro a ha
    obtain ⟨b, ho, hp⟩ := S.owner ha
    obtain ⟨hused, hroom, -⟩ := S.bytes ho
    obtain ⟨hb, hfree⟩ := mem_used.mp hused
    rw [hblocks]
    exact ⟨b, hb, hp.symm, hfree, (le_roundUp16 (hsizes _ ho)).trans hroom⟩
  · intro a ha d hd x hx
    obtain ⟨b, ho, hp⟩ := S.owner ha
    rw [hblocks] at hd
    have hx' : InRange (b.ptr, a.2) x := by rwa [← hp]
    exact S.headers ho (hsizes _ ho) hd hx'
  · intro a ha
    obtain ⟨h', os', bs', b, hrun, -, -, rel⟩ := S.kfree ha
    exact ⟨h', hrun, fun d hd x hx => S.keeps hsizes rel.keeps (mem_of_mem_erase hd) hx⟩

end ClientView

theorem ClientRun.serves {a : ℕ} {c : Client} (ha : 16 ∣ a) (hpos : 0 < a)
    (htop : a + 32 ≤ 2 ^ 64) (hrun : ClientRun NoWrap (Client.init m a) c) :
    ∃ os bs top, c.Serves os bs top := by
  obtain ⟨os, bs, top, S, -, -, -⟩ := (Client.serves_init (m := m) ha hpos htop).run htop le_rfl
    rfl (fun _ _ _ hok => hok.2) hrun
  exact ⟨os, bs, top, S⟩

/-- In every state of every client run the live allocations are aligned, long
enough, disjoint from each other and from the headers; the next `kmalloc` returns
zeroed memory, and neither call touches a live allocation. -/
theorem kheap_client_view {m : Mem} {a : ℕ} {c : Client} (ha : 16 ∣ a) (hpos : 0 < a)
    (htop : a + 32 ≤ 2 ^ 64) (hrun : ClientRun NoWrap (Client.init m a) c) : ClientView c := by
  obtain ⟨os, bs, top, S⟩ := hrun.serves ha hpos htop
  refine S.clientView (hrun.live_admitted (P := fun n => n + 15 < 2 ^ 64) (fun _ _ hok => hok.1) ?_)
  simp [Client.init]

/-- The second of three blocks has been freed. -/
theorem kheap_client_view_after_kfree :
    ∃ c, ClientRun NoWrap (Client.init (fun _ => 0) 4096) c ∧
      c.live = [(4336, 40), (4128, 24)] ∧ ClientView c := by
  have hres : ((kmalloc 3 (kheapInit (fun _ => 0) 4096) 24).bind fun r =>
      (kmalloc 3 r.1 100).bind fun s => (kmalloc 3 s.1 40).bind fun t =>
        (kfree t.1 s.2).map fun _ => (r.2, s.2, t.2, decide (reach r.1 100 ≤ 2 ^ 64),
          decide (reach s.1 40 ≤ 2 ^ 64))) = some (4128, 4192, 4336, true, true) := by
    decide +kernel
  obtain ⟨⟨h₁, p₁⟩, hcall₁, hres⟩ := Option.bind_eq_some_iff.mp hres
  obtain ⟨⟨h₂, p₂⟩, hcall₂, hres⟩ := Option.bind_eq_some_iff.mp hres
  obtain ⟨⟨h₃, p₃⟩, hcall₃, hres⟩ := Option.bind_eq_some_iff.mp hres
  obtain ⟨h₄, hfree, heq⟩ := Option.map_eq_some_iff.mp hres
  simp only [Prod.mk.injEq, decide_eq_true_eq] at heq
  obtain ⟨rfl, rfl, rfl, hreach₂, hreach₃⟩ := heq
  have hreach₁ : reach (kheapInit (fun _ => 0) 4096) 24 ≤ 2 ^ 64 := by decide +kernel
  have hrun : ClientRun NoWrap (Client.init (fun _ => 0) 4096) ⟨h₄, [(4336, 40), (4128, 24)]⟩ :=
    .tail (.tail (.tail (.single (.kmalloc ⟨by decide, hreach₁⟩ hcall₁))
      (.kmalloc ⟨by decide, hreach₂⟩ hcall₂)) (.kmalloc ⟨by decide, hreach₃⟩ hcall₃))
      (.kfree (p := 4192) (n := 100) (by simp) hfree)
  exact ⟨_, hrun, rfl, kheap_client_view (by decide) (by decide) (by decide) hrun⟩

/-- The addresses `as` are the blocks: linked both ways, laid end to end, and coalesced. -/
structure Represents (h : Heap) (as : List ℕ) : Prop where
  first : as.head? = some h.heapStart
  last : as.getLast? = some h.lastBlock
  first_prev : prev h.mem h.heapStart = 0
  last_next : next h.mem h.lastBlock = 0
  chain : as.IsChain fun b b' => next h.mem b = b' ∧ prev h.mem b' = b ∧
    b' = b + 32 + len h.mem b ∧ ¬(free h.mem b = true ∧ free h.mem b' = true)
  len_dvd : ∀ b ∈ as, 16 ∣ len h.mem b

theorem Inv.represents (I : Inv h bs top) : Represents h ((blocks h).map Block.addr) := by
  have L := I.layout
  rw [L.blocks_eq]
  refine ⟨?_, L.last, ?_, ?_, ?_, ?_⟩
  · cases bs with
    | nil => exact absurd rfl L.ne_nil
    | cons b bs => exact congrArg some L.tiled.1
  · cases bs with
    | nil => exact absurd rfl L.ne_nil
    | cons b bs =>
      have hprev := (Layout.neighbours (l := []) L).2
      rwa [L.tiled.1] at hprev
  · obtain ⟨l, b, rfl⟩ := (eq_nil_or_concat' bs).resolve_left L.ne_nil
    rw [L.last_eq.1]
    exact L.neighbours.1
  · rw [isChain_map, isChain_iff_forall_rel_of_append_cons_cons]
    rintro b d l r rfl
    have L' : Layout h ((l ++ [b]) ++ d :: r) top := by simpa using L
    have hnext : next h.mem b.addr = d.addr := by simpa using L.neighbours.1
    have hprev : prev h.mem d.addr = b.addr := by simpa using L'.neighbours.2
    obtain ⟨mid, -, -, hd, -⟩ := tiled_append.mp L.tiled
    have hbd : NotBothFree b d := (isChain_append_cons_cons.mp I.coalesced).2.1
    rw [L.len_eq b (by simp), L.free_eq b (by simp), L.free_eq d (by simp)]
    exact ⟨hnext, hprev, hd, hbd⟩
  · intro a ha
    obtain ⟨b, hb, rfl⟩ := mem_map.mp ha
    rw [L.len_eq b hb]
    exact I.len_dvd b hb

theorem Inv.single_of_used_nil (I : Inv h bs top) (hused : used bs = []) :
    (blocks h).map Block.addr = [h.heapStart] ∧ free h.mem h.heapStart = true := by
  have L := I.layout
  have hfree : ∀ b ∈ bs, b.free = true := by
    intro b hb
    by_contra hb'
    have hmem : b ∈ used bs := mem_used.mpr ⟨hb, by simpa using hb'⟩
    simp [hused] at hmem
  rw [L.blocks_eq]
  match bs, L.ne_nil with
  | [b], _ =>
    have haddr : b.addr = h.heapStart := L.tiled.1
    refine ⟨by simp [haddr], ?_⟩
    rw [← haddr, L.free_eq b (by simp)]
    exact hfree b (by simp)
  | b :: d :: r, _ =>
    have hbd : NotBothFree b d := (isChain_cons_cons.mp I.coalesced).1
    exact absurd ⟨hfree b (by simp), hfree d (by simp)⟩ hbd

/-- The block list is well formed and coalesced in every state of every client run;
once everything has been freed it is one free block. -/
theorem kheap_representation {m : Mem} {a : ℕ} {c : Client} (ha : 16 ∣ a) (hpos : 0 < a)
    (htop : a + 32 ≤ 2 ^ 64) (hrun : ClientRun NoWrap (Client.init m a) c) :
    Represents c.heap ((blocks c.heap).map Block.addr) ∧
      (c.live = [] → (blocks c.heap).map Block.addr = [c.heap.heapStart] ∧
        free c.heap.mem c.heap.heapStart = true) := by
  obtain ⟨os, bs, top, S⟩ := hrun.serves ha hpos htop
  refine ⟨S.inv.represents, fun hlive => S.inv.single_of_used_nil ?_⟩
  have hos : os = [] := by
    rw [S.live_eq] at hlive
    exact map_eq_nil_iff.mp hlive
  have hperm := S.owners
  rw [hos] at hperm
  exact List.Perm.nil_eq hperm |>.symm

theorem kheap_representation_after_kfree :
    ∃ c, ClientRun NoWrap (Client.init (fun _ => 0) 4096) c ∧ c.live = [] ∧
      (blocks c.heap).map Block.addr = [c.heap.heapStart] := by
  have hres : ((kmalloc 3 (kheapInit (fun _ => 0) 4096) 24).bind fun r =>
      (kfree r.1 r.2).map fun _ => r.2) = some 4128 := by
    decide +kernel
  obtain ⟨⟨h, p⟩, hcall, hrest⟩ := Option.bind_eq_some_iff.mp hres
  obtain ⟨h', hfree, rfl⟩ := Option.map_eq_some_iff.mp hrest
  have hok : NoWrap (kheapInit (fun _ => 0) 4096) 24 := ⟨by decide, by decide +kernel⟩
  have hrun : ClientRun NoWrap (Client.init (fun _ => 0) 4096) ⟨h', []⟩ :=
    .tail (.single (.kmalloc hok hcall)) (.kfree (n := 24) (by simp) hfree)
  exact ⟨_, hrun, rfl,
    ((kheap_representation (by decide) (by decide) (by decide) hrun).2 rfl).1⟩

end KernelOld.Kheap
