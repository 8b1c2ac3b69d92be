import KernelOld.Mem.Kheap.Client

/-!
# The mapped window of the kernel heap

`kheap_init` maps 10000 pages and records their end in `heap_end`, which no other
function reads: `kheap_expand` appends its block wherever the last one ends. The
heap stays inside the window exactly as long as every request fits into it.
-/

namespace KernelOld.Kheap
open ByteMemory MachineWord

variable {h h' : Heap} {bs : List Block} {top size : ℕ}

/-- Every block, header and payload, lies in the pages that `kheap_init` mapped. -/
def InWindow (h : Heap) : Prop :=
  ∀ b ∈ blocks h, h.heapStart ≤ b.addr ∧ b.stop ≤ h.heapStart + heapLen

/-- The request does not make the heap longer than the pages mapped for it. -/
def FitsWindow (h : Heap) (size : ℕ) : Prop := reach h size ≤ h.heapStart + heapLen

theorem Layout.inWindow_iff (L : Layout h bs top) : InWindow h ↔ top ≤ h.heapStart + heapLen := by
  rw [InWindow, L.blocks_eq]
  constructor
  · intro hin
    obtain ⟨l, b, rfl⟩ := (List.eq_nil_or_concat' bs).resolve_left L.ne_nil
    rw [← L.last_eq.2]
    exact (hin b (by simp)).2
  · intro htop b hb
    obtain ⟨hlo, hhi⟩ := L.tiled.mem_bounds hb
    exact ⟨hlo, hhi.trans htop⟩

theorem Client.Serves.inWindow_kmalloc {c : Client} {os : List (Block × ℕ)} {p rounds : ℕ}
    (S : c.Serves os bs top) (hreach : reach c.heap size ≤ 2 ^ 64)
    (hrun : Kheap.kmalloc rounds c.heap size = some (h', p)) :
    InWindow h' ↔ FitsWindow c.heap size := by
  obtain ⟨b, bs', S', -, a⟩ := S.kmalloc hreach hrun
  have hiff := S'.inv.layout.inWindow_iff
  rw [a.start_eq] at hiff
  exact hiff

/-- In a run whose requests all fit, the heap never leaves the window. The condition
is exact: the next call leaves the window when its request does not fit. -/
theorem kheap_window {m : Mem} {a : ℕ} {c : Client} (ha : 4096 ∣ a) (hpos : 0 < a)
    (hmax : a + heapLen ≤ 2 ^ 64) (hrun : ClientRun FitsWindow (Client.init m a) c) :
    c.heap.heapStart = a ∧ c.heap.heapEnd = u64 (a + heapLen) ∧ InWindow c.heap ∧
      ∀ size rounds h' p, reach c.heap size ≤ 2 ^ 64 →
        kmalloc rounds c.heap size = some (h', p) → (InWindow h' ↔ FitsWindow c.heap size) := by
  have hlen : a + 32 ≤ a + heapLen := Nat.add_le_add_left (by decide) a
  have S₀ := Client.serves_init (m := m) (a := a) (dvd_trans (by decide) ha) hpos (by omega)
  obtain ⟨os, bs, top, S, htop, hstart, hend⟩ :=
    S₀.run hlen hmax rfl
      (fun h size hs hok => by rwa [FitsWindow, hs] at hok) hrun
  refine ⟨hstart, hend, ?_, fun size rounds h' p hreach hcall => S.inWindow_kmalloc hreach hcall⟩
  rw [S.inv.layout.inWindow_iff, hstart]
  exact htop

theorem kheap_window_after_kmalloc :
    ∃ c, ClientRun FitsWindow (Client.init (fun _ => 0) 0xffffffffc0000000) c ∧
      c.live = [(0xffffffffc0000020, 24)] ∧ InWindow c.heap := by
  have hres : (kmalloc 3 (kheapInit (fun _ => 0) 0xffffffffc0000000) 24).map Prod.snd =
      some 0xffffffffc0000020 := by
    decide +kernel
  obtain ⟨⟨h, p⟩, hcall, rfl⟩ := Option.map_eq_some_iff.mp hres
  have hok : FitsWindow (kheapInit (fun _ => 0) 0xffffffffc0000000) 24 := by
    rw [FitsWindow]
    decide +kernel
  have hrun : ClientRun FitsWindow (Client.init (fun _ => 0) 0xffffffffc0000000)
      ⟨h, [(0xffffffffc0000020, 24)]⟩ := .single (.kmalloc hok hcall)
  exact ⟨_, hrun, rfl, (kheap_window (by decide) (by decide) (by decide) hrun).2.2.1⟩

/-- A first request for as many bytes as the window has is granted, outside it. -/
theorem kheap_leaves_window :
    ∃ c, ClientRun NoWrap (Client.init (fun _ => 0) 0xffffffffc0000000) c ∧
      c.live.map Prod.snd = [40960000] ∧ ¬InWindow c.heap := by
  have S := Client.serves_init (m := fun _ => 0) (a := 0xffffffffc0000000) (by decide) (by decide)
    (by decide)
  have hok : NoWrap (kheapInit (fun _ => 0) 0xffffffffc0000000) 40960000 :=
    ⟨by decide, by decide +kernel⟩
  have hout : ¬FitsWindow (kheapInit (fun _ => 0) 0xffffffffc0000000) 40960000 := by
    rw [FitsWindow]
    decide +kernel
  obtain ⟨h, p, hcall, -, -⟩ := S.alloc (by simp) hok
  have hrun := hcall 3 le_rfl
  refine ⟨⟨h, [(p, 40960000)]⟩, .single (.kmalloc hok hrun), rfl, ?_⟩
  rw [S.inWindow_kmalloc hok.2 hrun]
  exact hout

end KernelOld.Kheap
