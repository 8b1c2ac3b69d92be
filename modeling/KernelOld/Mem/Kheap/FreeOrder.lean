import KernelOld.Mem.Kheap.Client

/-!
# The order of `kfree` calls

Which blocks `kfree` merges depends on what is free at the time, but not what is left in the end: a
coalesced list is determined by its ends and the blocks in use (`eq_of_used`).
-/

namespace KernelOld.Kheap
open ByteMemory MachineWord List

variable {h h' h₁ h₂ : Heap} {bs bs' bs₁ bs₂ r : List Block} {b : Block} {a top : ℕ}
  {ps : List ℕ}

theorem stop_of_free (hT : Tiled a r top) (hhead : ∀ c ∈ r.head?, c.free = false) :
    a = ((used r).map Block.addr).headD top := by
  cases r with
  | nil => exact hT
  | cons c r =>
    have hc : c.free = false := hhead c rfl
    simp [used, hc, hT.1]

theorem Tiled.pos_of_cons (hT : Tiled a (b :: r) top) : a + 32 ≤ top := by
  have hle := (hT.mem_bounds mem_cons_self).2
  have haddr : b.addr = a := hT.1
  rw [Block.stop] at hle
  omega

theorem used_ne_of_free {c : Block} {r' : List Block} (hT : Tiled a (b :: r) top)
    (hT' : Tiled a (c :: r') top) (hb : b.free = false) (hc : c.free = true) :
    used (b :: r) ≠ used (c :: r') := by
  intro heq
  have hmem : b ∈ used (c :: r') := by
    rw [← heq]
    exact mem_used.mpr ⟨mem_cons_self, hb⟩
  obtain ⟨hmem, -⟩ := mem_used.mp hmem
  obtain rfl | hmem := mem_cons.mp hmem
  · rw [hb] at hc
    cases hc
  · have hle := (hT'.2.mem_bounds hmem).1
    have hba : b.addr = a := hT.1
    have hca : c.addr = a := hT'.1
    rw [Block.stop] at hle
    omega

theorem eq_of_used (hT : Tiled a bs top) (hT' : Tiled a bs' top) (hc : bs.IsChain NotBothFree)
    (hc' : bs'.IsChain NotBothFree) (hused : used bs = used bs') : bs = bs' := by
  induction bs generalizing a bs' with
  | nil =>
    cases bs' with
    | nil => rfl
    | cons b' r' =>
      have hend : a = top := hT
      have hlt := hT'.pos_of_cons
      omega
  | cons b r ih =>
    cases bs' with
    | nil =>
      have hend : a = top := hT'
      have hlt := hT.pos_of_cons
      omega
    | cons b' r' =>
      have haddr : b.addr = b'.addr := hT.1.trans hT'.1.symm
      have htail : ∀ {b b' : Block}, b = b' → Tiled b.stop r top → Tiled b'.stop r' top →
          used r = used r' → b :: r = b' :: r' := by
        rintro b _ rfl hr hr' hrest
        rw [ih hr hr' hc.tail hc'.tail hrest]
      cases hb : b.free with
      | false =>
        cases hb' : b'.free with
        | false =>
          simp only [used, filter_cons, hb, hb', Bool.not_false, if_true] at hused
          obtain ⟨heq, hrest⟩ := List.cons.inj hused
          exact htail heq hT.2 hT'.2 hrest
        | true => exact absurd hused (used_ne_of_free hT hT' hb hb')
      | true =>
        cases hb' : b'.free with
        | false => exact absurd hused.symm (used_ne_of_free hT' hT hb' hb)
        | true =>
          simp only [used, filter_cons, hb, hb', Bool.not_true, Bool.false_eq_true,
            if_false] at hused
          -- both reach up to the same address
          have hstop : b.stop = b'.stop := by
            rw [stop_of_free hT.2 (head_used hc hb), stop_of_free hT'.2 (head_used hc' hb'), used,
              hused]
            rfl
          have hlen : b.len = b'.len := by
            rw [Block.stop, Block.stop, haddr] at hstop
            exact Nat.add_left_cancel hstop
          obtain ⟨addr, len, free⟩ := b
          obtain ⟨addr', len', free'⟩ := b'
          simp only at haddr hlen hb hb'
          subst haddr hlen hb hb'
          exact htail rfl hT.2 hT'.2 hused

theorem used_pairwise (hT : Tiled a bs top) : (used bs).Pairwise fun b c => b.stop ≤ c.addr :=
  hT.pairwise.filter _

theorem Inv.eq_of_used_perm (I₁ : Inv h₁ bs₁ top) (I₂ : Inv h₂ bs₂ top)
    (hstart : h₁.heapStart = h₂.heapStart) (hperm : (used bs₁).Perm (used bs₂)) :
    blocks h₁ = blocks h₂ ∧ h₁.lastBlock = h₂.lastBlock := by
  have hT₂ : Tiled h₁.heapStart bs₂ top := hstart ▸ I₂.layout.tiled
  have hused : used bs₁ = used bs₂ := by
    refine List.Perm.eq_of_pairwise (fun b c _ _ hbc hcb => ?_) (used_pairwise I₁.layout.tiled)
      (used_pairwise hT₂) hperm
    rw [Block.stop] at hbc hcb
    omega
  have heq : bs₁ = bs₂ := eq_of_used I₁.layout.tiled hT₂ I₁.coalesced I₂.coalesced hused
  rw [I₁.layout.blocks_eq, I₂.layout.blocks_eq]
  refine ⟨heq, Option.some.inj ?_⟩
  rw [← I₁.layout.last, ← I₂.layout.last, heq]

def kfreeAll (h : Heap) (ps : List ℕ) : Option Heap := ps.foldlM kfree h

def usedWithout (bs : List Block) (ps : List ℕ) : List Block :=
  (used bs).filter fun b => b.ptr ∉ ps

theorem usedWithout_released (I : Inv h bs top) (rel : Released h bs h' bs' b) (ps : List ℕ) :
    (usedWithout bs' ps).Perm (usedWithout bs (b.ptr :: ps)) := by
  have hnodup : ((b :: used bs').map Block.ptr).Nodup := by
    refine (rel.used_perm.map Block.ptr).nodup_iff.mpr ?_
    exact (I.layout.ptr_nodup).sublist (filter_sublist.map Block.ptr)
  rw [map_cons, nodup_cons] at hnodup
  have hkeep : (used bs').filter (fun c => c.ptr ∉ b.ptr :: ps) = usedWithout bs' ps := by
    refine filter_congr fun c hc => ?_
    have hne : c.ptr ≠ b.ptr := fun heq => hnodup.1 (heq ▸ mem_map_of_mem hc)
    simp [hne]
  have hfilter := rel.used_perm.filter fun c => c.ptr ∉ b.ptr :: ps
  rw [filter_cons_of_neg (by simp), hkeep] at hfilter
  exact hfilter

theorem kfreeAll_spec (I : Inv h bs top) (hps : ∀ p ∈ ps, ∃ b ∈ used bs, b.ptr = p)
    (hnodup : ps.Nodup) :
    ∃ h' bs', kfreeAll h ps = some h' ∧ Inv h' bs' top ∧ h'.heapStart = h.heapStart ∧
      (used bs').Perm (usedWithout bs ps) := by
  induction ps generalizing h bs with
  | nil =>
    refine ⟨h, bs, rfl, I, rfl, ?_⟩
    rw [usedWithout, filter_eq_self.mpr (by simp)]
  | cons p ps ih =>
    obtain ⟨hnotMem, hnodup'⟩ := nodup_cons.mp hnodup
    obtain ⟨⟨b, hb, rfl⟩, hrest⟩ := forall_mem_cons.mp hps
    obtain ⟨h₁, bs₁, hfree, I₁, rel⟩ := kfree_spec I hb
    have hps₁ : ∀ p ∈ ps, ∃ c ∈ used bs₁, c.ptr = p := by
      intro p hp
      obtain ⟨c, hc, rfl⟩ := hrest p hp
      obtain rfl | hc := mem_cons.mp (rel.used_perm.symm.subset hc)
      · exact absurd hp hnotMem
      · exact ⟨c, hc, rfl⟩
    obtain ⟨h', bs', hrun, I', hstart, hperm⟩ := ih I₁ hps₁ hnodup'
    refine ⟨h', bs', ?_, I', hstart.trans rel.start_eq,
      hperm.trans (usedWithout_released I rel ps)⟩
    rw [kfreeAll, foldlM_cons, show kfree h b.ptr = some h₁ from hfree]
    exact hrun

/-- In every state of every client run, freeing a set of live pointers leaves the same list of
blocks and the same last block in whatever order it is done. -/
theorem kfree_order_independent {m : Mem} {a : ℕ} {c : Client} (ps qs : List ℕ) (ha : 16 ∣ a)
    (hpos : 0 < a) (htop : a + 32 ≤ 2 ^ 64) (hrun : ClientRun NoWrap (Client.init m a) c)
    (hlive : ∀ p ∈ ps, p ∈ c.live.map Prod.fst) (hnodup : ps.Nodup) (hperm : qs.Perm ps) :
    ∃ h₁ h₂, kfreeAll c.heap ps = some h₁ ∧ kfreeAll c.heap qs = some h₂ ∧
      blocks h₁ = blocks h₂ ∧ h₁.lastBlock = h₂.lastBlock := by
  obtain ⟨os, bs, top, S⟩ := hrun.serves ha hpos htop
  have hps : ∀ p ∈ ps, ∃ b ∈ used bs, b.ptr = p := by
    intro p hp
    obtain ⟨x, hx, rfl⟩ := mem_map.mp (hlive p hp)
    obtain ⟨b, ho, hptr⟩ := S.owner hx
    exact ⟨b, (S.bytes ho).1, hptr.symm⟩
  obtain ⟨h₁, bs₁, hfree₁, I₁, hstart₁, hused₁⟩ := kfreeAll_spec S.inv hps hnodup
  obtain ⟨h₂, bs₂, hfree₂, I₂, hstart₂, hused₂⟩ := kfreeAll_spec S.inv
    (fun p hp => hps p (hperm.subset hp)) (hperm.nodup_iff.mpr hnodup)
  have hsame : usedWithout bs ps = usedWithout bs qs := by
    refine filter_congr fun b _ => ?_
    simp [hperm.mem_iff]
  have hused : (used bs₁).Perm (used bs₂) := (hsame ▸ hused₁).trans hused₂.symm
  exact ⟨h₁, h₂, hfree₁, hfree₂, I₁.eq_of_used_perm I₂ (hstart₁.trans hstart₂.symm) hused⟩

/-- Two neighbours, freed from the left and from the right. -/
theorem kfree_order_independent_two :
    ∃ c h₁ h₂, ClientRun NoWrap (Client.init (fun _ => 0) 4096) c ∧
      c.live = [(4176, 16), (4128, 16)] ∧ kfreeAll c.heap [4128, 4176] = some h₁ ∧
      kfreeAll c.heap [4176, 4128] = some h₂ ∧ blocks h₁ = blocks h₂ ∧
      h₁.lastBlock = h₂.lastBlock := by
  have hres : ((kmalloc 3 (kheapInit (fun _ => 0) 4096) 16).bind fun r =>
      (kmalloc 3 r.1 16).map fun r' => (r.2, r'.2, decide (reach r.1 16 ≤ 2 ^ 64))) =
        some (4128, 4176, true) := by
    decide +kernel
  obtain ⟨⟨h, p⟩, hcall, hrest⟩ := Option.bind_eq_some_iff.mp hres
  obtain ⟨⟨h', p'⟩, hcall', heq⟩ := Option.map_eq_some_iff.mp hrest
  simp only [Prod.mk.injEq, decide_eq_true_eq] at heq
  obtain ⟨rfl, rfl, hreach⟩ := heq
  have hok : NoWrap (kheapInit (fun _ => 0) 4096) 16 := ⟨by decide, by decide +kernel⟩
  have hrun : ClientRun NoWrap (Client.init (fun _ => 0) 4096) ⟨h', [(4176, 16), (4128, 16)]⟩ :=
    .tail (.single (.kmalloc hok hcall)) (.kmalloc ⟨by decide, hreach⟩ hcall')
  obtain ⟨h₁, h₂, hboth⟩ := kfree_order_independent [4128, 4176] [4176, 4128]
    (by decide) (by decide) (by decide) hrun (by simp) (by simp) (List.Perm.swap _ _ _)
  exact ⟨_, h₁, h₂, hrun, rfl, hboth⟩

end KernelOld.Kheap
