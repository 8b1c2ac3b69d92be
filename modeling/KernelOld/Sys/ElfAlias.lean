import KernelOld.Sys.Elf

/-!
# Addresses that an ELF file reaches

`page_map_memory` finds its entry with the lowest three of the four indices of an address. The
loaded pages are kept in a log, each with the frame that `pmm_request` returned for it.
-/

namespace KernelOld.Elf
open ByteMemory MachineWord Paging Space Mmap LinkedList CountedLoop List

def pagesTo (data : Mem) (p : Phdr) (tmp i : ℕ) (st : Machine × PageMap) : Machine × PageMap :=
  loop (fun i => loadPage tmp (u64 (p.vaddr + i * 4096)) fun n =>
    data (u64 (p.offset + (i * 4096 + n)))) i st

def Phdr.pages (p : Phdr) : List ℕ :=
  (List.range (segmentSize p.memSz / 4096)).map fun i => u64 (p.vaddr + i * 4096) / 4096

def segmentLog (data : Mem) (p : Phdr) (tmp : ℕ) (st : Machine × PageMap) : List (ℕ × ℕ) :=
  (List.range (segmentSize p.memSz / 4096)).map fun i =>
    (u64 (p.vaddr + i * 4096) / 4096, (pagesTo data p tmp i st).1.nextFrame)

def headerLog (data : Mem) (allocs : ℕ → Alloc) (st : Machine × PageMap) (i : ℕ) :
    List (ℕ × ℕ) :=
  let p := phdr data i
  if p.type = ptLoad then
    match spaceAllocRegionAt p.vaddr (segmentSize p.memSz) st.2.regions (allocs i).back
        (allocs i).new with
    | none => []
    | some regions => segmentLog data p (allocs i).tmp (setRegions st regions)
  else []

def headersLog (data : Mem) (allocs : ℕ → Alloc) : Machine × PageMap → List ℕ → List (ℕ × ℕ)
  | _, [] => []
  | st, i :: is =>
    headerLog data allocs st i ++
      match loadHeader data allocs st i with
      | none => []
      | some st => headersLog data allocs st is

def elfLog (data : Mem) (allocs : ℕ → Alloc) (st : Machine × PageMap) : List (ℕ × ℕ) :=
  headersLog data allocs st (List.range (phNum data))

def frameFor (log : List (ℕ × ℕ)) (q : ℕ) : Option ℕ :=
  (log.reverse.find? fun e => e.1 = q).map Prod.snd

def Canonical (v : ℕ) : Prop := v < 2 ^ 47 ∨ 2 ^ 64 - 2 ^ 47 ≤ v ∧ v < 2 ^ 64

def Declared (data : Mem) (v : ℕ) : Prop :=
  ∃ p ∈ segments data, ∃ b, b / 4096 = v / 4096 ∧ p.vaddr ≤ b ∧ b < p.vaddr + p.memSz

/-- The pages of the segments are where the file has them, and nothing else has changed. -/
structure NoAlias (data : Mem) (log : List (ℕ × ℕ)) (st st' : Machine × PageMap) : Prop where
  loaded : ∀ p ∈ segments data, ∀ a < 2 ^ 64, 4096 ∣ a → p.vaddr ≤ a → a < p.vaddr + p.memSz →
    frameFor log (a / 4096) = some (pageGetphys st'.1 a st'.2)
  unchanged : ∀ v, Canonical v → ¬Declared data v →
    pageGetphys st'.1 v st'.2 = pageGetphys st.1 v st.2

def loadedPages (data : Mem) : List ℕ := (segments data).flatMap Phdr.pages

def slot (q : ℕ) : ℕ := q % 2 ^ 27

/-- Every page of a segment has an entry that `page_getphys` finds and no later page takes over, and
no other entry is used. -/
structure Unaliased (data : Mem) : Prop where
  own : ∀ p ∈ segments data, ∀ a < 2 ^ 64, 4096 ∣ a → p.vaddr ≤ a → a < p.vaddr + p.memSz →
    pml4Idx a = 0 ∧
      (loadedPages data).reverse.find? (fun q => slot q = slot (a / 4096)) = some (a / 4096)
  declared : ∀ q ∈ loadedPages data, Declared data (slot q * 4096)

variable {data : Mem} {allocs : ℕ → Alloc} {s₀ s : Machine} {o : Owner} {view : EntryView}
  {st st' : Machine × PageMap} {log : List (ℕ × ℕ)} {i n q v virt phys : ℕ}

/-! ## The log and the entries -/

theorem indices_eq_iff_slot :
    (pdpIdx v = pdpIdx virt ∧ pdIdx v = pdIdx virt ∧ ptIdx v = ptIdx virt) ↔
      slot (v / 4096) = slot (virt / 4096) := by
  simp only [pdpIdx_eq, pdIdx_eq, ptIdx_eq, slot]
  omega

theorem frame_mapped_slot (L : ℕ → ℕ → Bool) :
    EntryView.frame ⟨mapped virt phys view.entries, L⟩ v =
      if slot (v / 4096) = slot (virt / 4096) then frameOf (BitVec.ofNat 64 phys)
      else view.frame v := by
  change frameOf (mapped virt phys view.entries (pdpIdx v) (pdIdx v) (ptIdx v)) = _
  rw [mapped]
  simp only [indices_eq_iff_slot]
  split
  · rw [frameOf_mapped]
  · rfl

def lastIn (log : List (ℕ × ℕ)) (q : ℕ) : Option (ℕ × ℕ) :=
  log.reverse.find? fun e => slot e.1 = slot q

theorem lastIn_concat (log : List (ℕ × ℕ)) (e : ℕ × ℕ) (q : ℕ) :
    lastIn (log ++ [e]) q = if slot e.1 = slot q then some e else lastIn log q := by
  rw [lastIn, reverse_append, reverse_singleton, singleton_append, find?_cons]
  by_cases h : slot e.1 = slot q
  · rw [if_pos h, decide_eq_true h]
  · rw [if_neg h, decide_eq_false h]
    rfl

structure Logged (s₀ : Machine) (st : Machine × PageMap) (o : Owner) (view : EntryView)
    (log : List (ℕ × ℕ)) : Prop where
  seen : Seen s₀ st o view
  frame_eq : ∀ v, view.frame v =
    ((lastIn log (v / 4096)).map fun e => frameOf (BitVec.ofNat 64 e.2)).getD 0
  taken : ∀ e ∈ log, ∃ n < st.1.frames, e.2 = s₀.frameAt n
  nodup : (log.map Prod.snd).Nodup

theorem logged_pageMkMap (hs : Supplies s) : ∃ o, Logged s (pageMkMap s) o .empty [] := by
  obtain ⟨o, h⟩ := contents_pageMkMap hs
  refine ⟨o, h.toSeen, fun v => ?_, fun e he => absurd he not_mem_nil, nodup_nil⟩
  exact frameOf_zero

theorem Logged.setRegions (h : Logged s₀ st o view log) (regions : ListT Region) :
    Logged s₀ (setRegions st regions) o view log :=
  ⟨seen_setRegions h.seen regions, h.frame_eq, h.taken, h.nodup⟩

theorem Logged.loadPage {tmp : ℕ} (h : Logged s₀ st o view log) (bytes : ℕ → UInt8)
    (htmp : ∀ n, s₀.pageAt n ≠ tmp) (virt : ℕ) :
    ∃ o' view', Logged s₀ (loadPage tmp virt bytes st) o' view'
      (log ++ [(virt / 4096, st.1.nextFrame)]) := by
  obtain ⟨htook, o', hseen⟩ := mapsNew_loadPage virt bytes (fun n _ => htmp n) st o view h.seen
    (Nat.le_refl _)
  have hframe : st.1.nextFrame = s₀.frameAt st.1.frames := by
    rw [Machine.nextFrame, h.seen.frameAt_eq]
  refine ⟨o', _, hseen, fun v => ?_, fun e he => ?_, ?_⟩
  · rw [frame_mapped_slot, lastIn_concat, h.frame_eq]
    by_cases hslot : slot (v / 4096) = slot (virt / 4096)
    · rw [if_pos hslot, if_pos hslot.symm]
      rfl
    · rw [if_neg hslot, if_neg (Ne.symm hslot)]
  · rcases mem_append.mp he with he | he
    · obtain ⟨n, hn, heq⟩ := h.taken e he
      exact ⟨n, hn.trans htook.frames_lt, heq⟩
    · rw [mem_singleton.mp he]
      exact ⟨st.1.frames, htook.frames_lt, hframe⟩
  · rw [map_append, map_singleton, (perm_append_singleton _ _).nodup_iff]
    refine nodup_cons.mpr ⟨fun hmem => ?_, h.nodup⟩
    obtain ⟨e, he, heq⟩ := mem_map.mp hmem
    obtain ⟨n, hn, hen⟩ := h.taken e he
    have hinj : n = st.1.frames := by
      apply h.seen.valid.frame_inj
      rw [h.seen.frameAt_eq, ← hen, heq]
      exact hframe
    exact absurd hn (by rw [hinj]; exact Nat.lt_irrefl _)

/-! ## The log of `elf_load` -/

theorem Logged.pages {p : Phdr} {tmp : ℕ} (h : Logged s₀ st o view log)
    (htmp : ∀ n, s₀.pageAt n ≠ tmp) (n : ℕ) :
    ∃ o' view', Logged s₀ (pagesTo data p tmp n st) o' view'
      (log ++ (List.range n).map fun i =>
        (u64 (p.vaddr + i * 4096) / 4096, (pagesTo data p tmp i st).1.nextFrame)) := by
  induction n with
  | zero =>
    rw [range_zero, map_nil, append_nil, pagesTo, loop_zero]
    exact ⟨o, view, h⟩
  | succ n ih =>
    obtain ⟨o', view', h'⟩ := ih
    have hnext : pagesTo data p tmp (n + 1) st = Space.loadPage tmp (u64 (p.vaddr + n * 4096))
        (fun m => data (u64 (p.offset + (n * 4096 + m)))) (pagesTo data p tmp n st) :=
      loop_succ ..
    rw [range_succ, map_append, ← append_assoc, hnext]
    exact h'.loadPage (fun m => data (u64 (p.offset + (n * 4096 + m)))) htmp
      (u64 (p.vaddr + n * 4096))

theorem loadHeader_cases (h : loadHeader data allocs st i = some st') :
    ((phdr data i).type = ptLoad ∧ ∃ regions,
      spaceAllocRegionAt (phdr data i).vaddr (segmentSize (phdr data i).memSz) st.2.regions
        (allocs i).back (allocs i).new = some regions ∧
      st' = pagesTo data (phdr data i) (allocs i).tmp (segmentSize (phdr data i).memSz / 4096)
        (setRegions st regions)) ∨
    (phdr data i).type ≠ ptLoad ∧ st' = st := by
  obtain ⟨-, hheader⟩ := Option.ite_none_right_eq_some.mp h
  by_cases htype : (phdr data i).type = ptLoad
  · rw [if_pos htype] at hheader
    obtain ⟨regions, hregions, hrest⟩ := Option.bind_eq_some_iff.mp hheader
    obtain ⟨-, hst⟩ := Option.ite_none_right_eq_some.mp hrest
    exact Or.inl ⟨htype, regions, hregions, (Option.some.inj hst).symm⟩
  · rw [if_neg htype] at hheader
    exact Or.inr ⟨htype, (Option.some.inj hheader).symm⟩

theorem Logged.header (h : Logged s₀ st o view log) (htmp : ∀ n, s₀.pageAt n ≠ (allocs i).tmp)
    (hload : loadHeader data allocs st i = some st') :
    ∃ o' view', Logged s₀ st' o' view' (log ++ headerLog data allocs st i) := by
  rcases loadHeader_cases hload with ⟨htype, regions, hregions, rfl⟩ | ⟨htype, rfl⟩
  · simp only [headerLog, if_pos htype, hregions]
    exact (h.setRegions regions).pages htmp _
  · rw [headerLog, if_neg htype, append_nil]
    exact ⟨o, view, h⟩

theorem headerLog_pages (hload : loadHeader data allocs st i = some st') :
    (headerLog data allocs st i).map Prod.fst = (loads data [i]).flatMap Phdr.pages := by
  rcases loadHeader_cases hload with ⟨htype, regions, hregions, -⟩ | ⟨htype, -⟩
  · have hloads : loads data [i] = [phdr data i] := by simp [loads, htype]
    rw [hloads, flatMap_singleton]
    simp only [headerLog, if_pos htype, hregions, segmentLog, map_map]
    rfl
  · have hloads : loads data [i] = [] := by simp [loads, htype]
    rw [hloads, headerLog, if_neg htype]
    rfl

theorem Logged.headers {is : List ℕ} (h : Logged s₀ st o view log)
    (htmp : ∀ i n, s₀.pageAt n ≠ (allocs i).tmp)
    (hload : is.foldlM (loadHeader data allocs) st = some st') :
    (∃ o' view', Logged s₀ st' o' view' (log ++ headersLog data allocs st is)) ∧
      (headersLog data allocs st is).map Prod.fst = (loads data is).flatMap Phdr.pages := by
  induction is generalizing st o view log with
  | nil =>
    obtain rfl := Option.some.inj hload
    rw [headersLog, append_nil]
    exact ⟨⟨o, view, h⟩, rfl⟩
  | cons i is ih =>
    rw [foldlM_cons] at hload
    obtain ⟨st₁, hheader, hrest⟩ := Option.bind_eq_some_iff.mp hload
    obtain ⟨o₁, view₁, h₁⟩ := h.header (htmp i) hheader
    obtain ⟨hlogged, hpages⟩ := ih h₁ hrest
    have hloads : loads data (i :: is) = loads data [i] ++ loads data is := by
      rw [loads, loads, loads, ← filter_append, ← map_append, singleton_append]
    rw [headersLog, hheader]
    dsimp only
    refine ⟨by rwa [append_assoc] at hlogged, ?_⟩
    rw [map_append, headerLog_pages hheader, hpages, hloads, flatMap_append]

/-! ## Aliases -/

theorem Logged.pageGetphys_eq (h : Logged s₀ st o view log) (hreach : InReach st.1) (v : ℕ) :
    pageGetphys st.1 v st.2 =
      if pml4Idx v = 0 then ((lastIn log (v / 4096)).map Prod.snd).getD 0 else 0 := by
  rw [h.seen.shows.pageGetphys_ite, h.frame_eq]
  congr 2
  cases hlast : lastIn log (v / 4096) with
  | none => rfl
  | some e =>
    obtain ⟨n, hn, hen⟩ := h.taken e (mem_reverse.mp (mem_of_find?_eq_some hlast))
    have hlt : e.2 < 2 ^ 52 := by
      rw [hen, ← h.seen.frameAt_eq]
      exact hreach n hn
    have haligned : 4096 ∣ e.2 := by
      rw [hen, ← h.seen.frameAt_eq]
      exact h.seen.valid.frame_aligned n
    rw [Option.map_some, Option.map_some, frameOf_ofNat haligned, Nat.mod_eq_of_lt hlt]

theorem find?_of_imp {α : Type} {P Q : α → Bool} {l : List α} {a : α}
    (h : l.find? P = some a) (hQ : Q a = true) (hPQ : ∀ b, Q b = true → P b = true) :
    l.find? Q = some a := by
  obtain ⟨hP, as, bs, rfl, has⟩ := find?_eq_some_iff_append.mp h
  refine find?_eq_some_iff_append.mpr ⟨hQ, as, bs, rfl, fun b hb => ?_⟩
  have hnot := has b hb
  rw [Bool.not_eq_true'] at hnot ⊢
  by_contra hQb
  rw [hPQ b (by simpa using hQb)] at hnot
  cases hnot

theorem mem_of_lastIn {e : ℕ × ℕ} (hlast : lastIn log q = some e) :
    e ∈ log ∧ slot e.1 = slot q :=
  ⟨mem_reverse.mp (mem_of_find?_eq_some hlast), by simpa using find?_some hlast⟩

theorem exists_lastIn {e : ℕ × ℕ} (he : e ∈ log) (hslot : slot e.1 = slot q) :
    ∃ e', lastIn log q = some e' := by
  refine Option.isSome_iff_exists.mp (find?_isSome.mpr ⟨e, mem_reverse.mpr he, ?_⟩)
  exact decide_eq_true hslot

theorem lastIn_pages (log : List (ℕ × ℕ)) (q : ℕ) :
    (log.map Prod.fst).reverse.find? (fun q' => slot q' = slot q) =
      (lastIn log q).map Prod.fst := by
  rw [← map_reverse, find?_map, lastIn]
  rfl

/-- The frame for a page is the one that `page_getphys` gives when the page is the last in its
slot, and only then. -/
theorem frameFor_eq_iff (hnodup : (log.map Prod.snd).Nodup) (hne : ∀ e ∈ log, e.2 ≠ 0) (v : ℕ) :
    frameFor log (v / 4096) =
        some (if pml4Idx v = 0 then ((lastIn log (v / 4096)).map Prod.snd).getD 0 else 0) ↔
      pml4Idx v = 0 ∧
        (log.map Prod.fst).reverse.find? (fun q => slot q = slot (v / 4096)) =
          some (v / 4096) := by
  rw [lastIn_pages]
  constructor
  · intro h
    obtain ⟨e, hfind, hframe⟩ := Option.map_eq_some_iff.mp h
    have he : e ∈ log := mem_reverse.mp (mem_of_find?_eq_some hfind)
    have hpage : e.1 = v / 4096 := by simpa using find?_some hfind
    have hidx : pml4Idx v = 0 := by
      by_contra hidx
      rw [if_neg hidx] at hframe
      exact hne e he hframe
    obtain ⟨e', hlast⟩ := exists_lastIn he (congrArg slot hpage)
    rw [if_pos hidx, hlast] at hframe
    -- the two frames are one, so they were loaded at once
    have hsame : e = e' := by
      have hframe : e.2 = e'.2 := hframe
      exact inj_on_of_nodup_map hnodup he (mem_of_lastIn hlast).1 hframe
    rw [hlast, ← hsame, Option.map_some, hpage]
    exact ⟨hidx, rfl⟩
  · rintro ⟨hidx, hlast⟩
    obtain ⟨e, hlast, hpage⟩ := Option.map_eq_some_iff.mp hlast
    rw [if_pos hidx, hlast]
    have hfind : (log.reverse.find? fun e => e.1 = v / 4096) = some e := by
      refine find?_of_imp hlast (decide_eq_true hpage) fun e' he' => ?_
      exact decide_eq_true (congrArg slot (of_decide_eq_true he'))
    rw [frameFor, hfind]
    rfl

theorem canonical_slot (q : ℕ) : Canonical (slot q * 4096) := by
  rw [Canonical, slot]
  omega

theorem slot_of_canonical (hv : Canonical v) (hidx : pml4Idx v = 0) :
    slot (v / 4096) * 4096 / 4096 = v / 4096 := by
  rw [pml4Idx_eq] at hidx
  rw [Canonical] at hv
  rw [slot]
  omega

theorem declared_congr (hpage : v / 4096 = virt / 4096) : Declared data v ↔ Declared data virt := by
  rw [Declared, Declared, hpage]

theorem elfLoad_logged {info : Option ℕ} (hs : Supplies s)
    (htmp : ∀ i n, s.pageAt n ≠ (allocs i).tmp)
    (hload : elfLoad data allocs (pageMkMap s) = some (st', 0, info)) :
    (∃ o view, Logged s st' o view (elfLog data allocs (pageMkMap s))) ∧
      (elfLog data allocs (pageMkMap s)).map Prod.fst = loadedPages data := by
  obtain ⟨o₀, h₀⟩ := logged_pageMkMap hs
  rw [elfLoad] at hload
  split at hload
  · cases hload
  obtain ⟨st₁, hheaders, hret⟩ := Option.bind_eq_some_iff.mp hload
  cases hret
  exact h₀.headers htmp hheaders

theorem Logged.ne_zero (h : Logged s₀ st o view log) (hframe : ∀ n, s₀.frameAt n ≠ 0) :
    ∀ e ∈ log, e.2 ≠ 0 := by
  intro e he
  obtain ⟨n, -, hen⟩ := h.taken e he
  rw [hen]
  exact hframe n

theorem pageGetphys_pageMkMap (hs : Supplies s) (v : ℕ) :
    pageGetphys (pageMkMap s).1 v (pageMkMap s).2 = 0 := by
  obtain ⟨o, h⟩ := logged_pageMkMap hs
  rw [h.seen.shows.pageGetphys_ite, h.frame_eq]
  split <;> rfl

/-- After `elf_load` into a new space no address is an alias exactly when the headers are such
that every page of a segment has an entry of its own. -/
theorem elfLoad_noAlias_iff {info : Option ℕ} (hs : Supplies s) (hframe : ∀ n, s.frameAt n ≠ 0)
    (htmp : ∀ i n, s.pageAt n ≠ (allocs i).tmp)
    (hload : elfLoad data allocs (pageMkMap s) = some (st', 0, info)) (hreach : InReach st'.1) :
    NoAlias data (elfLog data allocs (pageMkMap s)) (pageMkMap s) st' ↔ Unaliased data := by
  obtain ⟨⟨o, view, h⟩, hpages⟩ := elfLoad_logged hs htmp hload
  set log := elfLog data allocs (pageMkMap s)
  have hne := h.ne_zero hframe
  have hafter := h.pageGetphys_eq hreach
  have hbefore := pageGetphys_pageMkMap hs
  constructor
  · intro halias
    refine ⟨fun p hp a ha hdvd hlo hhi => ?_, fun q hq => ?_⟩
    · have hloaded := halias.loaded p hp a ha hdvd hlo hhi
      rw [hafter, frameFor_eq_iff h.nodup hne, hpages] at hloaded
      exact hloaded
    · by_contra hundeclared
      have hsame := halias.unchanged _ (canonical_slot q) hundeclared
      rw [← hpages] at hq
      obtain ⟨e, he, rfl⟩ := mem_map.mp hq
      have hidx : pml4Idx (slot e.1 * 4096) = 0 := by
        apply pml4Idx_eq_zero
        rw [slot]
        omega
      have hslot : slot e.1 = slot (slot e.1 * 4096 / 4096) := by
        rw [Nat.mul_div_cancel _ (by decide), slot, slot, Nat.mod_mod]
      obtain ⟨e', hlast⟩ := exists_lastIn he hslot
      rw [hbefore, hafter, if_pos hidx, hlast] at hsame
      exact hne e' (mem_of_lastIn hlast).1 hsame
  · intro hown
    refine ⟨fun p hp a ha hdvd hlo hhi => ?_, fun v hv hundeclared => ?_⟩
    · rw [hafter, frameFor_eq_iff h.nodup hne, hpages]
      exact hown.own p hp a ha hdvd hlo hhi
    · rw [hbefore, hafter]
      by_cases hidx : pml4Idx v = 0
      · rw [if_pos hidx]
        cases hlast : lastIn log (v / 4096) with
        | none => rfl
        | some e =>
          obtain ⟨he, hslot⟩ := mem_of_lastIn hlast
          have hdeclared := hown.declared e.1 (hpages ▸ mem_map_of_mem he)
          rw [hslot] at hdeclared
          exact absurd ((declared_congr (slot_of_canonical hv hidx)).mp hdeclared) hundeclared
      · rw [if_neg hidx]

theorem unaliased_of_aligned (haligned : ∀ p ∈ segments data, 4096 ∣ p.vaddr)
    (hbelow : ∀ p ∈ segments data, p.vaddr + p.memSz ≤ 2 ^ 39) : Unaliased data := by
  have hlow : ∀ q ∈ loadedPages data, slot q = q ∧ Declared data (q * 4096) := by
    intro q hq
    obtain ⟨p, hp, hq⟩ := mem_flatMap.mp hq
    obtain ⟨i, hi, rfl⟩ := mem_map.mp hq
    have hend := hbelow p hp
    have hin := page_lt_memSz (mem_range.mp hi) (by omega)
    have hdvd := haligned p hp
    rw [u64_of_lt (by omega)]
    refine ⟨?_, p, hp, p.vaddr + i * 4096, ?_, by omega, by omega⟩
    · rw [slot]
      omega
    · rw [Nat.mul_div_cancel _ (by decide)]
  refine ⟨fun p hp a ha hdvd hlo hhi => ?_, fun q hq => ?_⟩
  · have hend := hbelow p hp
    have hstart := haligned p hp
    have hmem : a / 4096 ∈ loadedPages data := by
      refine mem_flatMap.mpr ⟨p, hp, mem_map.mpr ⟨(a - p.vaddr) / 4096, ?_, ?_⟩⟩
      · have hsize := le_segmentSize hend
        have hround := segmentSize_dvd p.memSz
        rw [mem_range]
        omega
      · rw [u64_of_lt (by omega)]
        omega
    refine ⟨pml4Idx_eq_zero (by omega), ?_⟩
    obtain ⟨q, hq⟩ : ∃ q, (loadedPages data).reverse.find?
        (fun q => slot q = slot (a / 4096)) = some q :=
      Option.isSome_iff_exists.mp
        (find?_isSome.mpr ⟨_, mem_reverse.mpr hmem, decide_eq_true rfl⟩)
    have hqmem := mem_reverse.mp (mem_of_find?_eq_some hq)
    have hslot : slot q = slot (a / 4096) := by simpa using find?_some hq
    rw [(hlow q hqmem).1, (hlow _ hmem).1] at hslot
    rw [hq, hslot]
  · obtain ⟨hslot, hdeclared⟩ := hlow q hq
    rwa [hslot]

/-! ## Two files of one page -/

theorem loaderStart_frame_ne (n : ℕ) : loaderStart.frameAt n ≠ 0 := by
  show (n + 256) * 4096 ≠ 0
  omega

theorem elfLoad_noAlias_iff_tiny :
    ∃ st', elfLoad (tinyElf 1) loaderAllocs (pageMkMap loaderStart) =
        some (st', 0, some (entry (tinyElf 1))) ∧
      NoAlias (tinyElf 1) (elfLog (tinyElf 1) loaderAllocs (pageMkMap loaderStart))
        (pageMkMap loaderStart) st' := by
  obtain ⟨st', hload, hreach⟩ := tiny_one.exists_load
  refine ⟨st', hload, (elfLoad_noAlias_iff supplies_loaderStart loaderStart_frame_ne
    loaderAllocs_tmp hload hreach).mpr (unaliased_of_aligned ?_ tiny_one.wellFormed.below)⟩
  rw [tiny_one.segments_eq]
  simp [tinyPhdr]

def highElf : Mem := Function.update (Function.update (tinyElf 1) 81 0) 84 0x80

def highPhdr : Phdr := { type := 1, offset := 0, vaddr := 2 ^ 39, fileSz := 1, memSz := 1 }

theorem highElf_num : phNum highElf = 1 := by decide +kernel

theorem highElf_phdr : phdr highElf 0 = highPhdr := by decide +kernel

theorem highElf_segments : segments highElf = [highPhdr] :=
  segments_single highElf_num highElf_phdr rfl

/-- The page at `2 ^ 39` is not there after the load, and the page at 0 is. -/
theorem highElf_aliases :
    ∃ st', elfLoad highElf loaderAllocs (pageMkMap loaderStart) =
        some (st', 0, some (entry highElf)) ∧
      segments highElf = [highPhdr] ∧ ¬Declared highElf 0 ∧
      pageGetphys (pageMkMap loaderStart).1 0 (pageMkMap loaderStart).2 = 0 ∧
      pageGetphys st'.1 0 st'.2 ≠ 0 ∧ pageGetphys st'.1 (2 ^ 39) st'.2 = 0 ∧
      ¬NoAlias highElf (elfLog highElf loaderAllocs (pageMkMap loaderStart))
        (pageMkMap loaderStart) st' := by
  obtain ⟨st', hload, hreach⟩ :=
    exists_load_onePage (by decide +kernel) highElf_num highElf_phdr rfl rfl
  obtain ⟨⟨o, view, h⟩, hpages⟩ := elfLoad_logged supplies_loaderStart loaderAllocs_tmp hload
  have hundeclared : ¬Declared highElf 0 := by
    rintro ⟨p, hp, b, hpage, hlo, -⟩
    rw [highElf_segments, mem_singleton] at hp
    subst hp
    have hlo : 2 ^ 39 ≤ b := hlo
    omega
  have hbefore := pageGetphys_pageMkMap supplies_loaderStart 0
  have hafter : pageGetphys st'.1 0 st'.2 ≠ 0 := by
    have hmem : 2 ^ 27 ∈ loadedPages highElf := by
      rw [loadedPages, highElf_segments]
      decide
    rw [← hpages] at hmem
    obtain ⟨e, he, hpage⟩ := mem_map.mp hmem
    obtain ⟨e', hlast⟩ := exists_lastIn (q := 0) he (by rw [hpage]; rfl)
    rw [h.pageGetphys_eq hreach, if_pos (by decide), Nat.zero_div, hlast]
    exact h.ne_zero loaderStart_frame_ne e' (mem_of_lastIn hlast).1
  have hhigh : pageGetphys st'.1 (2 ^ 39) st'.2 = 0 := by
    rw [h.pageGetphys_eq hreach, if_neg (by decide)]
  refine ⟨st', hload, highElf_segments, hundeclared, hbefore, hafter, hhigh, fun halias => ?_⟩
  exact hafter ((halias.unchanged 0 (Or.inl (by decide)) hundeclared).trans hbefore)

end KernelOld.Elf
