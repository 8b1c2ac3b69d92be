import KernelOld.Mem.Space.UserMemory
import KernelOld.Sys.MmapRuns

/-!
# Loading an ELF file

`elf_load` of `src/util/elf.c`, with `check_elf_hdr` of `src/sched/sched.c`. `data` gives the bytes
of the file, also those behind its end. `elf_load` copies whole pages: a segment that does not start
on a page is shifted, nothing is cleared behind `file_sz`, and a page that two segments share is
loaded for the second one only.
-/

namespace KernelOld.Elf
open ByteMemory MachineWord Space Mmap LinkedList CountedLoop List

structure Phdr where
  type : ℕ
  offset : ℕ
  vaddr : ℕ
  fileSz : ℕ
  memSz : ℕ
deriving DecidableEq

def ptLoad : ℕ := 1

def entry (data : Mem) : ℕ := load data 24 8
def phOff (data : Mem) : ℕ := load data 32 8
def phEntSize (data : Mem) : ℕ := load data 54 2
def phNum (data : Mem) : ℕ := load data 56 2

def checkElfHdr (data : Mem) : Bool :=
  !(data 0 != 0x7f || data 1 != 0x45 || data 2 != 0x4c || data 3 != 0x46) && data 4 == 2

def phdr (data : Mem) (i : ℕ) : Phdr :=
  let a := u64 (phOff data + phEntSize data * i)
  { type := load data a 4
    offset := load data (a + 8) 8
    vaddr := load data (a + 16) 8
    fileSz := load data (a + 32) 8
    memSz := load data (a + 40) 8 }

/-- The buffer and the two nodes that `kmalloc` returns for a header. -/
structure Alloc where
  tmp : ℕ
  back : ℕ
  new : ℕ

/-- One round of the loop over the headers. `ph_ent_size * i` is an `int`; there is no result
when it overflows. -/
def loadHeader (data : Mem) (allocs : ℕ → Alloc) (st : Machine × PageMap) (i : ℕ) :
    Option (Machine × PageMap) :=
  let p := phdr data i
  if phEntSize data * i < 2 ^ 31 then
    if p.type = ptLoad then
      loadSegment p.vaddr p.memSz (allocs i).tmp (fun n => data (u64 (p.offset + n)))
        (allocs i).back (allocs i).new st
    else some st
  else none

def elfLoad (data : Mem) (allocs : ℕ → Alloc) (st : Machine × PageMap) :
    Option ((Machine × PageMap) × ℕ × Option ℕ) :=
  if !checkElfHdr data then some (st, 1, none)
  else do
    let st ← (List.range (phNum data)).foldlM (loadHeader data allocs) st
    some (st, 0, some (entry data))

/-! ## What a file should look like in memory -/

def loads (data : Mem) (is : List ℕ) : List Phdr :=
  (is.map (phdr data)).filter fun p => p.type = ptLoad

def segments (data : Mem) : List Phdr := loads data (List.range (phNum data))

theorem segments_single {data : Mem} {p : Phdr} (hnum : phNum data = 1) (hphdr : phdr data 0 = p)
    (htype : p.type = ptLoad) : segments data = [p] := by
  rw [segments, loads, hnum, range_one, map_singleton, hphdr, filter_cons,
    if_pos (decide_eq_true htype), filter_nil]

/-- An ELF file with its headers and segments inside, and segments that do not overlap. -/
structure WellFormed (data : Mem) (size : ℕ) : Prop where
  size_lt : size < 2 ^ 64
  headers : ∀ i < phNum data, phOff data + phEntSize data * i + 56 ≤ size
  fileSz_le : ∀ p ∈ segments data, p.fileSz ≤ p.memSz
  inside : ∀ p ∈ segments data, p.offset + p.fileSz ≤ size
  below : ∀ p ∈ segments data, p.vaddr + p.memSz ≤ 2 ^ 39
  congruent : ∀ p ∈ segments data, p.offset % 4096 = p.vaddr % 4096
  disjoint : (segments data).Pairwise fun p q =>
    p.vaddr + p.memSz ≤ q.vaddr ∨ q.vaddr + q.memSz ≤ p.vaddr

def Phdr.wanted (data : Mem) (p : Phdr) (k : ℕ) : UInt8 :=
  if k < p.fileSz then data (p.offset + k) else 0

/-- The process reads in each segment what the file has there, and zeros behind it. -/
def ImageLoaded (data : Mem) (st : Machine × PageMap) : Prop :=
  ∀ p ∈ segments data, ∀ k < p.memSz, userRead st.1 st.2 (p.vaddr + k) = some (p.wanted data k)

/-! ## What `elf_load` puts there -/

def Phdr.Covers (p : Phdr) (v : ℕ) : Prop :=
  p.vaddr / 4096 ≤ v / 4096 ∧ v / 4096 < p.vaddr / 4096 + segmentSize p.memSz / 4096

instance (p : Phdr) (v : ℕ) : Decidable (p.Covers v) := inferInstanceAs (Decidable (_ ∧ _))

def Phdr.source (p : Phdr) (v : ℕ) : ℕ := u64 (p.offset + (v - p.vaddr / 4096 * 4096))

def put (data : Mem) (byte : ℕ → Option UInt8) (p : Phdr) (v : ℕ) : Option UInt8 :=
  if p.Covers v then some (data (p.source v)) else byte v

def image (data : Mem) (ps : List Phdr) : ℕ → Option UInt8 := ps.foldl (put data) fun _ => none

/-- In the file, `b` stands where the last segment whose pages hold `v` has its byte for `v`. -/
def TakenFrom (data : Mem) (ps : List Phdr) (v : ℕ) (b : UInt8) : Prop :=
  ∃ l p r, ps = l ++ p :: r ∧ p.Covers v ∧ (∀ q ∈ r, ¬q.Covers v) ∧ data (p.source v) = b

variable {data : Mem} {allocs : ℕ → Alloc} {s₀ s : Machine} {o : Owner} {view : EntryView}
  {st st' : Machine × PageMap} {byte : ℕ → Option UInt8} {ps : List Phdr} {b : UInt8}
  {size i v : ℕ}

theorem image_concat (data : Mem) (ps : List Phdr) (p : Phdr) (v : ℕ) :
    image data (ps ++ [p]) v =
      if p.Covers v then some (data (p.source v)) else image data ps v := by
  rw [image, foldl_append]
  rfl

theorem takenFrom_concat {p : Phdr} :
    TakenFrom data (ps ++ [p]) v b ↔
      if p.Covers v then data (p.source v) = b else TakenFrom data ps v b := by
  constructor
  · rintro ⟨l, q, r, heq, hq, hr, hb⟩
    rcases eq_nil_or_concat' r with rfl | ⟨r, x, rfl⟩
    · obtain ⟨-, rfl⟩ := append_singleton_inj.mp heq
      rw [if_pos hq]
      exact hb
    · rw [← cons_append, ← append_assoc] at heq
      obtain ⟨rfl, rfl⟩ := append_singleton_inj.mp heq
      rw [if_neg (hr p (by simp))]
      exact ⟨l, q, r, rfl, hq, fun q' hq' => hr q' (mem_append_left _ hq'), hb⟩
  · by_cases hp : p.Covers v
    · rw [if_pos hp]
      intro hb
      exact ⟨ps, p, [], rfl, hp, by simp, hb⟩
    · rw [if_neg hp]
      rintro ⟨l, q, r, rfl, hq, hr, hb⟩
      refine ⟨l, q, r ++ [p], by simp, hq, fun q' hq' => ?_, hb⟩
      rcases mem_append.mp hq' with hq' | hq'
      · exact hr q' hq'
      · rwa [mem_singleton.mp hq']

theorem image_eq_some_iff : image data ps v = some b ↔ TakenFrom data ps v b := by
  induction ps using List.reverseRecOn with
  | nil => simp [image, TakenFrom]
  | append_singleton ps p ih =>
    rw [image_concat, takenFrom_concat]
    split
    · exact Option.some_inj
    · exact ih

theorem page_lt_memSz {memSz : ℕ} (hi : i < segmentSize memSz / 4096) (hsz : memSz ≤ 2 ^ 39) :
    i * 4096 < memSz := by
  rw [segmentSize] at hi
  split at hi
  · rw [u64_of_lt (by omega)] at hi
    omega
  · omega

theorem le_segmentSize {vaddr memSz : ℕ} (hsz : vaddr + memSz ≤ 2 ^ 39) :
    memSz ≤ segmentSize memSz := by
  rw [segmentSize]
  split
  · rw [u64_of_lt (by omega)]
    omega
  · exact Nat.le_refl _

theorem contents_setRegions (h : Contents s₀ st o view byte) (regions : ListT Region) :
    Contents s₀ (setRegions st regions) o view byte :=
  ⟨seen_setRegions h.toSeen regions, h.small, h.absent, h.held⟩

theorem contents_loadSegment {p : Phdr} {a : Alloc} (h : Contents s₀ st o view byte)
    (htmp : ∀ n, s₀.pageAt n ≠ a.tmp) (hbelow : p.vaddr + p.memSz ≤ 2 ^ 39)
    (hload : loadSegment p.vaddr p.memSz a.tmp (fun n => data (u64 (p.offset + n))) a.back a.new
      st = some st') :
    ∃ o' view', Contents s₀ st' o' view' (put data byte p) := by
  obtain ⟨regions, -, hrest⟩ := Option.bind_eq_some_iff.mp hload
  obtain ⟨-, hst⟩ := Option.ite_none_right_eq_some.mp hrest
  obtain rfl := Option.some.inj hst
  -- after `i` rounds the first `i` pages are there
  have hrounds := loop_induction
    (f := fun i => loadPage a.tmp (u64 (p.vaddr + i * 4096)) fun n =>
      data (u64 (p.offset + (i * 4096 + n))))
    (I := fun i st => ∃ o' view', Contents s₀ st o' view' fun v =>
      if p.vaddr / 4096 ≤ v / 4096 ∧ v / 4096 < p.vaddr / 4096 + i then
        some (data (p.source v))
      else byte v)
    (s := setRegions st regions) (segmentSize p.memSz / 4096) ?_ ?_
  · exact hrounds
  · refine ⟨o, view, ?_⟩
    convert contents_setRegions h regions using 2 with v
    rw [if_neg (by omega)]
  · rintro i st' hi ⟨o', view', h'⟩
    have hin : i * 4096 < p.memSz := page_lt_memSz hi (by omega)
    rw [u64_of_lt (by omega)]
    obtain ⟨o'', view'', h''⟩ := h'.loadPage
      (fun n => data (u64 (p.offset + (i * 4096 + n)))) htmp
      (show p.vaddr + i * 4096 < 2 ^ 39 by omega)
    refine ⟨o'', view'', ?_⟩
    convert h'' using 2 with v
    by_cases hlast : v / 4096 = (p.vaddr + i * 4096) / 4096
    · have hsource : v - p.vaddr / 4096 * 4096 = i * 4096 + v % 4096 := by omega
      rw [if_pos hlast, if_pos (by omega), Phdr.source, hsource]
    · rw [if_neg hlast]
      by_cases hbefore : p.vaddr / 4096 ≤ v / 4096 ∧ v / 4096 < p.vaddr / 4096 + i
      · rw [if_pos hbefore, if_pos (by omega)]
      · rw [if_neg hbefore, if_neg (by omega)]

theorem contents_loadHeaders {is : List ℕ} (h : Contents s₀ st o view byte)
    (htmp : ∀ i n, s₀.pageAt n ≠ (allocs i).tmp)
    (hbelow : ∀ p ∈ loads data is, p.vaddr + p.memSz ≤ 2 ^ 39)
    (hload : is.foldlM (loadHeader data allocs) st = some st') :
    ∃ o' view', Contents s₀ st' o' view' ((loads data is).foldl (put data) byte) := by
  induction is generalizing st o view byte with
  | nil =>
    obtain rfl := Option.some.inj hload
    exact ⟨o, view, h⟩
  | cons i is ih =>
    rw [foldlM_cons] at hload
    obtain ⟨st₁, hheader, hrest⟩ := Option.bind_eq_some_iff.mp hload
    obtain ⟨-, hheader⟩ := Option.ite_none_right_eq_some.mp hheader
    by_cases htype : (phdr data i).type = ptLoad
    · have hcons : loads data (i :: is) = phdr data i :: loads data is := by
        simp [loads, htype]
      rw [if_pos htype] at hheader
      rw [hcons] at hbelow ⊢
      obtain ⟨o₁, view₁, h₁⟩ := contents_loadSegment h (htmp i)
        (hbelow _ mem_cons_self) hheader
      exact ih h₁ (fun p hp => hbelow p (mem_cons_of_mem _ hp)) hrest
    · have hskip : loads data (i :: is) = loads data is := by simp [loads, htype]
      rw [if_neg htype] at hheader
      obtain rfl := Option.some.inj hheader
      rw [hskip] at hbelow ⊢
      exact ih h hbelow hrest

theorem elfLoad_userRead {info : Option ℕ} (hs : Supplies s)
    (hbelow : ∀ p ∈ segments data, p.vaddr + p.memSz ≤ 2 ^ 39)
    (htmp : ∀ i n, s.pageAt n ≠ (allocs i).tmp)
    (hload : elfLoad data allocs (pageMkMap s) = some (st', 0, info)) (hreach : InReach st'.1)
    (hv : v < 2 ^ 39) : userRead st'.1 st'.2 v = image data (segments data) v := by
  obtain ⟨o, h⟩ := contents_pageMkMap hs
  rw [elfLoad] at hload
  split at hload
  · cases hload
  · obtain ⟨st₁, hheaders, hret⟩ := Option.bind_eq_some_iff.mp hload
    cases hret
    obtain ⟨o', view', h'⟩ := contents_loadHeaders h htmp hbelow hheaders
    exact h'.userRead_eq hreach hv

/-- After a successful `elf_load` the image is the one of the file exactly when the right bytes
stand where `elf_load` takes them from. -/
theorem elfLoad_image_iff {info : Option ℕ} (hs : Supplies s) (hfile : WellFormed data size)
    (htmp : ∀ i n, s.pageAt n ≠ (allocs i).tmp)
    (hload : elfLoad data allocs (pageMkMap s) = some (st', 0, info)) (hreach : InReach st'.1) :
    ImageLoaded data st' ↔ ∀ p ∈ segments data, ∀ k < p.memSz,
      TakenFrom data (segments data) (p.vaddr + k) (p.wanted data k) := by
  refine forall_congr' fun p => forall_congr' fun hp => forall_congr' fun k =>
    forall_congr' fun hk => ?_
  have hv : p.vaddr + k < 2 ^ 39 := by
    have := hfile.below p hp
    omega
  rw [elfLoad_userRead hs hfile.below htmp hload hreach hv, image_eq_some_iff]

/-- This is so when every segment starts on a page, no two share a page, and the file goes on
with zeros behind each segment, up to its size in memory. -/
theorem takenFrom_of_aligned (hfile : WellFormed data size)
    (haligned : ∀ p ∈ segments data, 4096 ∣ p.vaddr)
    (hpages : (segments data).Pairwise fun p q => ∀ v, p.Covers v → ¬q.Covers v)
    (hzero : ∀ p ∈ segments data, ∀ k < p.memSz, p.fileSz ≤ k → data (u64 (p.offset + k)) = 0) :
    ∀ p ∈ segments data, ∀ k < p.memSz,
      TakenFrom data (segments data) (p.vaddr + k) (p.wanted data k) := by
  intro p hp k hk
  have hstart := haligned p hp
  have hsize := le_segmentSize (hfile.below p hp)
  have hcovers : p.Covers (p.vaddr + k) := by
    have hdvd := segmentSize_dvd p.memSz
    rw [Phdr.Covers]
    omega
  have hsource : p.source (p.vaddr + k) = u64 (p.offset + k) := by
    rw [Phdr.source]
    congr 2
    omega
  obtain ⟨l, r, hsplit⟩ := append_of_mem hp
  refine ⟨l, p, r, hsplit, hcovers, fun q hq => ?_, ?_⟩
  · rw [hsplit, pairwise_append, pairwise_cons] at hpages
    exact hpages.2.1.1 q hq _ hcovers
  · rw [hsource, Phdr.wanted]
    by_cases hin : k < p.fileSz
    · have hlt := hfile.inside p hp
      have hsz := hfile.size_lt
      rw [if_pos hin, u64_of_lt (by omega)]
    · rw [if_neg hin]
      exact hzero p hp k hk (Nat.le_of_not_lt hin)

/-- The header, and one program header for a segment at `0x1000` with the first byte of the file. -/
def tinyBytes (memSz : UInt8) : List UInt8 :=
  [0x7f, 0x45, 0x4c, 0x46, 2, 1, 1, 0, 0, 0, 0, 0, 0, 0, 0, 0,
    2, 0, 62, 0, 1, 0, 0, 0, 0, 0x10, 0, 0, 0, 0, 0, 0,
    64, 0, 0, 0, 0, 0, 0, 0, 0, 0, 0, 0, 0, 0, 0, 0,
    0, 0, 0, 0, 64, 0, 56, 0, 1, 0, 0, 0, 0, 0, 0, 0,
    1, 0, 0, 0, 5, 0, 0, 0, 0, 0, 0, 0, 0, 0, 0, 0,
    0, 0x10, 0, 0, 0, 0, 0, 0, 0, 0x10, 0, 0, 0, 0, 0, 0,
    1, 0, 0, 0, 0, 0, 0, 0, memSz, 0, 0, 0, 0, 0, 0, 0,
    0, 0x10, 0, 0, 0, 0, 0, 0]

def tinyElf (memSz : UInt8) : Mem := fun a => (tinyBytes memSz).getD a 0

def tinyPhdr (memSz : ℕ) : Phdr :=
  { type := 1, offset := 0, vaddr := 0x1000, fileSz := 1, memSz := memSz }

def loaderStart : Machine := { startMachine 0 with pageAt := fun n => (n + 2) * 4096 }

def loaderAllocs (_i : ℕ) : Alloc := { tmp := 4096, back := 1, new := 2 }

theorem supplies_loaderStart : Supplies loaderStart where
  page_inj m n h := by
    have : (m + 2) * 4096 = (n + 2) * 4096 := h
    omega
  page_ne n := by
    show (n + 2) * 4096 ≠ 0
    omega
  frame_inj := (supplies_start : Supplies (startMachine 0)).frame_inj
  frame_aligned := (supplies_start : Supplies (startMachine 0)).frame_aligned

theorem loaderAllocs_tmp (i n : ℕ) : loaderStart.pageAt n ≠ (loaderAllocs i).tmp := by
  show (n + 2) * 4096 ≠ 4096
  omega

theorem elfLoad_onePage {p : Phdr} (hcheck : checkElfHdr data = true) (hnum : phNum data = 1)
    (hphdr : phdr data 0 = p) (htype : p.type = ptLoad) (hsize : segmentSize p.memSz = 4096) :
    ∃ bytes, elfLoad data loaderAllocs (pageMkMap loaderStart) =
      some (loadPage 4096 (u64 (p.vaddr + 0 * 4096)) bytes (setRegions (pageMkMap loaderStart)
        (listPushBack listCreate ⟨p.vaddr, u64 (p.vaddr + 4096)⟩ 1)), 0, some (entry data)) := by
  have halloc : spaceAllocRegionAt p.vaddr 4096 (pageMkMap loaderStart).2.regions 1 2 =
      some (listPushBack listCreate ⟨p.vaddr, u64 (p.vaddr + 4096)⟩ 1) := by
    rw [pageMkMap_regions, spaceAllocRegionAt, holds_listCreate.listValues_eq (by decide)]
    rfl
  have hheader : loadHeader data loaderAllocs (pageMkMap loaderStart) 0 =
      some (loadPage 4096 (u64 (p.vaddr + 0 * 4096))
        (fun n => data (u64 (p.offset + (0 * 4096 + n)))) (setRegions (pageMkMap loaderStart)
          (listPushBack listCreate ⟨p.vaddr, u64 (p.vaddr + 4096)⟩ 1))) := by
    rw [loadHeader, hphdr, if_pos (by simp)]
    show (if p.type = ptLoad then loadSegment p.vaddr p.memSz 4096
      (fun n => data (u64 (p.offset + n))) 1 2 (pageMkMap loaderStart) else _) = _
    rw [if_pos htype, loadSegment, hsize, halloc]
    show some (loop _ 1 _) = _
    rw [loop_succ, loop_zero]
  refine ⟨fun n => data (u64 (p.offset + (0 * 4096 + n))), ?_⟩
  rw [elfLoad, hcheck, hnum, range_one, foldlM_cons, hheader]
  rfl

theorem exists_load_onePage {p : Phdr} (hcheck : checkElfHdr data = true)
    (hnum : phNum data = 1) (hphdr : phdr data 0 = p) (htype : p.type = ptLoad)
    (hsize : segmentSize p.memSz = 4096) :
    ∃ st', elfLoad data loaderAllocs (pageMkMap loaderStart) = some (st', 0, some (entry data)) ∧
      InReach st'.1 := by
  obtain ⟨bytes, hload⟩ := elfLoad_onePage hcheck hnum hphdr htype hsize
  refine ⟨_, hload, ?_⟩
  obtain ⟨o, hc⟩ := contents_pageMkMap supplies_loaderStart
  have hseen := seen_setRegions hc.toSeen
    (listPushBack listCreate ⟨p.vaddr, u64 (p.vaddr + 4096)⟩ 1)
  obtain ⟨htook, o', hseen'⟩ := mapsNew_loadPage (u64 (p.vaddr + 0 * 4096)) bytes
    (fun n _ => loaderAllocs_tmp 0 n) _ o _ hseen (Nat.le_refl _)
  have hle := htook.frames_le
  have hframes : (setRegions (pageMkMap loaderStart)
      (listPushBack listCreate ⟨p.vaddr, u64 (p.vaddr + 4096)⟩ 1)).1.frames = 0 + 517 :=
    pageMkMap_frames loaderStart
  refine inReach_of_start (show _ = (startMachine 0).frameAt from hseen'.frameAt_eq) ?_
  rw [hframes] at hle
  exact hle.trans (by decide)

structure Tiny (data : Mem) (memSz : ℕ) : Prop where
  checks : checkElfHdr data = true
  num : phNum data = 1
  off : phOff data = 64
  phdr_eq : phdr data 0 = tinyPhdr memSz
  pos : 0 < memSz
  le : memSz ≤ 4096

theorem tiny_one : Tiny (tinyElf 1) 1 := by
  refine ⟨?_, ?_, ?_, ?_, by decide, by decide⟩
  all_goals decide +kernel

theorem tiny_two : Tiny (tinyElf 2) 2 := by
  refine ⟨?_, ?_, ?_, ?_, by decide, by decide⟩
  all_goals decide +kernel

section Tiny
variable {memSz : ℕ} (h : Tiny data memSz)
include h

theorem Tiny.segments_eq : segments data = [tinyPhdr memSz] :=
  segments_single h.num h.phdr_eq rfl

theorem Tiny.wellFormed : WellFormed data 120 := by
  have hpos := h.pos
  have hle := h.le
  refine ⟨by decide, ?_, ?_, ?_, ?_, ?_, ?_⟩
  · intro i hi
    rw [h.num] at hi
    obtain rfl : i = 0 := by omega
    rw [h.off, Nat.mul_zero]
  all_goals rw [h.segments_eq]
  · simp only [mem_singleton, forall_eq, tinyPhdr]
    exact hpos
  · simp [tinyPhdr]
  · simp only [mem_singleton, forall_eq, tinyPhdr]
    omega
  · simp [tinyPhdr]
  · exact pairwise_singleton _ _

theorem Tiny.size_eq : segmentSize memSz = 4096 := by
  have hpos := h.pos
  have hle := h.le
  rw [segmentSize]
  split
  · rw [u64_of_lt (by omega)]
    omega
  · omega

theorem Tiny.exists_load :
    ∃ st', elfLoad data loaderAllocs (pageMkMap loaderStart) = some (st', 0, some (entry data)) ∧
      InReach st'.1 :=
  exists_load_onePage h.checks h.num h.phdr_eq rfl h.size_eq

end Tiny

/-- A segment that is as long in memory as in the file, and starts on a page. -/
theorem elfLoad_image_iff_tiny :
    ∃ st', elfLoad (tinyElf 1) loaderAllocs (pageMkMap loaderStart) =
        some (st', 0, some (entry (tinyElf 1))) ∧ ImageLoaded (tinyElf 1) st' := by
  obtain ⟨st', hload, hreach⟩ := tiny_one.exists_load
  refine ⟨st', hload, (elfLoad_image_iff supplies_loaderStart tiny_one.wellFormed loaderAllocs_tmp
    hload hreach).mpr (takenFrom_of_aligned tiny_one.wellFormed ?_ ?_ ?_)⟩
  all_goals rw [tiny_one.segments_eq]
  · simp [tinyPhdr]
  · exact pairwise_singleton _ _
  · intro p hp k hk hle
    obtain rfl := mem_singleton.mp hp
    exact absurd hk (Nat.not_lt.mpr hle)

/-- The second byte of the segment should be zero; it is the second byte of the file. -/
theorem elfLoad_keeps_tail :
    ∃ st', WellFormed (tinyElf 2) 120 ∧
      elfLoad (tinyElf 2) loaderAllocs (pageMkMap loaderStart) =
        some (st', 0, some (entry (tinyElf 2))) ∧
      segments (tinyElf 2) = [tinyPhdr 2] ∧ (tinyPhdr 2).wanted (tinyElf 2) 1 = 0 ∧
      userRead st'.1 st'.2 0x1001 = some 0x45 ∧ ¬ImageLoaded (tinyElf 2) st' := by
  obtain ⟨st', hload, hreach⟩ := tiny_two.exists_load
  have hread : userRead st'.1 st'.2 0x1001 = some 0x45 := by
    rw [elfLoad_userRead supplies_loaderStart tiny_two.wellFormed.below loaderAllocs_tmp hload
      hreach (by decide), tiny_two.segments_eq]
    decide +kernel
  refine ⟨st', tiny_two.wellFormed, hload, tiny_two.segments_eq, rfl, hread, fun himage => ?_⟩
  have hzero := himage (tinyPhdr 2) (by simp [tiny_two.segments_eq]) 1 (by decide)
  rw [show (tinyPhdr 2).vaddr + 1 = 0x1001 from rfl, hread] at hzero
  exact absurd hzero (by decide)

end KernelOld.Elf
