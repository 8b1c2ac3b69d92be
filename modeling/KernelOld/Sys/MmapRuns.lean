import Mathlib.Logic.Relation
import KernelOld.Mem.Space.Agreement
import KernelOld.Sys.Mmap

/-!
# Mappings of a process over its lifetime

`Accounted` holds throughout a run whose calls are `Orderly`: whatever is mapped in the space of
the process lies in one of its regions, or in the range of the framebuffer once that has been
mapped.
-/

namespace KernelOld.Mmap
open Space MachineWord Paging LinkedList CountedLoop Relation

def fbRange (vidmode : VidMode) : Region := ⟨0x30000, 0x30000 + fbPages vidmode * 4096⟩

/-- The lowest free range lies in the half of the space that user maps cover, and apart from the
framebuffer. -/
def RoomFor (vidmode : VidMode) (p : Process) (rs : List Region) (size : ℕ) : Prop :=
  ∀ b, FirstFit rs size b →
    b + size ≤ 2 ^ 39 ∧ (p.fbMapped = true → Region.Apart ⟨b, b + size⟩ (fbRange vidmode))

def ProcCall.Suits (vidmode : VidMode) (p : Process) (rs : List Region) : ProcCall → Prop
  | .segment vaddr memSz tmp _ =>
    4096 ∣ vaddr ∧ vaddr + segmentSize memSz ≤ 2 ^ 39 ∧
      (∀ r ∈ rs, Region.Apart ⟨vaddr, vaddr + segmentSize memSz⟩ r) ∧
      (p.fbMapped = true →
        Region.Apart ⟨vaddr, vaddr + segmentSize memSz⟩ (fbRange vidmode)) ∧
      ∀ n < p.st.1.pages + segmentSize memSz / 4096, p.st.1.pageAt n ≠ tmp
  | .firstStack => RoomFor vidmode p rs 0x4000
  | .threadStack => RoomFor vidmode p rs 0x4000
  | .mmap fileDescs len fdno =>
    (fdno = 0 → 4096 ∣ len ∧ len ≤ 2 ^ 32 ∧ RoomFor vidmode p rs len) ∧
      ((ProcCall.mmap fileDescs len fdno).onFb = true →
        (∀ r ∈ rs, (fbRange vidmode).Apart r) ∧ len ≤ fbPages vidmode * 4096)

/-- The call suits the regions that the process has. -/
def ProcCall.Orderly (vidmode : VidMode) (p : Process) (call : ProcCall) : Prop :=
  ∃ rs, listValues p.st.2.regions = some rs ∧ rs.length + 2 < 2 ^ 32 ∧ call.Suits vidmode p rs

/-- An admitted call of one of the users of the address space. -/
inductive ProcStep (vidmode : VidMode) (admits : Process → ProcCall → Prop) :
    Process → Process → Prop
  | call {p : Process} {call : ProcCall} {back new base : ℕ} {st' : Machine × PageMap}
      (hadmits : admits p call)
      (hnew : ∀ nodes, listForeach p.st.2.regions = some nodes → NewNodes nodes back new)
      (hne : back ≠ new) (hexec : call.exec vidmode p back new = some (st', base)) :
      ProcStep vidmode admits p ⟨st', p.fbMapped || call.onFb⟩

def newProcess (s : Machine) : Process := ⟨pageMkMap s, false⟩

/-- The range that is returned is mapped, and what was mapped before is mapped as before. -/
def Undisturbed (st st' : Machine × PageMap) (base len : ℕ) : Prop :=
  (base ≠ 0 ∧ base ≠ 2 ^ 64 - 1 → 4096 ∣ base ∧
    ∀ v, base ≤ v → v < base + len → pageGetphys st'.1 v st'.2 ≠ 0) ∧
  ∀ v < 2 ^ 39, pageGetphys st.1 v st.2 ≠ 0 →
    pageGetphys st'.1 v st'.2 = pageGetphys st.1 v st.2

/-- A framebuffer that starts at a page and that an entry can address. -/
structure VidMode.Sound (vidmode : VidMode) : Prop where
  aligned : 4096 ∣ vidmode.fbphys
  ne_zero : vidmode.fbphys ≠ 0
  fits : vidmode.fbphys + fbPages vidmode * 4096 ≤ 2 ^ 52

variable {vidmode : VidMode} {s s₀ : Machine} {p : Process} {st' : Machine × PageMap} {o : Owner}
  {view view' : EntryView} {as as' : List ℕ} {rs rs' : List Region} {c r : Region}
  {v b n size base back new : ℕ} {list' : ListT Region}

def Covers (r : Region) (v : ℕ) : Prop := r.base ≤ v ∧ v < r.stop

variable {fb : Bool} {len : ℕ}

theorem Covers.notMem (hc : Covers c v) (hapart : c.Apart r) : ¬Covers r v := by
  obtain ⟨hlo, hhi⟩ := hc
  rintro ⟨hlo', hhi'⟩
  obtain hle | hle := hapart
  · exact absurd (Nat.lt_of_lt_of_le hhi hle) (Nat.not_lt.mpr hlo')
  · exact absurd (Nat.lt_of_lt_of_le hhi' hle) (Nat.not_lt.mpr hlo)

def fbFrame (vidmode : VidMode) (v : ℕ) : ℕ :=
  frameOf (BitVec.ofNat 64 (vidmode.fbphys + (v - 0x30000) / 4096 * 4096))

structure Accounted (vidmode : VidMode) (s₀ : Machine) (p : Process) (o : Owner)
    (view : EntryView) (as : List ℕ) (rs : List Region) : Prop where
  seen : Seen s₀ p.st o view
  reserved : Reserved p.st.2.regions as rs
  small : as.length < 2 ^ 32
  aligned : ∀ r ∈ rs, 4096 ∣ r.stop
  bounded : ∀ r ∈ rs, r.stop ≤ 2 ^ 39
  inside : ∀ v < 2 ^ 39, view.frame v ≠ 0 →
    (∃ r ∈ rs, Covers r v) ∨ p.fbMapped = true ∧ Covers (fbRange vidmode) v
  fb : p.fbMapped = true → ∀ v, Covers (fbRange vidmode) v → view.frame v = fbFrame vidmode v

inductive Effect (vidmode : VidMode) (s₀ : Machine) (p : Process) (as : List ℕ)
    (rs : List Region) : Region → Bool → Machine × PageMap → Prop
  | grant {c : Region} {list' : ListT Region} {as' : List ℕ} {rs' : List Region} {n : ℕ}
      {f : ℕ → Machine × PageMap → Machine × PageMap} (hgained : Gained list' as rs c as' rs')
      (haligned : 4096 ∣ c.base) (hstop : c.stop = c.base + n * 4096) (hbound : c.stop ≤ 2 ^ 39)
      (hapart : ∀ r ∈ rs, c.Apart r) (hclear : p.fbMapped = true → c.Apart (fbRange vidmode))
      (hmaps : ∀ i < n, MapsNew s₀ (p.st.1.pages + i) (c.base + i * 4096) (f i)) :
      Effect vidmode s₀ p as rs c false (loop f n (setRegions p.st list'))
  | fb (hapart : ∀ r ∈ rs, (fbRange vidmode).Apart r) :
      Effect vidmode s₀ p as rs (fbRange vidmode) true
        (pageMapMemory (fbPages vidmode) 0x30000 vidmode.fbphys p.st)

theorem fbRange_bound (vidmode : VidMode) : (fbRange vidmode).stop ≤ 2 ^ 39 := by
  have hmod : u32 (vidmode.width * vidmode.height * (vidmode.depth / 8)) < 2 ^ 32 :=
    Nat.mod_lt _ (by decide)
  show 0x30000 + fbPages vidmode * 4096 ≤ 2 ^ 39
  rw [fbPages]
  omega

theorem seen_setRegions {st : Machine × PageMap} (h : Seen s₀ st o view)
    (regions : ListT Region) : Seen s₀ (setRegions st regions) o view :=
  ⟨h.valid, h.shows.setRegions regions, h.frameAt_eq, h.pageAt_eq⟩

theorem VidMode.Sound.frame_eq (h : vidmode.Sound) (view : EntryView) (hv : v < 2 ^ 39) :
    EntryView.frame
        ⟨mappedAll (fbPages vidmode) 0x30000 vidmode.fbphys view.entries, view.large⟩ v =
      if 0x30000 ≤ v ∧ v < (fbRange vidmode).stop then fbFrame vidmode v else view.frame v :=
  frame_mappedAll _ view (by decide) (fbRange_bound vidmode) h.fits hv

theorem VidMode.Sound.fbFrame_ne (h : vidmode.Sound) (hv : Covers (fbRange vidmode) v) :
    fbFrame vidmode v ≠ 0 := by
  have haligned := h.aligned
  have hfits := h.fits
  have hne := h.ne_zero
  have hhi : v < 0x30000 + fbPages vidmode * 4096 := hv.2
  have hlo : 0x30000 ≤ v := hv.1
  rw [fbFrame, frameOf_ofNat (by omega), Nat.mod_eq_of_lt (by omega)]
  omega

theorem Accounted.notCovered (h : Accounted vidmode s₀ p o view as rs)
    (hapart : ∀ r ∈ rs, c.Apart r) (hclear : p.fbMapped = true → c.Apart (fbRange vidmode))
    (hv : v < 2 ^ 39) (hne : view.frame v ≠ 0) : ¬Covers c v := by
  intro hc
  obtain ⟨r, hr, hcover⟩ | ⟨hfb, hcover⟩ := h.inside v hv hne
  · exact hc.notMem (hapart r hr) hcover
  · exact hc.notMem (hclear hfb) hcover

theorem not_covers_iff : ¬Covers c v ↔ v < c.base ∨ c.stop ≤ v := by
  rw [Covers]
  omega

structure Maps (vidmode : VidMode) (s' : Machine) (c : Region) (fb : Bool)
    (view view' : EntryView) : Prop where
  outside : ∀ v < 2 ^ 39, ¬Covers c v → view'.frame v = view.frame v
  grant : fb = false → ∀ v, Covers c v → ∃ n < s'.frames,
    view'.frame v = frameOf (BitVec.ofNat 64 (s'.frameAt n))
  device : fb = true → c = fbRange vidmode ∧
    ∀ v, Covers c v → view'.frame v = fbFrame vidmode v

theorem Effect.accounted (heffect : Effect vidmode s₀ p as rs c fb st') (hsound : vidmode.Sound)
    (h : Accounted vidmode s₀ p o view as rs) (hroom : as.length + 2 < 2 ^ 32) :
    ∃ o' view' as' rs', Accounted vidmode s₀ ⟨st', p.fbMapped || fb⟩ o' view' as' rs' ∧
      Maps vidmode st'.1 c fb view view' := by
  cases heffect with
  | @grant c list' as' rs' n f hgained haligned hstop hbound hapart hclear hmaps =>
    obtain ⟨⟨o', view', hseen, hpop⟩, -, -, hregions⟩ :=
      (seen_setRegions h.seen list').populate haligned (hstop ▸ hbound) hmaps
    rw [← hstop] at hpop
    have hout : ∀ v < 2 ^ 39, ¬Covers c v → view'.frame v = view.frame v :=
      fun v hv hnot => hpop.outside v hv (not_covers_iff.mp hnot)
    refine ⟨o', view', as', rs', ?_, hout, fun _ v hcover => hpop.inside v hcover.1 hcover.2,
      fun hfb => absurd hfb (by decide)⟩
    refine ⟨hseen, ?_, Nat.lt_of_le_of_lt hgained.length_le hroom, fun r hr => ?_, fun r hr => ?_,
      fun v hv hne => ?_, fun hfb v hcover => ?_⟩
    · rw [hregions]
      exact hgained.toReserved
    · obtain rfl | hr := (hgained.mem_iff r).mp hr
      · omega
      · exact h.aligned r hr
    · obtain rfl | hr := (hgained.mem_iff r).mp hr
      · exact hbound
      · exact h.bounded r hr
    · by_cases hcover : Covers c v
      · exact Or.inl ⟨c, (hgained.mem_iff c).mpr (Or.inl rfl), hcover⟩
      · rw [hout v hv hcover] at hne
        obtain ⟨r, hr, hrv⟩ | hfb := h.inside v hv hne
        · exact Or.inl ⟨r, (hgained.mem_iff r).mpr (Or.inr hr), hrv⟩
        · exact Or.inr ⟨by simp [hfb.1], hfb.2⟩
    · have hold : p.fbMapped = true := by simpa using hfb
      have hv : v < 2 ^ 39 := Nat.lt_of_lt_of_le hcover.2 (fbRange_bound vidmode)
      rw [hout v hv fun hc => hc.notMem (hclear hold) hcover]
      exact h.fb hold v hcover
  | fb hapart =>
    obtain ⟨o', hseen⟩ :=
      h.seen.mapMemory h.seen.valid.keeps (fbPages vidmode) 0x30000 vidmode.fbphys
    have hframe := fun v hv => hsound.frame_eq view (v := v) hv
    have hin : ∀ v, Covers (fbRange vidmode) v → EntryView.frame
        ⟨mappedAll (fbPages vidmode) 0x30000 vidmode.fbphys view.entries, view.large⟩ v =
          fbFrame vidmode v := fun v hcover =>
      (hframe v (Nat.lt_of_lt_of_le hcover.2 (fbRange_bound vidmode))).trans (if_pos hcover)
    have hout : ∀ v < 2 ^ 39, ¬Covers (fbRange vidmode) v → EntryView.frame
        ⟨mappedAll (fbPages vidmode) 0x30000 vidmode.fbphys view.entries, view.large⟩ v =
          view.frame v := fun v hv hnot => (hframe v hv).trans (if_neg hnot)
    refine ⟨o', _, as, rs, ?_, hout, fun hfb => absurd hfb (by decide), fun _ => ⟨rfl, hin⟩⟩
    refine ⟨hseen, ?_, h.small, h.aligned, h.bounded, fun v hv hne => ?_, fun _ => hin⟩
    · rw [pageMapMemory_regions]
      exact h.reserved
    · by_cases hcover : Covers (fbRange vidmode) v
      · exact Or.inr ⟨Bool.or_true _, hcover⟩
      · rw [hout v hv hcover] at hne
        exact (h.inside v hv hne).imp_right fun hfb => absurd hfb.2 hcover

theorem Effect.base_dvd (heffect : Effect vidmode s₀ p as rs c fb st') :
    4096 ∣ c.base := by
  cases heffect with
  | grant _ haligned => exact haligned
  | fb => exact ⟨0x30, rfl⟩

theorem Effect.undisturbed (heffect : Effect vidmode s₀ p as rs c fb st') (hsound : vidmode.Sound)
    (h : Accounted vidmode s₀ p o view as rs) (hroom : as.length + 2 < 2 ^ 32)
    (hframes : ∀ n, s₀.frameAt n ≠ 0) (hreach : InReach st'.1) :
    (∀ v, Covers c v → pageGetphys st'.1 v st'.2 ≠ 0) ∧
      ∀ v < 2 ^ 39, pageGetphys p.st.1 v p.st.2 ≠ 0 →
        pageGetphys st'.1 v st'.2 = pageGetphys p.st.1 v p.st.2 := by
  obtain ⟨o', view', as', rs', h', hmaps⟩ := heffect.accounted hsound h hroom
  have hbound : c.stop ≤ 2 ^ 39 := by
    cases heffect with
    | grant _ _ _ hbound => exact hbound
    | fb => exact fbRange_bound vidmode
  have hphys : ∀ v < 2 ^ 39, pageGetphys st'.1 v st'.2 = view'.frame v :=
    fun v hv => h'.seen.shows.pageGetphys_eq hv
  refine ⟨fun v hcover => ?_, fun v hv hne => ?_⟩
  · rw [hphys v (Nat.lt_of_lt_of_le hcover.2 hbound)]
    cases fb with
    | false =>
      obtain ⟨n, hn, hframe⟩ := hmaps.grant rfl v hcover
      rw [hframe, frameOf_ofNat (h'.seen.valid.frame_aligned n), Nat.mod_eq_of_lt (hreach n hn)]
      rw [h'.seen.frameAt_eq]
      exact hframes n
    | true =>
      obtain ⟨rfl, hframe⟩ := hmaps.device rfl
      rw [hframe v hcover]
      exact hsound.fbFrame_ne hcover
  · rw [h.seen.shows.pageGetphys_eq hv] at hne ⊢
    rw [hphys v hv]
    cases heffect with
    | grant _ _ _ _ hapart hclear =>
      exact hmaps.outside v hv (h.notCovered hapart hclear hv hne)
    | fb hapart =>
      by_cases hcover : Covers (fbRange vidmode) v
      · -- only the framebuffer itself can be behind these addresses
        obtain ⟨r, hr, hrv⟩ | ⟨hfb, -⟩ := h.inside v hv hne
        · exact absurd hrv (hcover.notMem (hapart r hr))
        · rw [(hmaps.device rfl).2 v hcover, h.fb hfb v hcover]
      · exact hmaps.outside v hv hcover

theorem firstFit_aligned (h : FirstFit rs size b) (hrs : ∀ r ∈ rs, 4096 ∣ r.stop) :
    4096 ∣ b := by
  have hfree := h.1.2
  have hlow := h.1.1
  have hle : b ≤ b - b % 4096 := by
    apply h.2
    refine ⟨by omega, fun r hr => ?_⟩
    obtain hle | hle := hfree r hr
    · exact Or.inl (Nat.le_trans (by simp only; omega) hle)
    · have hstop := hrs r hr
      have hle : r.stop ≤ b := hle
      exact Or.inr (by simp only; omega)
  omega

theorem segmentSize_dvd (memSz : ℕ) : 4096 ∣ segmentSize memSz := by
  rw [segmentSize]
  split
  · rw [u64]
    omega
  · omega

theorem Accounted.orderly {call : ProcCall} (h : Accounted vidmode s₀ p o view as rs)
    (hord : call.Orderly vidmode p) : as.length + 2 < 2 ^ 32 ∧ call.Suits vidmode p rs := by
  obtain ⟨rs₀, hvalues, hroom, hsuits⟩ := hord
  have hsmall := h.small
  obtain rfl : rs = rs₀ :=
    Option.some.inj ((h.reserved.holds.listValues_eq (by omega)).symm.trans hvalues)
  rw [← h.reserved.holds.length_eq] at hroom
  exact ⟨hroom, hsuits⟩

theorem Accounted.newNodes (h : Accounted vidmode s₀ p o view as rs)
    (hnew : ∀ nodes, listForeach p.st.2.regions = some nodes → NewNodes nodes back new) :
    NewNodes as back new :=
  hnew as (h.reserved.holds.listForeach_eq (h.small.trans (by decide)))

section
variable (h : Accounted vidmode s₀ p o view as rs) (hnew : NewNodes as back new)
  (hne : back ≠ new) (hroom : as.length + 2 < 2 ^ 32)
include h hnew hne hroom

theorem Accounted.granted (hle : size ≤ 2 ^ 32) (hfit : RoomFor vidmode p rs size)
    (hcall : spaceAllocRegion size p.st.2.regions back new = some (list', base)) :
    FirstFit rs size base ∧ ∃ as' rs', Gained list' as rs ⟨base, base + size⟩ as' rs' := by
  obtain ⟨b, hfirst, hresult⟩ := h.reserved.spaceAllocRegion hnew hne hroom (by omega)
    (fun r hr => by have := h.bounded r hr; omega) hcall
  obtain ⟨hbound, -⟩ := hfit b hfirst
  obtain ⟨-, -, hfull⟩ | ⟨rfl, hgained⟩ := hresult
  · exact absurd hfull (by rw [kernelVirtualAddr]; omega)
  · exact ⟨hfirst, hgained⟩

theorem Accounted.alloc {f : ℕ → ℕ} (hsize : 4096 ∣ size) (hle : size ≤ 2 ^ 32)
    (hfit : RoomFor vidmode p rs size)
    (hcall : spaceAllocRegion size p.st.2.regions back new = some (list', base))
    (hf : ∀ i < size / 4096, base + i * 4096 < 2 ^ 39 → f i = base + i * 4096) :
    Effect vidmode s₀ p as rs ⟨base, base + size⟩ false
      (loop (fun i => mapNew (f i)) (size / 4096) (setRegions p.st list')) := by
  obtain ⟨hfirst, as', rs', hgained⟩ := h.granted hnew hne hroom hle hfit hcall
  obtain ⟨hbound, hclear⟩ := hfit base hfirst
  have hpages : size / 4096 * 4096 = size := Nat.div_mul_cancel hsize
  refine .grant hgained (firstFit_aligned hfirst h.aligned) (by rw [hpages]) hbound hfirst.1.2
    hclear fun i hi => ?_
  have hin : base + i * 4096 < 2 ^ 39 := by omega
  rw [hf i hi hin]
  exact mapsNew_mapNew s₀ _ _

theorem Accounted.anonMmap (hlen : 4096 ∣ len) (hle : len ≤ 2 ^ 32)
    (hfit : RoomFor vidmode p rs len) (hcall : anonMmap len back new p.st = some (st', base)) :
    Effect vidmode s₀ p as rs ⟨base, base + len⟩ false st' := by
  obtain ⟨⟨list', mem⟩, halloc, hrest⟩ := Option.bind_eq_some_iff.mp hcall
  dsimp only at hrest
  rw [if_pos (by omega)] at hrest
  cases hrest
  refine h.alloc hnew hne hroom hlen hle hfit halloc fun i hi hin => ?_
  rw [u32_of_lt (by omega), u64_of_lt (by omega)]

theorem Accounted.threadStack (hfit : RoomFor vidmode p rs 0x4000)
    (hcall : threadStack back new p.st = some (st', base)) :
    Effect vidmode s₀ p as rs ⟨base, base + 0x4000⟩ false st' := by
  obtain ⟨⟨list', stack⟩, halloc, hrest⟩ := Option.bind_eq_some_iff.mp hcall
  cases hrest
  refine h.alloc hnew hne hroom (by decide) (by decide) hfit halloc fun i hi hin => ?_
  rw [u64_of_lt (by omega)]

theorem Accounted.firstStack (hfit : RoomFor vidmode p rs 0x4000)
    (hcall : firstStack back new p.st = some (st', base)) :
    Effect vidmode s₀ p as rs ⟨base, base + 0x4000⟩ false st' := by
  obtain ⟨⟨list', stack⟩, halloc, hrest⟩ := Option.bind_eq_some_iff.mp hcall
  obtain ⟨pages, hpages, hst⟩ := Option.bind_eq_some_iff.mp hrest
  cases hst
  obtain ⟨hfirst, -⟩ := h.granted hnew hne hroom (by decide) hfit halloc
  have hbound := (hfit base hfirst).1
  obtain rfl : pages = 4 := by
    rw [stackPages, if_neg (by omega : ¬2 ^ 64 ≤ base + 0x4000)] at hpages
    exact (Option.some.inj (Option.ite_none_right_eq_some.mp hpages).2).symm
  refine h.threadStack hnew hne hroom hfit ?_
  rw [Mmap.threadStack, halloc]
  rfl

theorem Accounted.loadSegment {vaddr memSz tmp : ℕ} {image : ℕ → UInt8}
    (hsuits : (ProcCall.segment vaddr memSz tmp image).Suits vidmode p rs)
    (hcall : loadSegment vaddr memSz tmp image back new p.st = some st') :
    Effect vidmode s₀ p as rs ⟨vaddr, vaddr + segmentSize memSz⟩ false st' := by
  obtain ⟨haligned, hbound, hapart, hclear, htmp⟩ := hsuits
  obtain ⟨list', halloc, hrest⟩ := Option.bind_eq_some_iff.mp hcall
  obtain ⟨as', rs', hgained⟩ :=
    h.reserved.spaceAllocRegionAt hnew hne hroom (by omega) hapart halloc
  have hpages : segmentSize memSz / 4096 * 4096 = segmentSize memSz :=
    Nat.div_mul_cancel (segmentSize_dvd memSz)
  by_cases hends : segmentSize memSz < 2 ^ 32
  · rw [if_pos hends] at hrest
    cases hrest
    refine .grant hgained haligned (by rw [hpages]) hbound hapart hclear fun i hi => ?_
    have hwrap : vaddr + i * 4096 < 2 ^ 64 := by omega
    rw [u64_of_lt hwrap]
    refine mapsNew_loadPage _ _ fun n hn => ?_
    rw [← h.seen.pageAt_eq]
    exact htmp n (by omega)
  · rw [if_neg hends] at hrest
    cases hrest

theorem Accounted.sysMmap {fileDescs : List FdNode} {fdno : ℤ}
    (hsuits : (ProcCall.mmap fileDescs len fdno).Suits vidmode p rs)
    (hcall : sysMmap vidmode fileDescs len fdno back new p.st = some (st', base)) :
    (∃ c, Effect vidmode s₀ p as rs c (ProcCall.mmap fileDescs len fdno).onFb st' ∧
      c.base = base ∧ base + len ≤ c.stop) ∨
    (ProcCall.mmap fileDescs len fdno).onFb = false ∧ st' = p.st ∧
      (base = 0 ∨ base = 2 ^ 64 - 1) := by
  obtain ⟨hanon, hfb⟩ := hsuits
  rw [Mmap.sysMmap] at hcall
  by_cases hfd : fdno = 0
  · obtain ⟨hlen, hle, hfit⟩ := hanon hfd
    rw [if_neg (not_not_intro hfd)] at hcall
    have hoff : (ProcCall.mmap fileDescs len fdno).onFb = false :=
      decide_eq_false fun hon => hon.1 hfd
    rw [hoff]
    exact Or.inl ⟨_, h.anonMmap hnew hne hroom hlen hle hfit hcall, rfl, Nat.le_refl _⟩
  · rw [if_pos hfd] at hcall
    have hon : (ProcCall.mmap fileDescs len fdno).onFb =
        decide (procgetfd fileDescs fdno = some .framebuffer) :=
      decide_eq_decide.mpr (and_iff_right hfd)
    rw [hon] at hfb ⊢
    generalize procgetfd fileDescs fdno = node at hcall hfb
    cases node with
    | none =>
      cases hcall
      exact Or.inr ⟨rfl, rfl, Or.inr rfl⟩
    | some node =>
      cases node with
      | framebuffer =>
        cases hcall
        obtain ⟨hapart, hle⟩ := hfb rfl
        exact Or.inl ⟨_, .fb hapart, rfl, Nat.add_le_add_left hle _⟩
      | other =>
        cases hcall
        exact Or.inr ⟨rfl, rfl, Or.inl rfl⟩

theorem Accounted.effect {call : ProcCall} (hsuits : call.Suits vidmode p rs)
    (hexec : call.exec vidmode p back new = some (st', base)) :
    (∃ c, Effect vidmode s₀ p as rs c call.onFb st') ∨ call.onFb = false ∧ st' = p.st := by
  cases call with
  | segment vaddr memSz tmp image =>
    obtain ⟨st, hload, heq⟩ := Option.map_eq_some_iff.mp hexec
    cases heq
    exact Or.inl ⟨_, h.loadSegment hnew hne hroom hsuits hload⟩
  | firstStack => exact Or.inl ⟨_, h.firstStack hnew hne hroom hsuits hexec⟩
  | threadStack => exact Or.inl ⟨_, h.threadStack hnew hne hroom hsuits hexec⟩
  | mmap fileDescs len fdno =>
    obtain ⟨c, heffect, -⟩ | ⟨hoff, hst, -⟩ := h.sysMmap hnew hne hroom hsuits hexec
    · exact Or.inl ⟨c, heffect⟩
    · exact Or.inr ⟨hoff, hst⟩

end

theorem accounted_newProcess (vidmode : VidMode) (hs : Supplies s) :
    ∃ o, Accounted vidmode s (newProcess s) o .empty [] [] := by
  have hval : Valid s fun _ => none := { hs with unused := fun _ _ => rfl, taken := by simp }
  obtain ⟨o, hk, hbuilt⟩ := pageMkMap_spec hval 0
  have hshows : Shows (pageMkMap s).1 o 0 (pageMkMap s).2 .empty := hbuilt
  refine ⟨o, ⟨hk.valid, hshows, hk.frameAt_eq, hk.pageAt_eq⟩, ?_, by decide, by simp, by simp,
    fun v _ hne => absurd frameOf_zero hne, fun hfb => absurd hfb Bool.false_ne_true⟩
  rw [newProcess, pageMkMap_regions]
  exact reserved_listCreate

theorem run_accounted (hs : Supplies s) (hsound : vidmode.Sound)
    (hrun : ReflTransGen (ProcStep vidmode (ProcCall.Orderly vidmode)) (newProcess s) p) :
    ∃ o view as rs, Accounted vidmode s p o view as rs := by
  induction hrun with
  | refl =>
    obtain ⟨o, h⟩ := accounted_newProcess vidmode hs
    exact ⟨o, _, _, _, h⟩
  | tail _ hstep ih =>
    obtain ⟨o, view, as, rs, h⟩ := ih
    cases hstep with
    | call hadmits hnew hne hexec =>
      obtain ⟨hroom, hsuits⟩ := h.orderly hadmits
      obtain ⟨c, heffect⟩ | ⟨hoff, rfl⟩ := h.effect (h.newNodes hnew) hne hroom hsuits hexec
      · obtain ⟨o', view', as', rs', h', -⟩ := heffect.accounted hsound h hroom
        exact ⟨o', view', as', rs', h'⟩
      · rw [hoff, Bool.or_false]
        exact ⟨o, view, as, rs, h⟩

def firstRegion (len : ℕ) : ListT Region := listPushBack listCreate ⟨4096, 4096 + len⟩ 1

theorem holds_firstRegion (len : ℕ) : Holds (firstRegion len) [1] [⟨4096, 4096 + len⟩] :=
  holds_listCreate.listPushBack (by decide) (by simp)

theorem anonMmap_newProcess (hs : Supplies s) (hlen : len ≤ 2 ^ 32) :
    ∃ st' o view', anonMmap len 1 2 (newProcess s).st = some (st', 4096) ∧
      Seen s st' o view' ∧ Populates st'.1 4096 (4096 + len / 4096 * 4096) .empty view' ∧
      st'.1.frames ≤ s.frames + 517 + 2 * (len / 4096) ∧ st'.2.regions = firstRegion len := by
  obtain ⟨o, h⟩ := accounted_newProcess ⟨0, 0, 0, 0⟩ hs
  have hregions : (newProcess s).st.2.regions = listCreate := pageMkMap_regions s
  have halloc : spaceAllocRegion len listCreate 1 2 = some (firstRegion len, 4096) := by
    rw [spaceAllocRegion, holds_listCreate.listValues_eq (by decide), u64_of_lt (by omega)]
    show (if none = none ∧ kernelVirtualAddr ≤ 4096 + len then _ else _) = _
    rw [if_neg (by rw [kernelVirtualAddr]; omega)]
    rfl
  obtain ⟨⟨o', view', hseen, hpop⟩, hframes, -, hst⟩ :=
    (seen_setRegions h.seen (firstRegion len)).populate (b := 4096) (n := len / 4096)
      (f := fun i => mapNew (u64 (4096 + u32 (i * 4096)))) (by decide) (by omega) (fun i hi => by
        rw [u32_of_lt (by omega), u64_of_lt (by omega)]
        exact mapsNew_mapNew s _ _)
  refine ⟨_, o', view', ?_, hseen, hpop, ?_, hst⟩
  · rw [anonMmap, hregions, halloc]
    exact if_pos (by omega)
  · exact Nat.le_trans hframes (Nat.add_le_add_right (Nat.le_of_eq (pageMkMap_frames s)) _)

/-- In a run of orderly calls, a `sys_mmap` that succeeds returns the base of a range that is
mapped, and no call of it changes a translation. -/
theorem sysMmap_undisturbed {fileDescs : List FdNode} {len : ℕ} {fdno : ℤ} (hs : Supplies s)
    (hframes : ∀ n, s.frameAt n ≠ 0) (hsound : vidmode.Sound)
    (hrun : ReflTransGen (ProcStep vidmode (ProcCall.Orderly vidmode)) (newProcess s) p)
    (hord : (ProcCall.mmap fileDescs len fdno).Orderly vidmode p)
    (hnew : ∀ nodes, listForeach p.st.2.regions = some nodes → NewNodes nodes back new)
    (hne : back ≠ new)
    (hcall : sysMmap vidmode fileDescs len fdno back new p.st = some (st', base))
    (hreach : InReach st'.1) : Undisturbed p.st st' base len := by
  obtain ⟨o, view, as, rs, h⟩ := run_accounted hs hsound hrun
  obtain ⟨hroom, hsuits⟩ := h.orderly hord
  obtain ⟨c, heffect, rfl, hle⟩ | ⟨-, rfl, hbase⟩ :=
    h.sysMmap (h.newNodes hnew) hne hroom hsuits hcall
  · obtain ⟨hmapped, hkept⟩ := heffect.undisturbed hsound h hroom hframes hreach
    refine ⟨fun _ => ⟨heffect.base_dvd, fun v hlo hhi => ?_⟩, hkept⟩
    exact hmapped v ⟨hlo, Nat.lt_of_lt_of_le hhi hle⟩
  · refine ⟨fun hok => ?_, fun _ _ _ => rfl⟩
    obtain rfl | rfl := hbase
    · exact absurd rfl hok.1
    · exact absurd rfl hok.2

def vga : VidMode := ⟨320, 200, 8, 0xa0000⟩

theorem vga_sound : vga.Sound := ⟨by decide, by decide, by decide⟩

def vgaDescs : List FdNode := [.other, .framebuffer]

theorem exists_firstMmap (len : ℕ) (admits : Process → ProcCall → Prop) (hlen : len ≤ 2 ^ 32)
    (hadmits : admits (newProcess (startMachine 0)) (.mmap vgaDescs len 0)) :
    ∃ st o view, ProcStep vga admits (newProcess (startMachine 0)) ⟨st, false⟩ ∧
      sysMmap vga vgaDescs len 0 1 2 (newProcess (startMachine 0)).st = some (st, 4096) ∧
      Seen (startMachine 0) st o view ∧
      Populates st.1 4096 (4096 + len / 4096 * 4096) .empty view ∧
      st.1.frames ≤ 517 + 2 * (len / 4096) ∧ st.2.regions = firstRegion len := by
  obtain ⟨st, o, view, hcall, hseen, hpop, hframes, hregions⟩ :=
    anonMmap_newProcess (s := startMachine 0) supplies_start hlen
  have hstep : ProcStep vga admits (newProcess (startMachine 0)) ⟨st, false⟩ := by
    refine ProcStep.call hadmits (fun nodes hnodes => ?_) (by decide : 1 ≠ 2) hcall
    obtain rfl : nodes = [] := by
      rw [newProcess, pageMkMap_regions, holds_listCreate.listForeach_eq (by decide)] at hnodes
      exact (Option.some.inj hnodes).symm
    exact ⟨by decide, by decide, by simp, by simp⟩
  refine ⟨st, o, view, hstep, hcall, hseen, hpop, ?_, hregions⟩
  simpa [startMachine] using hframes

theorem inReach_firstMmap {st : Machine × PageMap} (hseen : Seen (startMachine 0) st o view)
    (hframes : st.1.frames ≤ 2 ^ 32) (hs' : sysMmap vga vgaDescs size 1 3 4 st = some (st', base)) :
    InReach st'.1 := by
  cases hs'
  obtain ⟨o', hseen'⟩ := hseen.mapMemory hseen.valid.keeps (fbPages vga) 0x30000 vga.fbphys
  have hle := pageMapMemory_frames_le (fbPages vga) 0x30000 vga.fbphys st
  have hpages : fbPages vga = 16 := by decide
  exact inReach_of_start hseen'.frameAt_eq (by
    show (pageMapMemory (fbPages vga) 0x30000 vga.fbphys st).1.frames ≤ _
    omega)

theorem sysMmap_undisturbed_vga :
    ∃ st st', ReflTransGen (ProcStep vga (ProcCall.Orderly vga)) (newProcess (startMachine 0))
        ⟨st, false⟩ ∧
      sysMmap vga vgaDescs 64000 1 3 4 st = some (st', 0x30000) ∧
      Undisturbed st st' 0x30000 64000 := by
  have hord : (ProcCall.mmap vgaDescs 0x2000 0).Orderly vga (newProcess (startMachine 0)) := by
    refine ⟨[], ?_, by decide, fun _ => ⟨by decide, by decide, fun b hb => ?_⟩,
      fun hfb => absurd hfb (by decide)⟩
    · rw [newProcess, pageMkMap_regions]
      exact holds_listCreate.listValues_eq (by decide)
    · have : b ≤ 4096 := hb.2 ⟨Nat.le_refl _, by simp⟩
      exact ⟨by omega, fun hfb => absurd hfb Bool.false_ne_true⟩
  obtain ⟨st, o, view, hstep, -, hseen, -, hframes, hregions⟩ :=
    exists_firstMmap 0x2000 (ProcCall.Orderly vga) (by decide) hord
  have hcall : sysMmap vga vgaDescs 64000 1 3 4 st = some (fbMmap vga st) := rfl
  refine ⟨st, (fbMmap vga st).1, .single hstep, hcall, ?_⟩
  refine sysMmap_undisturbed (p := ⟨st, false⟩) supplies_start (fun n => ?_) vga_sound
    (.single hstep) ?_
    (fun nodes hnodes => ?_) (by decide) hcall
    (inReach_firstMmap hseen (hframes.trans (by decide)) hcall)
  · show (n + 256) * 4096 ≠ 0
    omega
  · refine ⟨[⟨4096, 4096 + 0x2000⟩], ?_, by decide, fun hfd => absurd hfd (by decide),
      fun _ => ⟨?_, by decide⟩⟩
    · rw [hregions]
      exact (holds_firstRegion 0x2000).listValues_eq (by decide)
    · intro r hr
      obtain rfl := List.mem_singleton.mp hr
      decide
  · obtain rfl : nodes = [1] := by
      rw [hregions, (holds_firstRegion 0x2000).listForeach_eq (by decide)] at hnodes
      exact (Option.some.inj hnodes).symm
    exact ⟨by decide, by decide, by decide, by decide⟩

/-- A `sys_mmap` of 100 bytes maps nothing, and one of the framebuffer takes over a page of an
earlier `sys_mmap`. -/
theorem sysMmap_disturbs :
    (∃ st, sysMmap vga vgaDescs 100 0 1 2 (newProcess (startMachine 0)).st = some (st, 0x1000) ∧
      ¬Undisturbed (newProcess (startMachine 0)).st st 0x1000 100) ∧
    ∃ st st', ReflTransGen (ProcStep vga fun _ _ => True) (newProcess (startMachine 0))
        ⟨st, false⟩ ∧
      sysMmap vga vgaDescs 64000 1 3 4 st = some (st', 0x30000) ∧ InReach st'.1 ∧
      ¬Undisturbed st st' 0x30000 64000 := by
  constructor
  · obtain ⟨st, o, view, -, hcall, hseen, hpop, -, -⟩ :=
      exists_firstMmap 100 (fun _ _ => True) (by decide) trivial
    refine ⟨st, hcall, fun h => ?_⟩
    obtain ⟨-, hmapped⟩ := h.1 ⟨by decide, by decide⟩
    refine hmapped 0x1000 (by decide) (by decide) ?_
    rw [hseen.shows.pageGetphys_eq (by decide), hpop.outside 0x1000 (by decide) (by decide)]
    exact frameOf_zero
  · obtain ⟨st, o, view, hstep, -, hseen, hpop, hframes, -⟩ :=
      exists_firstMmap 0x30000 (fun _ _ => True) (by decide) trivial
    have hcall : sysMmap vga vgaDescs 64000 1 3 4 st = some (fbMmap vga st) := rfl
    have hreach := inReach_firstMmap hseen (hframes.trans (by decide)) hcall
    refine ⟨st, (fbMmap vga st).1, .single hstep, hcall, hreach, fun h => ?_⟩
    obtain ⟨n, hn, hframe⟩ := hpop.inside 0x30000 (by decide) (by decide)
    have hbefore : pageGetphys st.1 0x30000 st.2 = (n + 256) * 4096 := by
      rw [hseen.shows.pageGetphys_eq (by decide), hframe, hseen.frameAt_eq,
        frameOf_ofNat (supplies_start.frame_aligned n)]
      show (n + 256) * 4096 % 2 ^ 52 = _
      exact Nat.mod_eq_of_lt (by omega)
    obtain ⟨o', hseen'⟩ := hseen.mapMemory hseen.valid.keeps (fbPages vga) 0x30000 vga.fbphys
    have hkept := h.2 0x30000 (by decide) (by rw [hbefore]; omega)
    have hafter := hseen'.shows.pageGetphys_eq (v := 0x30000) (by decide)
    rw [vga_sound.frame_eq _ (by decide), if_pos (by decide)] at hafter
    have hdevice : fbFrame vga 0x30000 = 0xa0000 := by decide
    have : (0xa0000 : ℕ) = (n + 256) * 4096 :=
      hdevice.symm.trans (hafter.symm.trans (hkept.trans hbefore))
    omega

end KernelOld.Mmap
