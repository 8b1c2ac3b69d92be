import Mathlib.Data.List.Basic
import Mathlib.Data.List.Nodup
import Mathlib.Data.Nat.Bitwise

/-!
# PCI enumeration

`pci_enumerate` of `drivers/pci/pci.c`, over the configuration space behind the two ports. The three
loops share the variable `func`. After the first multifunction device it stays at 8, and from then
on the header type is read at an address with bit 11 set.
-/

namespace KernelOld.Pci
open List

abbrev ConfigSpace := ℕ → ℕ → ℕ → ℕ → UInt32

/-- What the host bridge returns at the data port for the address at the address port. -/
def portData (cfg : ConfigSpace) (addr : ℕ) : ℕ :=
  (cfg (addr / 2 ^ 16 % 256) (addr / 2 ^ 11 % 32) (addr / 2 ^ 8 % 8) (addr / 4 % 64)).toNat

def cfgAddr (bus slot func off : ℕ) : ℕ :=
  bus <<< 16 ||| slot <<< 11 ||| func <<< 8 ||| (off &&& 0xfc) ||| 0x80000000

def pciCfgReadw (cfg : ConfigSpace) (bus slot func off : ℕ) : ℕ :=
  (portData cfg (cfgAddr bus slot func off) >>> ((off &&& 2) * 8)) &&& 0xffff

def pciCfgReadb (cfg : ConfigSpace) (bus slot func off : ℕ) : ℕ :=
  (portData cfg (cfgAddr bus slot func off) >>> ((off &&& 3) * 8)) &&& 0xff

def pciGetVendorId (cfg : ConfigSpace) (bus slot func : ℕ) : ℕ := pciCfgReadw cfg bus slot func 0x00
def pciGetDevId (cfg : ConfigSpace) (bus slot func : ℕ) : ℕ := pciCfgReadw cfg bus slot func 0x02
def pciGetProgif (cfg : ConfigSpace) (bus slot func : ℕ) : ℕ := pciCfgReadb cfg bus slot func 0x09
def pciGetSubclass (cfg : ConfigSpace) (bus slot func : ℕ) : ℕ := pciCfgReadb cfg bus slot func 0x0a
def pciGetClassCode (cfg : ConfigSpace) (bus slot func : ℕ) : ℕ :=
  pciCfgReadb cfg bus slot func 0x0b
def pciGetHdrType (cfg : ConfigSpace) (bus slot func : ℕ) : ℕ := pciCfgReadb cfg bus slot func 0x0e

structure PciDev where
  devId : ℕ
  vendorId : ℕ
  bus : ℕ
  slot : ℕ
  func : ℕ
  classCode : ℕ
  subclass : ℕ
  progif : ℕ

def pciCheckDev (cfg : ConfigSpace) (bus dev func : ℕ) : Bool :=
  pciGetVendorId cfg bus dev func != 0xffff

def pciAddDev (cfg : ConfigSpace) (bus slot func : ℕ) : PciDev where
  vendorId := pciGetVendorId cfg bus slot func
  devId := pciGetDevId cfg bus slot func
  bus := bus
  slot := slot
  func := func
  classCode := pciGetClassCode cfg bus slot func
  subclass := pciGetSubclass cfg bus slot func
  progif := pciGetProgif cfg bus slot func

def addFuncs (cfg : ConfigSpace) (bus dev : ℕ) (devs : List PciDev) : List PciDev :=
  (List.range' 1 7).foldl (fun devs func =>
    if pciCheckDev cfg bus dev 0 then devs ++ [pciAddDev cfg bus dev func] else devs) devs

def probe (cfg : ConfigSpace) (st : ℕ × List PciDev) (bus dev : ℕ) : ℕ × List PciDev :=
  if pciCheckDev cfg bus dev 0 then
    let devs := st.2 ++ [pciAddDev cfg bus dev 0]
    if pciGetHdrType cfg bus dev st.1 &&& 0x80 ≠ 0 then (8, addFuncs cfg bus dev devs)
    else (st.1, devs)
  else st

def pciEnumerate (cfg : ConfigSpace) : List PciDev :=
  ((List.range 256).foldl (fun st bus =>
    (List.range 32).foldl (fun st dev => probe cfg st bus dev) st) (0, [])).2

/-! ## What there is -/

def vendorId (cfg : ConfigSpace) (bus dev func : ℕ) : ℕ := (cfg bus dev func 0).toNat &&& 0xffff

def hdrType (cfg : ConfigSpace) (bus dev func : ℕ) : ℕ := (cfg bus dev func 3).toNat >>> 16 &&& 0xff

abbrev Slot := ℕ × ℕ

/-- There is a device in the slot. -/
def Present (cfg : ConfigSpace) (s : Slot) : Prop := vendorId cfg s.1 s.2 0 ≠ 0xffff

/-- The device in the slot says that it has several functions. -/
def Multi (cfg : ConfigSpace) (s : Slot) : Prop := hdrType cfg s.1 s.2 0 &&& 0x80 ≠ 0

instance (cfg : ConfigSpace) (s : Slot) : Decidable (Present cfg s) :=
  inferInstanceAs (Decidable (_ ≠ _))

instance (cfg : ConfigSpace) (s : Slot) : Decidable (Multi cfg s) :=
  inferInstanceAs (Decidable (_ ≠ _))

/-- The function exists: function 0 if it has a vendor, the others if besides the device is a
multifunction device. -/
def HasFunc (cfg : ConfigSpace) (s : Slot) (func : ℕ) : Prop :=
  s.1 < 256 ∧ s.2 < 32 ∧ func < 8 ∧ vendorId cfg s.1 s.2 func ≠ 0xffff ∧
    (func = 0 ∨ Present cfg s ∧ Multi cfg s)

def PciDev.place (d : PciDev) : Slot × ℕ := ((d.bus, d.slot), d.func)

/-- The list has one entry for each function that exists and no other. -/
structure Exact (cfg : ConfigSpace) : Prop where
  nodup : ((pciEnumerate cfg).map PciDev.place).Nodup
  mem_iff : ∀ s func, (s, func) ∈ (pciEnumerate cfg).map PciDev.place ↔ HasFunc cfg s func

def Before (s s' : Slot) : Prop := s.1 < s'.1 ∨ s.1 = s'.1 ∧ s.2 < s'.2

def AfterMulti (cfg : ConfigSpace) (s : Slot) : Prop :=
  ∃ s' : Slot, s'.1 < 256 ∧ s'.2 < 32 ∧ Before s' s ∧ Present cfg s' ∧ Multi cfg s'

/-- The scan takes the device for one with several functions. -/
def TakenForMulti (cfg : ConfigSpace) (s : Slot) : Prop :=
  AfterMulti cfg s ∧ Multi cfg (s.1, s.2 ||| 1) ∨ ¬AfterMulti cfg s ∧ Multi cfg s

variable {cfg : ConfigSpace} {bus slot func off : ℕ} {s : Slot} {devs : List PciDev}
  {pre ss : List Slot}

/-! ## Addresses -/

theorem cfgAddr_eq (hbus : bus < 256) (hslot : slot < 32) (hfunc : func < 8) (off : ℕ) :
    cfgAddr bus slot func off =
      2 ^ 31 + (bus * 2 ^ 16 + (slot * 2 ^ 11 + (func * 2 ^ 8 + (off &&& 0xfc)))) := by
  have hreg : off &&& 0xfc < 2 ^ 8 := lt_of_le_of_lt Nat.and_le_right (by decide)
  have hlow : func <<< 8 + (off &&& 0xfc) < 2 ^ 11 := by
    rw [Nat.shiftLeft_eq]
    omega
  have hmid : slot <<< 11 + (func <<< 8 + (off &&& 0xfc)) < 2 ^ 16 := by
    rw [Nat.shiftLeft_eq]
    omega
  have hhigh : bus <<< 16 + (slot <<< 11 + (func <<< 8 + (off &&& 0xfc))) < 2 ^ 31 := by
    rw [Nat.shiftLeft_eq bus]
    omega
  rw [cfgAddr, Nat.or_assoc (bus <<< 16 ||| slot <<< 11), Nat.or_assoc (bus <<< 16),
    ← Nat.shiftLeft_add_eq_or_of_lt hreg, ← Nat.shiftLeft_add_eq_or_of_lt hlow,
    ← Nat.shiftLeft_add_eq_or_of_lt hmid, Nat.or_comm,
    show 0x80000000 = 1 <<< 31 from rfl, ← Nat.shiftLeft_add_eq_or_of_lt hhigh]
  simp only [Nat.shiftLeft_eq, Nat.one_mul]

theorem portData_cfgAddr (hbus : bus < 256) (hslot : slot < 32) (hfunc : func < 8) :
    portData cfg (cfgAddr bus slot func off) = (cfg bus slot func ((off &&& 0xfc) / 4)).toNat := by
  have hreg : off &&& 0xfc < 2 ^ 8 := lt_of_le_of_lt Nat.and_le_right (by decide)
  rw [portData, cfgAddr_eq hbus hslot hfunc]
  generalize off &&& 0xfc = reg at hreg
  congr 2 <;> omega

theorem cfgAddr_eight (bus slot off : ℕ) :
    cfgAddr bus slot 8 off = cfgAddr bus (slot ||| 1) 0 off := by
  have hbit : slot <<< 11 ||| 8 <<< 8 = (slot ||| 1) <<< 11 ||| 0 <<< 8 := by
    rw [Nat.shiftLeft_or_distrib, Nat.zero_shiftLeft, Nat.or_zero]
    rfl
  rw [cfgAddr, cfgAddr, Nat.or_assoc (bus <<< 16), hbit, ← Nat.or_assoc (bus <<< 16)]

theorem pciCheckDev_iff (hbus : s.1 < 256) (hslot : s.2 < 32) :
    pciCheckDev cfg s.1 s.2 0 = true ↔ Present cfg s := by
  rw [pciCheckDev, pciGetVendorId, pciCfgReadw, portData_cfgAddr hbus hslot (by decide), bne_iff_ne]
  rfl

theorem pciGetHdrType_zero (hbus : bus < 256) (hslot : slot < 32) :
    pciGetHdrType cfg bus slot 0 = hdrType cfg bus slot 0 := by
  rw [pciGetHdrType, pciCfgReadb, portData_cfgAddr hbus hslot (by decide)]
  rfl

theorem or_one_lt (hslot : slot < 32) : slot ||| 1 < 32 :=
  Nat.or_lt_two_pow (n := 5) hslot (by decide)

theorem pciGetHdrType_eight (hbus : bus < 256) (hslot : slot < 32) :
    pciGetHdrType cfg bus slot 8 = hdrType cfg bus (slot ||| 1) 0 := by
  rw [← pciGetHdrType_zero hbus (or_one_lt hslot), pciGetHdrType, pciGetHdrType, pciCfgReadb,
    pciCfgReadb, cfgAddr_eight]

/-! ## The scan as a recursion over the devices -/

/-- The header type that decides over the functions from 1 to 7 has bit 7 set. -/
def ReadsMulti (cfg : ConfigSpace) (func : ℕ) (s : Slot) : Prop :=
  pciGetHdrType cfg s.1 s.2 func &&& 0x80 ≠ 0

instance (cfg : ConfigSpace) (func : ℕ) (s : Slot) : Decidable (ReadsMulti cfg func s) :=
  inferInstanceAs (Decidable (_ ≠ _))

def foundFuncs (cfg : ConfigSpace) (func : ℕ) (s : Slot) : List ℕ :=
  if pciCheckDev cfg s.1 s.2 0 then
    if ReadsMulti cfg func s then 0 :: List.range' 1 7 else [0]
  else []

def nextFunc (cfg : ConfigSpace) (func : ℕ) (s : Slot) : ℕ :=
  if pciCheckDev cfg s.1 s.2 0 ∧ ReadsMulti cfg func s then 8 else func

def enumerateFrom (cfg : ConfigSpace) : ℕ → List Slot → List PciDev
  | _, [] => []
  | func, s :: ss =>
      (foundFuncs cfg func s).map (pciAddDev cfg s.1 s.2) ++
        enumerateFrom cfg (nextFunc cfg func s) ss

def slots : List Slot := (List.range 256).flatMap fun bus => (List.range 32).map (bus, ·)

theorem addFuncs_eq (hcheck : pciCheckDev cfg bus slot 0 = true) :
    addFuncs cfg bus slot devs = devs ++ (List.range' 1 7).map (pciAddDev cfg bus slot) := by
  simp [addFuncs, hcheck, range'_succ]

theorem probe_eq (cfg : ConfigSpace) (func : ℕ) (devs : List PciDev) (s : Slot) :
    probe cfg (func, devs) s.1 s.2 = (nextFunc cfg func s,
      devs ++ (foundFuncs cfg func s).map (pciAddDev cfg s.1 s.2)) := by
  by_cases hcheck : pciCheckDev cfg s.1 s.2 0 = true
  · by_cases hmulti : ReadsMulti cfg func s
    · have hbit : pciGetHdrType cfg s.1 s.2 func &&& 0x80 ≠ 0 := hmulti
      simp [probe, nextFunc, foundFuncs, hcheck, hmulti, hbit, addFuncs_eq hcheck]
    · have hbit : ¬pciGetHdrType cfg s.1 s.2 func &&& 0x80 ≠ 0 := hmulti
      simp [probe, nextFunc, foundFuncs, hcheck, hmulti, hbit]
  · simp [probe, nextFunc, foundFuncs, hcheck]

theorem foldl_probe (cfg : ConfigSpace) (func : ℕ) (devs : List PciDev) (ss : List Slot) :
    ss.foldl (fun st s => probe cfg st s.1 s.2) (func, devs) =
      (ss.foldl (nextFunc cfg) func, devs ++ enumerateFrom cfg func ss) := by
  induction ss generalizing func devs with
  | nil => simp [enumerateFrom]
  | cons s ss ih =>
    rw [foldl_cons, probe_eq, ih, append_assoc]
    rfl

theorem foldl_foldl_probe (cfg : ConfigSpace) (buses nums : List ℕ) :
    buses.foldl (fun st bus => nums.foldl (fun st dev => probe cfg st bus dev) st) (0, []) =
      ((buses.flatMap fun bus => nums.map (bus, ·)).foldl (nextFunc cfg) 0,
        enumerateFrom cfg 0 (buses.flatMap fun bus => nums.map (bus, ·))) := by
  have hscan := foldl_probe cfg 0 [] (buses.flatMap fun bus => nums.map (bus, ·))
  rw [nil_append, foldl_flatMap] at hscan
  simpa only [foldl_map] using hscan

theorem pciEnumerate_eq (cfg : ConfigSpace) : pciEnumerate cfg = enumerateFrom cfg 0 slots := by
  rw [pciEnumerate, foldl_foldl_probe, slots]

theorem enumerateFrom_append (cfg : ConfigSpace) (func : ℕ) (pre ss : List Slot) :
    enumerateFrom cfg func (pre ++ ss) =
      enumerateFrom cfg func pre ++ enumerateFrom cfg (pre.foldl (nextFunc cfg) func) ss := by
  induction pre generalizing func with
  | nil => rfl
  | cons s pre ih =>
    rw [cons_append, enumerateFrom, ih, enumerateFrom, foldl_cons, append_assoc]

theorem map_place_found (cfg : ConfigSpace) (s : Slot) (funcs : List ℕ) :
    (funcs.map (pciAddDev cfg s.1 s.2)).map PciDev.place = funcs.map (s, ·) := by
  rw [map_map]
  rfl

theorem mem_of_mem_enumerateFrom {p : Slot × ℕ}
    (h : p ∈ (enumerateFrom cfg func ss).map PciDev.place) : p.1 ∈ ss := by
  induction ss generalizing func with
  | nil => cases h
  | cons s ss ih =>
    rw [enumerateFrom, map_append, map_place_found, mem_append] at h
    rcases h with hfound | hlater
    · obtain ⟨f, -, rfl⟩ := mem_map.mp hfound
      exact mem_cons_self
    · exact mem_cons_of_mem s (ih hlater)

theorem nodup_foundFuncs (cfg : ConfigSpace) (func : ℕ) (s : Slot) :
    (foundFuncs cfg func s).Nodup := by
  unfold foundFuncs
  split
  · split <;> decide
  · exact nodup_nil

theorem nodup_enumerateFrom (hss : ss.Nodup) :
    ((enumerateFrom cfg func ss).map PciDev.place).Nodup := by
  induction ss generalizing func with
  | nil => exact nodup_nil
  | cons s ss ih =>
    obtain ⟨hnotin, htail⟩ := nodup_cons.mp hss
    rw [enumerateFrom, map_append, map_place_found]
    refine List.Nodup.append ((nodup_foundFuncs cfg func s).map fun f f' h => (Prod.mk.inj h).2)
      (ih htail) ?_
    intro p hfound hlater
    obtain ⟨f, -, rfl⟩ := mem_map.mp hfound
    exact hnotin (mem_of_mem_enumerateFrom hlater)

theorem mem_enumerateFrom_split {f : ℕ} (hpre : s ∉ pre) (hss : s ∉ ss) :
    (s, f) ∈ (enumerateFrom cfg func (pre ++ s :: ss)).map PciDev.place ↔
      f ∈ foundFuncs cfg (pre.foldl (nextFunc cfg) func) s := by
  have hnotpre : (s, f) ∉ (enumerateFrom cfg func pre).map PciDev.place :=
    fun h => hpre (mem_of_mem_enumerateFrom h)
  have hnotss (func' : ℕ) : (s, f) ∉ (enumerateFrom cfg func' ss).map PciDev.place :=
    fun h => hss (mem_of_mem_enumerateFrom h)
  rw [enumerateFrom_append, enumerateFrom, map_append, map_append, map_place_found,
    mem_append, mem_append, or_iff_right hnotpre, or_iff_left (hnotss _)]
  simp

/-! ## The order of the devices -/

theorem mem_slots : s ∈ slots ↔ s.1 < 256 ∧ s.2 < 32 := by
  obtain ⟨bus, dev⟩ := s
  simp [slots]

theorem slots_pairwise : slots.Pairwise Before := by
  refine pairwise_flatMap.mpr ⟨?_, ?_⟩
  · intro bus _
    exact pairwise_map.mpr (pairwise_lt_range.imp fun h => Or.inr ⟨rfl, h⟩)
  · refine pairwise_lt_range.imp ?_
    intro bus bus' hlt s hs s' hs'
    obtain ⟨_, -, rfl⟩ := mem_map.mp hs
    obtain ⟨_, -, rfl⟩ := mem_map.mp hs'
    exact Or.inl hlt

theorem not_before_self (s : Slot) : ¬Before s s := by
  unfold Before
  omega

theorem before_asymm {s s' : Slot} (h : Before s s') : ¬Before s' s := by
  unfold Before at h ⊢
  omega

theorem slots_nodup : slots.Nodup := by
  refine slots_pairwise.imp ?_
  rintro s _ hbefore rfl
  exact not_before_self s hbefore

theorem mem_pre_iff (hsplit : slots = pre ++ s :: ss) (s' : Slot) :
    s' ∈ pre ↔ s'.1 < 256 ∧ s'.2 < 32 ∧ Before s' s := by
  have hsorted := slots_pairwise
  rw [hsplit, pairwise_append, pairwise_cons] at hsorted
  obtain ⟨-, ⟨hlater, -⟩, hearlier⟩ := hsorted
  constructor
  · intro hmem
    have hin : s' ∈ slots := by
      rw [hsplit]
      exact mem_append_left _ hmem
    exact ⟨(mem_slots.mp hin).1, (mem_slots.mp hin).2, hearlier s' hmem s mem_cons_self⟩
  · rintro ⟨hbus, hslot, hbefore⟩
    have hin : s' ∈ pre ++ s :: ss := hsplit ▸ mem_slots.mpr ⟨hbus, hslot⟩
    rcases mem_append.mp hin with hmem | hmem
    · exact hmem
    rcases mem_cons.mp hmem with rfl | hmem
    · exact absurd hbefore (not_before_self s')
    · exact absurd (hlater s' hmem) (before_asymm hbefore)

/-! ## The shared variable -/

theorem readsMulti_zero (hbus : s.1 < 256) (hslot : s.2 < 32) :
    ReadsMulti cfg 0 s ↔ Multi cfg s := by
  rw [ReadsMulti, pciGetHdrType_zero hbus hslot, Multi]

theorem readsMulti_eight (hbus : s.1 < 256) (hslot : s.2 < 32) :
    ReadsMulti cfg 8 s ↔ Multi cfg (s.1, s.2 ||| 1) := by
  rw [ReadsMulti, pciGetHdrType_eight hbus hslot, Multi]

theorem nextFunc_eight (cfg : ConfigSpace) (s : Slot) : nextFunc cfg 8 s = 8 := ite_self 8

theorem foldl_nextFunc_eight (cfg : ConfigSpace) (ss : List Slot) :
    ss.foldl (nextFunc cfg) 8 = 8 := by
  induction ss with
  | nil => rfl
  | cons s ss ih => rw [foldl_cons, nextFunc_eight, ih]

theorem foldl_nextFunc_zero (hin : ∀ s ∈ ss, s.1 < 256 ∧ s.2 < 32) :
    ss.foldl (nextFunc cfg) 0 = if ∃ s ∈ ss, Present cfg s ∧ Multi cfg s then 8 else 0 := by
  induction ss with
  | nil => simp
  | cons s ss ih =>
    obtain ⟨hs, hrest⟩ := forall_mem_cons.mp hin
    have hnext : nextFunc cfg 0 s = if Present cfg s ∧ Multi cfg s then 8 else 0 := by
      unfold nextFunc
      simp only [pciCheckDev_iff hs.1 hs.2, readsMulti_zero hs.1 hs.2]
    rw [foldl_cons, hnext]
    by_cases hmulti : Present cfg s ∧ Multi cfg s
    · rw [if_pos hmulti, foldl_nextFunc_eight, if_pos ⟨s, mem_cons_self, hmulti⟩]
    · rw [if_neg hmulti, ih hrest]
      simp only [exists_mem_cons_iff, hmulti, false_or]

theorem readsMulti_iff (hsplit : slots = pre ++ s :: ss) (hbus : s.1 < 256) (hslot : s.2 < 32) :
    ReadsMulti cfg (pre.foldl (nextFunc cfg) 0) s ↔ TakenForMulti cfg s := by
  have hin : ∀ s' ∈ pre, s'.1 < 256 ∧ s'.2 < 32 := fun s' hs' =>
    ⟨((mem_pre_iff hsplit s').mp hs').1, ((mem_pre_iff hsplit s').mp hs').2.1⟩
  have hafter : (∃ s' ∈ pre, Present cfg s' ∧ Multi cfg s') ↔ AfterMulti cfg s := by
    simp only [mem_pre_iff hsplit, AfterMulti, and_assoc]
  rw [foldl_nextFunc_zero hin, TakenForMulti, ← hafter]
  by_cases hmulti : ∃ s' ∈ pre, Present cfg s' ∧ Multi cfg s'
  · rw [if_pos hmulti, readsMulti_eight hbus hslot]
    simp only [hmulti, true_and, not_true_eq_false, false_and, or_false]
  · rw [if_neg hmulti, readsMulti_zero hbus hslot]
    simp only [hmulti, false_and, not_false_eq_true, true_and, false_or]

theorem mem_pciEnumerate_iff (hbus : s.1 < 256) (hslot : s.2 < 32) (f : ℕ) :
    (s, f) ∈ (pciEnumerate cfg).map PciDev.place ↔
      Present cfg s ∧ (f = 0 ∨ 1 ≤ f ∧ f < 8 ∧ TakenForMulti cfg s) := by
  obtain ⟨pre, ss, hsplit⟩ := append_of_mem (mem_slots.mpr ⟨hbus, hslot⟩)
  have hnodup := slots_nodup
  rw [hsplit] at hnodup
  have hout := (nodup_middle.mp hnodup).notMem
  rw [mem_append, not_or] at hout
  have hreads : ReadsMulti cfg _ s ↔ TakenForMulti cfg s := readsMulti_iff hsplit hbus hslot
  rw [pciEnumerate_eq, hsplit, mem_enumerateFrom_split hout.1 hout.2, foundFuncs]
  by_cases hpresent : Present cfg s
  · rw [if_pos ((pciCheckDev_iff hbus hslot).mpr hpresent)]
    by_cases hmulti : TakenForMulti cfg s
    · rw [if_pos (hreads.mpr hmulti), mem_cons, mem_range'_1]
      simp only [hpresent, hmulti, and_true, true_and]
    · rw [if_neg (hreads.not.mpr hmulti), mem_singleton]
      simp only [hpresent, hmulti, and_false, or_false, true_and]
  · rw [if_neg ((pciCheckDev_iff hbus hslot).not.mpr hpresent)]
    simp only [hpresent, false_and, not_mem_nil]

theorem lt_of_mem_pciEnumerate {f : ℕ} (h : (s, f) ∈ (pciEnumerate cfg).map PciDev.place) :
    s.1 < 256 ∧ s.2 < 32 := by
  rw [pciEnumerate_eq] at h
  exact mem_slots.mp (mem_of_mem_enumerateFrom h)

/-- The enumeration is exact if and only if each device that is taken for a multifunction device
is one and has all eight functions, and each other multifunction device has only function 0. -/
theorem pciEnumerate_exact_iff (cfg : ConfigSpace) :
    Exact cfg ↔ ∀ s : Slot, s.1 < 256 → s.2 < 32 → Present cfg s → ∀ f, 1 ≤ f → f < 8 →
      (TakenForMulti cfg s ↔ Multi cfg s ∧ vendorId cfg s.1 s.2 f ≠ 0xffff) := by
  constructor
  · intro hexact s hbus hslot hpresent f hone hlt
    have hnz : f ≠ 0 := Nat.one_le_iff_ne_zero.mp hone
    have hmem := hexact.mem_iff s f
    rw [mem_pciEnumerate_iff hbus hslot, HasFunc] at hmem
    simp only [hpresent, hnz, hone, hlt, hbus, hslot, true_and, false_or] at hmem
    exact hmem.trans And.comm
  · intro hall
    refine ⟨?_, ?_⟩
    · rw [pciEnumerate_eq]
      exact nodup_enumerateFrom slots_nodup
    · intro s f
      by_cases hin : s.1 < 256 ∧ s.2 < 32
      · obtain ⟨hbus, hslot⟩ := hin
        rw [mem_pciEnumerate_iff hbus hslot, HasFunc]
        constructor
        · rintro ⟨hpresent, rfl | ⟨hone, hlt, htaken⟩⟩
          · exact ⟨hbus, hslot, by decide, hpresent, Or.inl rfl⟩
          · obtain ⟨hmulti, hvendor⟩ := (hall s hbus hslot hpresent f hone hlt).mp htaken
            exact ⟨hbus, hslot, hlt, hvendor, Or.inr ⟨hpresent, hmulti⟩⟩
        · rintro ⟨-, -, hlt, hvendor, rfl | ⟨hpresent, hmulti⟩⟩
          · exact ⟨hvendor, Or.inl rfl⟩
          · refine ⟨hpresent, ?_⟩
            rcases Nat.eq_zero_or_pos f with hzero | hone
            · exact Or.inl hzero
            · exact Or.inr
                ⟨hone, hlt, (hall s hbus hslot hpresent f hone hlt).mpr ⟨hmulti, hvendor⟩⟩
      · constructor
        · intro hmem
          exact absurd (lt_of_mem_pciEnumerate hmem) hin
        · intro hfunc
          exact absurd ⟨hfunc.1, hfunc.2.1⟩ hin

def twoFuncs : ConfigSpace := fun bus dev func reg =>
  if bus = 0 ∧ dev = 0 ∧ func < 2 then
    if reg = 0 then 0x12371234 else if reg = 3 then 0x00800000 else 0
  else 0xffffffff

/-- The device is entered with function 2, of which the vendor id is `0xffff`. -/
theorem pciEnumerate_adds_missing_func :
    ((0, 0), 2) ∈ (pciEnumerate twoFuncs).map PciDev.place ∧
      vendorId twoFuncs 0 0 2 = 0xffff ∧ ¬Exact twoFuncs := by
  have hfirst : ¬AfterMulti twoFuncs (0, 0) := by
    rintro ⟨s, -, -, hbefore, -⟩
    rcases hbefore with h | ⟨-, h⟩ <;> exact Nat.not_lt_zero _ h
  have hmem : ((0, 0), 2) ∈ (pciEnumerate twoFuncs).map PciDev.place :=
    (mem_pciEnumerate_iff (by decide) (by decide) 2).mpr
      ⟨by decide, Or.inr ⟨by decide, by decide, Or.inr ⟨hfirst, by decide⟩⟩⟩
  have hvendor : vendorId twoFuncs 0 0 2 = 0xffff := rfl
  refine ⟨hmem, hvendor, ?_⟩
  intro hexact
  exact ((hexact.mem_iff (0, 0) 2).mp hmem).2.2.2.1 hvendor

end KernelOld.Pci
