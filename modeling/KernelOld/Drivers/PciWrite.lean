import KernelOld.Drivers.Pci

/-!
# Writing to the PCI configuration space

`pci_cfg_readl` and the three writes of `drivers/pci/pci.c`. A store of 32 bits to the data port
replaces the register at the address port, a store of 8 bits only its lowest byte.

`pci_cfg_writeb` stores the register with the new byte in its place, but with `outb`.
-/

namespace KernelOld.Pci

def portOutl (cfg : ConfigSpace) (addr : ℕ) (data : UInt32) : ConfigSpace :=
  fun bus slot func reg =>
    if bus = addr / 2 ^ 16 % 256 ∧ slot = addr / 2 ^ 11 % 32 ∧ func = addr / 2 ^ 8 % 8 ∧
        reg = addr / 4 % 64 then data
    else cfg bus slot func reg

def portInl (cfg : ConfigSpace) (addr : ℕ) : UInt32 :=
  cfg (addr / 2 ^ 16 % 256) (addr / 2 ^ 11 % 32) (addr / 2 ^ 8 % 8) (addr / 4 % 64)

def portOutb (cfg : ConfigSpace) (addr : ℕ) (data : UInt8) : ConfigSpace :=
  portOutl cfg addr (portInl cfg addr &&& 0xffffff00 ||| data.toUInt32)

def pciCfgReadl (cfg : ConfigSpace) (bus slot func off : ℕ) : ℕ :=
  portData cfg (cfgAddr bus slot func off)

def pciCfgWritel (cfg : ConfigSpace) (bus slot func off : ℕ) (data : UInt32) : ConfigSpace :=
  portOutl cfg (cfgAddr bus slot func off) data

def splice (reg mask data : UInt32) (shift : ℕ) : UInt32 :=
  reg &&& ~~~(mask <<< UInt32.ofNat shift) ||| data <<< UInt32.ofNat shift

def pciCfgWritew (cfg : ConfigSpace) (bus slot func off : ℕ) (data : UInt16) : ConfigSpace :=
  let addr := cfgAddr bus slot func off
  portOutl cfg addr (splice (portInl cfg addr) 0xffff data.toUInt32 ((off &&& 2) * 8))

def pciCfgWriteb (cfg : ConfigSpace) (bus slot func off : ℕ) (data : UInt8) : ConfigSpace :=
  let addr := cfgAddr bus slot func off
  portOutb cfg addr (splice (portInl cfg addr) 0xff data.toUInt32 ((off &&& 3) * 8)).toUInt8

def lane (reg : UInt32) (i : ℕ) : ℕ := reg.toNat >>> (i * 8) &&& 0xff

def cfgByte (cfg : ConfigSpace) (bus slot func off : ℕ) : ℕ :=
  lane (cfg bus slot func (off / 4)) (off % 4)

/-- Only the `width` bytes at `off` of one function may differ. -/
def SameOutside (cfg cfg' : ConfigSpace) (bus slot func off width : ℕ) : Prop :=
  ∀ bus' slot' func' off',
    ¬(bus' = bus ∧ slot' = slot ∧ func' = func ∧ off ≤ off' ∧ off' < off + width) →
      cfgByte cfg' bus' slot' func' off' = cfgByte cfg bus' slot' func' off'

variable {cfg : ConfigSpace} {bus slot func off : ℕ}

/-! ## Registers -/

variable {shift width i : ℕ}

theorem toBitVec_shiftLeft_ofNat (x : UInt32) (hshift : shift < 32) :
    (x <<< UInt32.ofNat shift).toBitVec = x.toBitVec <<< shift := by
  have hmod : ((UInt32.ofNat shift).toBitVec % 32).toNat = shift := by
    rw [UInt32.toBitVec_ofNat', BitVec.toNat_umod, BitVec.toNat_ofNat]
    show shift % 2 ^ 32 % 32 = shift
    omega
  rw [UInt32.toBitVec_shiftLeft, BitVec.shiftLeft_eq', hmod]

theorem testBit_splice (reg : UInt32) {data : UInt32} {j : ℕ} (hshift : shift < 32)
    (hdata : data.toNat < 2 ^ width) (hj : j < 32) :
    (splice reg (UInt32.ofNat (2 ^ width - 1)) data shift).toNat.testBit j =
      if shift ≤ j ∧ j < shift + width then data.toNat.testBit (j - shift)
      else reg.toNat.testBit j := by
  have hbits : (splice reg (UInt32.ofNat (2 ^ width - 1)) data shift).toNat.testBit j =
      (reg.toNat.testBit j && !(!decide (j < shift) && decide (j - shift < width)) ||
        !decide (j < shift) && data.toNat.testBit (j - shift)) := by
    have hlow : j - shift < 32 := by omega
    show BitVec.getLsbD (UInt32.toBitVec _) j = _
    rw [splice]
    simp only [UInt32.toBitVec_or, UInt32.toBitVec_and, UInt32.toBitVec_not,
      toBitVec_shiftLeft_ofNat _ hshift, BitVec.getLsbD_or, BitVec.getLsbD_and, BitVec.getLsbD_not,
      BitVec.getLsbD_shiftLeft, UInt32.toBitVec_ofNat', BitVec.getLsbD_ofNat,
      Nat.testBit_two_pow_sub_one, hj, hlow, decide_true, Bool.true_and]
    rfl
  rw [hbits]
  by_cases hlow : j < shift
  · simp [hlow]
  by_cases hhigh : j < shift + width
  · rw [if_pos ⟨by omega, hhigh⟩]
    simp [hlow, show j - shift < width by omega]
  · -- above the field `data` has no bits
    have hzero : data.toNat.testBit (j - shift) = false :=
      Nat.testBit_lt_two_pow (hdata.trans_le (Nat.pow_le_pow_right (by decide) (by omega)))
    rw [if_neg fun h => hhigh h.2, hzero]
    simp [show ¬j - shift < width by omega]

theorem testBit_lane (reg : UInt32) (i j : ℕ) :
    (lane reg i).testBit j = (decide (j < 8) && reg.toNat.testBit (i * 8 + j)) := by
  rw [lane, Nat.testBit_and, Nat.testBit_shiftRight, show 0xff = 2 ^ 8 - 1 from rfl,
    Nat.testBit_two_pow_sub_one, Bool.and_comm]

theorem lane_congr {reg reg' : UInt32} {i' : ℕ}
    (h : ∀ j < 8, reg.toNat.testBit (i * 8 + j) = reg'.toNat.testBit (i' * 8 + j)) :
    lane reg i = lane reg' i' := by
  refine Nat.eq_of_testBit_eq fun j => ?_
  rw [testBit_lane, testBit_lane]
  by_cases hj : j < 8
  · rw [h j hj]
  · simp [hj]

theorem lane_splice_of_outside {reg data : UInt32} (hshift : shift < 32)
    (hdata : data.toNat < 2 ^ width) (hi : i < 4)
    (hout : i * 8 + 8 ≤ shift ∨ shift + width ≤ i * 8) :
    lane (splice reg (UInt32.ofNat (2 ^ width - 1)) data shift) i = lane reg i := by
  refine lane_congr fun j hj => ?_
  rw [testBit_splice reg hshift hdata (by omega), if_neg (by omega)]

theorem lane_outb (reg : UInt32) (data : UInt8) (hi : i < 4) :
    lane (reg &&& 0xffffff00 ||| data.toUInt32) i = if i = 0 then data.toNat else lane reg i := by
  have hdata : data.toUInt32.toNat < 2 ^ 8 := data.toNat_lt
  have hsplice : reg &&& 0xffffff00 ||| data.toUInt32 =
      splice reg (UInt32.ofNat (2 ^ 8 - 1)) data.toUInt32 0 := by
    rw [splice]
    congr 1
    exact (UInt32.shiftLeft_zero).symm
  rw [hsplice]
  by_cases hzero : i = 0
  · rw [if_pos hzero, hzero]
    refine Nat.eq_of_testBit_eq fun j => ?_
    rw [testBit_lane]
    by_cases hj : j < 8
    · rw [testBit_splice reg (by decide) hdata (by omega), if_pos (by omega)]
      simp [hj]
    · have hfalse : data.toNat.testBit j = false :=
        Nat.testBit_lt_two_pow (hdata.trans_le (Nat.pow_le_pow_right (by decide) (by omega)))
      simp [hj, hfalse]
  · rw [if_neg hzero]
    exact lane_splice_of_outside (by decide) hdata hi (by omega)

/-- What `pci_cfg_writeb` hands to `outb`: the value for the lowest byte of a register, and for
another byte the lowest byte as it was. -/
theorem toNat_toUInt8_splice {reg : UInt32} (data : UInt8) (hi : i < 4) :
    (splice reg 0xff data.toUInt32 (i * 8)).toUInt8.toNat =
      if i = 0 then data.toNat else lane reg 0 := by
  have hdata : data.toUInt32.toNat < 2 ^ 8 := data.toNat_lt
  have hmask : (0xff : UInt32) = UInt32.ofNat (2 ^ 8 - 1) := rfl
  refine Nat.eq_of_testBit_eq fun j => ?_
  rw [hmask, UInt32.toNat_toUInt8, Nat.testBit_mod_two_pow]
  by_cases hj : j < 8
  · have hbit := testBit_splice reg (show i * 8 < 32 by omega) hdata
      (show j < 32 by omega)
    simp only [hj, decide_true, Bool.true_and]
    refine hbit.trans ?_
    by_cases hzero : i = 0
    · rw [if_pos (by omega), if_pos hzero, hzero]
      rfl
    · rw [if_neg (by omega), if_neg hzero, testBit_lane]
      simp [hj]
  · have hfalse : (if i = 0 then data.toNat else lane reg 0).testBit j = false := by
      split
      · exact Nat.testBit_lt_two_pow
          (hdata.trans_le (Nat.pow_le_pow_right (by decide) (by omega)))
      · rw [testBit_lane]
        simp [hj]
    simp [hj, hfalse]

/-! ## The ports -/

theorem and_0xfc_div (hoff : off < 256) : (off &&& 0xfc) / 4 = off / 4 := by
  have hall : ∀ off < 256, (off &&& 0xfc) / 4 = off / 4 := by decide +kernel
  exact hall off hoff

theorem and_two_of_even (hoff : off < 256) (heven : off % 2 = 0) : off &&& 2 = off % 4 := by
  have hall : ∀ off < 256, off % 2 = 0 → off &&& 2 = off % 4 := by decide +kernel
  exact hall off hoff heven

section
variable (hbus : bus < 256) (hslot : slot < 32) (hfunc : func < 8) (hoff : off < 256)
include hbus hslot hfunc hoff

theorem portInl_cfgAddr :
    portInl cfg (cfgAddr bus slot func off) = cfg bus slot func (off / 4) := by
  refine UInt32.toNat_inj.mp ?_
  rw [← and_0xfc_div hoff]
  exact portData_cfgAddr hbus hslot hfunc

theorem portOutl_cfgAddr (data : UInt32) (bus' slot' func' reg : ℕ) :
    portOutl cfg (cfgAddr bus slot func off) data bus' slot' func' reg =
      if bus' = bus ∧ slot' = slot ∧ func' = func ∧ reg = off / 4 then data
      else cfg bus' slot' func' reg := by
  have hreg : off &&& 0xfc < 2 ^ 8 := lt_of_le_of_lt Nat.and_le_right (by decide)
  have hquot := and_0xfc_div hoff
  have haddr := cfgAddr_eq hbus hslot hfunc off
  rw [portOutl]
  generalize cfgAddr bus slot func off = addr at haddr
  generalize off &&& 0xfc = low at hreg hquot haddr
  have hfields : addr / 2 ^ 16 % 256 = bus ∧ addr / 2 ^ 11 % 32 = slot ∧
      addr / 2 ^ 8 % 8 = func ∧ addr / 4 % 64 = off / 4 := by
    omega
  obtain ⟨h₁, h₂, h₃, h₄⟩ := hfields
  rw [h₁, h₂, h₃, h₄]

theorem portOutl_cfgAddr_self (data : UInt32) :
    portOutl cfg (cfgAddr bus slot func off) data bus slot func (off / 4) = data := by
  rw [portOutl_cfgAddr hbus hslot hfunc hoff, if_pos ⟨rfl, rfl, rfl, rfl⟩]

theorem sameOutside_portOutl {data : UInt32}
    (hlane : ∀ i < 4, i < off % 4 ∨ off % 4 + width ≤ i →
      lane data i = lane (cfg bus slot func (off / 4)) i) :
    SameOutside cfg (portOutl cfg (cfgAddr bus slot func off) data) bus slot func off width := by
  intro bus' slot' func' off' hout
  rw [cfgByte, cfgByte, portOutl_cfgAddr hbus hslot hfunc hoff]
  by_cases hsame : bus' = bus ∧ slot' = slot ∧ func' = func ∧ off' / 4 = off / 4
  · rw [if_pos hsame]
    obtain ⟨rfl, rfl, rfl, hreg⟩ := hsame
    rw [hreg]
    refine hlane (off' % 4) (Nat.mod_lt _ (by decide)) ?_
    by_contra hin
    exact hout ⟨rfl, rfl, rfl, by omega, by omega⟩
  · rw [if_neg hsame]

theorem pciCfgReadb_eq :
    pciCfgReadb cfg bus slot func off = lane (cfg bus slot func (off / 4)) (off % 4) := by
  have hand : off &&& 3 = off % 4 := Nat.and_two_pow_sub_one_eq_mod off 2
  rw [pciCfgReadb, portData_cfgAddr hbus hslot hfunc, and_0xfc_div hoff, hand]
  rfl

/-! ## The three writes -/

theorem pciCfgWritel_precise (halign : off % 4 = 0) (data : UInt32) :
    pciCfgReadl (pciCfgWritel cfg bus slot func off data) bus slot func off = data.toNat ∧
      SameOutside cfg (pciCfgWritel cfg bus slot func off data) bus slot func off 4 := by
  constructor
  · rw [pciCfgReadl, portData_cfgAddr hbus hslot hfunc, and_0xfc_div hoff, pciCfgWritel,
      portOutl_cfgAddr_self hbus hslot hfunc hoff]
  · refine sameOutside_portOutl hbus hslot hfunc hoff fun i hi hout => ?_
    omega

theorem pciCfgWritew_precise (halign : off % 2 = 0) (data : UInt16) :
    pciCfgReadw (pciCfgWritew cfg bus slot func off data) bus slot func off = data.toNat ∧
      SameOutside cfg (pciCfgWritew cfg bus slot func off data) bus slot func off 2 := by
  have hdata : data.toUInt32.toNat < 2 ^ 16 := data.toNat_lt
  have hand := and_two_of_even hoff halign
  have hshift : off % 4 * 8 < 32 := by omega
  have hmask : (0xffff : UInt32) = UInt32.ofNat (2 ^ 16 - 1) := rfl
  rw [pciCfgWritew, portInl_cfgAddr hbus hslot hfunc hoff, hand, hmask]
  constructor
  · rw [pciCfgReadw, portData_cfgAddr hbus hslot hfunc, and_0xfc_div hoff,
      portOutl_cfgAddr_self hbus hslot hfunc hoff, hand]
    refine Nat.eq_of_testBit_eq fun j => ?_
    rw [Nat.testBit_and, Nat.testBit_shiftRight, show 0xffff = 2 ^ 16 - 1 from rfl,
      Nat.testBit_two_pow_sub_one]
    by_cases hj : j < 16
    · have hbit := testBit_splice (cfg bus slot func (off / 4)) hshift hdata
        (show off % 4 * 8 + j < 32 by omega)
      rw [if_pos (by omega), Nat.add_sub_cancel_left] at hbit
      rw [hbit]
      simp [hj]
    · have hfalse : data.toNat.testBit j = false :=
        Nat.testBit_lt_two_pow (hdata.trans_le (Nat.pow_le_pow_right (by decide) (by omega)))
      simp [hj, hfalse]
  · refine sameOutside_portOutl hbus hslot hfunc hoff fun i hi hout => ?_
    exact lane_splice_of_outside hshift hdata hi (by omega)

/-- The byte that a read returns after `pci_cfg_writeb`, and the bytes around it. -/
theorem pciCfgWriteb_eq (cfg : ConfigSpace) (data : UInt8) :
    pciCfgReadb (pciCfgWriteb cfg bus slot func off data) bus slot func off =
        (if off % 4 = 0 then data.toNat else pciCfgReadb cfg bus slot func off) ∧
      SameOutside cfg (pciCfgWriteb cfg bus slot func off data) bus slot func off 1 := by
  have hlt : off % 4 < 4 := Nat.mod_lt _ (by decide)
  have hand : off &&& 3 = off % 4 := Nat.and_two_pow_sub_one_eq_mod off 2
  rw [pciCfgWriteb, portInl_cfgAddr hbus hslot hfunc hoff, hand, portOutb,
    portInl_cfgAddr hbus hslot hfunc hoff]
  constructor
  · rw [pciCfgReadb_eq hbus hslot hfunc hoff, pciCfgReadb_eq hbus hslot hfunc hoff,
      portOutl_cfgAddr_self hbus hslot hfunc hoff, lane_outb _ _ hlt]
    by_cases hzero : off % 4 = 0
    · rw [if_pos hzero, if_pos hzero, toNat_toUInt8_splice data hlt, if_pos hzero]
    · rw [if_neg hzero, if_neg hzero]
  · refine sameOutside_portOutl hbus hslot hfunc hoff fun i hi hout => ?_
    rw [lane_outb _ _ hi, toNat_toUInt8_splice data hlt]
    by_cases hzero : i = 0
    · rw [if_pos hzero, if_neg (by omega), hzero]
    · rw [if_neg hzero]

end

/-- `pci_cfg_writel` and `pci_cfg_writew` write their field and nothing else. `pci_cfg_writeb` does
if the byte is the lowest one of its register, or already has the value. -/
theorem pciCfgWrite_precise_iff (cfg : ConfigSpace) (hbus : bus < 256) (hslot : slot < 32)
    (hfunc : func < 8) (hoff : off < 256) :
    (off % 4 = 0 → ∀ data : UInt32,
      pciCfgReadl (pciCfgWritel cfg bus slot func off data) bus slot func off = data.toNat ∧
        SameOutside cfg (pciCfgWritel cfg bus slot func off data) bus slot func off 4) ∧
    (off % 2 = 0 → ∀ data : UInt16,
      pciCfgReadw (pciCfgWritew cfg bus slot func off data) bus slot func off = data.toNat ∧
        SameOutside cfg (pciCfgWritew cfg bus slot func off data) bus slot func off 2) ∧
    ∀ data : UInt8,
      (pciCfgReadb (pciCfgWriteb cfg bus slot func off data) bus slot func off = data.toNat ∧
        SameOutside cfg (pciCfgWriteb cfg bus slot func off data) bus slot func off 1) ↔
      (off % 4 = 0 ∨ pciCfgReadb cfg bus slot func off = data.toNat) := by
  refine ⟨pciCfgWritel_precise hbus hslot hfunc hoff, pciCfgWritew_precise hbus hslot hfunc hoff,
    fun data => ?_⟩
  obtain ⟨hread, hsame⟩ := pciCfgWriteb_eq hbus hslot hfunc hoff cfg data
  rw [hread, and_iff_left hsame]
  by_cases hzero : off % 4 = 0
  · simp only [hzero, if_true, true_or]
  · simp only [hzero, if_false, false_or]

def cleared : ConfigSpace := fun _ _ _ _ => 0

theorem pciCfgWrite_precise_command :
    pciCfgReadw (pciCfgWritew cleared 0 3 0 4 0x107) 0 3 0 4 = 0x107 ∧
      SameOutside cleared (pciCfgWritew cleared 0 3 0 4 0x107) 0 3 0 4 2 := by
  have hprecise := (pciCfgWrite_precise_iff cleared (by decide : 0 < 256) (by decide : 3 < 32)
    (by decide : 0 < 8) (by decide : 4 < 256)).2.1 (by decide) 0x107
  exact hprecise

/-- `pci_cfg_writeb(0, 3, 0, 0x3d, 5)` on a cleared configuration space: the byte stays zero. -/
theorem pciCfgWriteb_loses_byte :
    pciCfgReadb (pciCfgWriteb cleared 0 3 0 0x3d 5) 0 3 0 0x3d = 0 := by
  have hread := (pciCfgWriteb_eq (by decide : 0 < 256) (by decide : 3 < 32) (by decide : 0 < 8)
    (by decide : 0x3d < 256) cleared 5).1
  rw [hread]
  rfl

end KernelOld.Pci
