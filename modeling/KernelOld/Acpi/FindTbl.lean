import KernelOld.Lib.ByteMemory
import KernelOld.Lib.Trace
import KernelOld.Util.Strings

/-!
# Looking up an ACPI table

`acpi_find_tbl` of `acpi/acpi.c` with the root table that `acpi_init` maps. An event is the address
of a table header that is looked at. The entries of an XSDT are counted as such, but `rsdt->sdts[i]`
takes 32 bits at a time.
-/

namespace KernelOld.Acpi
open ByteMemory MachineWord Trace Traced Strings List

def ioVirtualAddr : ℕ := 0xfffffffe80000000

def pageMapMmio (physaddr : ℕ) : ℕ := u64 (physaddr + ioVirtualAddr)

structure Xsdp where
  rev : UInt8
  rsdtAddr : ℕ
  xsdtAddr : ℕ

/-- The root table that `acpi_init` sets `rsdt`, and `xsdt` if there is one, to. -/
def rootTable (desc : Xsdp) : ℕ :=
  if desc.rev = 0 then pageMapMmio desc.rsdtAddr else pageMapMmio desc.xsdtAddr

/-- `entries`: the length in the header, less `sizeof(acpi_sdt_hdr_t)`, by the size of an entry. -/
def rootEntries (m : Mem) (desc : Xsdp) : ℕ :=
  u32 (sub64 (load m (rootTable desc + 4) 4) 36 / if desc.rev = 0 then 4 else 8)

def sigAt (m : Mem) (hdr : ℕ) : Str := [m hdr, m (hdr + 1), m (hdr + 2), m (hdr + 3)]

def findFrom (m : Mem) (sdts : ℕ) (tbl : Str) : ℕ → ℕ → Traced ℕ (Option ℕ)
  | 0, _ => pure none
  | left + 1, i => do
    let hdr := pageMapMmio (load m (sdts + 4 * i) 4)
    emit hdr
    if strncmp (sigAt m hdr) tbl 4 = 0 then pure (some hdr) else findFrom m sdts tbl left (i + 1)

def acpiFindTbl (m : Mem) (desc : Xsdp) (tbl : Str) : Traced ℕ (Option ℕ) :=
  findFrom m (rootTable desc + 36) tbl (rootEntries m desc) 0

/-! ## What it should do -/

/-- The table at `root` has the entries `ents`, each `width` bytes long, behind its header. -/
structure Lists (m : Mem) (root width : ℕ) (ents : List ℕ) : Prop where
  len_eq : load m (root + 4) 4 = 36 + width * ents.length
  entry_eq : ∀ i < ents.length, load m (root + 36 + width * i) width = ents.getD i 0

def entWidth (desc : Xsdp) : ℕ := if desc.rev = 0 then 4 else 8

/-- The table at `physaddr` has the signature `tbl`. -/
def Carries (m : Mem) (tbl : Str) (physaddr : ℕ) : Prop := sigAt m (pageMapMmio physaddr) = tbl

instance (m : Mem) (tbl : Str) (physaddr : ℕ) : Decidable (Carries m tbl physaddr) :=
  inferInstanceAs (Decidable (_ = _))

/-- The first listed table with the signature, or null, and only listed tables are looked at. -/
structure Finds (m : Mem) (tbl : Str) (ents : List ℕ) (run : Traced ℕ (Option ℕ)) : Prop where
  result_eq : run.result = some ((ents.find? fun e => Carries m tbl e).map pageMapMmio)
  listed : ∀ hdr ∈ run.events, ∃ e ∈ ents, hdr = pageMapMmio e

def lookedAt (m : Mem) (tbl : Str) (ents : List ℕ) : List ℕ :=
  match ents with
  | [] => []
  | e :: ents => e :: if Carries m tbl e then [] else lookedAt m tbl ents

def halves (ents : List ℕ) : List ℕ := ents.flatMap fun e => [e % 2 ^ 32, e / 2 ^ 32]

def takenFor (desc : Xsdp) (ents : List ℕ) : List ℕ :=
  if desc.rev = 0 then ents else (halves ents).take ents.length

variable {m : Mem} {desc : Xsdp} {tbl : Str} {ents words : List ℕ} {root sdts i e : ℕ}

/-! ## The search -/

theorem pageMapMmio_inj {a b : ℕ} (ha : a < 2 ^ 64) (hb : b < 2 ^ 64) :
    pageMapMmio a = pageMapMmio b ↔ a = b := by
  refine ⟨fun h => ?_, congrArg pageMapMmio⟩
  rw [pageMapMmio, pageMapMmio, u64, u64, ioVirtualAddr] at h
  omega

theorem strncmp_sigAt (htbl : tbl.length = 4) (hdr : ℕ) :
    strncmp (sigAt m hdr) tbl 4 = 0 ↔ sigAt m hdr = tbl :=
  strncmp_eq_zero htbl.symm

theorem findFrom_eq (htbl : tbl.length = 4)
    (hwords : ∀ j < words.length, load m (sdts + 4 * (i + j)) 4 = words.getD j 0) :
    findFrom m sdts tbl words.length i =
      ⟨(lookedAt m tbl words).map pageMapMmio,
        some ((words.find? fun e => Carries m tbl e).map pageMapMmio)⟩ := by
  induction words generalizing i with
  | nil => rfl
  | cons w words ih =>
    have hfirst : load m (sdts + 4 * i) 4 = w := hwords 0 (Nat.succ_pos _)
    have hrest := ih (i := i + 1) fun j hj => by
      rw [Nat.add_assoc, Nat.add_comm 1 j]
      exact hwords (j + 1) (Nat.succ_lt_succ hj)
    rw [length_cons, findFrom, hfirst, emit_bind, lookedAt]
    by_cases hcarries : Carries m tbl w
    · rw [if_pos ((strncmp_sigAt htbl _).mpr hcarries), if_pos hcarries,
        find?_cons_of_pos (by simpa using hcarries)]
      rfl
    · rw [if_neg fun h => hcarries ((strncmp_sigAt htbl _).mp h), if_neg hcarries, hrest,
        find?_cons_of_neg (by simpa using hcarries)]
      rfl

theorem lookedAt_subset (m : Mem) (tbl : Str) (words : List ℕ) : lookedAt m tbl words ⊆ words := by
  induction words with
  | nil => exact List.Subset.refl []
  | cons w words ih =>
    rw [lookedAt]
    refine cons_subset_cons w ?_
    split
    · exact nil_subset _
    · exact ih

theorem finds_iff (hents : ∀ e ∈ ents, e < 2 ^ 64) (hwords : ∀ w ∈ words, w < 2 ^ 64) :
    Finds m tbl ents ⟨(lookedAt m tbl words).map pageMapMmio,
        some ((words.find? fun e => Carries m tbl e).map pageMapMmio)⟩ ↔
      (words.find? fun e => Carries m tbl e) = (ents.find? fun e => Carries m tbl e) ∧
        ∀ w ∈ lookedAt m tbl words, w ∈ ents := by
  have hlisted (w : ℕ) (hw : w ∈ lookedAt m tbl words) :
      (∃ e ∈ ents, pageMapMmio w = pageMapMmio e) ↔ w ∈ ents := by
    constructor
    · rintro ⟨e, he, heq⟩
      have hlt := hwords w (lookedAt_subset m tbl words hw)
      rwa [(pageMapMmio_inj hlt (hents e he)).mp heq]
    · intro he
      exact ⟨w, he, rfl⟩
  constructor
  · rintro ⟨hresult, hall⟩
    refine ⟨?_, fun w hw => (hlisted w hw).mp (hall _ (mem_map_of_mem hw))⟩
    have hmap := Option.some.inj hresult
    cases hw : words.find? fun e => Carries m tbl e with
    | none =>
      rw [hw] at hmap
      exact (Option.map_eq_none_iff.mp hmap.symm).symm
    | some w =>
      rw [hw] at hmap
      obtain ⟨e, he, heq⟩ := Option.map_eq_some_iff.mp hmap.symm
      have hwlt := hwords w (mem_of_find?_eq_some hw)
      have helt := hents e (mem_of_find?_eq_some he)
      rw [he, (pageMapMmio_inj hwlt helt).mp heq.symm]
  · rintro ⟨hfind, hall⟩
    refine ⟨by rw [hfind], fun hdr hhdr => ?_⟩
    obtain ⟨w, hw, rfl⟩ := mem_map.mp hhdr
    exact (hlisted w hw).mpr (hall w hw)

/-! ## The root table -/

theorem halves_cons (e : ℕ) (ents : List ℕ) :
    halves (e :: ents) = e % 2 ^ 32 :: e / 2 ^ 32 :: halves ents := rfl

theorem length_halves (ents : List ℕ) : (halves ents).length = 2 * ents.length := by
  induction ents with
  | nil => rfl
  | cons e ents ih =>
    rw [halves_cons, length_cons, length_cons, length_cons, ih]
    omega

theorem getD_halves (ents : List ℕ) (i : ℕ) :
    (halves ents).getD (2 * i) 0 = ents.getD i 0 % 2 ^ 32 ∧
      (halves ents).getD (2 * i + 1) 0 = ents.getD i 0 / 2 ^ 32 := by
  induction ents generalizing i with
  | nil => simp [halves]
  | cons e ents ih =>
    cases i with
    | zero => exact ⟨rfl, rfl⟩
    | succ i => exact ih i

theorem Lists.lt {width : ℕ} (h : Lists m root width ents) (hwidth : width ≤ 8) :
    ∀ e ∈ ents, e < 2 ^ 64 := by
  intro e he
  obtain ⟨i, hi, rfl⟩ := getElem_of_mem he
  have hload := load_lt m (root + 36 + width * i) width
  rw [h.entry_eq i hi, getD_eq_getElem?_getD, getElem?_eq_getElem hi] at hload
  calc ents[i] < 256 ^ width := hload
    _ ≤ 256 ^ 8 := Nat.pow_le_pow_right (by decide) hwidth
    _ = 2 ^ 64 := by decide

theorem Lists.load_halves (h : Lists m root 8 ents) {j : ℕ} (hj : j < 2 * ents.length) :
    load m (root + 36 + 4 * j) 4 = (halves ents).getD j 0 := by
  obtain ⟨i, hi⟩ := Nat.even_or_odd' j
  have hlen : i < ents.length := by omega
  have hentry := h.entry_eq i hlen
  have hsplit := load_add m (root + 36 + 8 * i) 4 4
  have hlow := load_lt m (root + 36 + 8 * i) 4
  obtain ⟨heven, hodd⟩ := getD_halves ents i
  rw [hentry] at hsplit
  rcases hi with rfl | rfl
  · rw [heven, hsplit, show 4 * (2 * i) = 8 * i by omega]
    omega
  · rw [hodd, hsplit, show root + 36 + 4 * (2 * i + 1) = root + 36 + 8 * i + 4 by omega]
    omega

theorem acpiFindTbl_eq (htbl : tbl.length = 4)
    (h : Lists m (rootTable desc) (entWidth desc) ents) :
    acpiFindTbl m desc tbl = ⟨(lookedAt m tbl (takenFor desc ents)).map pageMapMmio,
      some (((takenFor desc ents).find? fun e => Carries m tbl e).map pageMapMmio)⟩ := by
  have hlen := h.len_eq
  have hlt := load_lt m (rootTable desc + 4) 4
  have hsub := sub64_of_le (show load m (rootTable desc + 4) 4 < 2 ^ 64 by omega)
    (show 36 ≤ load m (rootTable desc + 4) 4 by omega)
  have hcount : rootEntries m desc = (takenFor desc ents).length := by
    rw [hlen] at hlt
    rw [rootEntries, hsub, hlen, takenFor]
    by_cases hrev : desc.rev = 0
    · rw [entWidth, if_pos hrev] at hlt ⊢
      rw [if_pos hrev, Nat.add_sub_cancel_left, Nat.mul_div_cancel_left _ (by decide),
        u32_of_lt (by omega)]
    · rw [entWidth, if_neg hrev] at hlt ⊢
      rw [if_neg hrev, Nat.add_sub_cancel_left, Nat.mul_div_cancel_left _ (by decide),
        u32_of_lt (by omega), length_take, length_halves, min_eq_left (by omega)]
  rw [acpiFindTbl, hcount]
  refine findFrom_eq htbl fun j hj => ?_
  rw [Nat.zero_add, takenFor]
  rw [takenFor] at hj
  by_cases hrev : desc.rev = 0
  · rw [entWidth, if_pos hrev] at h
    rw [if_pos hrev] at hj ⊢
    exact h.entry_eq j hj
  · rw [entWidth, if_neg hrev] at h
    rw [if_neg hrev, length_take] at hj
    rw [if_neg hrev, h.load_halves (by omega), getD_eq_getElem?_getD,
      getD_eq_getElem?_getD, getElem?_take_of_lt (by omega)]

theorem halves_lt (h : ∀ e ∈ ents, e < 2 ^ 64) : ∀ w ∈ halves ents, w < 2 ^ 64 := by
  intro w hw
  obtain ⟨e, he, hmem⟩ := mem_flatMap.mp hw
  have hlt := h e he
  rcases mem_pair.mp hmem with rfl | rfl <;> omega

theorem acpiFindTbl_finds (htbl : tbl.length = 4)
    (h : Lists m (rootTable desc) (entWidth desc) ents) :
    Finds m tbl ents (acpiFindTbl m desc tbl) ↔
      ((takenFor desc ents).find? fun e => Carries m tbl e) =
          (ents.find? fun e => Carries m tbl e) ∧
        ∀ w ∈ lookedAt m tbl (takenFor desc ents), w ∈ ents := by
  have hents : ∀ e ∈ ents, e < 2 ^ 64 := by
    refine h.lt ?_
    rw [entWidth]
    split <;> decide
  rw [acpiFindTbl_eq htbl h]
  refine finds_iff hents ?_
  intro w hw
  rw [takenFor] at hw
  split at hw
  · exact hents w hw
  · exact halves_lt hents w (mem_of_mem_take hw)

/-- With entries that are no null pointers and below 4 GiB, where `page_map_mmio` can show them,
only the first one is taken for what it is. -/
theorem finds_halves_iff (hents : ∀ e ∈ ents, e ≠ 0 ∧ e < 2 ^ 32) :
    (((halves ents).take ents.length).find? fun e => Carries m tbl e) =
          (ents.find? fun e => Carries m tbl e) ∧
        (∀ w ∈ lookedAt m tbl ((halves ents).take ents.length), w ∈ ents) ↔
      ents.length ≤ 1 ∨ ∃ e, ents.head? = some e ∧ Carries m tbl e := by
  cases ents with
  | nil => simp [halves, lookedAt]
  | cons e ents =>
    obtain ⟨⟨-, hlt⟩, -⟩ := forall_mem_cons.mp hents
    have hlow : e % 2 ^ 32 = e := Nat.mod_eq_of_lt hlt
    have hhigh : e / 2 ^ 32 = 0 := Nat.div_eq_of_lt hlt
    rw [halves_cons, hlow, hhigh, length_cons, take_succ_cons]
    by_cases hcarries : Carries m tbl e
    · simp [lookedAt, hcarries]
    · cases ents with
      | nil => simp [lookedAt, hcarries]
      | cons e' ents =>
        -- the upper half of the first entry is looked at next
        have hzero : 0 ∉ e :: e' :: ents := fun hmem => (hents 0 hmem).1 rfl
        refine iff_of_false ?_ ?_
        · rintro ⟨-, hall⟩
          refine hzero (hall 0 ?_)
          rw [lookedAt, if_neg hcarries, length_cons, take_succ_cons, lookedAt]
          exact mem_cons_of_mem e mem_cons_self
        · rintro (hle | ⟨e₀, hhead, hcarries₀⟩)
          · simp at hle
          · obtain rfl := Option.some.inj hhead
            exact hcarries hcarries₀

/-- The lookup is right for every RSDT. For an XSDT it is right if searching the first `n` of the
32-bit words gives the first entry with the signature, or none if there is none, and every word that
is looked at is an entry. -/
theorem acpiFindTbl_finds_iff (htbl : tbl.length = 4)
    (h : Lists m (rootTable desc) (entWidth desc) ents) :
    (desc.rev = 0 → Finds m tbl ents (acpiFindTbl m desc tbl)) ∧
    (desc.rev ≠ 0 → (Finds m tbl ents (acpiFindTbl m desc tbl) ↔
      (((halves ents).take ents.length).find? fun e => Carries m tbl e) =
          (ents.find? fun e => Carries m tbl e) ∧
        ∀ w ∈ lookedAt m tbl ((halves ents).take ents.length), w ∈ ents)) ∧
    (desc.rev ≠ 0 → (∀ e ∈ ents, e ≠ 0 ∧ e < 2 ^ 32) →
      (Finds m tbl ents (acpiFindTbl m desc tbl) ↔
        ents.length ≤ 1 ∨ ∃ e, ents.head? = some e ∧ Carries m tbl e)) := by
  have hfinds := acpiFindTbl_finds htbl h
  refine ⟨fun hrev => ?_, fun hrev => ?_, fun hrev hents => ?_⟩
  · rw [takenFor, if_pos hrev] at hfinds
    exact hfinds.mpr ⟨rfl, fun w hw => lookedAt_subset m tbl ents hw⟩
  · rwa [takenFor, if_neg hrev] at hfinds
  · rw [takenFor, if_neg hrev] at hfinds
    exact hfinds.trans (finds_halves_iff hents)

def apic : Str := [65, 80, 73, 67]

def physBytes (physaddr : ℕ) (bytes : List UInt8) : Mem := fun a =>
  if pageMapMmio physaddr ≤ a then bytes.getD (a - pageMapMmio physaddr) 0 else 0

def twoTables (width : ℕ) : Mem := fun a =>
  physBytes 0x1004 [UInt8.ofNat (36 + width * 2)] a ||| physBytes 0x1024 [0, 0x20] a |||
    physBytes (0x1024 + width) [0, 0x30] a ||| physBytes 0x2000 [70, 65, 67, 80] a |||
    physBytes 0x3000 apic a

theorem acpiFindTbl_finds_iff_rsdt :
    Lists (twoTables 4) (rootTable ⟨0, 0x1000, 0⟩) (entWidth ⟨0, 0x1000, 0⟩) [0x2000, 0x3000] ∧
      Finds (twoTables 4) apic [0x2000, 0x3000]
        (acpiFindTbl (twoTables 4) ⟨0, 0x1000, 0⟩ apic) := by
  have hlists : Lists (twoTables 4) (rootTable ⟨0, 0x1000, 0⟩) (entWidth ⟨0, 0x1000, 0⟩)
      [0x2000, 0x3000] := ⟨by decide +kernel, by decide +kernel⟩
  exact ⟨hlists, (acpiFindTbl_finds_iff rfl hlists).1 rfl⟩

/-- The same two tables listed by an XSDT: the MADT is not found. -/
theorem acpiFindTbl_misses_madt :
    Lists (twoTables 8) (rootTable ⟨2, 0, 0x1000⟩) (entWidth ⟨2, 0, 0x1000⟩) [0x2000, 0x3000] ∧
      Carries (twoTables 8) apic 0x3000 ∧
      (acpiFindTbl (twoTables 8) ⟨2, 0, 0x1000⟩ apic).result = some none ∧
      ¬Finds (twoTables 8) apic [0x2000, 0x3000]
        (acpiFindTbl (twoTables 8) ⟨2, 0, 0x1000⟩ apic) := by
  have hlists : Lists (twoTables 8) (rootTable ⟨2, 0, 0x1000⟩) (entWidth ⟨2, 0, 0x1000⟩)
      [0x2000, 0x3000] := ⟨by decide +kernel, by decide +kernel⟩
  refine ⟨hlists, by decide +kernel, by decide +kernel, ?_⟩
  rw [acpiFindTbl_finds rfl hlists, takenFor, if_neg (by decide),
    finds_halves_iff (by decide)]
  decide +kernel

end KernelOld.Acpi
