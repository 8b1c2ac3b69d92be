import KernelOld.Lib.ByteMemory
import KernelOld.Lib.Trace
import Mathlib.Data.Nat.Digits.Defs

/-!
# The AHCI driver

`ahci_access`, `ahci_read` and `ahci_write` of `drivers/storage/ata/ahci/ahci.c`. What the driver
reads from the registers of the port is given with the call. A command is an event, and one that
succeeds moves its sectors between the disk and the bounce buffer. A request is done sector by
sector, and each command asks for all the sectors that are left.
-/

namespace KernelOld.Ahci
open ByteMemory MachineWord CountedLoop Trace

/-! ## Commands -/

structure Port where
  physBuf : ℕ
  physBuf_lt : physBuf < 2 ^ 64

/-- What the registers of the port read as during a call. -/
structure Reply where
  /-- `sata_active | cmd_issue`, at the beginning. -/
  slots : ℕ
  /-- `task_file_dat`, in each round of the spinning loop. -/
  taskFileDat : ℕ → ℕ
  /-- `cmd_issue` and then `int_stat`, in each round of the loop that waits for completion. -/
  polls : List (ℕ × ℕ)

def findSlot : ℕ → ℕ → ℕ → Option ℕ
  | 0, _, _ => none
  | rounds + 1, i, slots =>
    if slots &&& i = 0 then some i else findSlot rounds (i + 1) (slots >>> 1)

def findCmdSlot (slots : ℕ) : Option ℕ := findSlot 32 0 slots

structure PrdtEntry where
  dataBaseAddr : ℕ
  dataBaseAddrU : ℕ
  byteCnt : ℕ

def PrdtEntry.addr (e : PrdtEntry) : ℕ := e.dataBaseAddr + 2 ^ 32 * e.dataBaseAddrU

structure Command where
  slot : ℕ
  write : Bool
  prdtLen : ℕ
  /-- The entries that are filled in. The table has been cleared before. -/
  prdtEntry : List PrdtEntry
  command : ℕ
  /-- `lba0` to `lba5`. -/
  lba : List ℕ
  countl : ℕ
  counth : ℕ

def buildCommand (slot sector cnt buffer : ℕ) (write : Bool) : Command where
  slot := slot
  write := write
  prdtLen := ((sub32 cnt 1 >>> 4) % 2 ^ 16 + 1) % 2 ^ 16
  prdtEntry :=
    [{ dataBaseAddr := u32 buffer
       dataBaseAddrU := u32 (buffer >>> 32)
       byteCnt := sub32 (u32 (cnt * 512)) 1 % 2 ^ 22 }]
  command := if write then 0x35 else 0x25
  lba := [sector % 256, (sector >>> 8) % 256, (sector >>> 16) % 256, (sector >>> 24) % 256,
    (sector >>> 32) % 256, (sector >>> 40) % 256]
  countl := cnt &&& 0xff
  counth := (cnt >>> 8) &&& 0xff

def spinLoop (taskFileDat : ℕ → ℕ) : ℕ → ℕ → ℕ
  | 0, spin => spin
  | rounds + 1, spin =>
    -- `ATA_DEV_BUSY | ATA_DEV_DRQ`
    if taskFileDat spin &&& 0x88 ≠ 0 then spinLoop taskFileDat rounds (spin + 1) else spin

def taskFileError : ℕ := 1 <<< 30

/-- The loop that waits for completion and the check behind it. The readings may run out. -/
def waitLoop (slot : ℕ) : List (ℕ × ℕ) → Option Bool
  | [] => none
  | (cmdIssue, intStat) :: polls =>
    if cmdIssue &&& (1 <<< slot) ≠ 0 then
      if intStat &&& taskFileError ≠ 0 then some false else waitLoop slot polls
    else some (intStat &&& taskFileError = 0)

/-! ## Transfers -/

/-- The disk, the bounce buffer `port->buf`, and the memory that `ptr` points into. -/
structure State where
  disk : Mem
  buf : Mem
  mem : Mem

def getSectors (dst disk : Mem) (sector cnt : ℕ) : Mem :=
  loop (fun i dst => blit dst (512 * i) disk (512 * u64 (sector + i)) 512) cnt dst

def putSectors (disk src : Mem) (sector cnt : ℕ) : Mem :=
  loop (fun i disk => blit disk (512 * u64 (sector + i)) src (512 * i) 512) cnt disk

/-- What a command does that succeeds. The sector is the argument of `ahci_access`, of which the
command has the lower 48 bits, so this is the disk's part for sector numbers below 2^48. -/
def State.transfer (s : State) (sector cnt : ℕ) (write : Bool) : State :=
  if write then { s with disk := putSectors s.disk s.buf sector cnt }
  else { s with buf := getSectors s.buf s.disk sector cnt }

def ahciAccess (port : Port) (reply : Reply) (sector cnt : ℕ) (write : Bool) (s : State) :
    Traced Command (Bool × State) :=
  match findCmdSlot reply.slots with
  | none => pure (false, s)
  | some slot => do
    .emit (buildCommand slot sector cnt port.physBuf write)
    if spinLoop reply.taskFileDat 1000000 0 = 1000000 then pure (false, s)
    else
      let ok ← .lift (waitLoop slot reply.polls)
      pure (ok, if ok then s.transfer sector cnt write else s)

def ahciRead (port : Port) (reply : ℕ → Reply) (ptr off : ℕ) :
    ℕ → State → Traced Command (ℕ × State)
  | 0, s => pure (0, s)
  | len + 1, s => do
    let (_, s) ← ahciAccess port (reply 0) off (len + 1) false s
    ahciRead port (fun i => reply (i + 1)) (ptr + 512) (u64 (off + 1)) len
      { s with mem := blit s.mem ptr s.buf 0 512 }

def ahciWrite (port : Port) (reply : ℕ → Reply) (ptr off : ℕ) :
    ℕ → State → Traced Command (ℕ × State)
  | 0, s => pure (0, s)
  | len + 1, s => do
    let (_, s) ← ahciAccess port (reply 0) off (len + 1) true
      { s with buf := blit s.buf 0 s.mem ptr 512 }
    ahciWrite port (fun i => reply (i + 1)) (ptr + 512) (u64 (off + 1)) len s

/-! ## One call of `ahci_access` -/

def Reply.outcome (reply : Reply) : Option Bool :=
  if spinLoop reply.taskFileDat 1000000 0 = 1000000 then some false else waitLoop 0 reply.polls

variable {port : Port} {reply : ℕ → Reply} {ptr off sector cnt len i j n : ℕ} {s s' : State}
  {write ok : Bool} {disk dst src : Mem}

theorem findCmdSlot_eq (slots : ℕ) : findCmdSlot slots = some 0 := by
  rw [findCmdSlot, findSlot, Nat.and_zero, if_pos rfl]

/-- Command slot `i` is in neither of the two registers. -/
def FreeSlot (sataActive cmdIssue : UInt32) (i : ℕ) : Prop :=
  sataActive.toNat.testBit i = false ∧ cmdIssue.toNat.testBit i = false

/-- The lowest free slot is returned, or `-1` if there is none. -/
def FindsFree (sataActive cmdIssue : UInt32) : Option ℕ → Prop
  | some slot => slot < 32 ∧ FreeSlot sataActive cmdIssue slot ∧
      ∀ i < slot, ¬FreeSlot sataActive cmdIssue i
  | none => ∀ i < 32, ¬FreeSlot sataActive cmdIssue i

theorem findCmdSlot_finds_iff (sataActive cmdIssue : UInt32) :
    FindsFree sataActive cmdIssue (findCmdSlot (sataActive ||| cmdIssue).toNat) ↔
      FreeSlot sataActive cmdIssue 0 := by
  rw [findCmdSlot_eq]
  constructor
  · rintro ⟨-, hfree, -⟩
    exact hfree
  · intro hfree
    exact ⟨by decide, hfree, fun i hi => absurd hi (Nat.not_lt_zero i)⟩

/-- Slot 0 is busy and slot 1 is free, but slot 0 is returned. -/
theorem findCmdSlot_returns_busy :
    FreeSlot 1 0 1 ∧ findCmdSlot (1 ||| 0 : UInt32).toNat = some 0 ∧
      ¬FindsFree 1 0 (findCmdSlot (1 ||| 0 : UInt32).toNat) := by
  refine ⟨⟨by decide, by decide⟩, findCmdSlot_eq _, ?_⟩
  rw [findCmdSlot_eq]
  rintro ⟨-, hfree, -⟩
  exact absurd hfree.1 (by decide)

theorem ahciAccess_eq (port : Port) (r : Reply) (sector cnt : ℕ) (write : Bool) (s : State) :
    ahciAccess port r sector cnt write s =
      ⟨[buildCommand 0 sector cnt port.physBuf write],
        r.outcome.map fun ok => (ok, if ok then s.transfer sector cnt write else s)⟩ := by
  rw [ahciAccess, findCmdSlot_eq, Reply.outcome]
  by_cases hhung : spinLoop r.taskFileDat 1000000 0 = 1000000
  · simp only [if_pos hhung, Traced.emit_bind]
    rfl
  · simp only [if_neg hhung, Traced.emit_bind]
    cases waitLoop 0 r.polls <;> rfl

def Reply.atOnce (ok : Bool) : Reply where
  slots := 0
  taskFileDat := fun _ => 0
  polls := [(0, if ok then 0 else taskFileError)]

theorem Reply.outcome_atOnce (ok : Bool) : (Reply.atOnce ok).outcome = some ok := by
  cases ok <;> rfl

theorem u64_add_succ (off i : ℕ) : u64 (u64 (off + 1) + i) = u64 (off + (i + 1)) := by
  rw [u64, u64, u64, Nat.mod_add_mod, Nat.add_assoc, Nat.add_comm 1 i]

theorem u64_add_inj (hi : i < 2 ^ 64) (hj : j < 2 ^ 64) (h : u64 (off + i) = u64 (off + j)) :
    i = j := by
  rw [u64, u64] at h
  omega

theorem sector_apart {p q x : ℕ} (hpq : p ≠ q) (hx : x < 512) :
    512 * p + x < 512 * q ∨ 512 * q + 512 ≤ 512 * p + x := by omega

theorem getSectors_apply (hi : i < cnt) (hj : j < 512) :
    getSectors dst disk sector cnt (512 * i + j) = disk (512 * u64 (sector + i) + j) := by
  let I : ℕ → Mem → Prop := fun k m =>
    i < k → m (512 * i + j) = disk (512 * u64 (sector + i) + j)
  have hloop : I cnt (getSectors dst disk sector cnt) := by
    refine loop_induction (I := I) cnt (fun h => absurd h (Nat.not_lt_zero i)) ?_
    intro k m _ hm hlt
    by_cases hik : i = k
    · subst hik
      exact blit_apply_add hj
    · exact (blit_apply_of_notMem (sector_apart hik hj)).trans (hm (by omega))
  exact hloop hi

theorem putSectors_apply (hcnt : cnt ≤ 2 ^ 64) (hi : i < cnt) (hj : j < 512) :
    putSectors disk src sector cnt (512 * u64 (sector + i) + j) = src (512 * i + j) := by
  let I : ℕ → Mem → Prop := fun k m =>
    i < k → m (512 * u64 (sector + i) + j) = src (512 * i + j)
  have hloop : I cnt (putSectors disk src sector cnt) := by
    refine loop_induction (I := I) cnt (fun h => absurd h (Nat.not_lt_zero i)) ?_
    intro k m hk hm hlt
    by_cases hik : i = k
    · subst hik
      exact blit_apply_add hj
    · have hne : u64 (sector + i) ≠ u64 (sector + k) :=
        fun h => hik (u64_add_inj (by omega) (by omega) h)
      exact (blit_apply_of_notMem (sector_apart hne hj)).trans (hm (by omega))
  exact hloop hi

theorem putSectors_apply_of_ne {p : ℕ} (hp : ∀ i < cnt, p ≠ u64 (sector + i)) (hj : j < 512) :
    putSectors disk src sector cnt (512 * p + j) = disk (512 * p + j) := by
  let I : ℕ → Mem → Prop := fun _ m => m (512 * p + j) = disk (512 * p + j)
  refine loop_induction (I := I) cnt rfl ?_
  intro k m hk hm
  exact (blit_apply_of_notMem (sector_apart (hp k hk) hj)).trans hm

/-! ## Requests whose commands all succeed -/

/-- The bytes from `ptr` on are those of the sectors from `off` on, and no other byte of the
memory has changed. -/
structure Fetched (disk : Mem) (ptr off len : ℕ) (m m' : Mem) : Prop where
  sectors : ∀ i < len, ∀ j < 512, m' (ptr + 512 * i + j) = disk (512 * u64 (off + i) + j)
  elsewhere : ∀ x, x < ptr ∨ ptr + 512 * len ≤ x → m' x = m x

/-- The sectors from `off` on hold the bytes from `ptr` on, and no other sector has changed. -/
structure Stored (m : Mem) (ptr off len : ℕ) (disk disk' : Mem) : Prop where
  sectors : ∀ i < len, ∀ j < 512, disk' (512 * u64 (off + i) + j) = m (ptr + 512 * i + j)
  elsewhere : ∀ p, (∀ i < len, p ≠ u64 (off + i)) →
    ∀ j < 512, disk' (512 * p + j) = disk (512 * p + j)

theorem Fetched.cons {m m₁ m' : Mem}
    (hfirst : ∀ j < 512, m₁ (ptr + j) = disk (512 * u64 off + j))
    (hother : ∀ x, x < ptr ∨ ptr + 512 ≤ x → m₁ x = m x)
    (hrest : Fetched disk (ptr + 512) (u64 (off + 1)) len m₁ m') :
    Fetched disk ptr off (len + 1) m m' := by
  refine ⟨fun i hi j hj => ?_, fun x hx => ?_⟩
  · cases i with
    | zero =>
      rw [hrest.elsewhere _ (by omega), Nat.mul_zero, Nat.add_zero]
      exact hfirst j hj
    | succ i =>
      have hnext := hrest.sectors i (by omega) j hj
      rw [u64_add_succ] at hnext
      rw [← hnext]
      congr 1
      omega
  · have hbehind : x < ptr + 512 ∨ ptr + 512 + 512 * len ≤ x := by omega
    have hround : 512 ≤ 512 * (len + 1) := Nat.le_mul_of_pos_right 512 (Nat.succ_pos len)
    rw [hrest.elsewhere x hbehind]
    exact hother x (hx.imp_right (Nat.add_le_add_left hround ptr).trans)

/-- A round of a write: its own sector is right and stays so, and what it puts on the sectors
behind is overwritten. -/
theorem Stored.cons {m : Mem} {disk₁ disk' : Mem} (hlen : len < 2 ^ 32)
    (hfirst : ∀ j < 512, disk₁ (512 * u64 off + j) = m (ptr + j))
    (hother : ∀ p, (∀ i < len + 1, p ≠ u64 (off + i)) →
      ∀ j < 512, disk₁ (512 * p + j) = disk (512 * p + j))
    (hrest : Stored m (ptr + 512) (u64 (off + 1)) len disk₁ disk') :
    Stored m ptr off (len + 1) disk disk' := by
  have hbehind : ∀ p, (∀ i < len, p ≠ u64 (off + (i + 1))) →
      ∀ j < 512, disk' (512 * p + j) = disk₁ (512 * p + j) := by
    intro p hp
    refine hrest.elsewhere p fun i hi => ?_
    rw [u64_add_succ]
    exact hp i hi
  refine ⟨fun i hi j hj => ?_, fun p hp j hj => ?_⟩
  · cases i with
    | zero =>
      have hown : ∀ i < len, u64 off ≠ u64 (off + (i + 1)) := by
        intro i hi heq
        have hpos : 0 < 2 ^ 64 := by decide
        exact Nat.succ_ne_zero i (u64_add_inj hpos (by omega) heq).symm
      rw [Nat.add_zero, hbehind _ hown j hj, Nat.mul_zero, Nat.add_zero]
      exact hfirst j hj
    | succ i =>
      have hnext := hrest.sectors i (by omega) j hj
      rw [u64_add_succ] at hnext
      rw [hnext]
      congr 1
      omega
  · rw [hbehind p (fun i hi => hp (i + 1) (by omega)) j hj, hother p hp j hj]

theorem ahciRead_fetches (port : Port) (reply : ℕ → Reply) (ptr off : ℕ) (s : State)
    (hok : ∀ i < len, (reply i).outcome = some true) :
    ∃ s', (ahciRead port reply ptr off len s).result = some (0, s') ∧ s'.disk = s.disk ∧
      Fetched s.disk ptr off len s.mem s'.mem := by
  induction len generalizing reply ptr off s with
  | zero =>
    exact ⟨s, rfl, rfl, fun i hi => absurd hi (Nat.not_lt_zero i), fun _ _ => rfl⟩
  | succ len ih =>
    let buf := getSectors s.buf s.disk off (len + 1)
    obtain ⟨s', hrun, hdisk, hrest⟩ := ih (fun i => reply (i + 1)) (ptr + 512) (u64 (off + 1))
      { s with buf := buf, mem := blit s.mem ptr buf 0 512 }
      (fun i hi => hok (i + 1) (by omega))
    refine ⟨s', ?_, hdisk, Fetched.cons ?_ ?_ hrest⟩
    · rw [ahciRead, ahciAccess_eq, hok 0 (Nat.succ_pos len)]
      exact hrun
    · exact fun j hj => (blit_apply_add hj).trans (getSectors_apply (Nat.succ_pos len) hj)
    · exact fun x hx => blit_apply_of_notMem hx

theorem ahciWrite_stores (port : Port) (reply : ℕ → Reply) (ptr off : ℕ) (s : State)
    (hlen : len ≤ 2 ^ 32) (hok : ∀ i < len, (reply i).outcome = some true) :
    ∃ s', (ahciWrite port reply ptr off len s).result = some (0, s') ∧ s'.mem = s.mem ∧
      Stored s.mem ptr off len s.disk s'.disk := by
  induction len generalizing reply ptr off s with
  | zero =>
    exact ⟨s, rfl, rfl, fun i hi => absurd hi (Nat.not_lt_zero i), fun _ _ _ _ => rfl⟩
  | succ len ih =>
    let buf := blit s.buf 0 s.mem ptr 512
    obtain ⟨s', hrun, hmem, hrest⟩ := ih (fun i => reply (i + 1)) (ptr + 512) (u64 (off + 1))
      { s with buf := buf, disk := putSectors s.disk buf off (len + 1) } (by omega)
      (fun i hi => hok (i + 1) (by omega))
    refine ⟨s', ?_, hmem, Stored.cons (by omega) ?_ ?_ hrest⟩
    · rw [ahciWrite, ahciAccess_eq, hok 0 (Nat.succ_pos len)]
      exact hrun
    · intro j hj
      have hcnt : len + 1 ≤ 2 ^ 64 := by omega
      exact (putSectors_apply hcnt (Nat.succ_pos len) hj).trans (blit_apply_add hj)
    · exact fun p hp j hj => putSectors_apply_of_ne hp hj

/-- A request of at most 8 sectors whose commands all succeed moves its sectors between the disk and
`ptr`, whatever the bounce buffer held. -/
theorem ahci_transfers (port : Port) (reply : ℕ → Reply) (ptr off len : ℕ) (s : State)
    (hlen : len ≤ 8) (hok : ∀ i < len, (reply i).outcome = some true) :
    (∃ s', (ahciRead port reply ptr off len s).result = some (0, s') ∧ s'.disk = s.disk ∧
      Fetched s.disk ptr off len s.mem s'.mem) ∧
    ∃ s', (ahciWrite port reply ptr off len s).result = some (0, s') ∧
      Stored s.mem ptr off len s.disk s'.disk := by
  refine ⟨ahciRead_fetches port reply ptr off s hok, ?_⟩
  obtain ⟨s', hrun, -, hstored⟩ :=
    ahciWrite_stores port reply ptr off s (hlen.trans (by decide)) hok
  exact ⟨s', hrun, hstored⟩

/-- Two sectors of nines, written over a disk of zeros from a buffer of sevens. -/
theorem ahci_transfers_two :
    ∃ s', (ahciWrite ⟨0x100000, by decide⟩ (fun _ => .atOnce true) 0x2000 5 2
        ⟨fun _ => 0, fun _ => 7, fun _ => 9⟩).result = some (0, s') ∧
      s'.disk (512 * 6 + 1) = 9 ∧ s'.disk (512 * 7 + 1) = 0 := by
  have h := ahci_transfers ⟨0x100000, by decide⟩ (fun _ => .atOnce true) 0x2000 5 2
    ⟨fun _ => 0, fun _ => 7, fun _ => 9⟩ (by decide) fun _ _ => Reply.outcome_atOnce true
  obtain ⟨-, s', hrun, hstored⟩ := h
  refine ⟨s', hrun, hstored.sectors 1 (by decide) 1 (by decide), ?_⟩
  exact hstored.elsewhere 7 (by decide) 1 (by decide)

end KernelOld.Ahci
