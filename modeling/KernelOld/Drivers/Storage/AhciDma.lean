import KernelOld.Drivers.Storage.Ahci
import KernelOld.Fs.Ext2.Volume

/-!
# The disk below ext2

The bounce buffer of a port is one page, and a command has one entry in its table. What ext2 asks
for is a block, or all the group descriptors at once; both sizes come from the superblock.
-/

namespace KernelOld.Ahci
open ByteMemory MachineWord Trace List
open Ext2 (Vol readSuper devRead devWrite bgdSz newBuf)

/-! ## Commands and the page -/

/-- Every entry that is counted has been filled in, and its bytes lie in the page. -/
def Command.Inside (port : Port) (c : Command) : Prop :=
  c.prdtLen ≤ c.prdtEntry.length ∧
    ∀ e ∈ c.prdtEntry.take c.prdtLen,
      port.physBuf ≤ e.addr ∧ e.addr + (e.byteCnt + 1) ≤ port.physBuf + 4096

/-- The commands of every request of that length, read or write, stay inside the page. -/
def DmaInside (port : Port) (len : ℕ) : Prop :=
  ∀ reply ptr off s,
    (∀ c ∈ (ahciRead port reply ptr off len s).events, c.Inside port) ∧
      ∀ c ∈ (ahciWrite port reply ptr off len s).events, c.Inside port

variable {port : Port} {reply : ℕ → Reply} {ptr off sector cnt len : ℕ} {s : State}
  {write : Bool} {c : Command} {disk disk' m m' : Mem}

def IsCommand (port : Port) (cnt : ℕ) (write : Bool) (c : Command) : Prop :=
  ∃ sector, c = buildCommand 0 sector cnt port.physBuf write

theorem addr_eq (port : Port) :
    u32 port.physBuf + 2 ^ 32 * u32 (port.physBuf >>> 32) = port.physBuf := by
  have hlt := port.physBuf_lt
  rw [u32, u32, Nat.shiftRight_eq_div_pow]
  omega

theorem inside_iff (hpos : 0 < cnt) (hcnt : cnt ≤ 16) (hc : IsCommand port cnt write c) :
    c.Inside port ↔ cnt ≤ 8 := by
  obtain ⟨sector, rfl⟩ := hc
  have hprdt : ((sub32 cnt 1 >>> 4) % 2 ^ 16 + 1) % 2 ^ 16 = 1 := by
    rw [sub32_of_le (by omega) hpos, Nat.shiftRight_eq_div_pow]
    omega
  have hbytes : sub32 (u32 (cnt * 512)) 1 % 2 ^ 22 = cnt * 512 - 1 := by
    rw [u32_of_lt (by omega), sub32_of_le (by omega) (by omega)]
    omega
  simp only [Command.Inside, buildCommand, hprdt, hbytes, PrdtEntry.addr, take_one,
    head?_cons, Option.toList_some, forall_mem_singleton, addr_eq, length_singleton]
  omega

theorem isCommand_of_mem_read (hc : c ∈ (ahciRead port reply ptr off len s).events) :
    ∃ cnt, 0 < cnt ∧ cnt ≤ len ∧ IsCommand port cnt false c := by
  induction len generalizing reply ptr off s with
  | zero => exact absurd hc not_mem_nil
  | succ len ih =>
    rw [ahciRead, ahciAccess_eq] at hc
    rcases Traced.mem_events_bind.mp hc with hc | ⟨_, _, hc⟩
    · exact ⟨len + 1, Nat.succ_pos len, le_rfl, off, mem_singleton.mp hc⟩
    · obtain ⟨cnt, hpos, hle, hcmd⟩ := ih hc
      exact ⟨cnt, hpos, Nat.le_succ_of_le hle, hcmd⟩

theorem isCommand_of_mem_write (hc : c ∈ (ahciWrite port reply ptr off len s).events) :
    ∃ cnt, 0 < cnt ∧ cnt ≤ len ∧ IsCommand port cnt true c := by
  induction len generalizing reply ptr off s with
  | zero => exact absurd hc not_mem_nil
  | succ len ih =>
    rw [ahciWrite, ahciAccess_eq] at hc
    rcases Traced.mem_events_bind.mp hc with hc | ⟨_, _, hc⟩
    · exact ⟨len + 1, Nat.succ_pos len, le_rfl, off, mem_singleton.mp hc⟩
    · obtain ⟨cnt, hpos, hle, hcmd⟩ := ih hc
      exact ⟨cnt, hpos, Nat.le_succ_of_le hle, hcmd⟩

theorem exists_mem_read (port : Port) (ptr off : ℕ) (s : State) (hcnt : 0 < cnt)
    (hle : cnt ≤ len) :
    ∃ c ∈ (ahciRead port (fun _ => .atOnce true) ptr off len s).events,
      IsCommand port cnt false c := by
  induction len generalizing ptr off s with
  | zero => omega
  | succ len ih =>
    rw [ahciRead, ahciAccess_eq, Reply.outcome_atOnce]
    rcases Nat.lt_or_eq_of_le hle with hlt | rfl
    · obtain ⟨c, hc, hcmd⟩ := ih _ _ _ (Nat.le_of_lt_succ hlt)
      exact ⟨c, mem_append_right _ hc, hcmd⟩
    · exact ⟨_, mem_append_left _ (mem_singleton_self _), off, rfl⟩

/-- The requests that stay inside the page are those of at most 8 sectors. A longer one comes to
a command for 9. -/
theorem dmaInside_iff (port : Port) (len : ℕ) : DmaInside port len ↔ len ≤ 8 := by
  constructor
  · intro h
    by_contra hlen
    let s : State := ⟨newBuf, newBuf, newBuf⟩
    obtain ⟨c, hc, hcmd⟩ := exists_mem_read port 0 0 s (show 0 < 9 by decide) (Nat.not_le.mp hlen)
    have hinside := (h _ 0 0 s).1 c hc
    rw [inside_iff (by decide) (by decide) hcmd] at hinside
    exact absurd hinside (by decide)
  · intro hlen reply ptr off s
    constructor
    · intro c hc
      obtain ⟨cnt, hpos, hle, hcmd⟩ := isCommand_of_mem_read hc
      exact (inside_iff hpos (by omega) hcmd).mpr (hle.trans hlen)
    · intro c hc
      obtain ⟨cnt, hpos, hle, hcmd⟩ := isCommand_of_mem_write hc
      exact (inside_iff hpos (by omega) hcmd).mpr (hle.trans hlen)

/-! ## What ext2 asks for -/

/-- What ext2 passes to `read` and `write`, beside 1: a block and the group descriptors. -/
def ext2Requests (vol : Vol) : List ℕ :=
  [vol.blkSz / 512, u32 (vol.blkGrpCnt * bgdSz / 512 + 1)]

theorem dvd_blkSz (disk : Mem) : 1024 ∣ (readSuper disk).blkSz := by
  rw [readSuper]
  dsimp only
  generalize load (devRead disk newBuf 2 1) 24 4 = log
  rw [u32, Nat.shiftLeft_eq]
  exact (Nat.dvd_mod_iff (by decide)).mpr (Nat.dvd_mul_right 1024 (2 ^ log))

theorem blkGrpCnt_le (disk : Mem) : (readSuper disk).blkGrpCnt ≤ 2 ^ 32 := by
  rw [readSuper]
  dsimp only
  have hcnt := load_lt (devRead disk newBuf 2 1) 4 4
  generalize load (devRead disk newBuf 2 1) 4 4 = blkCnt at hcnt
  generalize load (devRead disk newBuf 2 1) 32 4 = blksPerGrp
  have hdiv : blkCnt / blksPerGrp ≤ blkCnt := Nat.div_le_self _ _
  split_ifs <;> omega

/-- For any superblock: all that ext2 asks for stays inside the page if and only if blocks have
at most 4096 bytes and there are at most 107 groups. -/
theorem ext2_requests_inside_iff (port : Port) (disk : Mem) :
    (∀ len ∈ ext2Requests (readSuper disk), DmaInside port len) ↔
      (readSuper disk).blkSz ≤ 4096 ∧ (readSuper disk).blkGrpCnt ≤ 107 := by
  have hdvd := dvd_blkSz disk
  have hgrps := blkGrpCnt_le disk
  generalize readSuper disk = vol at hdvd hgrps
  have hblk : vol.blkSz / 512 ≤ 8 ↔ vol.blkSz ≤ 4096 := by omega
  have hbgds : u32 (vol.blkGrpCnt * bgdSz / 512 + 1) ≤ 8 ↔ vol.blkGrpCnt ≤ 107 := by
    rw [bgdSz, u32_of_lt (by omega)]
    omega
  simp only [ext2Requests, forall_mem_cons, not_mem_nil, false_imp_iff, implies_true,
    and_true, dmaInside_iff, hblk, hbgds]

/-- 64 blocks, in groups of 65536. -/
def blocksOf8K : Mem := store (store (store newBuf 1028 4 64) 1048 4 3) 1056 4 65536

/-- Blocks of 8192 bytes are 16 sectors long, twice the page. -/
theorem ext2_blocks_outside :
    (readSuper blocksOf8K).blkSz = 8192 ∧
      (buildCommand 0 0 16 0x100000 false).prdtEntry.map PrdtEntry.byteCnt = [8191] ∧
      ¬∀ len ∈ ext2Requests (readSuper blocksOf8K), DmaInside ⟨0x100000, by decide⟩ len := by
  have hsz : (readSuper blocksOf8K).blkSz = 8192 := by decide +kernel
  refine ⟨hsz, by decide, fun h => ?_⟩
  have hlen := h _ mem_cons_self
  rw [dmaInside_iff, hsz] at hlen
  exact absurd hlen (by decide)

/-! ## Block devices

With `ptr = 0` these are `devRead` and `devWrite`, the block device of the ext2 model. -/

theorem Fetched.eq_blit (h : Fetched disk ptr off len m m') (hoff : off + len ≤ 2 ^ 64) :
    m' = blit m ptr disk (512 * off) (512 * len) := by
  funext x
  by_cases hx : ptr ≤ x ∧ x < ptr + 512 * len
  · have hsector := h.sectors ((x - ptr) / 512) (by omega) ((x - ptr) % 512) (by omega)
    rw [u64_of_lt (by omega), Nat.add_assoc, Nat.div_add_mod, Nat.add_sub_cancel' hx.1] at hsector
    rw [hsector, blit_apply_of_mem hx.1 hx.2]
    congr 1
    omega
  · rw [h.elsewhere x (by omega), blit_apply_of_notMem (by omega)]

theorem Stored.eq_blit (h : Stored m ptr off len disk disk') (hoff : off + len ≤ 2 ^ 64) :
    disk' = blit disk (512 * off) m ptr (512 * len) := by
  funext x
  have hx : 512 * (x / 512) + x % 512 = x := Nat.div_add_mod x 512
  by_cases hin : off ≤ x / 512 ∧ x / 512 < off + len
  · have hsector := h.sectors (x / 512 - off) (by omega) (x % 512) (by omega)
    rw [Nat.add_sub_cancel' hin.1, u64_of_lt (by omega), hx] at hsector
    rw [hsector, blit_apply_of_mem (by omega) (by omega)]
    congr 1
    omega
  · have hother := h.elsewhere (x / 512)
      (fun i hi => by rw [u64_of_lt (by omega)]; omega) (x % 512) (by omega)
    rw [hx] at hother
    rw [hother, blit_apply_of_notMem (by omega)]

end KernelOld.Ahci
