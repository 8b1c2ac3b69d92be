import KernelOld.Fs.Fat.ClusterChain
import KernelOld.Lib.CountedLoop

/-!
# FAT file contents

`fat_read_cluster_chain` of `fs/fat/fatent.c` and `fat_read` of `fs/fat/file.c`. Of each cluster
one sector is read, and the buffer has 512 bytes for it.
-/

namespace KernelOld.Fat
open ByteMemory MachineWord CountedLoop
open Ext2 (devRead newBuf)

/-! ## The model -/

structure FatMount extends FatVol where
  sectsPerClus : ℕ
  firstClus : ℕ
  rootOffset : ℕ

def mountInf (disk : Mem) : FatMount :=
  let record := devRead disk newBuf 0 1
  { fatInit disk with
    sectsPerClus := load record 13 1
    firstClus := u32 (load record 14 2 + u32 (load record 16 1 * load record 36 4))
    rootOffset := load record 44 4 }

/-- `fat_init`. It divides by `sector_sz` for the size of the root directory, which nothing uses. -/
def fatMount (disk : Mem) : Option FatMount :=
  if load (devRead disk newBuf 0 1) 11 2 = 0 then none else some (mountInf disk)

def fatClusterToLba (vol : FatMount) (cluster : ℕ) : ℕ :=
  sub32 (u32 (vol.firstClus + u32 (cluster * vol.sectsPerClus))) (u32 (2 * vol.sectsPerClus))

/-- The buffer with one sector of each cluster. A chain has fewer than 2^32 clusters. -/
def readClusters (vol : FatMount) (disk : Mem) (cs : Clusters) (block : Mem) : Mem :=
  loop (fun i buf => blit buf (512 * i) disk (512 * fatClusterToLba vol (cs.ret i)) 512)
    cs.numClus block

/-- `block` is memory from the block on that `kmalloc` returns. -/
def fatReadClusterChain (vol : FatMount) (disk : Mem) (cluster rounds : ℕ) (block : Mem) :
    Option (Mem × ℕ) := do
  let cs ← fatGetClusterChain vol.toFatVol disk cluster ⟨fun _ => 0, 0⟩ rounds
  pure (readClusters vol disk cs block, cs.numClus)

def fatRead (vol : FatMount) (disk : Mem) (inodeNum rounds : ℕ) (block mem : Mem)
    (ptr off size : ℕ) : Option Mem := do
  let (buf, _) ← fatReadClusterChain vol disk inodeNum rounds block
  pure (blit mem ptr buf off size)

/-! ## Files -/

def perCluster (disk : Mem) : ℕ := load disk 13 1
def dataStart (disk : Mem) : ℕ := load disk 14 2 + load disk 16 1 * load disk 36 4

def clusterByte (disk : Mem) (cluster r : ℕ) : UInt8 :=
  disk (512 * (dataStart disk + (cluster - 2) * perCluster disk) + r)

def chainCluster (disk : Mem) (first k : ℕ) : ℕ := clusterAt (fatInit disk) disk first k

/-- Byte `x` of the concatenation of all sectors of the clusters of a chain. -/
def fileByte (disk : Mem) (first x : ℕ) : UInt8 :=
  clusterByte disk (chainCluster disk first (x / (512 * perCluster disk)))
    (x % (512 * perCluster disk))

def firstSectorByte (disk : Mem) (first x : ℕ) : UInt8 :=
  clusterByte disk (chainCluster disk first (x / 512)) (x % 512)

/-- The chain ends, and its clusters have entries in the table in front of the data area and lie in
the data area, with sector numbers of 32 bits. -/
structure IsFile (disk : Mem) (first n fileSize : ℕ) : Prop where
  sectorSz_eq : load disk 11 2 = 512
  perCluster_eq : ∃ e ≤ 7, perCluster disk = 2 ^ e
  chain : ChainLength (fatInit disk) disk first n
  length_le : n ≤ 1000
  two_le : ∀ k < n, 2 ≤ chainCluster disk first k
  inTable : ∀ k < n,
    512 * load disk 14 2 + 4 * (chainCluster disk first k + 1) ≤ 512 * dataStart disk
  sectors_le : ∀ k < n,
    dataStart disk + (chainCluster disk first k - 1) * perCluster disk ≤ 2 ^ 32
  fileSize_le : fileSize ≤ n * (512 * perCluster disk)

/-- The call returns and has stored the bytes of the file at `ptr`, and nothing else. -/
def ReadsFile (disk : Mem) (first ptr off size : ℕ) : Prop :=
  ∀ block mem, ∃ vol rounds mem', fatMount disk = some vol ∧
    fatRead vol disk first rounds block mem ptr off size = some mem' ∧
    (∀ k < size, mem' (ptr + k) = fileByte disk first (off + k)) ∧
    ∀ x, x < ptr ∨ ptr + size ≤ x → mem' x = mem x

variable {disk block buf : Mem} {first n fileSize off size ptr i k x w c rounds : ℕ} {cs : Clusters}

theorem load_bootRecord (h : i + w ≤ 512) : load (devRead disk newBuf 0 1) i w = load disk i w := by
  have hblit : load (blit newBuf 0 disk 0 512) (0 + i) w = load disk (0 + i) w := load_blit h
  rwa [Nat.zero_add] at hblit

theorem sectsPerClus_mountInf (disk : Mem) : (mountInf disk).sectsPerClus = perCluster disk :=
  load_bootRecord (by decide)

theorem firstClus_mountInf (h : dataStart disk < 2 ^ 32) :
    (mountInf disk).firstClus = dataStart disk := by
  rw [mountInf]
  dsimp only
  rw [load_bootRecord (by decide), load_bootRecord (by decide), load_bootRecord (by decide), u32,
    u32, Nat.add_mod_mod]
  exact Nat.mod_eq_of_lt h

theorem resSects_fatInit_eq (disk : Mem) : (fatInit disk).resSects = load disk 14 2 :=
  load_bootRecord (by decide)

theorem chainLoop_mono {vol : FatVol} {cs' : Clusters} {rounds' : ℕ}
    (h : chainLoop vol disk rounds c cs = some cs') (hle : rounds ≤ rounds') :
    chainLoop vol disk rounds' c cs = some cs' := by
  induction rounds generalizing rounds' c cs with
  | zero => cases h
  | succ rounds ih =>
    obtain ⟨rounds', rfl⟩ := Nat.exists_eq_add_of_le' hle
    rw [chainLoop] at h
    rw [← Nat.add_assoc, chainLoop]
    split_ifs at h ⊢ with hgoes
    · exact ih h (Nat.le_add_left rounds rounds')
    · exact h

namespace IsFile

variable (h : IsFile disk first n fileSize)
include h

theorem fatMount_eq : fatMount disk = some (mountInf disk) := by
  rw [fatMount, load_bootRecord (by decide), h.sectorSz_eq]
  rfl

theorem perCluster_pos : 0 < perCluster disk := by
  obtain ⟨e, -, he⟩ := h.perCluster_eq
  rw [he]
  exact Nat.two_pow_pos e

theorem perCluster_le : perCluster disk ≤ 128 := by
  obtain ⟨e, hle, he⟩ := h.perCluster_eq
  rw [he]
  exact Nat.pow_le_pow_right (by decide) hle

theorem clusterToLba (hk : k < n) :
    fatClusterToLba (mountInf disk) (chainCluster disk first k) =
      dataStart disk + (chainCluster disk first k - 2) * perCluster disk := by
  have hpos := h.perCluster_pos
  have hle := h.perCluster_le
  have hsectors := h.sectors_le k hk
  obtain ⟨d, hd⟩ := Nat.exists_eq_add_of_le' (h.two_le k hk)
  rw [hd, show d + 2 - 1 = d + 1 from rfl, Nat.succ_mul] at hsectors
  rw [fatClusterToLba, sectsPerClus_mountInf, firstClus_mountInf (by omega), hd,
    Nat.add_sub_cancel, Nat.add_mul]
  generalize d * perCluster disk = q at hsectors
  rw [sub32, u32, u32, u32, u32]
  omega

theorem readClusters_apply (hcs : Stored (fatInit disk) disk first n cs) (x : ℕ) :
    readClusters (mountInf disk) disk cs block x =
      if x < 512 * n then firstSectorByte disk first x else block x := by
  let I : ℕ → Mem → Prop := fun k buf =>
    ∀ x, buf x = if x < 512 * k then firstSectorByte disk first x else block x
  have hloop : I cs.numClus (readClusters (mountInf disk) disk cs block) := by
    refine loop_induction (I := I) cs.numClus (fun x => (if_neg (Nat.not_lt_zero x)).symm) ?_
    intro k buf hk hbuf x
    have hkn : k < n := hcs.numClus ▸ hk
    by_cases hx : 512 * k ≤ x ∧ x < 512 * k + 512
    · have hdiv : x / 512 = k := by omega
      have hmod : x - 512 * k = x % 512 := by omega
      rw [blit_apply_of_mem hx.1 hx.2, if_pos (by omega), hcs.ret k hkn, hmod, firstSectorByte,
        hdiv, clusterByte, ← h.clusterToLba hkn]
      rfl
    · rw [blit_apply_of_notMem (by omega), hbuf x]
      by_cases hlt : x < 512 * k
      · rw [if_pos hlt, if_pos (by omega)]
      · rw [if_neg hlt, if_neg (by omega)]
  exact hcs.numClus ▸ hloop x

theorem exists_getClusterChain :
    ∃ rounds cs, fatGetClusterChain (fatInit disk) disk first ⟨fun _ => 0, 0⟩ rounds = some cs ∧
      Stored (fatInit disk) disk first n cs := by
  have hstart : Stored (fatInit disk) disk first 0 ⟨fun _ => 0, 0⟩ :=
    ⟨rfl, fun j hj => absurd hj (Nat.not_lt_zero j)⟩
  have hn : 0 + (n - 1) + 1 = n := by
    have hpos := h.chain.pos
    omega
  obtain ⟨cs, hrun, hcs⟩ := h.chain.chainLoop (resSects_fatInit disk) (n - 1) hn hstart
  exact ⟨_, cs, hrun, hcs⟩

theorem exists_readClusterChain :
    ∃ enough, ∀ rounds ≥ enough, ∀ block, ∃ r,
      fatReadClusterChain (mountInf disk) disk first rounds block = some r := by
  obtain ⟨enough, cs, hrun, -⟩ := h.exists_getClusterChain
  refine ⟨enough, fun rounds hrounds block => ?_⟩
  have hmore : fatGetClusterChain (mountInf disk).toFatVol disk first ⟨fun _ => 0, 0⟩ rounds =
      some cs := chainLoop_mono hrun hrounds
  refine ⟨(readClusters (mountInf disk) disk cs block, cs.numClus), ?_⟩
  rw [fatReadClusterChain, hmore]
  rfl

/-- However many rounds it takes, `fat_read_cluster_chain` returns one sector of each cluster, and
behind them is what was there. -/
theorem readClusterChain_eq {r : Mem × ℕ}
    (hrun : fatReadClusterChain (mountInf disk) disk first rounds block = some r) :
    r.2 = n ∧ ∀ x, r.1 x = if x < 512 * n then firstSectorByte disk first x else block x := by
  obtain ⟨cs, hchain, hr⟩ := Option.bind_eq_some_iff.mp hrun
  obtain ⟨rounds', cs', hchain', hcs⟩ := h.exists_getClusterChain
  have hsame := chainLoop_mono hchain (Nat.le_max_left rounds rounds')
  obtain rfl := Option.some.inj
    (hsame.symm.trans (chainLoop_mono hchain' (Nat.le_max_right rounds rounds')))
  obtain rfl := Option.some.inj hr
  exact ⟨hcs.numClus, h.readClusters_apply hcs⟩

theorem fatRead_apply {mem mem' : Mem}
    (hrun : fatRead (mountInf disk) disk first rounds block mem ptr off size = some mem')
    (hk : k < size) :
    mem' (ptr + k) =
      if off + k < 512 * n then firstSectorByte disk first (off + k) else block (off + k) := by
  obtain ⟨r, hchain, hr⟩ := Option.bind_eq_some_iff.mp hrun
  obtain rfl := Option.some.inj hr
  rw [← (h.readClusterChain_eq hchain).2 (off + k)]
  exact blit_apply_add hk

theorem reads_iff (ptr off size : ℕ) :
    ReadsFile disk first ptr off size ↔ ∀ x, off ≤ x → x < off + size →
      x < 512 * n ∧ firstSectorByte disk first x = fileByte disk first x := by
  constructor
  · intro hreads x hlo hhi
    obtain ⟨k, rfl⟩ := Nat.exists_eq_add_of_le hlo
    have hk : k < size := by omega
    -- What lies behind the buffer may be anything but the byte of the file.
    obtain ⟨vol, rounds, mem', hvol, hrun, hbytes, -⟩ :=
      hreads (fun _ => fileByte disk first (off + k) + 1) newBuf
    obtain rfl := Option.some.inj (h.fatMount_eq.symm.trans hvol)
    have hstored := h.fatRead_apply hrun hk
    rw [hbytes k hk] at hstored
    by_cases hin : off + k < 512 * n
    · rw [if_pos hin] at hstored
      exact ⟨hin, hstored.symm⟩
    · rw [if_neg hin] at hstored
      exact absurd hstored (by simp)
  · intro hsame block mem
    obtain ⟨rounds, henough⟩ := h.exists_readClusterChain
    obtain ⟨r, hchain⟩ := henough rounds le_rfl block
    have hrun : fatRead (mountInf disk) disk first rounds block mem ptr off size =
        some (blit mem ptr r.1 off size) := by
      rw [fatRead, hchain]
      rfl
    refine ⟨_, rounds, _, h.fatMount_eq, hrun, fun k hk => ?_, fun x hx => blit_apply_of_notMem hx⟩
    obtain ⟨hin, heq⟩ := hsame (off + k) (Nat.le_add_right off k) (by omega)
    rw [h.fatRead_apply hrun hk, if_pos hin, heq]

theorem firstSectorByte_eq (hx : perCluster disk = 1 ∨ x < 512) :
    firstSectorByte disk first x = fileByte disk first x := by
  rw [firstSectorByte, fileByte]
  rcases hx with hone | hlt
  · rw [hone]
  · have hsector : 512 * 1 ≤ 512 * perCluster disk := Nat.mul_le_mul_left 512 h.perCluster_pos
    rw [Nat.div_eq_of_lt hlt, Nat.mod_eq_of_lt hlt, Nat.div_eq_of_lt (by omega),
      Nat.mod_eq_of_lt (by omega)]

end IsFile

/-! ## Volumes with the same tables -/

/-- The boot record and the table are the same. The data may be any. -/
def SameTables (disk disk' : Mem) : Prop := ∀ x < 512 * dataStart disk, disk' x = disk x

section SameTables

variable {disk' : Mem} (h : IsFile disk first n fileSize) (hsame : SameTables disk disk')
include hsame

theorem SameTables.load_eq (hi : i + w ≤ 512 * dataStart disk) : load disk' i w = load disk i w :=
  load_congr fun x _ hx => hsame x (by omega)

include h

theorem SameTables.bootRecord_eq (hi : i + w ≤ 512) : load disk' i w = load disk i w := by
  have htable := h.inTable 0 h.chain.pos
  exact hsame.load_eq (by omega)

theorem SameTables.perCluster_eq : perCluster disk' = perCluster disk :=
  hsame.bootRecord_eq h (by decide)

theorem SameTables.dataStart_eq : dataStart disk' = dataStart disk := by
  rw [dataStart, dataStart, hsame.bootRecord_eq h (by decide), hsame.bootRecord_eq h (by decide),
    hsame.bootRecord_eq h (by decide)]

theorem SameTables.chainCluster_eq (hk : k ≤ n) :
    chainCluster disk' first k = chainCluster disk first k := by
  induction k with
  | zero => rfl
  | succ k ih =>
    have htable := h.inTable k hk
    have hle := Nat.mod_le (chainCluster disk first k) (2 ^ 30)
    rw [chainCluster, clusterAt, fatEntry]
    rw [show clusterAt (fatInit disk') disk' first k = chainCluster disk first k from
      ih (Nat.le_of_succ_le hk), resSects_fatInit_eq,
      hsame.bootRecord_eq h (i := 14) (w := 2) (by decide), hsame.load_eq (by omega),
      ← resSects_fatInit_eq]
    rfl

theorem SameTables.isFile : IsFile disk' first n fileSize where
  sectorSz_eq := (hsame.bootRecord_eq h (by decide)).trans h.sectorSz_eq
  perCluster_eq := by
    rw [hsame.perCluster_eq h]
    exact h.perCluster_eq
  chain := by
    refine ⟨h.chain.pos, ?_, fun k hpos hk => ?_⟩
    · have hends := h.chain.ends
      rwa [← chainCluster, ← hsame.chainCluster_eq h le_rfl] at hends
    · have hgoes := h.chain.goes_on k hpos hk
      rwa [← chainCluster, ← hsame.chainCluster_eq h hk.le] at hgoes
  length_le := h.length_le
  two_le k hk := by
    rw [hsame.chainCluster_eq h hk.le]
    exact h.two_le k hk
  inTable k hk := by
    rw [hsame.chainCluster_eq h hk.le, hsame.dataStart_eq h, hsame.bootRecord_eq h (by decide)]
    exact h.inTable k hk
  sectors_le k hk := by
    rw [hsame.chainCluster_eq h hk.le, hsame.dataStart_eq h, hsame.perCluster_eq h]
    exact h.sectors_le k hk
  fileSize_le := by
    rw [hsame.perCluster_eq h]
    exact h.fileSize_le

end SameTables

theorem clusterPos_ne {s p a b r r' : ℕ} (hab : a ≠ b) (hr : r < 512 * p) (hr' : r' < 512 * p) :
    512 * (s + a * p) + r ≠ 512 * (s + b * p) + r' := by
  intro heq
  have hquot : ∀ {c t : ℕ}, t < 512 * p → (512 * p * c + t) / (512 * p) = c := by
    intro c t ht
    rw [Nat.mul_add_div (by omega), Nat.div_eq_of_lt ht, Nat.add_zero]
  have hsum : 512 * p * a + r = 512 * p * b + r' := by
    have hswap : ∀ c, 512 * (s + c * p) = 512 * s + 512 * p * c := fun c => by ring
    rw [hswap, hswap] at heq
    omega
  apply hab
  rw [← hquot (c := a) hr, hsum, hquot hr']

/-- Behind the first sector, the byte that is read and the byte of the file are at two places in
the data area. -/
theorem IsFile.exists_differs (h : IsFile disk first n fileSize) (hper : perCluster disk ≠ 1)
    (hx : 512 ≤ x) (hlt : x < 512 * n) :
    ∃ disk', SameTables disk disk' ∧
      firstSectorByte disk' first x ≠ fileByte disk' first x := by
  have hpos := h.perCluster_pos
  have hquot : x / (512 * perCluster disk) < x / 512 := by
    rw [← Nat.div_div_eq_div_mul]
    exact Nat.div_lt_self (by omega) (by omega)
  have hk : x / 512 < n := by omega
  have hne := h.chain.cluster_ne hquot hk
  have htwo := h.two_le _ hk
  have htwo' := h.two_le _ (hquot.trans hk)
  let p := 512 * (dataStart disk +
    (chainCluster disk first (x / 512) - 2) * perCluster disk) + x % 512
  let disk' := Function.update disk p (fileByte disk first x + 1)
  have hsame : SameTables disk disk' := by
    intro y hy
    exact Function.update_of_ne (by omega) _ _
  refine ⟨disk', hsame, ?_⟩
  have hread : firstSectorByte disk' first x = fileByte disk first x + 1 := by
    rw [firstSectorByte, clusterByte, hsame.chainCluster_eq h hk.le, hsame.dataStart_eq h,
      hsame.perCluster_eq h]
    exact Function.update_self ..
  have hfile : fileByte disk' first x = fileByte disk first x := by
    rw [fileByte, fileByte, clusterByte, clusterByte, hsame.perCluster_eq h,
      hsame.chainCluster_eq h (hquot.trans hk).le, hsame.dataStart_eq h]
    refine Function.update_of_ne (clusterPos_ne ?_ (Nat.mod_lt x (by omega)) ?_) _ _
    · intro heq
      apply hne
      show chainCluster disk first _ = chainCluster disk first _
      omega
    · have hmod := Nat.mod_lt x (show 0 < 512 by decide)
      omega
  rw [hread, hfile]
  simp

/-- A read inside a file, on a volume with any number of sectors for each cluster: it returns the
bytes of the file, whatever they are, if and only if there is one sector for each cluster, or the
bytes are all in the first sector. -/
theorem fatRead_reads_iff (disk : Mem) (first n fileSize ptr off size : ℕ)
    (h : IsFile disk first n fileSize) (hoff : off + size ≤ fileSize) :
    (∀ disk', SameTables disk disk' → ReadsFile disk' first ptr off size) ↔
      perCluster disk = 1 ∨ off + size ≤ 512 ∨ size = 0 := by
  constructor
  · intro hreads
    by_contra hno
    rw [not_or, not_or] at hno
    obtain ⟨hper, hbehind, hsize⟩ := hno
    have hbyte : ∀ disk', SameTables disk disk' → off + size - 1 < 512 * n ∧
        firstSectorByte disk' first (off + size - 1) = fileByte disk' first (off + size - 1) :=
      fun disk' hsame => ((hsame.isFile h).reads_iff ptr off size).mp (hreads disk' hsame) _
        (by omega) (by omega)
    obtain ⟨disk', hsame, hdiffers⟩ := h.exists_differs hper (show 512 ≤ off + size - 1 by omega)
      (hbyte disk fun _ _ => rfl).1
    exact hdiffers (hbyte disk' hsame).2
  · intro hcases disk' hsame
    have h' := hsame.isFile h
    have hpos := h.chain.pos
    refine (h'.reads_iff ptr off size).mpr fun x hlo hhi => ?_
    rcases hcases with hone | hfirst | hzero
    · have hle := h.fileSize_le
      rw [hone] at hle
      exact ⟨by omega, h'.firstSectorByte_eq (Or.inl ((hsame.perCluster_eq h).trans hone))⟩
    · exact ⟨by omega, h'.firstSectorByte_eq (Or.inr (by omega))⟩
    · omega

def oneCluster (sectsPerClus : ℕ) : Mem :=
  let sizes := store (store newBuf 11 2 512) 13 1 sectsPerClus
  let boot := store (store (store sizes 14 2 1) 16 1 1) 36 4 1
  store (store boot 520 4 0x0fffffff) 1536 1 7

theorem oneCluster_isFile : IsFile (oneCluster 1) 2 1 512 ∧ IsFile (oneCluster 2) 2 1 1024 := by
  have hends : ∀ disk, EndsChain (fatEntry (fatInit disk) disk 2) →
      ChainLength (fatInit disk) disk 2 1 := by
    intro disk h
    exact ⟨Nat.one_pos, h, fun k hpos hlt => by omega⟩
  refine ⟨⟨?_, ⟨0, by decide, by decide +kernel⟩, hends _ (by decide +kernel), by decide, ?_, ?_,
      ?_, ?_⟩,
    ⟨?_, ⟨1, by decide, by decide +kernel⟩, hends _ (by decide +kernel), by decide, ?_, ?_, ?_, ?_⟩⟩
  all_goals decide +kernel

/-- One sector for each cluster. -/
theorem fatRead_reads_one : fileByte (oneCluster 1) 2 0 = 0 ∧
    ∀ disk', SameTables (oneCluster 1) disk' → ReadsFile disk' 2 0x4000 0 512 :=
  ⟨by decide +kernel,
    (fatRead_reads_iff (oneCluster 1) 2 1 512 0x4000 0 512 oneCluster_isFile.1 (by decide)).mpr
      (Or.inl (by decide +kernel))⟩

/-- Two sectors for each cluster: the first byte of the second one is not in the buffer. -/
theorem fatRead_misses_sector :
    perCluster (oneCluster 2) = 2 ∧ fileByte (oneCluster 2) 2 512 = 7 ∧
      (∃ vol, fatMount (oneCluster 2) = some vol ∧ ∀ rounds block mem mem',
        fatRead vol (oneCluster 2) 2 rounds block mem 0x4000 512 1 = some mem' →
          mem' 0x4000 = block 512) ∧
      ¬ReadsFile (oneCluster 2) 2 0x4000 512 1 := by
  have hfile := oneCluster_isFile.2
  refine ⟨by decide +kernel, by decide +kernel, ⟨_, hfile.fatMount_eq, ?_⟩, fun h => ?_⟩
  · intro rounds block mem mem' hrun
    exact hfile.fatRead_apply hrun (k := 0) (by decide)
  · have hin := ((hfile.reads_iff 0x4000 512 1).mp h 512 le_rfl (by decide)).1
    exact absurd hin (by decide)

end KernelOld.Fat
