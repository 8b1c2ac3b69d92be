import KernelOld.Fs.Ext2.Volume

/-!
# FAT cluster chains

`fat_get_cluster_chain` of `fs/fat/fatent.c` follows the file allocation table from a first
cluster to an entry that is 0 or an end marker, and stores the clusters in an array of 1000
elements. It keeps no count.
-/

namespace KernelOld.Fat
open ByteMemory MachineWord
open Ext2 (devRead newBuf)

/-! ## The model -/

structure FatVol where
  resSects : ℕ

/-- `fat_init`, as far as that field goes: `res_sectors` of the boot record has 16 bits. -/
def fatInit (disk : Mem) : FatVol where
  resSects := load (devRead disk newBuf 0 1) 14 2

def entryMask : ℕ := 0x0fffffff

structure Clusters where
  ret : ℕ → ℕ
  numClus : ℕ

def Clusters.push (cs : Clusters) (clus : ℕ) : Clusters where
  ret := Function.update cs.ret cs.numClus clus
  numClus := cs.numClus + 1

def readEntry (vol : FatVol) (disk : Mem) (clus : ℕ) : ℕ :=
  let fatSector := u32 (vol.resSects + u32 (clus * 4) / 512)
  let fatOff := u32 (clus * 4) % 512
  let buf := devRead disk newBuf fatSector 1
  load buf fatOff 4 &&& entryMask

def chainLoop (vol : FatVol) (disk : Mem) : ℕ → ℕ → Clusters → Option Clusters
  | 0, _, _ => none
  | rounds + 1, clus, cs =>
    let cchain := readEntry vol disk clus
    let cs := cs.push clus
    if cchain ≠ 0 ∧ ¬cchain &&& entryMask ≥ 0x0ffffff8 then chainLoop vol disk rounds cchain cs
    else some cs

def fatGetClusterChain (vol : FatVol) (disk : Mem) (firstCluster : ℕ) (cs : Clusters)
    (rounds : ℕ) : Option Clusters :=
  chainLoop vol disk rounds firstCluster cs

/-! ## Chains -/

/-- The table has at most 2^30 words, and cluster numbers have 28 bits; a first cluster that is too
great for one is taken for another. -/
def fatEntry (vol : FatVol) (disk : Mem) (clus : ℕ) : ℕ :=
  load disk (512 * vol.resSects + 4 * (clus % 2 ^ 30)) 4 &&& entryMask

def EndsChain (entry : ℕ) : Prop := entry = 0 ∨ 0x0ffffff8 ≤ entry

instance (entry : ℕ) : Decidable (EndsChain entry) := inferInstanceAs (Decidable (_ ∨ _))

/-- The cluster after `k` steps, or what stands in its place at the end of the chain. -/
def clusterAt (vol : FatVol) (disk : Mem) (first : ℕ) : ℕ → ℕ
  | 0 => first
  | k + 1 => fatEntry vol disk (clusterAt vol disk first k)

/-- The chain from `first` has `n` clusters. -/
structure ChainLength (vol : FatVol) (disk : Mem) (first n : ℕ) : Prop where
  pos : 0 < n
  ends : EndsChain (clusterAt vol disk first n)
  goes_on : ∀ k, 0 < k → k < n → ¬EndsChain (clusterAt vol disk first k)

/-- At most 1000 clusters are stored, and every chain as short as that as it is. -/
def StoresChain (vol : FatVol) (disk : Mem) (first : ℕ) : Prop :=
  ∀ ret,
    (∃ rounds cs, fatGetClusterChain vol disk first ⟨ret, 0⟩ rounds = some cs ∧
      cs.numClus ≤ 1000) ∧
    ∀ n ≤ 1000, ChainLength vol disk first n →
      ∃ rounds cs, fatGetClusterChain vol disk first ⟨ret, 0⟩ rounds = some cs ∧
        cs.numClus = n ∧ ∀ k < n, cs.ret k = clusterAt vol disk first k

variable {vol : FatVol} {disk : Mem} {cs cs' : Clusters} {first clus entry k n rounds : ℕ}

theorem resSects_fatInit (disk : Mem) : (fatInit disk).resSects < 2 ^ 16 := load_lt _ _ _

theorem readEntry_eq (hres : vol.resSects < 2 ^ 16) :
    readEntry vol disk clus = fatEntry vol disk clus := by
  have hcut : u32 (clus * 4) = 4 * (clus % 2 ^ 30) := by
    rw [u32, Nat.mul_comm]
    exact Nat.mul_mod_mul_left 4 clus (2 ^ 30)
  have hlt := Nat.mod_lt clus (show 0 < 2 ^ 30 by decide)
  rw [readEntry, fatEntry, hcut]
  generalize clus % 2 ^ 30 = c at hlt
  have hsector : u32 (vol.resSects + 4 * c / 512) = vol.resSects + 4 * c / 512 :=
    u32_of_lt (by omega)
  rw [hsector]
  congr 1
  apply load_eq_of_bytes
  intro i hi
  have haddr : 512 * (vol.resSects + 4 * c / 512) + (4 * c % 512 + i - 0) =
      512 * vol.resSects + 4 * c + i := by omega
  rw [devRead, blit_apply_of_mem (Nat.zero_le _) (by omega), haddr]

theorem fatEntry_and_mask : fatEntry vol disk clus &&& entryMask = fatEntry vol disk clus := by
  rw [fatEntry, Nat.and_assoc, Nat.and_self]

theorem chainLoop_succ (hres : vol.resSects < 2 ^ 16) (rounds k : ℕ) (cs : Clusters) :
    chainLoop vol disk (rounds + 1) (clusterAt vol disk first k) cs =
      if EndsChain (clusterAt vol disk first (k + 1)) then
        some (cs.push (clusterAt vol disk first k))
      else chainLoop vol disk rounds (clusterAt vol disk first (k + 1))
        (cs.push (clusterAt vol disk first k)) := by
  rw [chainLoop, readEntry_eq hres, fatEntry_and_mask, ← clusterAt]
  by_cases hends : EndsChain (clusterAt vol disk first (k + 1))
  · rw [if_pos hends, if_neg]
    rintro ⟨hne, hlt⟩
    exact hends.elim hne hlt
  · rw [if_neg hends, if_pos]
    exact not_or.mp hends

structure Stored (vol : FatVol) (disk : Mem) (first k : ℕ) (cs : Clusters) : Prop where
  numClus : cs.numClus = k
  ret : ∀ j < k, cs.ret j = clusterAt vol disk first j

theorem Stored.push (h : Stored vol disk first k cs) :
    Stored vol disk first (k + 1) (cs.push (clusterAt vol disk first k)) := by
  refine ⟨congrArg (· + 1) h.numClus, fun j hj => ?_⟩
  rw [Clusters.push, h.numClus]
  dsimp only
  by_cases hjk : j = k
  · rw [hjk, Function.update_self]
  · rw [Function.update_of_ne hjk, h.ret j (by omega)]

theorem ChainLength.chainLoop (hres : vol.resSects < 2 ^ 16) (h : ChainLength vol disk first n)
    (d : ℕ) (hk : k + d + 1 = n) (hcs : Stored vol disk first k cs) :
    ∃ cs', chainLoop vol disk (d + 1) (clusterAt vol disk first k) cs = some cs' ∧
      Stored vol disk first n cs' := by
  induction d generalizing k cs with
  | zero =>
    subst hk
    refine ⟨_, ?_, hcs.push⟩
    rw [chainLoop_succ hres, if_pos h.ends]
  | succ d ih =>
    rw [chainLoop_succ hres, if_neg (h.goes_on (k + 1) (Nat.succ_pos k) (by omega))]
    exact ih (by omega) hcs.push

theorem chainLength_of_chainLoop (hres : vol.resSects < 2 ^ 16)
    (hgoes : ∀ j, 0 < j → j ≤ k → ¬EndsChain (clusterAt vol disk first j))
    (hcs : Stored vol disk first k cs)
    (hrun : chainLoop vol disk rounds (clusterAt vol disk first k) cs = some cs') :
    ChainLength vol disk first cs'.numClus := by
  induction rounds generalizing k cs with
  | zero => cases hrun
  | succ rounds ih =>
    rw [chainLoop_succ hres] at hrun
    split_ifs at hrun with hends
    · cases hrun
      rw [hcs.push.numClus]
      exact ⟨Nat.succ_pos k, hends, fun j hpos hj => hgoes j hpos (by omega)⟩
    · refine ih (fun j hpos hj => ?_) hcs.push hrun
      rcases Nat.lt_or_eq_of_le hj with hlt | rfl
      · exact hgoes j hpos (by omega)
      · exact hends

theorem clusterAt_add (j k : ℕ) :
    clusterAt vol disk first (j + k) = clusterAt vol disk (clusterAt vol disk first j) k := by
  induction k with
  | zero => rfl
  | succ k ih => rw [← Nat.add_assoc, clusterAt, ih, clusterAt]

/-- A chain that ends has no cluster twice. -/
theorem ChainLength.cluster_ne {j : ℕ} (h : ChainLength vol disk first n) (hjk : j < k)
    (hk : k < n) : clusterAt vol disk first j ≠ clusterAt vol disk first k := by
  intro heq
  have hends := h.ends
  rw [show n = k + (n - k) by omega, clusterAt_add, ← heq, ← clusterAt_add] at hends
  exact h.goes_on (j + (n - k)) (by omega) (by omega) hends

/-- On a volume with any boot record, the chains that are followed to an end and stored inside
the array are those of at most 1000 clusters. -/
theorem fatGetClusterChain_stores_iff (boot disk : Mem) (first : ℕ) :
    StoresChain (fatInit boot) disk first ↔
      ∃ n ≤ 1000, ChainLength (fatInit boot) disk first n := by
  have hres := resSects_fatInit boot
  have hstart : ∀ ret, Stored (fatInit boot) disk first 0 ⟨ret, 0⟩ := fun ret =>
    ⟨rfl, fun j hj => absurd hj (Nat.not_lt_zero j)⟩
  constructor
  · intro h
    obtain ⟨⟨rounds, cs, hrun, hle⟩, -⟩ := h fun _ => 0
    exact ⟨cs.numClus, hle, chainLength_of_chainLoop hres
      (fun j hpos hj => absurd hpos (Nat.not_lt.mpr hj)) (hstart _) hrun⟩
  · rintro ⟨n, hn, hlen⟩ ret
    have hruns : ∀ m, ChainLength (fatInit boot) disk first m → ∃ rounds cs,
        fatGetClusterChain (fatInit boot) disk first ⟨ret, 0⟩ rounds = some cs ∧
          Stored (fatInit boot) disk first m cs := by
      intro m hm
      obtain ⟨cs, hrun, hcs⟩ := hm.chainLoop hres (m - 1) (by have := hm.pos; omega) (hstart ret)
      exact ⟨_, cs, hrun, hcs⟩
    refine ⟨?_, fun m _ hm => ?_⟩
    · obtain ⟨rounds, cs, hrun, hcs⟩ := hruns n hlen
      exact ⟨rounds, cs, hrun, hcs.numClus.trans_le hn⟩
    · obtain ⟨rounds, cs, hrun, hcs⟩ := hruns m hm
      exact ⟨rounds, cs, hrun, hcs.numClus, hcs.ret⟩

def circle : Mem := store (store (store newBuf 11 2 512) 14 2 1) 520 4 2

/-- The chain from cluster 2 on comes back to it. No number of rounds is enough. -/
theorem fatGetClusterChain_circles :
    fatEntry (fatInit circle) circle 2 = 2 ∧
      (∀ rounds, fatGetClusterChain (fatInit circle) circle 2 ⟨fun _ => 0, 0⟩ rounds = none) ∧
      ¬StoresChain (fatInit circle) circle 2 := by
  have hentry : readEntry (fatInit circle) circle 2 = 2 := by decide +kernel
  have hloop : ∀ rounds cs, chainLoop (fatInit circle) circle rounds 2 cs = none := by
    intro rounds
    induction rounds with
    | zero => exact fun _ => rfl
    | succ rounds ih =>
      intro cs
      rw [chainLoop, hentry, if_pos (by decide), ih]
  refine ⟨by decide +kernel, fun rounds => hloop rounds _, fun h => ?_⟩
  obtain ⟨⟨rounds, cs, hrun, -⟩, -⟩ := h fun _ => 0
  rw [fatGetClusterChain, hloop] at hrun
  cases hrun

end KernelOld.Fat
