import Mathlib.Data.Nat.Find
import KernelOld.Fs.Vfs.Mount
import KernelOld.Fs.Vfs.Path

/-!
# Histories of mounts

The tree after any sequence of calls of `vfs_mount`, against the table of what was mounted where.
The tree reflects the table (`Reflects`) if all components fit the blocks of `strsplit`, but it has
nodes for all prefixes of the mounted paths, and `vfs_get_mountpoint` stops at the deepest node even
if nothing is mounted there.
-/

namespace KernelOld.Vfs
open Strings MountTree Function List

/-- A call of `vfs_mount`; its path is absolute. -/
structure Mount (δ : Type) where
  dev : δ
  path : Str
  absolute : path.head? = some slash

variable {δ : Type}

def Mount.parts (m : Mount δ) : List Str := (m.path.splitOn slash).filter (· ≠ [])

def mountAll (ms : List (Mount δ)) : Option (MountTree δ) :=
  ms.foldlM (fun t m => vfsMount t m.dev m.path) vfsInit

/-- The tree of the mounts when all copies of their components fit. -/
def mountTree (ms : List (Mount δ)) : MountTree δ :=
  ms.foldl (fun t m => vfsMountRecur m.dev m.parts t) vfsInit

/-- The copies that `strsplit` makes of the components fit their blocks. -/
def Fit (ms : List (Mount δ)) : Prop := ∀ m ∈ ms, ∀ c ∈ m.parts, FitsBlock c

instance (ms : List (Mount δ)) : Decidable (Fit ms) :=
  inferInstanceAs (Decidable (∀ m ∈ ms, ∀ c ∈ m.parts, FitsBlock c))

def table (ms : List (Mount δ)) : List Str → Option δ :=
  ms.foldl (fun tab m => Function.update tab m.parts (some m.dev)) fun _ => none

/-- Of the parts of `cs` that something is mounted at, `q` is the longest. -/
structure Longest (ms : List (Mount δ)) (cs q : List Str) : Prop where
  isPrefix : q <+: cs
  mounted : table ms q ≠ none
  longest : ∀ q', q' <+: cs → table ms q' ≠ none → q'.length ≤ q.length

/-- How many components of `cs` some mounted path begins with. -/
def reach (ms : List (Mount δ)) (cs : List Str) : ℕ :=
  Nat.findGreatest (fun n => ∃ m ∈ ms, cs.take n <+: m.parts) cs.length

/-- There is a node for each prefix of a mounted path, with the device that was mounted last. -/
structure Reflects (ms : List (Mount δ)) (t : MountTree δ) : Prop where
  distinct : t.Distinct
  nodes : ∀ q, (∃ u, At q t u) ↔ q = [] ∨ ∃ m ∈ ms, q <+: m.parts
  files : ∀ q u, At q t u → u.file = table ms q

variable {ms : List (Mount δ)} {m : Mount δ} {cs q : List Str} {u : MountTree δ}

theorem Mount.parts_ne_nil (m : Mount δ) : ∀ c ∈ m.parts, c ≠ [] := by
  intro c hc
  simpa using (mem_filter.mp hc).2

theorem vfsMount_mount (t : MountTree δ) (m : Mount δ) : vfsMount t m.dev m.path =
    if ∀ c ∈ m.parts, FitsBlock c then some (vfsMountRecur m.dev m.parts t) else none := by
  rw [vfsMount_eq, strsplit_eq, components_drop m.absolute]
  show Option.map _ (if ∀ c ∈ m.parts, FitsBlock c then some m.parts else none) = _
  split_ifs <;> rfl

theorem mountTree_append (ms : List (Mount δ)) (m : Mount δ) :
    mountTree (ms ++ [m]) = vfsMountRecur m.dev m.parts (mountTree ms) := by
  rw [mountTree, foldl_append]
  rfl

/-- The mounts give their tree exactly if all copies fit. -/
theorem mountAll_eq (ms : List (Mount δ)) :
    mountAll ms = if Fit ms then some (mountTree ms) else none := by
  induction ms using List.reverseRecOn with
  | nil => rfl
  | append_singleton ms m ih =>
    have hfit : Fit (ms ++ [m]) ↔ Fit ms ∧ ∀ c ∈ m.parts, FitsBlock c := by
      simp [Fit, or_imp, forall_and]
    rw [mountTree_append, mountAll, foldlM_append]
    show (mountAll ms).bind (fun t => [m].foldlM _ t) = _
    rw [ih]
    by_cases hms : Fit ms
    · rw [if_pos hms, Option.bind_some, foldlM_cons, vfsMount_mount]
      by_cases hm : ∀ c ∈ m.parts, FitsBlock c
      · rw [if_pos hm, if_pos (hfit.mpr ⟨hms, hm⟩)]
        rfl
      · rw [if_neg hm, if_neg fun h => hm (hfit.mp h).2]
        rfl
    · rw [if_neg hms, if_neg fun h => hms (hfit.mp h).1]
      rfl

theorem mountAll_eq_some {t : MountTree δ} :
    mountAll ms = some t ↔ Fit ms ∧ t = mountTree ms := by
  rw [mountAll_eq]
  by_cases hfit : Fit ms
  · rw [if_pos hfit]
    exact ⟨fun h => ⟨hfit, (Option.some.inj h).symm⟩, fun h => congrArg some h.2.symm⟩
  · rw [if_neg hfit]
    exact iff_of_false (Option.some_ne_none t).symm fun h => hfit h.1

theorem table_append (ms : List (Mount δ)) (m : Mount δ) :
    table (ms ++ [m]) = update (table ms) m.parts (some m.dev) := by
  rw [table, foldl_append]
  rfl

theorem table_ne_none : table ms q ≠ none ↔ ∃ m ∈ ms, m.parts = q := by
  induction ms using List.reverseRecOn with
  | nil => simp [table]
  | append_singleton ms m ih =>
    rw [table_append]
    by_cases hq : q = m.parts
    · subst hq
      rw [update_self]
      exact iff_of_true (by simp) ⟨m, by simp, rfl⟩
    · rw [update_of_ne hq, ih]
      simp [Ne.symm hq]

theorem distinct_mountTree (ms : List (Mount δ)) : (mountTree ms).Distinct := by
  induction ms using List.reverseRecOn with
  | nil => exact distinct_leaf
  | append_singleton ms m ih =>
    rw [mountTree_append]
    exact distinct_vfsMountRecur m.parts_ne_nil ih

theorem file_mountTree (ms : List (Mount δ)) (q : List Str) :
    ((q = [] ∨ ∃ m ∈ ms, q <+: m.parts) → ((mountTree ms).node q).map file = some (table ms q)) ∧
      (¬(q = [] ∨ ∃ m ∈ ms, q <+: m.parts) → ((mountTree ms).node q).map file = none) := by
  induction ms using List.reverseRecOn with
  | nil =>
    cases q with
    | nil => exact ⟨fun _ => rfl, fun hno => absurd (Or.inl rfl) hno⟩
    | cons c q => exact ⟨fun h => by simp at h, fun _ => rfl⟩
  | append_singleton ms m ih =>
    obtain ⟨hold, hnew⟩ := ih
    rw [mountTree_append, file_vfsMountRecur m.parts_ne_nil, table_append]
    by_cases hq : q = m.parts
    · subst hq
      rw [if_pos rfl, update_self]
      exact ⟨fun _ => rfl, fun hno => absurd (Or.inr ⟨m, by simp, prefix_rfl⟩) hno⟩
    · rw [if_neg hq, update_of_ne hq]
      by_cases hnode : q = [] ∨ ∃ m ∈ ms, q <+: m.parts
      · rw [hold hnode]
        refine ⟨fun _ => rfl, fun hno => absurd (hnode.imp_right ?_) hno⟩
        rintro ⟨m', hm', hpre⟩
        exact ⟨m', by simp [hm'], hpre⟩
      · have hnone : table ms q = none := by
          by_contra hsome
          obtain ⟨m', hm', rfl⟩ := table_ne_none.mp hsome
          exact hnode (Or.inr ⟨m', hm', prefix_rfl⟩)
        rw [hnew hnode, Option.none_or, hnone]
        by_cases hpre : q <+: m.parts
        · rw [if_pos hpre]
          exact ⟨fun _ => rfl, fun hno => absurd (Or.inr ⟨m, by simp, hpre⟩) hno⟩
        · rw [if_neg hpre]
          refine ⟨fun h => absurd ?_ hnode, fun _ => rfl⟩
          refine h.imp_right ?_
          rintro ⟨m', hm', hm'q⟩
          rw [mem_append, mem_singleton] at hm'
          obtain hm' | rfl := hm'
          · exact ⟨m', hm', hm'q⟩
          · exact absurd hm'q hpre

theorem reflects_mountTree (ms : List (Mount δ)) : Reflects ms (mountTree ms) := by
  have hdistinct := distinct_mountTree ms
  refine ⟨hdistinct, fun q => ?_, fun q u hu => ?_⟩
  · obtain ⟨hold, hnew⟩ := file_mountTree ms q
    by_cases hnode : q = [] ∨ ∃ m ∈ ms, q <+: m.parts
    · obtain ⟨u, hu, -⟩ := Option.map_eq_some_iff.mp (hold hnode)
      exact iff_of_true ⟨u, hdistinct.at_iff.mpr hu⟩ hnode
    · refine iff_of_false ?_ hnode
      rintro ⟨u, hu⟩
      have hnone := hnew hnode
      rw [hdistinct.at_iff.mp hu] at hnone
      cases hnone
  · obtain ⟨hold, hnew⟩ := file_mountTree ms q
    rw [hdistinct.at_iff.mp hu] at hold hnew
    by_cases hnode : q = [] ∨ ∃ m ∈ ms, q <+: m.parts
    · exact Option.some.inj (hold hnode)
    · cases hnew hnode

theorem reach_le (ms : List (Mount δ)) (cs : List Str) : reach ms cs ≤ cs.length :=
  Nat.findGreatest_le cs.length

theorem length_le_reach (hq : q <+: cs) (hmounted : table ms q ≠ none) :
    q.length ≤ reach ms cs := by
  obtain ⟨m, hm, rfl⟩ := table_ne_none.mp hmounted
  have htake : m.parts = cs.take m.parts.length := prefix_iff_eq_take.mp hq
  exact Nat.le_findGreatest hq.length_le ⟨m, hm, [], by rw [append_nil, ← htake]⟩

theorem longest_reach (h : table ms (cs.take (reach ms cs)) ≠ none) :
    Longest ms cs (cs.take (reach ms cs)) := by
  refine ⟨List.take_prefix _ _, h, fun q hq hmounted => ?_⟩
  rw [length_take, Nat.min_eq_left (reach_le ms cs)]
  exact length_le_reach hq hmounted

theorem Longest.unique {q' : List Str} (h : Longest ms cs q) (h' : Longest ms cs q') : q = q' := by
  rw [prefix_iff_eq_take.mp h.isPrefix, prefix_iff_eq_take.mp h'.isPrefix,
    Nat.le_antisymm (h'.longest q h.isPrefix h.mounted) (h.longest q' h'.isPrefix h'.mounted)]

theorem Reflects.deepest {t : MountTree δ} (h : Reflects ms t) (hq : t.Deepest cs q u) :
    q = cs.take (reach ms cs) := by
  obtain ⟨hpre, hu, hmax⟩ := hq
  have htake : q = cs.take q.length := prefix_iff_eq_take.mp hpre
  have hle : q.length ≤ reach ms cs := by
    obtain hnil | hmount := (h.nodes q).mp ⟨u, hu⟩
    · rw [hnil]
      exact Nat.zero_le _
    · exact Nat.le_findGreatest hpre.length_le (htake ▸ hmount)
  have hge : reach ms cs ≤ q.length := by
    have hnode : cs.take (reach ms cs) = [] ∨ ∃ m ∈ ms, cs.take (reach ms cs) <+: m.parts := by
      by_cases hzero : reach ms cs = 0
      · left
        rw [hzero, take_zero]
      · exact Or.inr (Nat.findGreatest_of_ne_zero rfl hzero)
    obtain ⟨u', hu'⟩ := (h.nodes _).mpr hnode
    have hlen := hmax _ u' (List.take_prefix _ _) hu'
    rwa [length_take, Nat.min_eq_left (reach_le ms cs)] at hlen
  rw [← Nat.le_antisymm hle hge]
  exact htake

theorem vfsGetMountpoint_render {t : MountTree δ} {rest : ℕ → UInt8} (hrest : rest 0 = 0)
    (hcs : ∀ c ∈ cs, Component c) :
    vfsGetMountpoint t rest (render cs) = mountpointLoop.feed t cs := by
  rw [vfsGetMountpoint_eq t (notMem_render hcs) hrest, tokens_render hcs]

theorem vfsGetMountpoint_mountTree (ms : List (Mount δ)) (rest : ℕ → UInt8) (hrest : rest 0 = 0)
    (hcs : ∀ c ∈ cs, Component c) :
    ∃ u, (mountTree ms).Deepest cs (cs.take (reach ms cs)) u ∧
      u.file = table ms (cs.take (reach ms cs)) ∧
      ((∀ c ∈ cs.take (reach ms cs + 1), c.length < 1000) →
        vfsGetMountpoint (mountTree ms) rest (render cs) = some u.file) ∧
      (¬(∀ c ∈ cs.take (reach ms cs + 1), c.length < 1000) →
        vfsGetMountpoint (mountTree ms) rest (render cs) = none) := by
  have hreflects := reflects_mountTree ms
  obtain ⟨q, u, hdeepest, hfeed⟩ :=
    hreflects.distinct.feed_mountpointLoop fun c hc => (hcs c hc).isName.1
  obtain rfl := hreflects.deepest hdeepest
  rw [length_take, Nat.min_eq_left (reach_le ms cs)] at hfeed
  rw [vfsGetMountpoint_render hrest hcs]
  exact ⟨u, hdeepest, hreflects.files _ u hdeepest.2.1, hfeed⟩

/-- The tree is made and reflects the mounts, and the lookup of a canonical path returns the file
of the deepest node, exactly if the copies of the mounted components fit and the components up to
the first without a node fit into a token. -/
theorem mountAll_reflects {rest : ℕ → UInt8} (hrest : rest 0 = 0) (hcs : ∀ c ∈ cs, Component c) :
    ((∃ t, mountAll ms = some t ∧ Reflects ms t) ↔ Fit ms) ∧
      ((∃ t, mountAll ms = some t ∧ ∃ q u, t.Deepest cs q u ∧
        vfsGetMountpoint t rest (render cs) = some u.file) ↔
          Fit ms ∧ ∀ c ∈ cs.take (reach ms cs + 1), c.length < 1000) := by
  obtain ⟨u, hdeepest, -, hgood, hbad⟩ := vfsGetMountpoint_mountTree ms rest hrest hcs
  simp only [mountAll_eq_some]
  refine ⟨⟨?_, fun hfit => ⟨_, ⟨hfit, rfl⟩, reflects_mountTree ms⟩⟩, ?_, ?_⟩
  · rintro ⟨t, ⟨hfit, -⟩, -⟩
    exact hfit
  · rintro ⟨t, ⟨hfit, rfl⟩, q, v, -, hsome⟩
    refine ⟨hfit, ?_⟩
    by_contra hlong
    rw [hbad hlong] at hsome
    cases hsome
  · rintro ⟨hfit, hshort⟩
    exact ⟨_, ⟨hfit, rfl⟩, _, u, hdeepest, hgood hshort⟩

def diskMounts : List (Mount ℕ) :=
  [⟨0, [47], rfl⟩, ⟨1, [47, 100, 101, 118, 47, 100, 105, 115, 107, 48], rfl⟩]

theorem mountAll_reflects_dev :
    (∃ t, mountAll diskMounts = some t ∧ Reflects diskMounts t) ∧
      ∃ t, mountAll diskMounts = some t ∧ ∃ q u, t.Deepest [[100, 101, 118]] q u ∧
        vfsGetMountpoint t (fun _ => 0) (render [[100, 101, 118]]) = some u.file := by
  obtain ⟨htree, hlookup⟩ := @mountAll_reflects ℕ diskMounts [[100, 101, 118]] (fun _ => 0) rfl
    (by decide)
  exact ⟨htree.mpr (by decide), hlookup.mpr (by decide)⟩

theorem component_replicate {n : ℕ} (hn : 2 < n) : Component (List.replicate n 97) := by
  have hne : ∀ c : Str, c.length ≤ 2 → List.replicate n 97 ≠ c := by
    rintro c hc rfl
    rw [length_replicate] at hc
    exact absurd hn (Nat.not_lt.mpr hc)
  refine ⟨⟨hne [] (by decide), hne dot (by decide), hne dotdot (by decide)⟩, ?_, ?_⟩
  · exact fun h => absurd (eq_of_mem_replicate h) (by decide)
  · exact fun h => absurd (eq_of_mem_replicate h) (by decide)

/-- A name of 5000 bytes does not fit into the buffer of `strtok`, and the copy of one of 16 bytes
loses its terminator. -/
theorem vfsGetMountpoint_long_name :
    (∃ t, mountAll [⟨0, [slash], rfl⟩, ⟨1, slash :: List.replicate 5000 97 ++ [slash, 98], rfl⟩] =
        some t ∧
      vfsGetMountpoint t (fun _ => 0) (render [List.replicate 5000 97, [98]]) = none) ∧
    mountAll [⟨0, [slash], rfl⟩, ⟨1, slash :: List.replicate 16 97, rfl⟩] = none := by
  have hcs : ∀ c ∈ [List.replicate 5000 97, [98]], Component c := by
    rw [forall_mem_cons]
    exact ⟨component_replicate (by decide), by decide⟩
  have hlookup (t : MountTree ℕ) :
      vfsGetMountpoint t (fun _ => 0) (render [List.replicate 5000 97, [98]]) = none := by
    rw [vfsGetMountpoint_render rfl hcs, TokenLoop.feed, if_neg]
    rw [length_replicate]
    decide
  exact ⟨⟨_, mountAll_eq_some.mpr ⟨by decide +kernel, rfl⟩, hlookup _⟩, by decide +kernel⟩

/-- The lookup returns what is mounted at the longest prefix exactly if the copies of the mounted
components fit, something is mounted where the mounted paths leave the path, and the components
that it reads fit into a token. -/
theorem vfsGetMountpoint_longest {rest : ℕ → UInt8} (hrest : rest 0 = 0)
    (hcs : ∀ c ∈ cs, Component c) :
    (∃ t, mountAll ms = some t ∧ ∃ q dev, Longest ms cs q ∧ table ms q = some dev ∧
      vfsGetMountpoint t rest (render cs) = some (some dev)) ↔
        Fit ms ∧ (∃ m ∈ ms, m.parts = cs.take (reach ms cs)) ∧
          ∀ c ∈ cs.take (reach ms cs + 1), c.length < 1000 := by
  obtain ⟨u, hdeepest, hfile, hgood, hbad⟩ := vfsGetMountpoint_mountTree ms rest hrest hcs
  simp only [mountAll_eq_some]
  constructor
  · rintro ⟨t, ⟨hfit, rfl⟩, q, dev, -, -, hsome⟩
    have hfits : ∀ c ∈ cs.take (reach ms cs + 1), c.length < 1000 := by
      by_contra hlong
      rw [hbad hlong] at hsome
      cases hsome
    refine ⟨hfit, table_ne_none.mp ?_, hfits⟩
    rw [← hfile, Option.some.inj ((hgood hfits).symm.trans hsome)]
    exact Option.some_ne_none dev
  · rintro ⟨hfit, hmounted, hfits⟩
    have hne := table_ne_none.mpr hmounted
    obtain ⟨dev, hdev⟩ := Option.ne_none_iff_exists'.mp hne
    refine ⟨_, ⟨hfit, rfl⟩, _, dev, longest_reach hne, hdev, ?_⟩
    rw [hgood hfits, hfile, hdev]

-- The path `/dev/disk0/a`.
theorem vfsGetMountpoint_longest_disk : ∃ t, mountAll diskMounts = some t ∧
    ∃ q dev, Longest diskMounts [[100, 101, 118], [100, 105, 115, 107, 48], [97]] q ∧
      table diskMounts q = some dev ∧
      vfsGetMountpoint t (fun _ => 0)
        (render [[100, 101, 118], [100, 105, 115, 107, 48], [97]]) = some (some dev) :=
  (vfsGetMountpoint_longest rfl (by decide)).mpr (by decide)

/-- The node `/dev` has no file, though `/` is mounted. -/
theorem vfsGetMountpoint_null : table diskMounts [] = some 0 ∧
    ∃ t, mountAll diskMounts = some t ∧
      vfsGetMountpoint t (fun _ => 0) (render [[100, 101, 118]]) = some none :=
  ⟨by decide, _, rfl, by decide⟩

end KernelOld.Vfs
