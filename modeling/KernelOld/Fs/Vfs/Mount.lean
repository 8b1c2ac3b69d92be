import Mathlib.Data.List.Nodup
import KernelOld.Util.Strings

/-!
# The mount tree

`strsplit` and `vfs_mkpath` of `fs/vfs/path.c`, and `vfs_mount` and `vfs_get_mountpoint` of
`fs/vfs/mount.c`, on values. There is no list of `strsplit`, and no mount, where the copy of a
component does not fit its block. `none` as the result of a lookup stands for a token too long for
the buffer of `strtok`, and a null pointer is `some none`.
-/

namespace KernelOld.Vfs
open Strings List

variable {δ : Type}

def strsplitLoop (c : UInt8) : Str → Str → List Str
  | token, [] => if token ≠ [] then [token] else []
  | token, b :: str =>
    if b = c then
      if token ≠ [] then token :: strsplitLoop c [] str else strsplitLoop c [] str
    else strsplitLoop c (token ++ [b]) str

/-- The pieces of a string between separators that are not empty. -/
def components (str : Str) (c : UInt8) : List Str := strsplitLoop c [] str

/-- An `int` can count the bytes of the token, and `kmalloc` rounds its length up to a block that
has room for the terminator. -/
def FitsBlock (token : Str) : Prop := token.length < 2 ^ 31 ∧ token.length % 16 ≠ 0

instance : DecidablePred FitsBlock := fun _ => inferInstanceAs (Decidable (_ ∧ _))

/-- The copy of a token. Where the block has no room for the terminator, the next header of the
heap takes its place, and the string that is read later is another one. -/
def copyToken (token : Str) : Option Str := if FitsBlock token then some token else none

def strsplit (str : Str) (c : UInt8) : Option (List Str) := (components str c).mapM copyToken

def abspathText (pathstr : Str) (workingDir : Option Str) : Str :=
  match workingDir with
  | some dir => if pathstr.head? ≠ some slash then dir ++ pathstr else pathstr.drop 1
  | none => pathstr.drop 1

def vfsMkpath (pathstr : Str) (workingDir : Option Str) : Option (List Str) :=
  if pathstr = [slash] then some [] else strsplit (abspathText pathstr workingDir) slash

structure MountTree (δ : Type) where
  name : Str
  file : Option δ
  children : List (MountTree δ)

/-- The entry of a new node. `kmalloc` clears it. -/
def MountTree.leaf (name : Str) : MountTree δ := ⟨name, none, []⟩

def vfsInit : MountTree δ := .leaf [114, 111, 111, 116]

def vfsMountRecur (dev : δ) : List Str → MountTree δ → MountTree δ
  | [], node => { node with file := some dev }
  | name :: parts, node =>
    match node.children.findIdx? fun child => strcmp child.name name = 0 with
    | some i => { node with children := node.children.modify i (vfsMountRecur dev parts) }
    | none => { node with children := node.children ++ [vfsMountRecur dev parts (.leaf name)] }

def vfsMount (tree : MountTree δ) (dev : δ) (mntPt : Str) : Option (MountTree δ) := do
  let parts ← vfsMkpath mntPt none
  if parts.length = 0 then return { tree with file := some dev }
  else return vfsMountRecur dev parts tree

/-- `vfs_get_mountpoint_recur`. -/
def mountpointLoop : TokenLoop (MountTree δ) (Option δ) where
  step node token :=
    match node.children.find? fun child => strcmp child.name token = 0 with
    | some child => some (.inl child)
    | none => some (.inr node.file)
  finish node := some node.file

def vfsGetMountpoint (tree : MountTree δ) (rest : ℕ → UInt8) (path : Str) : Option (Option δ) :=
  if path.length = 1 ∧ path.head? = some slash then some tree.file
  else mountpointLoop.runOn tree path rest 1

theorem strsplitLoop_eq (c : UInt8) (token str : Str) : strsplitLoop c token str =
    ((str.splitOn c).modifyHead (token ++ ·)).filter (· ≠ []) := by
  induction str generalizing token with
  | nil => cases token <;> simp [strsplitLoop]
  | cons b str ih =>
    rw [splitOn_eq_splitOnP, splitOnP_cons_eq_if_modifyHead, ← splitOn_eq_splitOnP,
      strsplitLoop]
    by_cases hb : b = c
    · rw [if_pos hb, if_pos (beq_iff_eq.mpr hb), ih []]
      obtain ⟨t, ts, hsplit⟩ := exists_cons_of_ne_nil (splitOn_ne_nil c str)
      cases token <;> simp [hsplit]
    · rw [if_neg hb, if_neg (mt beq_iff_eq.mp hb), ih (token ++ [b])]
      obtain ⟨t, ts, hsplit⟩ := exists_cons_of_ne_nil (splitOn_ne_nil c str)
      simp [hsplit]

theorem components_eq (str : Str) (c : UInt8) :
    components str c = (str.splitOn c).filter (· ≠ []) := by
  rw [components, strsplitLoop_eq]
  cases str.splitOn c <;> simp

theorem mapM_copyToken (ts : List Str) :
    ts.mapM copyToken = if ∀ t ∈ ts, FitsBlock t then some ts else none := by
  induction ts with
  | nil => rfl
  | cons t ts ih =>
    rw [mapM_cons, ih, copyToken]
    by_cases ht : FitsBlock t
    · by_cases hts : ∀ t ∈ ts, FitsBlock t
      · rw [if_pos ht, if_pos hts, if_pos (forall_mem_cons.mpr ⟨ht, hts⟩)]
        rfl
      · rw [if_pos ht, if_neg hts, if_neg fun h => hts (forall_mem_cons.mp h).2]
        rfl
    · rw [if_neg ht, if_neg fun h => ht (forall_mem_cons.mp h).1]
      rfl

theorem strsplit_eq (str : Str) (c : UInt8) : strsplit str c =
    if ∀ t ∈ components str c, FitsBlock t then some (components str c) else none :=
  mapM_copyToken _

theorem strsplit_eq_some {str : Str} {c : UInt8} {parts : List Str}
    (h : strsplit str c = some parts) : strsplit str c = some (components str c) := by
  rw [strsplit_eq] at h ⊢
  split_ifs at h ⊢ with hfit
  rfl

theorem vfsMkpath_eq (pathstr : Str) (workingDir : Option Str) :
    vfsMkpath pathstr workingDir = strsplit (abspathText pathstr workingDir) slash := by
  rw [vfsMkpath]
  split_ifs with hroot
  · rw [hroot]
    cases workingDir <;> rfl
  · rfl

theorem components_drop {path : Str} (habs : path.head? = some slash) :
    components (path.drop 1) slash = (path.splitOn slash).filter (· ≠ []) := by
  obtain ⟨str, rfl⟩ : ∃ str, path = slash :: str := by
    cases path with
    | nil => cases habs
    | cons b str => exact ⟨str, by rw [Option.some.inj habs]⟩
  have hsplit : (slash :: str).splitOn slash = [] :: str.splitOn slash := by
    rw [splitOn_eq_splitOnP, splitOnP_cons_eq_if_modifyHead, if_pos (beq_self_eq_true _),
      ← splitOn_eq_splitOnP]
  rw [hsplit]
  exact components_eq str slash

theorem vfsMount_eq (tree : MountTree δ) (dev : δ) (path : Str) :
    vfsMount tree dev path =
      (strsplit (path.drop 1) slash).map fun parts => vfsMountRecur dev parts tree := by
  rw [vfsMount, vfsMkpath_eq]
  show (strsplit (path.drop 1) slash).bind _ = _
  cases strsplit (path.drop 1) slash with
  | none => rfl
  | some parts => cases parts <;> rfl

theorem vfsGetMountpoint_eq (tree : MountTree δ) {rest : ℕ → UInt8} {path : Str}
    (hpath : 0 ∉ path) (hrest : rest 0 = 0) :
    vfsGetMountpoint tree rest path =
      mountpointLoop.feed tree (Strings.tokens (path.drop 1)) := by
  rw [vfsGetMountpoint]
  split_ifs with hroot
  · have hnil : path.drop 1 = [] := drop_eq_nil_of_le (Nat.le_of_eq hroot.1)
    rw [hnil]
    rfl
  · exact TokenLoop.runOn_eq hpath hrest (Nat.succ_le_succ (Nat.zero_le _))

namespace MountTree

def child (t : MountTree δ) (c : Str) : Option (MountTree δ) := t.children.find? fun u => u.name = c

def node (t : MountTree δ) : List Str → Option (MountTree δ)
  | [] => some t
  | c :: q => (t.child c).bind fun u => u.node q

def At : List Str → MountTree δ → MountTree δ → Prop
  | [], t, u => u = t
  | c :: q, t, u => ∃ v ∈ t.children, v.name = c ∧ At q v u

def Distinct (t : MountTree δ) : Prop := ∀ q u, At q t u → (u.children.map name).Nodup

variable {t u v : MountTree δ} {c d : Str} {q parts : List Str}

theorem Distinct.of_mem (h : t.Distinct) (hv : v ∈ t.children) : v.Distinct :=
  fun q u hu => h (v.name :: q) u ⟨v, hv, rfl, hu⟩

theorem child_eq_some (hnodup : (t.children.map name).Nodup) :
    t.child c = some v ↔ v ∈ t.children ∧ v.name = c := by
  refine ⟨fun h => ⟨mem_of_find?_eq_some h, by simpa using find?_some h⟩, ?_⟩
  rintro ⟨hv, rfl⟩
  rw [child]
  cases hfind : t.children.find? fun u => u.name = v.name with
  | none => exact absurd (decide_eq_true rfl) (find?_eq_none.mp hfind v hv)
  | some w =>
    have hname : w.name = v.name := by simpa using find?_some hfind
    rw [inj_on_of_nodup_map hnodup (mem_of_find?_eq_some hfind) hv hname]

theorem Distinct.at_iff (h : t.Distinct) : At q t u ↔ t.node q = some u := by
  induction q generalizing t with
  | nil => exact ⟨fun hu => congrArg some hu.symm, fun hu => (Option.some.inj hu).symm⟩
  | cons c q ih =>
    have hchild := fun v => child_eq_some (c := c) (v := v) (h [] t rfl)
    rw [node, Option.bind_eq_some_iff]
    constructor
    · rintro ⟨v, hv, hname, hu⟩
      exact ⟨v, (hchild v).mpr ⟨hv, hname⟩, (ih (h.of_mem hv)).mp hu⟩
    · rintro ⟨v, hv, hu⟩
      obtain ⟨hmem, hname⟩ := (hchild v).mp hv
      exact ⟨v, hmem, hname, (ih (h.of_mem hmem)).mpr hu⟩

theorem strcmp_name (hc : c ≠ []) :
    (fun u : MountTree δ => decide (strcmp u.name c = 0)) = fun u => decide (u.name = c) := by
  funext u
  refine decide_eq_decide.mpr (strcmp_eq_zero.trans ⟨And.left, fun h => ⟨h, ?_⟩⟩)
  rw [h]
  exact hc

theorem distinct_leaf : (leaf c : MountTree δ).Distinct := by
  intro q u hu
  cases q with
  | nil =>
    subst hu
    exact nodup_nil
  | cons d q =>
    obtain ⟨v, hv, -⟩ := hu
    cases hv

end MountTree

open MountTree

variable {dev : δ} {t u : MountTree δ} {c d : Str} {q parts : List Str}

theorem vfsMountRecur_name (dev : δ) (parts : List Str) (t : MountTree δ) :
    (vfsMountRecur dev parts t).name = t.name := by
  cases parts with
  | nil => rfl
  | cons c parts =>
    rw [vfsMountRecur]
    split <;> rfl

theorem vfsMountRecur_cons (dev : δ) (parts : List Str) (t : MountTree δ) (hc : c ≠ []) :
    (∃ l v r, t.children = l ++ v :: r ∧ v.name = c ∧ (∀ w ∈ l, w.name ≠ c) ∧
      vfsMountRecur dev (c :: parts) t =
        { t with children := l ++ vfsMountRecur dev parts v :: r }) ∨
    ((∀ w ∈ t.children, w.name ≠ c) ∧ vfsMountRecur dev (c :: parts) t =
      { t with children := t.children ++ [vfsMountRecur dev parts (.leaf c)] }) := by
  rw [vfsMountRecur, strcmp_name hc]
  cases hfind : t.children.findIdx? fun u => u.name = c with
  | none =>
    refine Or.inr ⟨fun w hw => ?_, rfl⟩
    simpa using findIdx?_eq_none_iff.mp hfind w hw
  | some i =>
    obtain ⟨hi, hname, hbefore⟩ := findIdx?_eq_some_iff_getElem.mp hfind
    refine Or.inl ⟨t.children.take i, t.children[i], t.children.drop (i + 1), ?_, ?_, ?_, ?_⟩
    · rw [getElem_cons_drop, take_append_drop]
    · simpa using hname
    · intro w hw
      obtain ⟨j, hj, rfl⟩ := mem_take_iff_getElem.mp hw
      simpa using hbefore j (by omega)
    · dsimp only
      rw [modify_eq_take_cons_drop hi]

theorem child_vfsMountRecur (hc : c ≠ []) : (vfsMountRecur dev (c :: parts) t).child d =
    if d = c then some (vfsMountRecur dev parts ((t.child c).getD (.leaf c))) else t.child d := by
  obtain ⟨l, v, r, hchildren, rfl, hl, heq⟩ | ⟨hnone, heq⟩ :=
    vfsMountRecur_cons dev parts t hc
  · have hfront : (l.find? fun u => u.name = v.name) = none := by simpa using hl
    have hname := vfsMountRecur_name dev parts v
    rw [heq, child, child, child, hchildren]
    by_cases hd : d = v.name
    · simp [find?_append, hfront, hname, hd]
    · simp [find?_append, hname, hd, Ne.symm hd]
  · have hfront : (t.children.find? fun u => u.name = c) = none := by simpa using hnone
    have hname : (vfsMountRecur dev parts (.leaf c)).name = c := vfsMountRecur_name ..
    rw [heq, child, child, child]
    by_cases hd : d = c
    · simp [find?_append, hfront, hname, hd]
    · simp [find?_append, hname, hd, Ne.symm hd]

/-- A mount changes the file of the node at its path, and makes the nodes on the way there that
do not exist. -/
theorem file_vfsMountRecur (hparts : ∀ c ∈ parts, c ≠ []) :
    ((vfsMountRecur dev parts t).node q).map file =
      if q = parts then some (some dev)
      else ((t.node q).map file).or (if q <+: parts then some none else none) := by
  induction parts generalizing t q with
  | nil =>
    cases q with
    | nil => rfl
    | cons d q => simp [vfsMountRecur, node, child]
  | cons c parts ih =>
    obtain ⟨hc, hrest⟩ := forall_mem_cons.mp hparts
    cases q with
    | nil =>
      have hfile : (vfsMountRecur dev (c :: parts) t).file = t.file := by
        rw [vfsMountRecur]
        split <;> rfl
      simp [node, hfile]
    | cons d q =>
      rw [node, child_vfsMountRecur hc]
      by_cases hd : d = c
      · subst hd
        rw [if_pos rfl, Option.bind_some, ih hrest]
        cases hchild : t.child d with
        | none =>
          have hleaf : ((leaf d : MountTree δ).node q).map file =
              if q = [] then some none else none := by
            cases q <;> rfl
          rw [Option.getD_none, hleaf]
          cases q <;> simp [node, hchild]
        | some v => simp [node, hchild]
      · simp [hd, node]

theorem nodup_vfsMountRecur (hparts : ∀ c ∈ parts, c ≠ [])
    (h : (t.children.map name).Nodup) : ((vfsMountRecur dev parts t).children.map name).Nodup := by
  cases parts with
  | nil => exact h
  | cons c parts =>
    obtain ⟨l, v, r, hchildren, -, -, heq⟩ | ⟨hnone, heq⟩ :=
      vfsMountRecur_cons dev parts t (hparts c mem_cons_self)
    · rw [hchildren] at h
      rw [heq]
      simpa [vfsMountRecur_name] using h
    · have hnew : c ∉ t.children.map name := by
        rw [mem_map]
        rintro ⟨w, hw, hname⟩
        exact hnone w hw hname
      rw [heq, map_append, map_singleton, vfsMountRecur_name,
        (perm_append_singleton _ _).nodup_iff]
      exact nodup_cons.mpr ⟨hnew, h⟩

theorem distinct_vfsMountRecur (hparts : ∀ c ∈ parts, c ≠ []) (h : t.Distinct) :
    (vfsMountRecur dev parts t).Distinct := by
  induction parts generalizing t with
  | nil =>
    intro q u hu
    cases q with
    | nil =>
      subst hu
      exact h [] t rfl
    | cons d q => exact h (d :: q) u hu
  | cons c parts ih =>
    obtain ⟨hc, hrest⟩ := forall_mem_cons.mp hparts
    intro q u hu
    cases q with
    | nil =>
      subst hu
      exact nodup_vfsMountRecur hparts (h [] t rfl)
    | cons d q =>
      -- The node is below an old child, or below the one into which the mount goes.
      obtain ⟨w, hw, -, hu⟩ := hu
      obtain ⟨l, v, r, hchildren, -, -, heq⟩ | ⟨-, heq⟩ :=
        vfsMountRecur_cons dev parts t hc
      · rw [heq, mem_append, mem_cons] at hw
        have hold : ∀ x ∈ l ++ v :: r, x.Distinct := fun x hx => h.of_mem (hchildren ▸ hx)
        obtain hw | rfl | hw := hw
        · exact hold w (by simp [hw]) q u hu
        · exact ih hrest (hold v (by simp)) q u hu
        · exact hold w (by simp [hw]) q u hu
      · rw [heq, mem_append, mem_singleton] at hw
        obtain hw | rfl := hw
        · exact h.of_mem hw q u hu
        · exact ih hrest distinct_leaf q u hu

/-- The path `q` to `u` is the longest part of `cs` that the tree has a node for. -/
def MountTree.Deepest (t : MountTree δ) (cs q : List Str) (u : MountTree δ) : Prop :=
  q <+: cs ∧ At q t u ∧ ∀ q' u', q' <+: cs → At q' t u' → q'.length ≤ q.length

theorem MountTree.Distinct.feed_mountpointLoop {cs : List Str} (h : t.Distinct)
    (hcs : ∀ c ∈ cs, c ≠ []) :
    ∃ q u, t.Deepest cs q u ∧
      ((∀ c ∈ cs.take (q.length + 1), c.length < 1000) →
        mountpointLoop.feed t cs = some u.file) ∧
      (¬(∀ c ∈ cs.take (q.length + 1), c.length < 1000) → mountpointLoop.feed t cs = none) := by
  induction cs generalizing t with
  | nil =>
    refine ⟨[], t, ⟨List.nil_prefix, rfl, fun q' u' hq' _ => ?_⟩, fun _ => rfl, ?_⟩
    · rw [prefix_nil.mp hq']
    · exact fun hno => absurd (fun c hc => absurd hc not_mem_nil) hno
  | cons c cs ih =>
    obtain ⟨hc, hrest⟩ := forall_mem_cons.mp hcs
    have hnodup := h [] t rfl
    have hstep : mountpointLoop.step t c =
        (match t.child c with
          | some v => some (.inl v)
          | none => some (.inr t.file)) := by
      rw [child, ← strcmp_name hc]
      rfl
    rw [TokenLoop.feed, hstep]
    cases hchild : t.child c with
    | none =>
      refine ⟨[], t, ⟨List.nil_prefix, rfl, ?_⟩, ?_⟩
      · intro q' u' hq' hu'
        cases q' with
        | nil => exact Nat.le_refl 0
        | cons d q' =>
          obtain ⟨v, hv, hname, -⟩ := hu'
          obtain ⟨rfl, -⟩ := cons_prefix_cons.mp hq'
          rw [(child_eq_some hnodup).mpr ⟨hv, hname⟩] at hchild
          cases hchild
      · by_cases hlt : c.length < 1000 <;> simp [hlt]
    | some v =>
      obtain ⟨hv, hname⟩ := (child_eq_some hnodup).mp hchild
      obtain ⟨q, u, ⟨hq, hu, hmax⟩, hgood, hbad⟩ := ih (h.of_mem hv) hrest
      refine ⟨c :: q, u, ⟨cons_prefix_cons.mpr ⟨rfl, hq⟩, ⟨v, hv, hname, hu⟩, ?_⟩, ?_⟩
      · intro q' u' hq' hu'
        cases q' with
        | nil => exact Nat.zero_le _
        | cons d q' =>
          obtain ⟨w, hw, hname', hu'⟩ := hu'
          obtain ⟨rfl, hrest'⟩ := cons_prefix_cons.mp hq'
          have hsame : some w = some v :=
            ((child_eq_some hnodup).mpr ⟨hw, hname'⟩).symm.trans hchild
          cases hsame
          exact Nat.succ_le_succ (hmax q' u' hrest' hu')
      · rw [length_cons, take_succ_cons, forall_mem_cons]
        by_cases hlt : c.length < 1000
        · rw [if_pos hlt]
          exact ⟨fun hall => hgood hall.2, fun hno => hbad fun hall => hno ⟨hlt, hall⟩⟩
        · rw [if_neg hlt]
          exact ⟨fun hall => absurd hall.1 hlt, fun _ => rfl⟩

end KernelOld.Vfs
