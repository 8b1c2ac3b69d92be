import KernelOld.Fs.Vfs.Mount
import KernelOld.Lib.HeapTrace
import KernelOld.Util.List

/-!
# The blocks of a path

`vfs_mkpath` and `vfs_destroy_path` of `fs/vfs/path.c`, with `strsplit` and the list functions, as
sequences of heap events, one for each access to a block. The nodes belong to their list. `kfree`
does not touch the contents of a block.
-/

namespace KernelOld.PathHeap
open HeapTrace LinkedList Strings MachineWord DoublyLinked Function List

structure Heap where
  log : List Event
  parts : ℕ → ℕ
  lists : ℕ → ListT ℕ
  strs : ℕ → Str

def Heap.empty : Heap := ⟨[], fun _ => 0, fun _ => LinkedList.listCreate, fun _ => []⟩

namespace Heap

variable (h : Heap)

def emit (es : List Event) : Heap := { h with log := h.log ++ es }

def setList (list : ℕ) (l : ListT ℕ) : Heap := { h with lists := update h.lists list l }

def setStr (ptr : ℕ) (str : Str) : Heap := { h with strs := update h.strs ptr str }

def setParts (path parts : ℕ) : Heap := { h with parts := update h.parts path parts }

end Heap

section
variable (new : List Event → ℕ)

def kmalloc (h : Heap) : Heap × ℕ := (h.emit [.alloc (new h.log)], new h.log)

def kfree (h : Heap) (ptr : ℕ) : Heap := h.emit [.free ptr]

def listCreate (h : Heap) : Heap × ℕ :=
  let (h, list) := kmalloc new h
  ((h.emit [.write list]).setList list LinkedList.listCreate, list)

def pushAccesses (l : ListT ℕ) (list node : ℕ) : List Event :=
  if l.head = 0 ∧ l.tail = 0 then [.read list, .write list, .write node]
  else [.read list, .read list, .write node, .write l.tail, .write list]

def listPushBack (h : Heap) (list val : ℕ) : Heap :=
  let (h, node) := kmalloc new h
  let l := h.lists list
  (h.emit (pushAccesses l list node)).setList list (LinkedList.listPushBack l val node)

def pushToken (token list : ℕ) (tok : Str) (h : Heap) : Heap :=
  let (h, ele) := kmalloc new (h.emit [.write token])
  listPushBack new ((h.emit [.read token, .write ele]).setStr ele tok) list ele

def splitLoop (str token list : ℕ) (c : UInt8) : Str → Str → Heap → Heap
  | tok, [], h =>
    let h := h.emit [.read str]
    if tok ≠ [] then pushToken new token list tok h else h
  | tok, b :: rest, h =>
    let h := h.emit [.read str]
    if b = c then
      if tok ≠ [] then splitLoop str token list c [] rest (pushToken new token list tok h)
      else splitLoop str token list c [] rest h
    else splitLoop str token list c (tok ++ [b]) rest (h.emit [.write token])

def strsplit (h : Heap) (str : ℕ) (c : UInt8) : Heap × ℕ :=
  let (h, list) := listCreate new h
  let (h, token) := kmalloc new (h.emit [.read str])
  let h := splitLoop new str token list c [] (h.strs str) h
  (kfree h token, list)

def vfsMkpath (h : Heap) (pathstr : Str) (workingDir : Option Str) : Heap × ℕ :=
  if pathstr = [slash] then
    let (h, path) := kmalloc new h
    let (h, parts) := listCreate new h
    ((h.emit [.write path]).setParts path parts, path)
  else
    let (h, abspath) := kmalloc new h
    let h := (h.emit [.write abspath]).setStr abspath (Vfs.abspathText pathstr workingDir)
    let (h, path) := kmalloc new h
    let (h, parts) := strsplit new h abspath slash
    (kfree ((h.emit [.write path]).setParts path parts) abspath, path)

end

def freeParts (list : ℕ) : ℕ → ℕ → Heap → Heap
  | 0, _, h => h
  | fuel + 1, part, h =>
    if part = 0 then h
    else freeParts list fuel ((h.lists list).next part) ((kfree h part).emit [.read part])

def popAccesses (list node tail : ℕ) : List Event :=
  [.read list, .read list, .read node, .write list] ++ (if tail = 0 then [] else [.write tail]) ++
    [.write list, .read node]

def listPopBack (h : Heap) (list : ℕ) : Heap :=
  let l := h.lists list
  if l.cnt = 0 then h.emit [.read list]
  else
    let node := l.tail
    let tail := l.prev node
    kfree ((h.emit (popAccesses list node tail)).setList list
      { l with
        tail := tail
        cnt := l.cnt - 1
        next := if tail = 0 then l.next else update l.next tail 0 }) node

def popBacks (list : ℕ) : ℕ → Heap → Heap
  | 0, h => h
  | cnt + 1, h => popBacks list cnt (listPopBack h list)

def listDestroy (h : Heap) (list : ℕ) : Heap :=
  kfree (popBacks list (h.lists list).cnt (h.emit [.read list])) list

def vfsDestroyPath (h : Heap) (path : ℕ) : Heap :=
  let list := h.parts path
  let h := freeParts list (2 ^ 64) (h.lists list).head (h.emit [.read path, .read list])
  kfree (listDestroy (h.emit [.read path]) (h.parts path)) path

def destroyLog (h : Heap) (path : ℕ) : List Event := (vfsDestroyPath { h with log := [] } path).log

variable {new : List Event → ℕ} {h : Heap} {base as : List ℕ} {pairs : List (ℕ × ℕ)}
  {toks : List Str} {tok text pathstr : Str} {workingDir : Option Str}
  {ptr path list str token : ℕ} {e : Event}

/-! ## What `vfs_mkpath` leaves -/

def own (pairs : List (ℕ × ℕ)) : List ℕ := pairs.flatMap fun p => [p.1, p.2]

variable {parts : List Str}

theorem own_concat (pairs : List (ℕ × ℕ)) (p : ℕ × ℕ) :
    own (pairs ++ [p]) = own pairs ++ [p.1] ++ [p.2] := by
  simp [own]

structure Split (h : Heap) (list : ℕ) (base : List ℕ) (pairs : List (ℕ × ℕ)) (toks : List Str) :
    Prop where
  making : Making h.log (base ++ own pairs)
  holds : Holds (h.lists list) (pairs.map Prod.snd) (pairs.map Prod.fst)
  cnt_eq : (h.lists list).cnt = u32 pairs.length
  strs_eq : pairs.map (fun p => h.strs p.1) = toks

theorem mem_own_of_node (h : ptr ∈ pairs.map Prod.snd) : ptr ∈ own pairs := by
  obtain ⟨p, hp, rfl⟩ := mem_map.mp h
  exact mem_flatMap.mpr ⟨p, hp, by simp⟩

theorem mem_own_of_str (h : ptr ∈ pairs.map Prod.fst) : ptr ∈ own pairs := by
  obtain ⟨p, hp, rfl⟩ := mem_map.mp h
  exact mem_flatMap.mpr ⟨p, hp, by simp⟩

theorem pushAccesses_isAccess (l : ListT ℕ) (list node : ℕ) :
    ∀ e ∈ pushAccesses l list node, e.IsAccess := by
  rw [pushAccesses]
  split
  · simp [Event.IsAccess]
  · simp [Event.IsAccess]

theorem Split.access (hs : Split h list base pairs toks) (he : e.IsAccess) :
    Split (h.emit [e]) list base pairs toks :=
  ⟨hs.making.access he, hs.holds, hs.cnt_eq, hs.strs_eq⟩

theorem Split.pushToken (hnew : Allocates new) (hs : Split h list base pairs toks)
    (token : ℕ) (tok : Str) :
    ∃ p, Split (pushToken new token list tok h) list base (pairs ++ [p]) (toks ++ [tok]) := by
  have htoken : Making (h.log ++ [Event.write token]) (base ++ own pairs) :=
    hs.making.access trivial
  generalize hele : new (h.log ++ [Event.write token]) = ele
  have hstr : Making
      (h.log ++ [Event.write token] ++ [Event.alloc ele] ++ [Event.read token, .write ele])
      (base ++ own pairs ++ [ele]) := by
    rw [← hele]
    exact (htoken.alloc hnew).accesses _ (by simp [Event.IsAccess])
  generalize hlog :
    h.log ++ [Event.write token] ++ [Event.alloc ele] ++ [Event.read token, .write ele] = log
    at hstr
  have hfresh : ele ∉ base ++ own pairs := hele ▸ htoken.new_notMem hnew
  have hnode := hstr.new_notMem hnew
  have heq : PathHeap.pushToken new token list tok h =
      { log := log ++ [Event.alloc (new log)] ++ pushAccesses (h.lists list) list (new log)
        parts := h.parts
        lists := update h.lists list (LinkedList.listPushBack (h.lists list) ele (new log))
        strs := update h.strs ele tok } := by
    rw [← hlog, ← hele]
    rfl
  rw [heq]
  refine ⟨(ele, new log), ?_, ?_, ?_, ?_⟩
  · have hkept : base ++ own (pairs ++ [(ele, new log)]) =
        base ++ own pairs ++ [ele] ++ [new log] := by
      rw [own_concat]
      simp
    rw [hkept]
    exact (hstr.alloc hnew).accesses _ (pushAccesses_isAccess _ _ _)
  · have hnew' : new log ∉ pairs.map Prod.snd := fun hmem =>
      hnode (by simp [mem_own_of_node hmem])
    show Holds (update h.lists list _ list) _ _
    rw [update_self, map_append, map_append]
    exact hs.holds.listPushBack (hnew log).1 hnew'
  · show (update h.lists list _ list).cnt = _
    rw [update_self, listPushBack_cnt, hs.cnt_eq, length_append, length_singleton, u32,
      u32, u32, Nat.mod_add_mod]
  · have hkeep : pairs.map (fun p => update h.strs ele tok p.1) = toks := by
      rw [← hs.strs_eq]
      refine map_congr_left fun p hp => update_of_ne ?_ _ _
      rintro rfl
      exact hfresh (mem_append_right _ (mem_own_of_str (mem_map_of_mem hp)))
    rw [map_append, hkeep, map_singleton]
    show toks ++ [update h.strs ele tok ele] = _
    rw [update_self]

theorem Split.splitLoop (hnew : Allocates new) (hs : Split h list base pairs toks)
    (str token : ℕ) (c : UInt8) (tok text : Str) :
    ∃ pairs', Split (splitLoop new str token list c tok text h) list base pairs'
      (toks ++ Vfs.strsplitLoop c tok text) := by
  induction text generalizing h pairs toks tok with
  | nil =>
    have hread : Split (h.emit [.read str]) list base pairs toks := hs.access trivial
    rw [PathHeap.splitLoop, Vfs.strsplitLoop]
    by_cases htok : tok ≠ []
    · rw [if_pos htok, if_pos htok]
      obtain ⟨p, hpush⟩ := hread.pushToken hnew token tok
      exact ⟨pairs ++ [p], hpush⟩
    · rw [if_neg htok, if_neg htok, append_nil]
      exact ⟨pairs, hread⟩
  | cons b text ih =>
    have hread : Split (h.emit [.read str]) list base pairs toks := hs.access trivial
    rw [PathHeap.splitLoop, Vfs.strsplitLoop]
    by_cases hb : b = c
    · rw [if_pos hb, if_pos hb]
      by_cases htok : tok ≠ []
      · rw [if_pos htok, if_pos htok]
        obtain ⟨p, hpush⟩ := hread.pushToken hnew token tok
        rw [append_cons]
        exact ih hpush []
      · rw [if_neg htok, if_neg htok]
        exact ih hread []
    · rw [if_neg hb, if_neg hb]
      have hwrite : Split ((h.emit [.read str]).emit [.write token]) list base pairs toks :=
        hread.access trivial
      exact ih hwrite (tok ++ [b])

/-- What `vfs_mkpath` leaves: the path, its list, and a string and a node for each component. -/
structure Made (h : Heap) (path : ℕ) (pairs : List (ℕ × ℕ)) (parts : List Str) : Prop where
  blocks_eq : blocks h.log = path :: h.parts path :: own pairs
  nodup : (path :: h.parts path :: own pairs).Nodup
  kept : ∀ ptr ∈ path :: h.parts path :: own pairs, ptr ∉ released h.log
  reads : ReadsLive h.log
  holds : Holds (h.lists (h.parts path)) (pairs.map Prod.snd) (pairs.map Prod.fst)
  cnt_eq : (h.lists (h.parts path)).cnt = u32 pairs.length
  strs_eq : pairs.map (fun p => h.strs p.1) = parts

theorem Split.made {abspath : ℕ} (hs : Split h list [abspath, path, list, token] pairs toks) :
    Made (kfree (((kfree h token).emit [.write path]).setParts path list) abspath) path pairs
      toks := by
  have hparts : update h.parts path list path = list := update_self ..
  have hall : ([abspath, path, list] ++ token :: own pairs).Nodup := hs.making.nodup
  have htoken : token ∉ [abspath, path, list] ++ own pairs :=
    (nodup_cons.mp (nodup_middle.mp hall)).1
  have hrest : ([] ++ abspath :: ([path, list] ++ own pairs)).Nodup :=
    (nodup_cons.mp (nodup_middle.mp hall)).2
  have habspath : abspath ∉ path :: list :: own pairs := (nodup_cons.mp hrest).1
  have hreleased :
      released (h.log ++ [Event.free token] ++ [Event.write path] ++ [Event.free abspath]) =
        [abspath, token] := by
    rw [released_concat, released_concat, released_concat, hs.making.released_eq]
    rfl
  refine ⟨?_, ?_, ?_, ?_, ?_, ?_, hs.strs_eq⟩
  all_goals simp only [kfree, Heap.emit, Heap.setParts, hparts]
  · have hblocks : blocks h.log = [abspath, path, list] ++ token :: own pairs :=
      hs.making.blocks_eq
    have hfree : blocks (h.log ++ [Event.free token] ++ [Event.write path]) =
        [] ++ abspath :: ([path, list] ++ own pairs) := by
      have hfirst := blocks_free hblocks hall
      rw [blocks_concat]
      exact hfirst
    exact blocks_free hfree hrest
  · exact (nodup_cons.mp hrest).2
  · intro ptr hptr
    rw [hreleased, mem_cons, mem_singleton, not_or]
    refine ⟨?_, ?_⟩
    · rintro rfl
      exact habspath hptr
    · rintro rfl
      exact htoken (mem_cons_of_mem abspath hptr)
  · have hreads : ReadsLive (h.log ++ [Event.free token]) := hs.making.reads.concat nofun
    have hreads' : ReadsLive (h.log ++ [Event.free token] ++ [Event.write path]) :=
      hreads.concat nofun
    exact hreads'.concat nofun
  · exact hs.holds
  · exact hs.cnt_eq

theorem split_listCreate (hm : Making h.log base) (hlist : h.lists list = LinkedList.listCreate) :
    Split h list base [] [] := by
  refine ⟨?_, ?_, ?_, rfl⟩
  · rw [own, flatMap_nil, append_nil]
    exact hm
  · rw [hlist]
    exact holds_listCreate
  · rw [hlist]
    rfl

theorem split_strsplit (hnew : Allocates new) {abspath : ℕ} (c : UInt8)
    (hm : Making h.log [abspath, path]) (htext : h.strs abspath = text) :
    ∃ h' list token pairs, strsplit new h abspath c = (kfree h' token, list) ∧
      Split h' list [abspath, path, list, token] pairs (Vfs.components text c) := by
  have hlist := (hm.alloc hnew).accesses [.write (new h.log), .read abspath]
    (by simp [Event.IsAccess])
  have htoken := hlist.alloc hnew
  have hstart : Split (kmalloc new ((listCreate new h).1.emit [.read abspath])).1 (new h.log)
      [abspath, path, new h.log, (kmalloc new ((listCreate new h).1.emit [.read abspath])).2]
      [] [] := by
    refine split_listCreate ?_ ?_
    · simpa [kmalloc, listCreate, Heap.emit, Heap.setList] using htoken
    · exact update_self ..
  obtain ⟨pairs, hs⟩ := hstart.splitLoop hnew abspath
    (kmalloc new ((listCreate new h).1.emit [.read abspath])).2 c [] text
  refine ⟨_, _, _, pairs, ?_, hs⟩
  rw [← htext]
  rfl

theorem made_vfsMkpath (hnew : Allocates new) (pathstr : Str) (workingDir : Option Str) :
    ∃ pairs, Made (vfsMkpath new Heap.empty pathstr workingDir).1
      (vfsMkpath new Heap.empty pathstr workingDir).2 pairs
      (Vfs.components (Vfs.abspathText pathstr workingDir) slash) := by
  by_cases hroot : pathstr = [slash]
  · have hnil : Vfs.components (Vfs.abspathText pathstr workingDir) slash = [] := by
      rw [hroot]
      cases workingDir <;> rfl
    rw [vfsMkpath, if_pos hroot, hnil]
    have hpath : Making [.alloc (new [])] [new []] := making_nil.alloc hnew
    generalize hp : new [] = path at hpath
    have hlist := (hpath.alloc hnew)
    generalize hl : new [.alloc path] = list at hlist
    have hm := hlist.accesses [.write list, .write path] (by simp [Event.IsAccess])
    refine ⟨[], ?_⟩
    simp only [kmalloc, listCreate, Heap.emit, Heap.empty, Heap.setList, Heap.setParts,
      nil_append, hp, hl]
    refine ⟨?_, ?_, ?_, ?_, ?_, ?_, rfl⟩
    all_goals simp only [update_self]
    · exact hm.blocks_eq
    · exact hm.nodup
    · intro ptr _
      show ptr ∉ released
        ([Event.alloc path] ++ [Event.alloc list] ++ [Event.write list, .write path])
      rw [hm.released_eq]
      exact not_mem_nil
    · exact hm.reads
    · exact holds_listCreate
    · rfl
  · rw [vfsMkpath, if_neg hroot]
    have habspath := (making_nil.alloc hnew).access (e := .write (new [])) trivial
    have hpath := habspath.alloc hnew
    have htext : (kmalloc new (((kmalloc new Heap.empty).1.emit
        [.write (kmalloc new Heap.empty).2]).setStr (kmalloc new Heap.empty).2
          (Vfs.abspathText pathstr workingDir))).1.strs (new []) =
            Vfs.abspathText pathstr workingDir :=
      update_self ..
    obtain ⟨h', list, token, pairs, heq, hs⟩ := split_strsplit hnew slash hpath htext
    refine ⟨pairs, ?_⟩
    dsimp only
    rw [show (kmalloc new Heap.empty).2 = new [] from rfl] at heq ⊢
    rw [heq]
    exact hs.made

/-! ## What `vfs_destroy_path` does to it -/

theorem freeParts_zero (list fuel : ℕ) (h : Heap) : freeParts list fuel 0 h = h := by
  cases fuel with
  | zero => rfl
  | succ fuel => exact if_pos rfl

theorem prefix_freeParts (list fuel part : ℕ) (h : Heap) :
    h.log <+: (freeParts list fuel part h).log := by
  induction fuel generalizing part h with
  | zero => exact prefix_rfl
  | succ fuel ih =>
    rw [freeParts]
    split
    · exact prefix_rfl
    · refine List.IsPrefix.trans ?_ (ih _ _)
      exact (prefix_append _ _).trans (prefix_append _ _)

theorem prefix_listPopBack (list : ℕ) (h : Heap) : h.log <+: (listPopBack h list).log := by
  rw [listPopBack]
  dsimp only
  split
  · exact prefix_append _ _
  · exact (prefix_append _ _).trans (prefix_append _ _)

theorem prefix_popBacks (list cnt : ℕ) (h : Heap) : h.log <+: (popBacks list cnt h).log := by
  induction cnt generalizing h with
  | zero => exact prefix_rfl
  | succ cnt ih => exact (prefix_listPopBack list h).trans (ih _)

theorem prefix_vfsDestroyPath (h : Heap) (path : ℕ) :
    (freeParts (h.parts path) (2 ^ 64) (h.lists (h.parts path)).head
      (h.emit [.read path, .read (h.parts path)])).log <+: (vfsDestroyPath h path).log := by
  rw [vfsDestroyPath, listDestroy]
  generalize freeParts (h.parts path) (2 ^ 64) _ _ = h₁
  refine List.IsPrefix.trans ?_ ((prefix_popBacks _ _ _).trans
    ((prefix_append _ _).trans (prefix_append _ _)))
  exact (prefix_append _ _).trans (prefix_append _ _)

theorem Made.reads_freed (hm : Made h path pairs parts) (hne : pairs ≠ []) :
    ∃ node r, destroyLog h path =
      [Event.read path, .read (h.parts path), .free node] ++ .read node :: r := by
  obtain ⟨⟨ele, node⟩, rest, rfl⟩ := exists_cons_of_ne_nil hne
  have hhead : (h.lists (h.parts path)).head = node := hm.holds.head_eq
  have hnode : node ≠ 0 := hm.holds.threaded.ne_null node (by simp)
  have hloop := prefix_vfsDestroyPath { h with log := [] } path
  rw [show (2 : ℕ) ^ 64 = 2 ^ 64 - 1 + 1 from rfl, hhead, freeParts, if_neg hnode] at hloop
  obtain ⟨r, hr⟩ := (prefix_freeParts _ _ _ _).trans hloop
  exact ⟨node, r, hr.symm⟩

theorem Made.destroyLog_eq (hm : Made h path [] parts) :
    destroyLog h path = [.read path, .read (h.parts path), .read path, .read (h.parts path),
      .free (h.parts path), .free path] := by
  have hhead : (h.lists (h.parts path)).head = 0 := hm.holds.head_eq
  have hcnt : (h.lists (h.parts path)).cnt = 0 := hm.cnt_eq
  rw [destroyLog, vfsDestroyPath]
  dsimp only
  rw [hhead, freeParts_zero, listDestroy]
  simp only [Heap.emit, kfree, hcnt, popBacks, nil_append, cons_append]

theorem Made.cleansUp_iff (hm : Made h path pairs parts) :
    CleansUp h.log (destroyLog h path) ↔ parts = [] := by
  have hparts : parts = [] ↔ pairs = [] := by
    rw [← hm.strs_eq, map_eq_nil_iff]
  rw [hparts]
  constructor
  · intro hclean
    by_contra hne
    obtain ⟨node, r, hlog⟩ := hm.reads_freed hne
    refine hclean.reads
      (h.log ++ [Event.read path, .read (h.parts path)] ++ [Event.free node]) node r
      (by simp [hlog]) ?_
    rw [released_concat]
    exact mem_cons_self
  · rintro rfl
    have hpath : path ∉ released h.log := hm.kept path (by simp)
    have hlist : h.parts path ∉ released h.log := hm.kept _ (by simp)
    have hne : path ≠ h.parts path := by
      have hnodup := (nodup_cons.mp hm.nodup).1
      exact fun heq => hnodup (heq ▸ mem_cons_self)
    rw [hm.destroyLog_eq]
    refine ⟨fun ptr => ?_, ?_⟩
    · rw [hm.blocks_eq]
      by_cases hp : ptr = path
      · subst hp
        simp [frees, hne.symm]
      · by_cases hl : ptr = h.parts path
        · simp [frees, hl, hne]
        · simp [frees, own, hp, hl, Ne.symm hp, Ne.symm hl]
    · have hreads : ReadsLive (h.log ++ [path, h.parts path, path, h.parts path].map .read) := by
        refine hm.reads.append_reads _ fun ptr hptr => ?_
        simp only [mem_cons, not_mem_nil, or_false] at hptr
        rcases hptr with rfl | rfl | rfl | rfl <;> assumption
      have hfrees := hreads.append_frees [h.parts path, path]
      rwa [append_assoc] at hfrees

/-- `vfs_destroy_path` frees what `vfs_mkpath` has left, once and before no further read of it,
exactly if the path has no components. -/
theorem vfsDestroyPath_cleansUp_iff (hnew : Allocates new) (pathstr : Str)
    (workingDir : Option Str) :
    CleansUp (vfsMkpath new Heap.empty pathstr workingDir).1.log
        (destroyLog (vfsMkpath new Heap.empty pathstr workingDir).1
          (vfsMkpath new Heap.empty pathstr workingDir).2) ↔
      Vfs.components (Vfs.abspathText pathstr workingDir) slash = [] := by
  obtain ⟨pairs, hm⟩ := made_vfsMkpath hnew pathstr workingDir
  exact hm.cleansUp_iff

/-- Two slashes. -/
theorem vfsDestroyPath_cleansUp_iff_slashes :
    CleansUp (vfsMkpath fresh Heap.empty [slash, slash] none).1.log
      (destroyLog (vfsMkpath fresh Heap.empty [slash, slash] none).1
        (vfsMkpath fresh Heap.empty [slash, slash] none).2) :=
  (vfsDestroyPath_cleansUp_iff allocates_fresh [slash, slash] none).mpr (by decide)

/-- The path `/a`. The path struct is at 2, the list at 4, the string at 16 and its node at 32. The
node is freed twice and read after that; the string is not freed. -/
theorem vfsDestroyPath_frees_node :
    blocks (vfsMkpath fresh Heap.empty [slash, 97] none).1.log = [2, 4, 16, 32] ∧
    frees (destroyLog (vfsMkpath fresh Heap.empty [slash, 97] none).1
      (vfsMkpath fresh Heap.empty [slash, 97] none).2) = [32, 32, 4, 2] ∧
    ¬CleansUp (vfsMkpath fresh Heap.empty [slash, 97] none).1.log
      (destroyLog (vfsMkpath fresh Heap.empty [slash, 97] none).1
        (vfsMkpath fresh Heap.empty [slash, 97] none).2) := by
  refine ⟨by decide +kernel, by decide +kernel, fun hclean => ?_⟩
  obtain ⟨pairs, hm⟩ := made_vfsMkpath allocates_fresh [slash, 97] none
  exact absurd (hm.cleansUp_iff.mp hclean) (by decide)

end KernelOld.PathHeap
