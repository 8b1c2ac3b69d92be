import KernelOld.Lib.DoublyLinked
import KernelOld.Lib.MachineWord

/-!
# The kernel's linked list

`src/util/list.c`. A list owns its nodes; the three fields of a node are functions of its address.
The address of a new node is an argument, and `none` stands for a null pointer or a chain without
end. `Holds l as xs` does not mention `cnt`, which `list_insert` leaves behind.
-/

namespace KernelOld.LinkedList
open DoublyLinked MachineWord Function List

variable {α : Type}

/-- `list_t`, with the nodes it owns. -/
structure ListT (α : Type) where
  head : ℕ
  tail : ℕ
  cnt : ℕ
  prev : ℕ → ℕ
  next : ℕ → ℕ
  val : ℕ → Option α

def listCreate : ListT α :=
  { head := 0, tail := 0, cnt := 0
    prev := fun _ => 0, next := fun _ => 0, val := fun _ => none }

def listPushBack (list : ListT α) (val : α) (node : ℕ) : ListT α :=
  if list.head = 0 ∧ list.tail = 0 then
    { head := node
      tail := node
      cnt := u32 (list.cnt + 1)
      prev := update list.prev node 0
      next := update list.next node 0
      val := update list.val node (some val) }
  else
    { head := list.head
      tail := node
      cnt := u32 (list.cnt + 1)
      prev := update list.prev node list.tail
      next := update (update list.next node 0) list.tail node
      val := update list.val node (some val) }

def listForeach (list : ListT α) : Option (List ℕ) := follow list.next (2 ^ 64) list.head

def listValues (list : ListT α) : Option (List α) := do
  let nodes ← listForeach list
  nodes.mapM list.val

def seek (idx : ℕ) : ℕ → List ℕ → ℕ
  | _, [] => 0
  | i, node :: rest => if i = idx then node else seek idx (u32 (i + 1)) rest

def listGet (list : ListT α) (idx : ℕ) : Option ℕ :=
  if list.cnt ≤ idx then some 0 else (listForeach list).map (seek idx 0)

/-- `back` is for `list_push_back` when `idx` is `cnt`; the source does not return after that call.
-/
def listInsert (list : ListT α) (val : α) (idx back new : ℕ) : Option (ListT α) := do
  let list := if idx = list.cnt then listPushBack list val back else list
  let node ← listGet list idx
  if node = 0 then none
  else
    let before := list.prev node
    let next := if before = 0 then list.next else update list.next before new
    some
      { head := if before = 0 then new else list.head
        tail := list.tail
        cnt := list.cnt
        prev := update (update list.prev new before) node new
        next := update next new node
        val := update list.val new (some val) }

/-- The list has the nodes `as`, linked both ways, with the values `xs`. -/
structure Holds (l : ListT α) (as : List ℕ) (xs : List α) : Prop where
  threaded : Threaded l.prev l.next as
  nodup : as.Nodup
  head_eq : l.head = as.headD 0
  tail_eq : l.tail = as.getLastD 0
  vals : as.map l.val = xs.map some

variable {l : ListT α} {as : List ℕ} {xs : List α}

variable {a node new : ℕ} {l₁ l₂ : List ℕ}

theorem holds_listCreate : Holds (listCreate : ListT α) [] [] :=
  ⟨threaded_nil, nodup_nil, rfl, rfl, rfl⟩

theorem Holds.length_eq (h : Holds l as xs) : as.length = xs.length := by
  simpa using congrArg List.length h.vals

theorem Holds.listForeach_eq (h : Holds l as xs) (hlen : as.length < 2 ^ 64) :
    listForeach l = some as := by
  have hall : Threaded l.prev l.next ([] ++ as) := h.threaded
  rw [listForeach, h.head_eq]
  exact hall.follow_eq hlen

theorem mapM_eq_some {f : ℕ → Option α} (h : as.map f = xs.map some) : as.mapM f = some xs := by
  induction as generalizing xs with
  | nil =>
    obtain rfl : xs = [] := by simpa using h.symm
    rfl
  | cons a as ih =>
    cases xs with
    | nil => simp at h
    | cons x xs =>
      obtain ⟨hx, hxs⟩ := List.cons.inj h
      rw [mapM_cons, hx, ih hxs]
      rfl

theorem exists_of_mem_mapM {f : ℕ → Option α} {x : α} (h : as.mapM f = some xs) (hx : x ∈ xs) :
    ∃ a, f a = some x := by
  induction as generalizing xs with
  | nil =>
    cases h
    cases hx
  | cons a as ih =>
    rw [mapM_cons] at h
    obtain ⟨y, hy, hrest⟩ := Option.bind_eq_some_iff.mp h
    obtain ⟨ys, hys, heq⟩ := Option.bind_eq_some_iff.mp hrest
    cases heq
    rcases mem_cons.mp hx with rfl | hx
    · exact ⟨a, hy⟩
    · exact ih hys hx

theorem Holds.listValues_eq (h : Holds l as xs) (hlen : as.length < 2 ^ 64) :
    listValues l = some xs := by
  rw [listValues, h.listForeach_eq hlen]
  exact mapM_eq_some h.vals

theorem map_update_middle {f : ℕ → Option α} {v : Option α} (ha : a ∉ l₁ ++ l₂) :
    (l₁ ++ a :: l₂).map (update f a v) = l₁.map f ++ v :: l₂.map f := by
  have hrest : ∀ b ∈ l₁ ++ l₂, update f a v b = f b := by
    intro b hb
    refine update_of_ne ?_ _ _
    rintro rfl
    exact ha hb
  rw [map_append, map_cons, update_self,
    map_congr_left fun b hb => hrest b (mem_append_left _ hb),
    map_congr_left fun b hb => hrest b (mem_append_right _ hb)]

theorem Holds.head_eq_zero (h : Holds l as xs) (hz : l.head = 0) : as = [] := by
  cases as with
  | nil => rfl
  | cons a as => exact absurd (h.head_eq.symm.trans hz) (h.threaded.ne_null a (by simp))

theorem listPushBack_cnt (l : ListT α) (v : α) (node : ℕ) :
    (listPushBack l v node).cnt = u32 (l.cnt + 1) := by
  rw [listPushBack]
  split <;> rfl

theorem listPushBack_val (l : ListT α) (v : α) (node : ℕ) :
    (listPushBack l v node).val = update l.val node (some v) := by
  rw [listPushBack]
  split <;> rfl

theorem Holds.listPushBack {v : α} (h : Holds l as xs) (hnode : node ≠ 0) (hnew : node ∉ as) :
    Holds (listPushBack l v node) (as ++ [node]) (xs ++ [v]) := by
  have hvals : (as ++ [node]).map (update l.val node (some v)) = (xs ++ [v]).map some := by
    rw [map_update_middle (by simpa using hnew), h.vals]
    simp
  have hnodup : (as ++ [node]).Nodup := by
    rw [(perm_append_singleton node as).nodup_iff]
    exact nodup_cons.mpr ⟨hnew, h.nodup⟩
  rw [LinkedList.listPushBack]
  by_cases hempty : l.head = 0 ∧ l.tail = 0
  · rw [if_pos hempty]
    obtain rfl := h.head_eq_zero hempty.1
    refine ⟨threaded_singleton hnode ?_ ?_, hnodup, rfl, rfl, hvals⟩
    · exact update_self ..
    · exact update_self ..
  · rw [if_neg hempty]
    have hne : as ≠ [] := by
      rintro rfl
      exact hempty ⟨h.head_eq, h.tail_eq⟩
    obtain ⟨front, last, rfl⟩ := (eq_nil_or_concat' as).resolve_left hne
    have htail : l.tail = last := by simpa using h.tail_eq
    rw [htail]
    refine ⟨h.threaded.pushBack h.nodup hnode hnew, hnodup, ?_, by simp, hvals⟩
    show l.head = _
    rw [h.head_eq]
    cases front <;> simp

theorem seek_eq {idx i : ℕ} {l r : List ℕ} (hi : i + l.length = idx) (hidx : idx < 2 ^ 32) :
    seek idx i (l ++ a :: r) = a := by
  induction l generalizing i with
  | nil => exact if_pos hi
  | cons b l ih =>
    rw [length_cons] at hi
    rw [cons_append, seek, if_neg (by omega), u32_of_lt (by omega)]
    exact ih (by omega)

theorem Holds.listGet_eq (h : Holds l (l₁ ++ a :: l₂) xs) (hlen : (l₁ ++ a :: l₂).length < 2 ^ 64)
    (hidx : l₁.length < l.cnt) (hcnt : l.cnt < 2 ^ 32) :
    listGet l l₁.length = some a := by
  rw [listGet, if_neg (by omega), h.listForeach_eq hlen, Option.map_some,
    seek_eq (by omega) (by omega)]

/-- Before an existing node `list_insert` threads the new node in, but `cnt` does not
change. -/
theorem Holds.listInsert {xs₁ xs₂ : List α} (h : Holds l (l₁ ++ a :: l₂) (xs₁ ++ xs₂)) (v : α)
    (back : ℕ) (hxs : xs₁.length = l₁.length) (hlen : (l₁ ++ a :: l₂).length < 2 ^ 64)
    (hidx : l₁.length < l.cnt) (hcnt : l.cnt < 2 ^ 32) (hnew0 : new ≠ 0)
    (hnew : new ∉ l₁ ++ a :: l₂) :
    ∃ l', listInsert l v l₁.length back new = some l' ∧
      Holds l' (l₁ ++ new :: a :: l₂) (xs₁ ++ v :: xs₂) ∧ l'.cnt = l.cnt := by
  have hget := h.listGet_eq hlen hidx hcnt
  have ha : a ≠ 0 := h.threaded.ne_null a (by simp)
  have hprev : l.prev a = l₁.getLastD 0 := h.threaded.neighbours.2
  rw [LinkedList.listInsert, if_neg (by omega)]
  simp only [hget, Option.bind_eq_bind, Option.bind_some, if_neg ha, hprev]
  refine ⟨_, rfl, ⟨h.threaded.insertBefore h.nodup hnew0 hnew, ?_, ?_, ?_, ?_⟩, rfl⟩
  · rw [nodup_middle]
    exact nodup_cons.mpr ⟨hnew, h.nodup⟩
  · show (if _ then new else l.head) = _
    rw [h.head_eq]
    cases l₁ with
    | nil => rfl
    | cons b l₁ =>
      have hb : (b :: l₁).getLastD 0 ≠ 0 := by
        rw [getLastD_cons]
        exact h.threaded.ne_null _ (mem_append_left _ getLastD_mem_cons)
      rw [if_neg hb]
      rfl
  · show l.tail = _
    rw [h.tail_eq]
    simp [getLastD_eq_getLast?, getLast?_append]
  · have hsplit : l₁.map l.val = xs₁.map some ∧ (a :: l₂).map l.val = xs₂.map some := by
      refine append_inj ?_ (by simp [hxs])
      rw [← map_append, ← map_append, h.vals]
    show (l₁ ++ new :: a :: l₂).map (update l.val new (some v)) = _
    rw [map_update_middle hnew, hsplit.1, hsplit.2]
    simp

theorem listInsert_cnt {v : α} {back : ℕ} (hne : (listPushBack l v back).cnt ≠ l.cnt) :
    listInsert l v l.cnt back new = listInsert (listPushBack l v back) v l.cnt back new := by
  rw [LinkedList.listInsert, LinkedList.listInsert, if_pos rfl, if_neg hne.symm]

theorem listInsert_of_cnt_lt {v : α} {idx back : ℕ} (hlt : l.cnt < idx) :
    listInsert l v idx back new = none := by
  rw [LinkedList.listInsert, if_neg (Nat.ne_of_gt hlt), listGet, if_pos hlt.le]
  rfl

/-! A list from which nodes are also freed. A freed node has no value. -/

/-- `list_push_back` where the tail may be null or freed; `none` stands for the write
through it. -/
def listPushBackLive (list : ListT α) (val : α) (node : ℕ) : Option (ListT α) :=
  if (list.head = 0 ∧ list.tail = 0) ∨ (list.val list.tail).isSome then
    some (listPushBack list val node)
  else none

/-- `list_pop_back`, which returns nothing when `cnt` is zero. It never changes `head`. -/
def listPopBack (list : ListT α) : Option (ListT α × Option α) :=
  if list.cnt = 0 then some (list, none)
  else do
    let node := list.tail
    let val ← list.val node
    let tail := list.prev node
    if tail ≠ 0 ∧ (list.val tail).isNone then none
    else
      some
        ({ list with
            tail := tail
            cnt := list.cnt - 1
            next := if tail = 0 then list.next else update list.next tail 0
            val := update list.val node none },
          some val)

theorem listPopBack_val {l l' : ListT α} {v : Option α} (h : listPopBack l = some (l', v)) {x : α}
    (hx : l'.val a = some x) : l.val a = some x := by
  rw [listPopBack] at h
  split_ifs at h
  · cases h
    exact hx
  · obtain ⟨val, -, hrest⟩ := Option.bind_eq_some_iff.mp h
    obtain ⟨-, heq⟩ := Option.ite_none_left_eq_some.mp hrest
    cases heq
    have hx : update l.val l.tail none a = some x := hx
    by_cases ha : a = l.tail
    · rw [ha, update_self] at hx
      cases hx
    · rwa [update_of_ne ha] at hx

def popAll : ℕ → ListT α → Option (ListT α)
  | 0, list => some list
  | cnt + 1, list => do
    let (list, _) ← listPopBack list
    popAll cnt list

/-- The list consists of the nodes `as`, and no others are allocated for it. -/
structure Owns (l : ListT α) (as : List ℕ) (xs : List α) : Prop extends Holds l as xs where
  free : ∀ a ∉ as, l.val a = none
  cnt_eq : l.cnt = as.length

structure Hollow (l : ListT α) : Prop where
  head_ne : l.head ≠ 0
  tail_eq : l.tail = 0
  cnt_eq : l.cnt = 0
  free : ∀ a, l.val a = none

theorem owns_listCreate : Owns (listCreate : ListT α) [] [] :=
  ⟨holds_listCreate, fun _ _ => rfl, rfl⟩

theorem Holds.val_isSome (h : Holds l as xs) (ha : a ∈ as) : (l.val a).isSome := by
  have hmem : l.val a ∈ xs.map some := h.vals ▸ mem_map_of_mem ha
  obtain ⟨x, -, hx⟩ := mem_map.mp hmem
  rw [← hx]
  rfl

theorem Owns.notMem_of_free (h : Owns l as xs) (hfree : l.val a = none) : a ∉ as := by
  intro hmem
  have hsome := h.val_isSome hmem
  rw [hfree] at hsome
  cases hsome

theorem Owns.not_isNone (h : Owns l as xs) (ha : a ≠ 0 → a ∈ as) :
    ¬(a ≠ 0 ∧ (l.val a).isNone) := by
  rintro ⟨hne, hnone⟩
  exact h.notMem_of_free (Option.isNone_iff_eq_none.mp hnone) (ha hne)

theorem Owns.unlink {xs₁ xs₂ : List α} {v : α} (h : Owns l (l₁ ++ a :: l₂) (xs₁ ++ v :: xs₂))
    (hlen : l₁.length = xs₁.length) :
    Owns
      { head := (l₁ ++ l₂).headD 0
        tail := (l₁ ++ l₂).getLastD 0
        cnt := l.cnt - 1
        prev := if l₂.headD 0 = 0 then l.prev else update l.prev (l₂.headD 0) (l₁.getLastD 0)
        next := if l₁.getLastD 0 = 0 then l.next else update l.next (l₁.getLastD 0) (l₂.headD 0)
        val := update l.val a none }
      (l₁ ++ l₂) (xs₁ ++ xs₂) := by
  obtain ⟨hnotMem, hnodup⟩ := nodup_cons.mp (nodup_middle.mp h.nodup)
  have hvals : l₁.map l.val = xs₁.map some ∧ (a :: l₂).map l.val = (v :: xs₂).map some := by
    refine append_inj ?_ (by simp [hlen])
    rw [← map_append, ← map_append, h.vals]
  refine ⟨⟨h.threaded.remove h.nodup, hnodup, rfl, rfl, ?_⟩, fun b hb => ?_, ?_⟩
  · have hkeep : (l₁ ++ l₂).map (update l.val a none) = (l₁ ++ l₂).map l.val := by
      refine map_congr_left fun b hb => update_of_ne ?_ _ _
      rintro rfl
      exact hnotMem hb
    rw [hkeep, map_append, map_append, hvals.1, (List.cons.inj hvals.2).2]
  · show update l.val a none b = none
    by_cases hba : b = a
    · rw [hba, update_self]
    · rw [update_of_ne hba]
      refine h.free b fun hmem => hb ?_
      simpa [hba] using hmem
  · show l.cnt - 1 = _
    rw [h.cnt_eq]
    simp

theorem Owns.tail_isSome (h : Owns l as xs) (hne : as ≠ []) : (l.val l.tail).isSome := by
  obtain ⟨front, last, rfl⟩ := (eq_nil_or_concat' as).resolve_left hne
  refine h.val_isSome ?_
  rw [h.tail_eq]
  simp

theorem Owns.listPushBackLive {v : α} (h : Owns l as xs) (hnode : node ≠ 0)
    (hfree : l.val node = none) (hlt : as.length + 1 < 2 ^ 32) :
    ∃ l', listPushBackLive l v node = some l' ∧ Owns l' (as ++ [node]) (xs ++ [v]) := by
  have hnew := h.notMem_of_free hfree
  have hlive : (l.head = 0 ∧ l.tail = 0) ∨ (l.val l.tail).isSome := by
    by_cases hne : as = []
    · left
      rw [h.head_eq, h.tail_eq, hne]
      exact ⟨rfl, rfl⟩
    · exact Or.inr (h.tail_isSome hne)
  refine ⟨listPushBack l v node, if_pos hlive, h.toHolds.listPushBack hnode hnew, ?_, ?_⟩
  · intro a ha
    rw [mem_append, mem_singleton, not_or] at ha
    have hval : (LinkedList.listPushBack l v node).val = update l.val node (some v) := by
      rw [LinkedList.listPushBack]
      split <;> rfl
    rw [hval, update_of_ne ha.2]
    exact h.free a ha.1
  · rw [listPushBack_cnt, h.cnt_eq, length_append, length_singleton, u32_of_lt hlt]

theorem Hollow.listPushBackLive {v : α} (h : Hollow l) :
    listPushBackLive l v node = none := by
  refine if_neg ?_
  rw [h.free]
  simp [h.head_ne]

theorem Owns.listPopBack {v : α} (h : Owns l (as ++ [a]) (xs ++ [v])) :
    ∃ l', listPopBack l = some (l', some v) ∧ (as = [] → Hollow l') ∧
      (as ≠ [] → Owns l' as xs) := by
  have htail : l.tail = a := by simpa using h.tail_eq
  have hprev : l.prev a = as.getLastD 0 := h.threaded.neighbours.2
  have hcnt : l.cnt = as.length + 1 := by simpa using h.cnt_eq
  have hvals : as.map l.val = xs.map some ∧ l.val a = some v := by simpa using h.vals
  have hlive : ¬(as.getLastD 0 ≠ 0 ∧ (l.val (as.getLastD 0)).isNone) :=
    h.not_isNone fun hne => mem_append_left _ (getLastD_mem hne)
  have hrest := h.unlink (by simpa using h.length_eq)
  rw [append_nil, append_nil] at hrest
  rw [LinkedList.listPopBack, if_neg (by omega)]
  simp only [htail, hvals.2, hprev, Option.bind_eq_bind, Option.bind_some, if_neg hlive]
  refine ⟨_, rfl, ?_, fun hne => ?_⟩
  · rintro rfl
    refine ⟨?_, rfl, ?_, fun b => hrest.free b not_mem_nil⟩
    · show l.head ≠ 0
      rw [h.head_eq]
      exact h.threaded.ne_null a (by simp)
    · show l.cnt - 1 = 0
      rw [hcnt]
      rfl
  · -- `head` is not written, and still right
    have hhead : l.head = as.headD 0 := by
      rw [h.head_eq]
      cases as with
      | nil => exact absurd rfl hne
      | cons b as => rfl
    rw [hhead]
    exact hrest

theorem Owns.popAll (h : Owns l as xs) : (popAll as.length l).isSome := by
  induction as using List.reverseRecOn generalizing l xs with
  | nil => rfl
  | append_singleton as a ih =>
    have hne : xs ≠ [] := by
      rintro rfl
      simpa using h.length_eq
    obtain ⟨ys, v, rfl⟩ := (eq_nil_or_concat' xs).resolve_left hne
    obtain ⟨l', hpop, -, howns⟩ := h.listPopBack
    rw [length_append, length_singleton, LinkedList.popAll, hpop]
    show (LinkedList.popAll as.length l').isSome
    by_cases has : as = []
    · rw [has]
      rfl
    · exact ih (howns has)

end KernelOld.LinkedList
