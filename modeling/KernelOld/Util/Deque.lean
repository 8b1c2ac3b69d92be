import KernelOld.Util.List

/-!
# The kernel's list as a deque

`list_push_front`, `list_pop_front` and `list_remove` of `src/util/list.c`, and runs of these
together with `list_push_back` and `list_get`. `none` stands for a read or a write through a null
pointer or into a freed node.
-/

namespace KernelOld.LinkedList
open DoublyLinked MachineWord Function List

variable {α : Type}

def listPushFront (list : ListT α) (val : α) (node : ℕ) : Option (ListT α) :=
  if list.head = 0 ∧ list.tail = 0 then listPushBackLive list val node
  else if (list.val list.head).isSome then
    some
      { head := node
        tail := list.tail
        cnt := u32 (list.cnt + 1)
        prev := update (update list.prev node 0) list.head node
        next := update list.next node list.head
        val := update list.val node (some val) }
  else none

def listPopFront (list : ListT α) : Option (ListT α × Option α) :=
  if list.cnt = 0 then some (list, none)
  else do
    let node := list.head
    let val ← list.val node
    let head := list.next node
    if head ≠ 0 ∧ (list.val head).isNone then none
    else
      some
        ({ head := head
           tail := if head = 0 then 0 else list.tail
           cnt := list.cnt - 1
           prev := if head = 0 then list.prev else update list.prev head 0
           next := list.next
           val := update list.val node none },
          some val)

def listRemove (list : ListT α) (idx : ℕ) : Option (ListT α) := do
  let node ← listGet list idx
  let _ ← list.val node
  if list.prev node ≠ 0 ∧ (list.val (list.prev node)).isNone then none
  else
    let next :=
      if list.prev node = 0 then list.next else update list.next (list.prev node) (list.next node)
    if next node ≠ 0 ∧ (list.val (next node)).isNone then none
    else
      let prev :=
        if next node = 0 then list.prev else update list.prev (next node) (list.prev node)
      some
        { head := if node = list.head then next node else list.head
          tail := if node = list.tail then prev node else list.tail
          cnt := u32 (list.cnt + 2 ^ 32 - 1)
          prev := prev
          next := next
          val := update list.val node none }

variable {l l' : ListT α} {as l₁ l₂ : List ℕ} {xs : List α} {a idx node : ℕ} {v : α}

theorem headD_mem {as : List ℕ} (h : as.headD 0 ≠ 0) : as.headD 0 ∈ as := by
  cases as with
  | nil => exact absurd rfl h
  | cons a as => exact mem_cons_self

theorem Owns.listPushFront (h : Owns l as xs) (hnode : node ≠ 0) (hfree : l.val node = none)
    (hlt : as.length + 1 < 2 ^ 32) :
    ∃ l', listPushFront l v node = some l' ∧ Owns l' (node :: as) (v :: xs) := by
  have hnew := h.notMem_of_free hfree
  rw [LinkedList.listPushFront]
  cases as with
  | nil =>
    obtain rfl : xs = [] := length_eq_zero_iff.mp h.length_eq.symm
    rw [if_pos ⟨h.head_eq, h.tail_eq⟩]
    exact h.listPushBackLive hnode hfree hlt
  | cons a as =>
    have hhead : l.head = a := h.head_eq
    have ha : a ≠ 0 := h.threaded.ne_null a mem_cons_self
    have hlive : (l.val l.head).isSome := h.val_isSome (hhead ▸ mem_cons_self)
    have hempty : ¬(l.head = 0 ∧ l.tail = 0) := fun hnull => ha (hhead.symm.trans hnull.1)
    rw [if_neg hempty, if_pos hlive]
    refine ⟨_, rfl, ⟨?_, nodup_cons.mpr ⟨hnew, h.nodup⟩, rfl, ?_, ?_⟩, fun b hb => ?_, ?_⟩
    · have hthreaded : Threaded l.prev l.next ([] ++ a :: as) := h.threaded
      rw [hhead]
      exact hthreaded.insertBefore h.nodup hnode hnew
    · show l.tail = _
      rw [h.tail_eq, getLastD_cons, getLastD_cons, getLastD_cons]
    · have hmap := map_update_middle (f := l.val) (v := some v)
        (show node ∉ [] ++ a :: as from hnew)
      rw [h.vals] at hmap
      exact hmap
    · rw [mem_cons, not_or] at hb
      show update l.val node (some v) b = none
      rw [update_of_ne hb.1]
      exact h.free b hb.2
    · show u32 (l.cnt + 1) = _
      rw [h.cnt_eq, u32_of_lt hlt]
      rfl

theorem Owns.listPopFront (h : Owns l (a :: as) (v :: xs)) :
    ∃ l', listPopFront l = some (l', some v) ∧ Owns l' as xs := by
  have hhead : l.head = a := h.head_eq
  have hval : l.val a = some v := (List.cons.inj h.vals).1
  have hcnt : l.cnt = as.length + 1 := h.cnt_eq
  have hnext : l.next a = as.headD 0 := by
    have hthreaded : Threaded l.prev l.next ([] ++ a :: as) := h.threaded
    exact hthreaded.neighbours.1
  have hlive : ¬(as.headD 0 ≠ 0 ∧ (l.val (as.headD 0)).isNone) :=
    h.not_isNone fun hne => mem_cons_of_mem a (headD_mem hne)
  have htail : (if as.headD 0 = 0 then 0 else l.tail) = as.getLastD 0 := by
    cases as with
    | nil => rfl
    | cons b as =>
      have hb : b ≠ 0 := h.threaded.ne_null b (by simp)
      rw [h.tail_eq]
      exact if_neg hb
  have hall : Owns l ([] ++ a :: as) ([] ++ v :: xs) := h
  have hrest := hall.unlink rfl
  rw [LinkedList.listPopFront, if_neg (by omega)]
  simp only [hhead, hval, hnext, htail, Option.bind_eq_bind, Option.bind_some, if_neg hlive]
  exact ⟨_, rfl, hrest⟩

theorem Owns.listGet (h : Owns l as xs) (hlen : as.length < 2 ^ 32) (idx : ℕ) :
    listGet l idx = some (as.getD idx 0) := by
  have hcnt := h.cnt_eq
  by_cases hidx : idx < as.length
  · obtain ⟨l₁, a, l₂, rfl, rfl⟩ : ∃ l₁ a l₂, as = l₁ ++ a :: l₂ ∧ l₁.length = idx :=
      ⟨as.take idx, as[idx], as.drop (idx + 1), by simp, by simp [hidx.le]⟩
    rw [h.listGet_eq (by omega) (by omega) (by omega)]
    simp
  · rw [LinkedList.listGet, if_pos (by omega)]
    simp [Nat.le_of_not_lt hidx]

theorem ite_update_of_ne {f : ℕ → ℕ} {b c : ℕ} (h : b ≠ 0 → a ≠ b) :
    (if b = 0 then f else update f b c) a = f a := by
  split
  · rfl
  · rename_i hne
    exact update_of_ne (h hne) _ _

theorem Owns.head_remove (h : Owns l (l₁ ++ a :: l₂) xs) (hnotMem : a ∉ l₁ ++ l₂) :
    (if a = l.head then l₂.headD 0 else l.head) = (l₁ ++ l₂).headD 0 := by
  rw [h.head_eq]
  cases l₁ with
  | nil => exact if_pos rfl
  | cons b l₁ =>
    refine if_neg ?_
    rintro rfl
    exact hnotMem (by simp)

theorem Owns.tail_remove (h : Owns l (l₁ ++ a :: l₂) xs) (hnotMem : a ∉ l₁ ++ l₂) :
    (if a = l.tail then l₁.getLastD 0 else l.tail) = (l₁ ++ l₂).getLastD 0 := by
  rw [h.tail_eq]
  rcases eq_nil_or_concat' l₂ with rfl | ⟨l₂, b, rfl⟩
  · simp
  · have hlast : (l₁ ++ a :: (l₂ ++ [b])).getLastD 0 = b := by
      rw [← cons_append, ← append_assoc, getLastD_concat]
    rw [hlast, ← append_assoc, getLastD_concat]
    refine if_neg ?_
    rintro rfl
    exact hnotMem (by simp)

theorem Owns.listRemove (h : Owns l as xs) (hlen : as.length < 2 ^ 32) (hidx : idx < as.length) :
    ∃ l', listRemove l idx = some l' ∧ Owns l' (as.eraseIdx idx) (xs.eraseIdx idx) := by
  have hget := h.listGet hlen idx
  have hcnt := h.cnt_eq
  obtain ⟨l₁, a, l₂, rfl, rfl⟩ : ∃ l₁ a l₂, as = l₁ ++ a :: l₂ ∧ l₁.length = idx :=
    ⟨as.take idx, as[idx], as.drop (idx + 1), by simp, by simp [hidx.le]⟩
  have hxs : l₁.length < xs.length := h.length_eq ▸ hidx
  obtain ⟨xs₁, v, xs₂, rfl, hlen₁⟩ : ∃ xs₁ v xs₂, xs = xs₁ ++ v :: xs₂ ∧ xs₁.length = l₁.length :=
    ⟨xs.take l₁.length, xs[l₁.length], xs.drop (l₁.length + 1), by simp, by simp [hxs.le]⟩
  have hrest := h.unlink hlen₁.symm
  obtain ⟨hnext, hprev⟩ := h.threaded.neighbours
  have hnotMem : a ∉ l₁ ++ l₂ := (nodup_cons.mp (nodup_middle.mp h.nodup)).1
  obtain ⟨w, hval⟩ := Option.isSome_iff_exists.mp (h.val_isSome (a := a) (by simp))
  -- what the two neighbours are, if there are any
  have hleft : l₁.getLastD 0 ≠ 0 → l₁.getLastD 0 ∈ l₁ ++ l₂ := fun hne =>
    mem_append_left _ (getLastD_mem hne)
  have hright : l₂.headD 0 ≠ 0 → l₂.headD 0 ∈ l₁ ++ l₂ := fun hne =>
    mem_append_right _ (headD_mem hne)
  have hsub : ∀ b ∈ l₁ ++ l₂, b ∈ l₁ ++ a :: l₂ := fun b hb =>
    mem_append.mpr ((mem_append.mp hb).imp_right (mem_cons_of_mem a))
  have hne_left : l₁.getLastD 0 ≠ 0 → a ≠ l₁.getLastD 0 := fun hne heq =>
    hnotMem (heq ▸ hleft hne)
  have hne_right : l₂.headD 0 ≠ 0 → a ≠ l₂.headD 0 := fun hne heq => hnotMem (heq ▸ hright hne)
  have hbefore := h.not_isNone fun hne => hsub _ (hleft hne)
  have hafter := h.not_isNone fun hne => hsub _ (hright hne)
  have hnext' : (if l₁.getLastD 0 = 0 then l.next
      else update l.next (l₁.getLastD 0) (l₂.headD 0)) a = l₂.headD 0 :=
    (ite_update_of_ne hne_left).trans hnext
  have hprev' : (if l₂.headD 0 = 0 then l.prev
      else update l.prev (l₂.headD 0) (l₁.getLastD 0)) a = l₁.getLastD 0 :=
    (ite_update_of_ne hne_right).trans hprev
  have hdec : u32 (l.cnt + 2 ^ 32 - 1) = l.cnt - 1 := by
    rw [u32]
    omega
  have hgetD : (l₁ ++ a :: l₂).getD l₁.length 0 = a := by simp
  rw [eraseIdx_append_of_length_le (Nat.le_refl _), Nat.sub_self,
    eraseIdx_append_of_length_le hlen₁.le, hlen₁, Nat.sub_self]
  refine ⟨_, ?_, hrest⟩
  rw [LinkedList.listRemove, hget, hgetD]
  simp only [hval, hprev, hnext, hnext', hprev', h.head_remove hnotMem, h.tail_remove hnotMem,
    hdec, Option.bind_eq_bind, Option.bind_some, if_neg hbefore, if_neg hafter]

/-! ## Runs -/

inductive Op (α : Type)
  | pushBack (val : α) (node : ℕ)
  | pushFront (val : α) (node : ℕ)
  | popFront
  | get (idx : ℕ)
  | remove (idx : ℕ)

inductive Ret (α : Type)
  | node (ptr : ℕ)
  | value (val : Option α)
  | nothing

def Op.exec (list : ListT α) : Op α → Option (ListT α × Ret α)
  | .pushBack val node => (listPushBackLive list val node).map (·, .node node)
  | .pushFront val node => (listPushFront list val node).map (·, .node node)
  | .popFront => (listPopFront list).map fun (list, val) => (list, .value val)
  | .get idx => (listGet list idx).map (list, .node ·)
  | .remove idx => (listRemove list idx).map (·, .nothing)

def Op.apply (xs : List α) : Op α → List α
  | .pushBack val _ => xs ++ [val]
  | .pushFront val _ => val :: xs
  | .popFront => xs.tail
  | .get _ => xs
  | .remove idx => xs.eraseIdx idx

/-- A new node is not in use, and there are fewer than `2^32` elements. -/
def Op.Allowed (list : ListT α) (xs : List α) : Op α → Prop
  | .pushBack _ node | .pushFront _ node =>
    node ≠ 0 ∧ list.val node = none ∧ xs.length + 1 < 2 ^ 32
  | .popFront => xs ≠ []
  | .get idx => idx < 2 ^ 32
  | .remove idx => idx < list.cnt

/-- What the operation returns for a list with the values `xs`. -/
def Op.Returns (list : ListT α) (xs : List α) (ret : Ret α) : Op α → Prop
  | .pushBack _ node | .pushFront _ node => ret = .node node
  | .popFront => ∃ x, xs.head? = some x ∧ ret = .value (some x)
  | .get idx => ∃ nodes, listForeach list = some nodes ∧ nodes.map list.val = xs.map some ∧
      ret = .node (nodes.getD idx 0)
  | .remove _ => ret = .nothing

/-- The list and the values after the same allowed operations. -/
inductive Reaches : ListT α → List α → Prop
  | create : Reaches listCreate []
  | step {l l' : ListT α} {xs : List α} {ret : Ret α} (op : Op α) (h : Reaches l xs)
      (hallowed : op.Allowed l xs) (hexec : op.exec l = some (l', ret)) :
      Reaches l' (op.apply xs)

/-- The list has the values `xs`, read from either end, and counts them. -/
structure Represents (l : ListT α) (xs : List α) : Prop where
  forward : listValues l = some xs
  backward : (follow l.prev (2 ^ 64) l.tail).bind (·.mapM l.val) = some xs.reverse
  cnt_eq : l.cnt = xs.length
  head_iff : l.head = 0 ↔ xs = []
  tail_iff : l.tail = 0 ↔ xs = []

theorem Owns.represents (h : Owns l as xs) (hlen : as.length < 2 ^ 32) : Represents l xs where
  forward := h.listValues_eq (by omega)
  backward := by
    have hback : Threaded l.next l.prev ([] ++ as.reverse) := h.threaded.reverse
    have htail : l.tail = as.reverse.headD 0 := by
      rw [h.tail_eq, getLastD_eq_getLast?, headD_eq_head?_getD, head?_reverse]
    rw [htail, hback.follow_eq (by simp; omega), Option.bind_some]
    exact mapM_eq_some (by rw [map_reverse, h.vals, map_reverse])
  cnt_eq := h.cnt_eq.trans h.length_eq
  head_iff := by
    rw [← length_eq_zero_iff, ← h.length_eq, length_eq_zero_iff]
    refine ⟨h.head_eq_zero, ?_⟩
    rintro rfl
    exact h.head_eq
  tail_iff := by
    rw [← length_eq_zero_iff, ← h.length_eq, length_eq_zero_iff]
    constructor
    · intro hz
      by_contra hne
      have hsome := h.tail_isSome hne
      rw [hz, h.free 0 fun hmem => h.threaded.ne_null 0 hmem rfl] at hsome
      cases hsome
    · rintro rfl
      exact h.tail_eq

theorem Owns.exec (h : Owns l as xs) (hlen : as.length < 2 ^ 32) (op : Op α)
    (hallowed : op.Allowed l xs) :
    ∃ l' ret as', op.exec l = some (l', ret) ∧ op.Returns l xs ret ∧ Owns l' as' (op.apply xs) ∧
      as'.length < 2 ^ 32 := by
  have hsize := h.length_eq
  cases op with
  | pushBack val node =>
    obtain ⟨hnode, hfree, hlt⟩ := hallowed
    obtain ⟨l', hpush, howns⟩ := h.listPushBackLive (v := val) hnode hfree (by omega)
    refine ⟨l', .node node, as ++ [node], ?_, rfl, howns, ?_⟩
    · rw [Op.exec, hpush, Option.map_some]
    · rw [length_append, length_singleton]
      omega
  | pushFront val node =>
    obtain ⟨hnode, hfree, hlt⟩ := hallowed
    obtain ⟨l', hpush, howns⟩ := h.listPushFront (v := val) hnode hfree (by omega)
    refine ⟨l', .node node, node :: as, ?_, rfl, howns, ?_⟩
    · rw [Op.exec, hpush, Option.map_some]
    · rw [length_cons]
      omega
  | popFront =>
    obtain ⟨x, xs, rfl⟩ := exists_cons_of_ne_nil hallowed
    cases as with
    | nil => cases hsize
    | cons a as =>
      obtain ⟨l', hpop, howns⟩ := h.listPopFront
      refine ⟨l', .value (some x), as, ?_, ⟨x, rfl, rfl⟩, howns, Nat.lt_of_succ_lt hlen⟩
      rw [Op.exec, hpop, Option.map_some]
  | get idx =>
    refine ⟨l, .node (as.getD idx 0), as, ?_, ?_, h, hlen⟩
    · rw [Op.exec, h.listGet hlen, Option.map_some]
    · exact ⟨as, h.listForeach_eq (by omega), h.vals, rfl⟩
  | remove idx =>
    have hidx : idx < as.length := h.cnt_eq ▸ hallowed
    obtain ⟨l', hremove, howns⟩ := h.listRemove hlen hidx
    refine ⟨l', .nothing, as.eraseIdx idx, ?_, rfl, howns, ?_⟩
    · rw [Op.exec, hremove, Option.map_some]
    · have hle := length_eraseIdx_le as idx
      omega

theorem Reaches.owns (h : Reaches l xs) : ∃ as, Owns l as xs ∧ as.length < 2 ^ 32 := by
  induction h with
  | create => exact ⟨[], owns_listCreate, by decide⟩
  | step op _ hallowed hexec ih =>
    obtain ⟨as, howns, hlen⟩ := ih
    obtain ⟨l', ret, as', hexec', -, howns', hlen'⟩ := howns.exec hlen op hallowed
    rw [hexec] at hexec'
    cases hexec'
    exact ⟨as', howns', hlen'⟩

/-- After any operations on a new list, it is the sequence that they make, and every further
operation that is allowed does to it what it does to the sequence. -/
theorem list_is_deque (h : Reaches l xs) :
    Represents l xs ∧ ∀ op : Op α, op.Allowed l xs →
      ∃ l' ret, op.exec l = some (l', ret) ∧ op.Returns l xs ret ∧ Represents l' (op.apply xs) := by
  obtain ⟨as, howns, hlen⟩ := h.owns
  refine ⟨howns.represents hlen, fun op hallowed => ?_⟩
  obtain ⟨l', ret, as', hexec, hret, howns', hlen'⟩ := howns.exec hlen op hallowed
  exact ⟨l', ret, hexec, hret, howns'.represents hlen'⟩

/-- Two values, one put in at each end. -/
theorem list_is_deque_two : ∃ l : ListT ℕ, Reaches l [5, 7] ∧ Represents l [5, 7] := by
  have hback : Reaches _ [7] := .step (.pushBack 7 16) .create ⟨by decide, rfl, by decide⟩ rfl
  have hfront : Reaches _ [5, 7] := .step (.pushFront 5 32) hback ⟨by decide, rfl, by decide⟩ rfl
  exact ⟨_, hfront, (list_is_deque hfront).1⟩

end KernelOld.LinkedList
