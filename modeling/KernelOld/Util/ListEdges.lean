import KernelOld.Util.Deque

/-!
# Inserting at an index and popping from the back

`list_insert` and `list_pop_back` of `src/util/list.c` on a list in good order, with any calls
that follow. Both go wrong.
-/

namespace KernelOld.LinkedList
open DoublyLinked MachineWord Function List

variable {α : Type} {l l' : ListT α} {as : List ℕ} {xs : List α} {back new idx : ℕ} {v x : α}

/-! ## `list_insert` -/

theorem insertIdx_append {β : Type} (l₁ l₂ : List β) (b : β) :
    (l₁ ++ l₂).insertIdx l₁.length b = l₁ ++ b :: l₂ := by
  induction l₁ with
  | nil => exact insertIdx_zero
  | cons c l₁ ih =>
    rw [cons_append, length_cons, insertIdx_succ_cons, ih]
    rfl

theorem Owns.listInsert_of_lt (h : Owns l as xs) (hlen : as.length < 2 ^ 32) (hidx : idx < l.cnt)
    (hnew : new ≠ 0) (hfree : l.val new = none) :
    ∃ l', listInsert l v idx back new = some l' ∧
      Holds l' (as.insertIdx idx new) (xs.insertIdx idx v) ∧ l'.cnt = xs.length := by
  have hcnt := h.cnt_eq
  have hsize := h.length_eq
  have hnotMem := h.notMem_of_free hfree
  obtain ⟨l₁, a, l₂, rfl, rfl⟩ : ∃ l₁ a l₂, as = l₁ ++ a :: l₂ ∧ l₁.length = idx :=
    ⟨as.take idx, as[idx], as.drop (idx + 1), by simp, by simp; omega⟩
  obtain ⟨xs₁, xs₂, rfl, hxs⟩ : ∃ xs₁ xs₂, xs = xs₁ ++ xs₂ ∧ xs₁.length = l₁.length :=
    ⟨xs.take l₁.length, xs.drop l₁.length, by simp, by simp; omega⟩
  obtain ⟨l', hinsert, hholds, hcnt'⟩ :=
    h.toHolds.listInsert v back hxs (by omega) hidx (by omega) hnew hnotMem
  refine ⟨l', hinsert, ?_, by omega⟩
  rw [insertIdx_append, ← hxs, insertIdx_append]
  exact hholds

theorem Owns.listInsert_at_cnt (h : Owns l as xs) (hlen : as.length + 1 < 2 ^ 32)
    (hback : back ≠ 0) (hnew : new ≠ 0) (hne : new ≠ back) (hfree_back : l.val back = none)
    (hfree_new : l.val new = none) :
    ∃ l', listInsert l v l.cnt back new = some l' ∧
      Holds l' (as ++ [new, back]) (xs ++ [v, v]) ∧ l'.cnt = xs.length + 1 := by
  have hcnt := h.cnt_eq
  have hsize := h.length_eq
  have hpushed := h.toHolds.listPushBack (v := v) hback (h.notMem_of_free hfree_back)
  have hcnt' : (listPushBack l v back).cnt = as.length + 1 := by
    rw [listPushBack_cnt, hcnt, u32_of_lt hlen]
  have hnotMem : new ∉ as ++ [back] := by
    rw [mem_append, mem_singleton, not_or]
    exact ⟨h.notMem_of_free hfree_new, hne⟩
  have hlength : (as ++ [back]).length < 2 ^ 64 := by
    rw [length_append, length_singleton]
    omega
  obtain ⟨l', hinsert, hholds, hcnt''⟩ :=
    hpushed.listInsert v back hsize.symm hlength (by omega) (by omega) hnew hnotMem
  refine ⟨l', ?_, hholds, by omega⟩
  rw [listInsert_cnt (by omega), hcnt]
  exact hinsert

theorem Owns.listInsert_full (h : Owns l as xs) (hlen : as.length + 1 = 2 ^ 32) :
    listInsert l v l.cnt back new = none := by
  have hcnt : (listPushBack l v back).cnt = 0 := by
    rw [listPushBack_cnt, h.cnt_eq, hlen]
    rfl
  have hpos : 0 < l.cnt := by
    rw [h.cnt_eq]
    omega
  rw [listInsert_cnt (by omega)]
  exact listInsert_of_cnt_lt (by omega)

/-- `list_insert` at an index up to `cnt` never gives the list with the value inserted there once.
Before the end `cnt` stays behind the chain; at the end there are two new elements, of which
one is counted. -/
theorem listInsert_never_inserts (h : Owns l as xs) (hlen : as.length < 2 ^ 32)
    (hidx : idx ≤ l.cnt) (hback : back ≠ 0) (hnew : new ≠ 0) (hne : new ≠ back)
    (hfree_back : l.val back = none) (hfree_new : l.val new = none) :
    (∀ l', listInsert l v idx back new = some l' → ¬Represents l' (xs.insertIdx idx v)) ∧
      (idx < l.cnt → ∃ l', listInsert l v idx back new = some l' ∧
        listValues l' = some (xs.insertIdx idx v) ∧ l'.cnt = xs.length) ∧
      (idx = l.cnt → xs.length + 1 < 2 ^ 32 → ∃ l', listInsert l v idx back new = some l' ∧
        listValues l' = some (xs ++ [v, v]) ∧ l'.cnt = xs.length + 1) := by
  have hcnt := h.cnt_eq
  have hsize := h.length_eq
  have hlt (hi : idx < l.cnt) : ∃ l', listInsert l v idx back new = some l' ∧
      listValues l' = some (xs.insertIdx idx v) ∧ l'.cnt = xs.length := by
    obtain ⟨l', hinsert, hholds, hcnt'⟩ := h.listInsert_of_lt hlen hi hnew hfree_new
    refine ⟨l', hinsert, hholds.listValues_eq ?_, hcnt'⟩
    have hle : (as.insertIdx idx new).length ≤ as.length + 1 := length_insertIdx_le_succ
    omega
  have hend (hi : idx = l.cnt) (hroom : xs.length + 1 < 2 ^ 32) :
      ∃ l', listInsert l v idx back new = some l' ∧
        listValues l' = some (xs ++ [v, v]) ∧ l'.cnt = xs.length + 1 := by
    obtain ⟨l', hinsert, hholds, hcnt'⟩ :=
      h.listInsert_at_cnt (by omega) hback hnew hne hfree_back hfree_new
    refine ⟨l', hi ▸ hinsert, hholds.listValues_eq ?_, hcnt'⟩
    rw [length_append]
    simp only [length_cons, length_nil]
    omega
  refine ⟨fun l' hinsert hrep => ?_, hlt, hend⟩
  have hlength : (xs.insertIdx idx v).length = xs.length + 1 := by
    rw [length_insertIdx, if_pos (by omega)]
  rcases hidx.lt_or_eq with hi | hi
  · -- the count is that of the old list
    obtain ⟨l₁, hinsert₁, -, hcnt₁⟩ := hlt hi
    cases hinsert.symm.trans hinsert₁
    have := hrep.cnt_eq
    omega
  · by_cases hroom : xs.length + 1 < 2 ^ 32
    · -- the values are one more
      obtain ⟨l₁, hinsert₁, hvalues, -⟩ := hend hi hroom
      cases hinsert.symm.trans hinsert₁
      have heq := congrArg List.length (Option.some.inj (hvalues.symm.trans hrep.forward))
      rw [length_append, hlength] at heq
      simp at heq
    · rw [hi, h.listInsert_full (by omega)] at hinsert
      cases hinsert

theorem exists_owns_singleton (v : α) :
    ∃ l : ListT α, Owns l [16] [v] ∧ ∀ a, a ≠ 16 → l.val a = none := by
  obtain ⟨l, -, howns⟩ :=
    owns_listCreate.listPushBackLive (v := v) (by decide : 16 ≠ 0) rfl (by decide)
  refine ⟨l, howns, fun a ha => howns.free a ?_⟩
  rw [nil_append, mem_singleton]
  exact ha

theorem listInsert_never_inserts_front : ∃ l : ListT ℕ, Owns l [16] [5] ∧
    ∀ l', listInsert l 7 0 32 48 = some l' → ¬Represents l' [7, 5] := by
  obtain ⟨l, howns, hfree⟩ := exists_owns_singleton 5
  have hnever := listInsert_never_inserts (v := 7) howns (by decide) (Nat.zero_le l.cnt)
    (by decide : 32 ≠ 0) (by decide : 48 ≠ 0) (by decide) (hfree 32 (by decide))
    (hfree 48 (by decide))
  exact ⟨l, howns, hnever.1⟩

/-- `list_insert(list, 7, 1)` on the list of 5. -/
theorem listInsert_inserts_twice : ∃ l l' : ListT ℕ, Represents l [5] ∧
    listInsert l 7 1 32 48 = some l' ∧ listValues l' = some [5, 7, 7] := by
  obtain ⟨l, howns, hfree⟩ := exists_owns_singleton 5
  have hinsert := howns.listInsert_at_cnt (v := 7) (by decide) (by decide : 32 ≠ 0)
    (by decide : 48 ≠ 0) (by decide) (hfree 32 (by decide)) (hfree 48 (by decide))
  rw [howns.cnt_eq] at hinsert
  obtain ⟨l', hinsert, hholds, -⟩ := hinsert
  exact ⟨l, l', howns.represents (by decide), hinsert, hholds.listValues_eq (by decide)⟩

/-! ## `list_pop_back` and what follows it -/

/-- Nothing is asked of `list_pop_front`: on an empty list it returns at once. -/
def Op.AtEnds (list : ListT α) (xs : List α) : Op α → Prop
  | .pushBack _ node | .pushFront _ node =>
    node ≠ 0 ∧ list.val node = none ∧ xs.length + 1 < 2 ^ 32
  | .popFront => True
  | .get _ | .remove _ => False

def Op.retAtEnds (xs : List α) : Op α → Ret α
  | .pushBack _ node | .pushFront _ node => .node node
  | .popFront => .value xs.head?
  | .get _ | .remove _ => .nothing

/-- The calls `ops` do to the list what they do to `xs`, without touching a null pointer or a freed
node. -/
def Usable : List (Op α) → ListT α → List α → Prop
  | [], l, xs => Represents l xs
  | op :: ops, l, xs => Represents l xs ∧ (op.AtEnds l xs →
      ∃ l', op.exec l = some (l', op.retAtEnds xs) ∧ Usable ops l' (op.apply xs))

theorem Owns.exec_atEnds (h : Owns l as xs) (hlen : as.length < 2 ^ 32) (op : Op α)
    (hop : op.AtEnds l xs) :
    ∃ l' as', op.exec l = some (l', op.retAtEnds xs) ∧ Owns l' as' (op.apply xs) ∧
      as'.length < 2 ^ 32 := by
  cases op with
  | pushBack val node =>
    obtain ⟨l', _, as', hexec, rfl, howns, hlen'⟩ := h.exec hlen (.pushBack val node) hop
    exact ⟨l', as', hexec, howns, hlen'⟩
  | pushFront val node =>
    obtain ⟨l', _, as', hexec, rfl, howns, hlen'⟩ := h.exec hlen (.pushFront val node) hop
    exact ⟨l', as', hexec, howns, hlen'⟩
  | popFront =>
    cases xs with
    | nil =>
      have hcnt : l.cnt = 0 := h.cnt_eq.trans h.length_eq
      refine ⟨l, as, ?_, h, hlen⟩
      rw [Op.exec, LinkedList.listPopFront, if_pos hcnt]
      rfl
    | cons y ys =>
      obtain ⟨l', ret, as', hexec, ⟨z, hz, hret⟩, howns, hlen'⟩ :=
        h.exec hlen .popFront (cons_ne_nil y ys)
      refine ⟨l', as', ?_, howns, hlen'⟩
      rw [hexec, hret, Op.retAtEnds, hz]
  | get idx => exact hop.elim
  | remove idx => exact hop.elim

theorem Owns.usable (h : Owns l as xs) (hlen : as.length < 2 ^ 32) (ops : List (Op α)) :
    Usable ops l xs := by
  induction ops generalizing l as xs with
  | nil => exact h.represents hlen
  | cons op ops ih =>
    refine ⟨h.represents hlen, fun hop => ?_⟩
    obtain ⟨l', as', hexec, howns, hlen'⟩ := h.exec_atEnds hlen op hop
    exact ⟨l', hexec, ih howns hlen'⟩

theorem Hollow.listPushFront {node : ℕ} (h : Hollow l) : listPushFront l v node = none := by
  rw [LinkedList.listPushFront, if_neg fun hnull => h.head_ne hnull.1, h.free]
  rfl

theorem Hollow.not_represents (h : Hollow l) : ¬Represents l [] := by
  intro hrep
  exact h.head_ne (hrep.head_iff.mpr rfl)

/-- `list_pop_back` returns the last value. It leaves the list of the others, which any calls can
go on with, if there are others; if not, every push that follows faults. -/
theorem listPopBack_usable_iff (h : Owns l as (xs ++ [x])) (hlen : as.length < 2 ^ 32) :
    ∃ l', listPopBack l = some (l', some x) ∧
      ((∀ ops : List (Op α), Usable ops l' xs) ↔ xs ≠ []) ∧
      (xs = [] → ∀ val node, listPushBackLive l' val node = none ∧
        listPushFront l' val node = none) := by
  have hne : as ≠ [] := by
    rintro rfl
    have := h.length_eq
    simp at this
  obtain ⟨front, a, rfl⟩ := (eq_nil_or_concat' as).resolve_left hne
  have hsize : front.length = xs.length := by simpa using h.length_eq
  have hnil : xs = [] ↔ front = [] := by
    rw [← length_eq_zero_iff, ← length_eq_zero_iff, hsize]
  obtain ⟨l', hpop, hhollow, howns⟩ := h.listPopBack
  refine ⟨l', hpop, ⟨fun husable hxs => ?_, fun hxs ops => ?_⟩, fun hxs val node => ?_⟩
  · have hrep : Represents l' xs := husable []
    rw [hxs] at hrep
    exact (hhollow (hnil.mp hxs)).not_represents hrep
  · refine (howns fun hfront => hxs (hnil.mpr hfront)).usable ?_ ops
    rw [length_append, length_singleton] at hlen
    omega
  · have hl' := hhollow (hnil.mp hxs)
    exact ⟨hl'.listPushBackLive, hl'.listPushFront⟩

theorem listPopBack_usable_two : ∃ l l' : ListT ℕ, Represents l [5, 7] ∧
    listPopBack l = some (l', some 7) ∧ ∀ ops : List (Op ℕ), Usable ops l' [5] := by
  obtain ⟨l₀, howns₀, hfree⟩ := exists_owns_singleton 5
  have hpush := howns₀.listPushBackLive (v := 7) (by decide : 32 ≠ 0) (hfree 32 (by decide))
  obtain ⟨l, -, howns⟩ := hpush (by decide)
  have hall : Owns l ([16] ++ [32]) ([5] ++ [7]) := howns
  obtain ⟨l', hpop, hiff, -⟩ := listPopBack_usable_iff hall (by decide)
  exact ⟨l, l', howns.represents (by decide), hpop, hiff.mpr (cons_ne_nil 5 [])⟩

/-- The list of 5, drained from the back. -/
theorem listPopBack_then_push_faults : ∃ l l' : ListT ℕ, Represents l [5] ∧
    listPopBack l = some (l', some 5) ∧ l'.head ≠ 0 ∧ listPushBackLive l' 7 32 = none := by
  obtain ⟨l, howns, -⟩ := exists_owns_singleton 5
  have hall : Owns l ([] ++ [16]) ([] ++ [5]) := howns
  obtain ⟨l', hpop, hhollow, -⟩ := hall.listPopBack
  have hl' := hhollow rfl
  exact ⟨l, l', howns.represents (by decide), hpop, hl'.head_ne, hl'.listPushBackLive⟩

end KernelOld.LinkedList
