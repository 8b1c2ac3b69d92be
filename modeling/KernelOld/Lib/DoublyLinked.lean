import Mathlib.Data.List.Chain
import Mathlib.Data.List.Nodup
import Mathlib.Logic.Function.Basic

/-!
# Null-terminated doubly linked lists

The two link fields are functions on node addresses, with `0` as the null pointer. The list is
bordered with two nulls (`Threaded`), so that one rule (`Threaded.replace`) covers adding a node and
taking nodes out at any position.
-/

namespace DoublyLinked
open Function List

variable {prev next prev' next' : ℕ → ℕ}

/-- `y` follows `x`. The null pointer has no fields of its own. -/
def Link (prev next : ℕ → ℕ) (x y : ℕ) : Prop :=
  (x ≠ 0 → next x = y) ∧ (y ≠ 0 → prev y = x)

/-- The nodes `as`, in this order, are a null-terminated doubly linked list. -/
structure Threaded (prev next : ℕ → ℕ) (as : List ℕ) : Prop where
  ne_null : ∀ a ∈ as, a ≠ 0
  links : List.IsChain (Link prev next) (0 :: (as ++ [0]))

variable {as l r : List ℕ} {a : ℕ}

/-- A chain of links reads `next` of every node but the last and `prev` of every
node but the first. -/
theorem isChain_link_congr (h : List.IsChain (Link prev next) as)
    (hn : ∀ x ∈ as.dropLast, x ≠ 0 → next' x = next x)
    (hp : ∀ y ∈ as.tail, y ≠ 0 → prev' y = prev y) :
    List.IsChain (Link prev' next') as := by
  induction as with
  | nil => exact .nil
  | cons a as ih =>
    cases as with
    | nil => exact .singleton a
    | cons b bs =>
      rw [isChain_cons_cons] at h ⊢
      obtain ⟨⟨hnext, hprev⟩, hrest⟩ := h
      refine ⟨⟨fun ha => ?_, fun hb => ?_⟩, ih hrest ?_ ?_⟩
      · rw [hn a (by simp) ha]
        exact hnext ha
      · rw [hp b (by simp) hb]
        exact hprev hb
      · intro x hx
        exact hn x (by simpa using Or.inr hx)
      · intro y hy
        exact hp y (by simpa using Or.inr hy)

/-- A bordered list splits at any position into two chains and the link between
them. -/
theorem isChain_border_append (l r : List ℕ) :
    List.IsChain (Link prev next) (0 :: ((l ++ r) ++ [0])) ↔
      List.IsChain (Link prev next) (0 :: l) ∧
        List.IsChain (Link prev next) (r ++ [0]) ∧
          Link prev next (l.getLastD 0) (r.headD 0) := by
  rw [append_assoc, ← cons_append, isChain_append]
  have hlast : (0 :: l).getLast? = some (l.getLastD 0) := by
    rw [getLast?_cons, getLastD_eq_getLast?]
  have hhead : (r ++ [0]).head? = some (r.headD 0) := by
    cases r <;> simp
  simp only [hlast, hhead, Option.mem_def, Option.some.injEq, forall_eq']

/-- The empty list is threaded whatever the links are. -/
theorem threaded_nil : Threaded prev next [] := by
  refine ⟨by simp, ?_⟩
  simp [Link]

theorem threaded_singleton (ha : a ≠ 0) (hprev : prev a = 0) (hnext : next a = 0) :
    Threaded prev next [a] := by
  refine ⟨by simpa using ha, ?_⟩
  rw [singleton_append, isChain_cons_cons, isChain_pair]
  exact ⟨⟨absurd rfl, fun _ => hprev⟩, ⟨fun _ => hnext, absurd rfl⟩⟩

/-- Inside a threaded list `next` and `prev` give the two neighbours. -/
theorem Threaded.neighbours (h : Threaded prev next (l ++ a :: r)) :
    next a = r.headD 0 ∧ prev a = l.getLastD 0 := by
  have ha : a ≠ 0 := h.ne_null a (by simp)
  obtain ⟨-, hr, hlink⟩ := (isChain_border_append l (a :: r)).mp h.links
  have hfirst : Link prev next a (r.headD 0) := by
    cases r with
    | nil => simpa using hr
    | cons b bs =>
      rw [cons_append, cons_append, isChain_cons_cons] at hr
      exact hr.1
  exact ⟨hfirst.1 ha, hlink.2 ha⟩

/-- Links that agree on the nodes thread the same list. -/
theorem Threaded.congr (h : Threaded prev next as) (hn : ∀ a ∈ as, next' a = next a)
    (hp : ∀ a ∈ as, prev' a = prev a) :
    Threaded prev' next' as := by
  refine ⟨h.ne_null, isChain_link_congr h.links ?_ ?_⟩
  · intro x hx hx0
    have hmem : x ∈ 0 :: as := by simpa [dropLast_cons_of_ne_nil] using hx
    exact hn x (by simpa [hx0] using hmem)
  · intro y hy hy0
    exact hp y (by simpa [hy0] using hy)

/-- Surgery on a threaded list: the nodes `old` between `l` and `r` give way to the
nodes `new`. Only the links from the last node of `l` to the first node of `r` are
new; all others are as before. -/
theorem Threaded.replace {old new : List ℕ} (h : Threaded prev next (l ++ old ++ r))
    (hnew : ∀ a ∈ new, a ≠ 0)
    (hlinks : List.IsChain (Link prev' next') (l.getLastD 0 :: (new ++ [r.headD 0])))
    (hn : ∀ x ∈ l.dropLast ++ r, next' x = next x) (hp : ∀ y ∈ l ++ r.tail, prev' y = prev y) :
    Threaded prev' next' (l ++ new ++ r) := by
  rw [append_assoc] at h
  obtain ⟨hleft, hrest, -⟩ := (isChain_border_append l (old ++ r)).mp h.links
  have hright : List.IsChain (Link prev next) (r ++ [0]) := by
    rw [append_assoc] at hrest
    exact hrest.right_of_append
  refine ⟨?_, ?_⟩
  · intro a ha
    simp only [mem_append] at ha
    rcases ha with (ha | ha) | ha
    · exact h.ne_null a (by simp [ha])
    · exact hnew a ha
    · exact h.ne_null a (by simp [ha])
  have hleft' : List.IsChain (Link prev' next') (0 :: l) := by
    refine isChain_link_congr hleft ?_ fun y hy _ => hp y (mem_append_left _ hy)
    intro x hx hx0
    refine hn x (mem_append_left _ ?_)
    cases l with
    | nil => simp at hx
    | cons b bs => simpa [hx0] using hx
  have hright' : List.IsChain (Link prev' next') (r ++ [0]) := by
    refine isChain_link_congr hright ?_ ?_
    · intro x hx _
      exact hn x (mem_append_right _ (by simpa using hx))
    · intro y hy hy0
      refine hp y (mem_append_right _ ?_)
      cases r with
      | nil => simp at hy
      | cons b bs => simpa [hy0] using hy
  -- The three chains overlap in the last node of `l` and the first node of `r`.
  have hlast : 0 :: l = (0 :: l).dropLast ++ [l.getLastD 0] := by
    have hne : 0 :: l ≠ [] := cons_ne_nil _ _
    rw [← dropLast_append_getLast hne]
    simp [getLast_eq_getLastD]
  have hhead : r ++ [0] = [r.headD 0] ++ (r ++ [0]).tail := by
    cases r <;> simp
  rw [hlast] at hleft'
  rw [hhead] at hright'
  have hlinks' : List.IsChain (Link prev' next') ([l.getLastD 0] ++ (new ++ [r.headD 0])) := by
    simpa using hlinks
  have hmid : List.IsChain (Link prev' next')
      (((0 :: l).dropLast ++ [l.getLastD 0] ++ new) ++ [r.headD 0]) := by
    simpa using hleft'.append_overlap hlinks' (by simp)
  have hall := hmid.append_overlap hright' (by simp)
  have hshape : 0 :: (l ++ new ++ r ++ [0]) =
      (0 :: l).dropLast ++ [l.getLastD 0] ++ new ++ [r.headD 0] ++ (r ++ [0]).tail := by
    rw [← hlast, append_assoc _ [r.headD 0], ← hhead]
    simp
  rw [hshape]
  exact hall

/-- A node `a` goes between `l` and `r`. -/
theorem Threaded.insert (h : Threaded prev next (l ++ r)) (ha : a ≠ 0)
    (hbefore : Link prev' next' (l.getLastD 0) a) (hafter : Link prev' next' a (r.headD 0))
    (hn : ∀ x ∈ l.dropLast ++ r, next' x = next x) (hp : ∀ y ∈ l ++ r.tail, prev' y = prev y) :
    Threaded prev' next' (l ++ a :: r) := by
  have h0 : Threaded prev next (l ++ [] ++ r) := by simpa using h
  have hlinks : List.IsChain (Link prev' next') (l.getLastD 0 :: ([a] ++ [r.headD 0])) := by
    rw [singleton_append, isChain_cons_cons, isChain_pair]
    exact ⟨hbefore, hafter⟩
  simpa using h0.replace (by simpa using ha) hlinks hn hp

theorem getLastD_mem (h : as.getLastD 0 ≠ 0) : as.getLastD 0 ∈ as := by
  rcases eq_nil_or_concat' as with rfl | ⟨front, last, rfl⟩
  · exact absurd rfl h
  · simp

/-- The last node of `l` is met once. -/
theorem ne_getLastD_of_nodup {x : ℕ} (h : (l ++ r).Nodup) (hx0 : x ≠ 0) (hx : x ∈ l.dropLast ++ r) :
    x ≠ l.getLastD 0 := by
  rcases eq_nil_or_concat' l with rfl | ⟨front, last, rfl⟩
  · exact hx0
  · rw [getLastD_concat]
    rw [dropLast_concat] at hx
    rintro rfl
    rw [append_assoc, singleton_append, nodup_middle] at h
    exact (nodup_cons.mp h).1 hx

/-- The stores that put a new node behind the last one. -/
theorem Threaded.pushBack {new : ℕ} (h : Threaded prev next (l ++ [a]))
    (hnodup : (l ++ [a]).Nodup) (hnew0 : new ≠ 0) (hnew : new ∉ l ++ [a]) :
    Threaded (update prev new a) (update (update next new 0) a new) (l ++ [a] ++ [new]) := by
  have hold : ∀ x ∈ l ++ [a], x ≠ new := fun x hx hxn => hnew (hxn ▸ hx)
  have h0 : Threaded prev next ((l ++ [a]) ++ []) := by simpa using h
  refine h0.insert hnew0 ?_ ⟨fun _ => ?_, absurd rfl⟩ (fun x hx => ?_) fun y hy => ?_
  · rw [getLastD_concat]
    exact ⟨fun _ => update_self .., fun _ => update_self ..⟩
  · rw [update_of_ne (hold a (by simp)).symm, update_self]
    rfl
  · have hxl : x ∈ l := by simpa using hx
    have hxa : x ≠ a := (nodup_append.mp hnodup).2.2 x hxl a (by simp)
    rw [update_of_ne hxa, update_of_ne (hold x (by simp [hxl]))]
  · exact update_of_ne (hold y (by simpa using hy)) _ _

/-- The stores that put a new node in front of `a`. The first node has no node before it. -/
theorem Threaded.insertBefore {new : ℕ} (h : Threaded prev next (l ++ a :: r))
    (hnodup : (l ++ a :: r).Nodup) (hnew0 : new ≠ 0) (hnew : new ∉ l ++ a :: r) :
    Threaded (update (update prev new (l.getLastD 0)) a new)
      (update (if l.getLastD 0 = 0 then next else update next (l.getLastD 0) new) new a)
      (l ++ new :: a :: r) := by
  have hold : ∀ x ∈ l ++ a :: r, x ≠ new := fun x hx hxn => hnew (hxn ▸ hx)
  refine h.insert hnew0 ⟨fun hb => ?_, fun _ => ?_⟩ ⟨fun _ => ?_, fun _ => ?_⟩ (fun x hx => ?_)
    fun y hy => ?_
  · rw [if_neg hb, update_of_ne (hold _ (mem_append_left _ (getLastD_mem hb))), update_self]
  · rw [update_of_ne (hold a (by simp)).symm, update_self]
  · exact update_self ..
  · exact update_self ..
  · have hmem : x ∈ l ++ a :: r :=
      mem_append.mpr ((mem_append.mp hx).imp_left (dropLast_subset _ ·))
    rw [update_of_ne (hold x hmem)]
    split
    · rfl
    · exact update_of_ne (ne_getLastD_of_nodup hnodup (h.ne_null x hmem) hx) _ _
  · have hya : y ≠ a := by
      rintro rfl
      exact (nodup_cons.mp (nodup_middle.mp hnodup)).1 hy
    have hmem : y ∈ l ++ a :: r :=
      mem_append.mpr ((mem_append.mp hy).imp_right (mem_cons_of_mem a ·))
    rw [update_of_ne hya, update_of_ne (hold y hmem)]

/-- The first node of `r` is met once. -/
theorem ne_headD_of_nodup {y : ℕ} (h : (l ++ r).Nodup) (hy0 : y ≠ 0) (hy : y ∈ l ++ r.tail) :
    y ≠ r.headD 0 := by
  cases r with
  | nil => exact hy0
  | cons b r =>
    rintro rfl
    exact (nodup_cons.mp (nodup_middle.mp h)).1 hy

/-- The stores that take the node `a` out. Its own fields stay as they are. -/
theorem Threaded.remove (h : Threaded prev next (l ++ a :: r)) (hnodup : (l ++ a :: r).Nodup) :
    Threaded (if r.headD 0 = 0 then prev else update prev (r.headD 0) (l.getLastD 0))
      (if l.getLastD 0 = 0 then next else update next (l.getLastD 0) (r.headD 0)) (l ++ r) := by
  have hall : Threaded prev next (l ++ [a] ++ r) := by simpa using h
  have hrest : (l ++ r).Nodup := (nodup_cons.mp (nodup_middle.mp hnodup)).2
  have hmem : ∀ x ∈ l ++ r, x ≠ 0 := fun x hx =>
    h.ne_null x (mem_append.mpr ((mem_append.mp hx).imp_right (mem_cons_of_mem a ·)))
  have hcut : Threaded (if r.headD 0 = 0 then prev else update prev (r.headD 0) (l.getLastD 0))
      (if l.getLastD 0 = 0 then next else update next (l.getLastD 0) (r.headD 0))
      (l ++ [] ++ r) := by
    refine hall.replace (by simp) ?_ (fun x hx => ?_) fun y hy => ?_
    · rw [nil_append, isChain_pair]
      refine ⟨fun hl => ?_, fun hr => ?_⟩
      · rw [if_neg hl, update_self]
      · rw [if_neg hr, update_self]
    · split
      · rfl
      · have hx' : x ∈ l ++ r :=
          mem_append.mpr ((mem_append.mp hx).imp_left (dropLast_subset _ ·))
        exact update_of_ne (ne_getLastD_of_nodup hrest (hmem x hx') hx) _ _
    · split
      · rfl
      · have hy' : y ∈ l ++ r :=
          mem_append.mpr ((mem_append.mp hy).imp_right mem_of_mem_tail)
        exact update_of_ne (ne_headD_of_nodup hrest (hmem y hy') hy) _ _
  simpa using hcut

/-- Read from the other end, the two links change places. -/
theorem Threaded.reverse (h : Threaded prev next as) :
    Threaded next prev as.reverse := by
  refine ⟨fun a ha => h.ne_null a (mem_reverse.mp ha), ?_⟩
  have hshape : 0 :: (as.reverse ++ [0]) = (0 :: (as ++ [0])).reverse := by simp
  rw [hshape, isChain_reverse]
  exact h.links.imp fun x y hxy => ⟨hxy.2, hxy.1⟩

/-- The nodes met by following `next` from `a` to the null pointer, or `none` when
`fuel` steps do not reach it. -/
def follow (next : ℕ → ℕ) : ℕ → ℕ → Option (List ℕ)
  | 0, _ => none
  | fuel + 1, a => if a = 0 then some [] else (follow next fuel (next a)).map (a :: ·)

theorem Threaded.follow_eq {fuel : ℕ} (h : Threaded prev next (l ++ r)) (hfuel : r.length < fuel) :
    follow next fuel (r.headD 0) = some r := by
  induction r generalizing l fuel with
  | nil =>
    obtain ⟨fuel, rfl⟩ := Nat.exists_eq_succ_of_ne_zero (by omega : fuel ≠ 0)
    rfl
  | cons a r ih =>
    obtain ⟨fuel, rfl⟩ := Nat.exists_eq_succ_of_ne_zero (by omega : fuel ≠ 0)
    have ha : a ≠ 0 := h.ne_null a (by simp)
    have hr : Threaded prev next ((l ++ [a]) ++ r) := by simpa using h
    show (if a = 0 then some [] else (follow next fuel (next a)).map (a :: ·)) = _
    rw [if_neg ha, h.neighbours.1, ih hr (by simpa using hfuel), Option.map_some]

end DoublyLinked
