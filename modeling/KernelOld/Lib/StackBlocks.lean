import Mathlib.Data.List.Basic
import Mathlib.Algebra.Order.Group.Nat
import Mathlib.Algebra.Ring.Nat

/-!
# Blocks on a stack

A block is an address and what is written from there on. Blocks that are pushed on a stack that
grows downwards each end where the one before starts (`Descends`), so they do not meet.
-/

namespace StackBlocks

structure Block (β : Type*) where
  base : ℕ
  bytes : List β

variable {β : Type*} {x y : Block β} {xs ys : List (Block β)} {m : ℕ → Option β} {top v : ℕ}

namespace Block

def stop (x : Block β) : ℕ := x.base + x.bytes.length

def Covers (x : Block β) (v : ℕ) : Prop := x.base ≤ v ∧ v < x.stop

end Block

def write (m : ℕ → Option β) (x : Block β) : ℕ → Option β := fun v =>
  if x.base ≤ v ∧ v < x.stop then x.bytes[v - x.base]? else m v

/-- Every block ends where the one before starts. -/
def Descends : ℕ → List (Block β) → Prop
  | _, [] => True
  | top, x :: xs => x.stop = top ∧ Descends x.base xs

def bottom : ℕ → List (Block β) → ℕ
  | top, [] => top
  | _, x :: xs => bottom x.base xs

def total (xs : List (Block β)) : ℕ := (xs.map fun x => x.bytes.length).sum

theorem write_mk (m : ℕ → Option β) (a : ℕ) (bs : List β) (v : ℕ) :
    write m ⟨a, bs⟩ v = if a ≤ v ∧ v < a + bs.length then bs[v - a]? else m v := rfl

theorem write_of_not_covers (h : ¬x.Covers v) : write m x v = m v := if_neg h

theorem write_of_covers (h : x.Covers v) : write m x v = x.bytes[v - x.base]? := if_pos h

theorem write_nil (m : ℕ → Option β) (a : ℕ) : write m ⟨a, []⟩ = m := by
  funext v
  apply write_of_not_covers
  rintro ⟨hlo, hhi⟩
  exact Nat.not_lt.mpr hlo hhi

/-- A block is written element by element. -/
theorem write_cons (m : ℕ → Option β) (a : ℕ) (b : β) (bs : List β) :
    write m ⟨a, b :: bs⟩ = write (Function.update m a (some b)) ⟨a + 1, bs⟩ := by
  funext v
  rw [write_mk, write_mk, List.length_cons]
  rcases Nat.lt_trichotomy v a with hlt | rfl | hgt
  · rw [if_neg (by omega), if_neg (by omega), Function.update_of_ne (by omega)]
  · rw [if_pos (by omega), if_neg (by omega), Function.update_self, Nat.sub_self]
    rfl
  · rw [Function.update_of_ne (by omega)]
    by_cases hin : v < a + 1 + bs.length
    · rw [if_pos (by omega), if_pos (by omega), show v - a = v - (a + 1) + 1 by omega,
        List.getElem?_cons_succ]
    · rw [if_neg (by omega), if_neg (by omega)]

/-- What is there stays there. -/
theorem write_ne_none (h : m v ≠ none) : write m x v ≠ none := by
  by_cases hv : x.Covers v
  · obtain ⟨hlo, hhi⟩ := hv
    rw [write_of_covers ⟨hlo, hhi⟩]
    rw [Block.stop] at hhi
    simp only [ne_eq, List.getElem?_eq_none_iff]
    omega
  · rwa [write_of_not_covers hv]

theorem writes_of_not_covers (h : ∀ x ∈ xs, ¬x.Covers v) : xs.foldl write m v = m v := by
  induction xs generalizing m with
  | nil => rfl
  | cons y ys ih =>
    rw [List.foldl_cons, ih fun x hx => h x (List.mem_cons_of_mem _ hx)]
    exact write_of_not_covers (h y List.mem_cons_self)

/-- A block that no later one meets is there after all of them. -/
theorem writes_of_mem (hapart : xs.Pairwise fun x y => ∀ v, x.Covers v → ¬y.Covers v)
    (hx : x ∈ xs) (hv : x.Covers v) : xs.foldl write m v = x.bytes[v - x.base]? := by
  induction xs generalizing m with
  | nil => cases hx
  | cons y ys ih =>
    obtain ⟨hy, hys⟩ := List.pairwise_cons.mp hapart
    rw [List.foldl_cons]
    rcases List.mem_cons.mp hx with rfl | hx
    · rw [writes_of_not_covers fun z hz => hy z hz v hv]
      exact write_of_covers hv
    · exact ih hys hx

theorem bottom_append : bottom top (xs ++ ys) = bottom (bottom top xs) ys := by
  induction xs generalizing top with
  | nil => rfl
  | cons x xs ih => exact ih

theorem descends_append :
    Descends top (xs ++ ys) ↔ Descends top xs ∧ Descends (bottom top xs) ys := by
  induction xs generalizing top with
  | nil => exact (iff_of_eq (true_and _)).symm
  | cons x xs ih =>
    rw [List.cons_append, Descends, Descends, ih, and_assoc]
    rfl

namespace Descends

theorem bottom_add (h : Descends top xs) : bottom top xs + total xs = top := by
  induction xs generalizing top with
  | nil => rfl
  | cons x xs ih =>
    obtain ⟨rfl, hxs⟩ := h
    have hrest := ih hxs
    have htotal : total (x :: xs) = x.bytes.length + total xs := rfl
    rw [bottom, htotal, Block.stop]
    omega

theorem between (h : Descends top xs) (hx : x ∈ xs) : bottom top xs ≤ x.base ∧ x.stop ≤ top := by
  induction xs generalizing top with
  | nil => cases hx
  | cons y ys ih =>
    obtain ⟨rfl, hys⟩ := h
    rcases List.mem_cons.mp hx with rfl | hx
    · exact ⟨Nat.le.intro hys.bottom_add, Nat.le_refl _⟩
    · obtain ⟨hlo, hhi⟩ := ih hys hx
      exact ⟨hlo, hhi.trans (Nat.le_add_right _ _)⟩

theorem pairwise (h : Descends top xs) : xs.Pairwise fun x y => y.stop ≤ x.base := by
  induction xs generalizing top with
  | nil => exact List.Pairwise.nil
  | cons x xs ih =>
    exact List.pairwise_cons.mpr ⟨fun y hy => (h.2.between hy).2, ih h.2⟩

theorem writes_of_mem (h : Descends top xs) (hx : x ∈ xs) (hv : x.Covers v) :
    xs.foldl write m v = x.bytes[v - x.base]? := by
  refine StackBlocks.writes_of_mem (h.pairwise.imp fun hle v hv hv' => ?_) hx hv
  exact Nat.not_lt.mpr (hle.trans hv.1) hv'.2

end Descends
end StackBlocks
