import GioForge.Data.OrderedSet
import Mathlib.Tactic.Common

/-!
Joining lists: a list, then what another one adds to it. Insertions into a set that remembers
the order of its members join them to the list it has. Joining can be regrouped, and a list
joined to itself stays as it is.
-/

namespace GioForge

variable {α : Type} [DecidableEq α]

/-- A list, then what another one adds to it. -/
def joined (xs ys : List α) : List α :=
  xs ++ ys.filter (· ∉ xs)

theorem mem_joined {xs ys : List α} {x : α} : x ∈ joined xs ys ↔ x ∈ xs ∨ x ∈ ys := by
  by_cases h : x ∈ xs <;> simp [joined, h]

theorem joined_nil (xs : List α) : joined xs [] = xs :=
  List.append_nil xs

theorem joined_singleton (xs : List α) (x : α) :
    joined xs [x] = if x ∈ xs then xs else xs ++ [x] := by
  unfold joined
  split <;> simp [*]

theorem joined_self (xs : List α) : joined xs xs = xs := by
  simp [joined]

/-- It does not matter which two of three lists are joined first. -/
theorem joined_assoc (xs ys zs : List α) :
    joined (joined xs ys) zs = joined xs (joined ys zs) := by
  have hfilter : zs.filter (· ∉ joined xs ys) = (zs.filter (· ∉ ys)).filter (· ∉ xs) := by
    rw [List.filter_filter]
    simp [mem_joined]
  rw [joined, hfilter]
  simp only [joined, List.filter_append, List.append_assoc]

/-- Elements are joined one by one, each behind those before it. -/
theorem joined_cons {x : α} {ys : List α} (h : x ∉ ys) (xs : List α) :
    joined xs (x :: ys) = joined (joined xs [x]) ys := by
  have hcons : joined [x] ys = x :: ys := by
    have hall : ∀ y ∈ ys, decide (y ∉ [x]) = true := by
      intro y hy
      rw [decide_eq_true_eq, List.mem_singleton]
      rintro rfl
      exact h hy
    rw [joined, List.filter_eq_self.mpr hall]
    rfl
  rw [joined_assoc, hcons]

namespace OrderedSet

theorem toList_insert (set : OrderedSet α) (x : α) :
    (set.insert x).toList = joined set.toList [x] := by
  rw [joined_singleton]
  unfold insert
  split <;> rfl

theorem toList_insertAll (set : OrderedSet α) {xs : List α} (h : xs.Nodup) :
    (set.insertAll xs).toList = joined set.toList xs := by
  induction xs generalizing set with
  | nil => exact (joined_nil _).symm
  | cons x rest ih =>
      obtain ⟨hx, hrest⟩ := List.nodup_cons.mp h
      rw [joined_cons hx, ← toList_insert]
      exact ih (set.insert x) hrest

theorem mem_toList_insertAll (set : OrderedSet α) (xs : List α) (y : α) :
    y ∈ (set.insertAll xs).toList ↔ y ∈ set.toList ∨ y ∈ xs := by
  induction xs generalizing set with
  | nil => simp [insertAll]
  | cons x rest ih =>
      have hrest := ih (set.insert x)
      rw [mem_toList_insert] at hrest
      rw [List.mem_cons, ← or_assoc, or_comm (b := y = x)]
      exact hrest

end OrderedSet

end GioForge
