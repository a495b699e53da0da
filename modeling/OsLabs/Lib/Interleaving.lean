import Mathlib.Data.List.Perm.Basic
import Mathlib.Order.Defs.LinearOrder

/-!
# Interleavings of two lists

A list is an interleaving of two others if it is made by taking, again and again, the first element of one of them. It holds the
elements of both, each as often as they do, and those of each list in that list's order.
-/

namespace OsLabs

variable {α : Type}

/-- `zs` interleaves `xs` and `ys`. -/
inductive Interleaving : List α → List α → List α → Prop where
  | nil : Interleaving [] [] []
  | left {xs ys zs : List α} (x : α) (h : Interleaving xs ys zs) : Interleaving (x :: xs) ys (x :: zs)
  | right {xs ys zs : List α} (y : α) (h : Interleaving xs ys zs) : Interleaving xs (y :: ys) (y :: zs)

namespace Interleaving

variable {xs ys zs : List α}

theorem symm (h : Interleaving xs ys zs) : Interleaving ys xs zs := by
  induction h with
  | nil => exact .nil
  | left x _ ih => exact .right x ih
  | right y _ ih => exact .left y ih

/-- Nothing is lost and nothing repeated. -/
theorem perm (h : Interleaving xs ys zs) : zs.Perm (xs ++ ys) := by
  induction h with
  | nil => exact .refl _
  | left x _ ih => exact ih.cons x
  | right y _ ih => exact (ih.cons y).trans List.perm_middle.symm

/-- The elements of the first list stand in their order. -/
theorem sublist_left (h : Interleaving xs ys zs) : xs.Sublist zs := by
  induction h with
  | nil => exact .refl _
  | left x _ ih => exact ih.cons_cons x
  | right y _ ih => exact ih.cons y

/-- The elements of the second list stand in their order. -/
theorem sublist_right (h : Interleaving xs ys zs) : ys.Sublist zs := h.symm.sublist_left

theorem length (h : Interleaving xs ys zs) : zs.length = xs.length + ys.length := by
  rw [h.perm.length_eq, List.length_append]

theorem mem (h : Interleaving xs ys zs) {z : α} (hz : z ∈ zs) : z ∈ xs ∨ z ∈ ys :=
  List.mem_append.mp (h.perm.mem_iff.mp hz)

/-- An interleaving of sorted lists stays sorted under an element that is not above the first one of either. -/
theorem sorted_cons [Preorder α] {x : α} (h : Interleaving xs ys zs) (hz : zs.Pairwise (· ≤ ·))
    (hx : ∀ a ∈ xs, x ≤ a) (hy : ∀ a ∈ ys, x ≤ a) : (x :: zs).Pairwise (· ≤ ·) := by
  refine List.pairwise_cons.mpr ⟨fun z hzs => ?_, hz⟩
  rcases h.mem hzs with hm | hm
  · exact hx z hm
  · exact hy z hm

end Interleaving

end OsLabs
