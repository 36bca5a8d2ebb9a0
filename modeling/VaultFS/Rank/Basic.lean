import Mathlib.Data.List.Sort
import Mathlib.Order.Defs.LinearOrder

/-!
# Ranks in a descending order

The element at position `k` of a list in descending order is the largest value
that more than `k` elements reach. Sorting is only a way to compute it:
`le_getElem_insertionSort` says which values lie below that element by counting
in the list as it was given.
-/

namespace Rank

variable {α : Type*} [LinearOrder α]

theorem le_getElem_iff_of_pairwise {l : List α} (hl : l.Pairwise (· ≥ ·)) {k : ℕ}
    (hk : k < l.length) (j : α) : j ≤ l[k] ↔ k < l.countP (j ≤ ·) := by
  induction l generalizing k with
  | nil => simp at hk
  | cons x l ih =>
      obtain ⟨hx, hl⟩ := List.pairwise_cons.mp hl
      by_cases hj : j ≤ x
      · cases k with
        | zero => simp [hj]
        | succ k => simp [hj, ih hl (by simpa using hk)]
      · have hlt : ∀ y ∈ l, y < j := fun y hy => (hx y hy).trans_lt (not_le.mp hj)
        have hnone : l.countP (j ≤ ·) = 0 := by
          rw [List.countP_eq_zero]
          intro y hy
          simpa using hlt y hy
        cases k with
        | zero => simp [hj, hnone]
        | succ k => simp [hj, hnone, hlt _ (List.getElem_mem _)]

/-- A value lies below the element of rank `k` exactly when more than `k` elements
reach it. -/
theorem le_getElem_insertionSort {l : List α} {k : ℕ}
    (hk : k < (l.insertionSort (· ≥ ·)).length) (j : α) :
    j ≤ (l.insertionSort (· ≥ ·))[k] ↔ k < l.countP (j ≤ ·) := by
  rw [le_getElem_iff_of_pairwise (l.pairwise_insertionSort (· ≥ ·)) hk,
    (l.perm_insertionSort (· ≥ ·)).countP_eq]

end Rank
