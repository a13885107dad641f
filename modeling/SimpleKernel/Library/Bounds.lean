import Mathlib

/-! Bounds read off the minimum or maximum of a list with a fallback value.
A comparison with the folded value is the same comparison with every element, or with one.
-/

namespace Bounds

variable {α : Type*} [LinearOrder α] {l : List α} {b x : α}

/-- The lower bounds of a minimum are those of all its terms. -/
theorem le_foldr_min_iff : x ≤ l.foldr min b ↔ x ≤ b ∧ ∀ y ∈ l, x ≤ y := by
  induction l with
  | nil => simp
  | cons a rest ih =>
      rw [List.foldr_cons, le_min_iff, ih, List.forall_mem_cons]
      exact and_left_comm

/-- The fallback can be lowered before or after folding. -/
theorem foldr_min_min (l : List α) (b x : α) : l.foldr min (min x b) = min x (l.foldr min b) := by
  apply eq_of_forall_le_iff
  intro y
  rw [le_foldr_min_iff, le_min_iff, le_min_iff, le_foldr_min_iff, and_assoc]

/-- A maximum is reached by one of its terms. -/
theorem le_foldr_max_iff : x ≤ l.foldr max b ↔ x ≤ b ∨ ∃ y ∈ l, x ≤ y := by
  induction l with
  | nil => simp
  | cons a rest ih =>
      rw [List.foldr_cons, le_max_iff, ih, List.exists_mem_cons_iff]
      exact or_left_comm

/-- The upper bounds of a maximum are those of all its terms. -/
theorem foldr_max_le_iff : l.foldr max b ≤ x ↔ b ≤ x ∧ ∀ y ∈ l, y ≤ x := by
  induction l with
  | nil => simp
  | cons a rest ih =>
      rw [List.foldr_cons, max_le_iff, ih, List.forall_mem_cons]
      exact and_left_comm

end Bounds
