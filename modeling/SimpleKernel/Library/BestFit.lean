import Mathlib

/-! A left-to-right scan that replaces its choice only for a strictly smaller key
finds the first minimal element among those that fit.
-/

namespace BestFit

variable {α : Type*} (fits : α → Bool) (key : α → Nat)

/-- One visit of the scan. -/
def visit : Option α → α → Option α
  | none, a => if fits a then some a else none
  | some best, a => if fits a && decide (key a < key best) then some a else some best

/-- The visits of a scan amount to a fold over what fits, by induction on the list. -/
theorem foldl_visit_eq (l : List α) (best : Option α)
    : l.foldl (visit fits key) best
      = (l.filter fits).foldl (List.argAux fun b c => key b < key c) best := by
  induction l generalizing best with
  | nil => rfl
  | cons a rest ih =>
      rw [List.foldl_cons, ih, List.filter_cons]
      cases fit : fits a <;> cases best <;> simp [visit, fit, List.argAux]

/-- The whole scan is the first minimum of the fitting elements. -/
theorem foldl_visit (l : List α)
    : l.foldl (visit fits key) none = (l.filter fits).argmin key :=
  foldl_visit_eq fits key l none

variable {fits key} {l : List α} {a : α}

/-- The element chosen after a visit fits and was seen. -/
theorem visit_chosen {seen : α → Prop} {best : Option α} (inside : seen a)
    (chosen : ∀ b ∈ best, seen b ∧ fits b = true)
    : ∀ b ∈ visit fits key best a, seen b ∧ fits b = true := by
  intro b member
  cases best with
  | none =>
      simp only [visit] at member
      split at member
      · next fit =>
        obtain rfl : a = b := by simpa using member
        exact ⟨inside, fit⟩
      · simp at member
  | some c =>
      simp only [visit] at member
      split at member
      · next fit =>
        obtain rfl : a = b := by simpa using member
        exact ⟨inside, (Bool.and_eq_true_iff.mp fit).1⟩
      · obtain rfl : c = b := by simpa using member
        exact chosen c rfl

/-- A scan over any representation of the choice finds the first minimum, provided each of
its visits follows the rule for choices that fit and were seen. By induction on the list.
-/
theorem foldl_encode {β : Type*} (encode : Option α → β) {step : β → α → β}
    (follows
      : ∀ best,
          ∀ a ∈ l,
            (∀ b ∈ best, b ∈ l ∧ fits b = true)
            → step (encode best) a = encode (visit fits key best a))
    : l.foldl step (encode none) = encode ((l.filter fits).argmin key) := by
  have claim (rest : List α) (best : Option α) (inside : ∀ a ∈ rest, a ∈ l)
      (chosen : ∀ b ∈ best, b ∈ l ∧ fits b = true)
      : rest.foldl step (encode best) = encode (rest.foldl (visit fits key) best) := by
    induction rest generalizing best with
    | nil => rfl
    | cons a rest ih =>
        have member := inside a (by simp)
        rw [List.foldl_cons, List.foldl_cons, follows best a member chosen]
        exact ih _ (fun b later => inside b (by simp [later])) (visit_chosen member chosen)
  rw [← foldl_visit]
  exact claim l none (fun _ member => member) (by simp)

/-- What is chosen is in the list and fits. -/
theorem mem_of_best (best : (l.filter fits).argmin key = some a) : a ∈ l ∧ fits a = true :=
  List.mem_filter.mp (List.argmin_mem best)

/-- Nothing that fits has a smaller key. -/
theorem best_le (best : (l.filter fits).argmin key = some a) {b : α} (member : b ∈ l)
    (fit : fits b = true)
    : key a ≤ key b :=
  List.le_of_mem_argmin (List.mem_filter.mpr ⟨member, fit⟩) best

/-- Among elements of minimal key the scan chooses the one listed first. -/
theorem best_first [DecidableEq α] {before : α → α → Prop} (ordered : l.Pairwise before)
    (best : (l.filter fits).argmin key = some a) {b : α} (member : b ∈ l)
    (fit : fits b = true) (same : key b = key a)
    : a = b ∨ before a b := by
  obtain ⟨inside, _, first⟩ := List.argmin_eq_some_iff.mp best
  have listed : b ∈ l.filter fits := List.mem_filter.mpr ⟨member, fit⟩
  rcases Nat.lt_or_eq_of_le (first b listed same.le) with earlier | together
  · have apart := List.pairwise_iff_getElem.mp (ordered.filter fits) _ _
      (List.idxOf_lt_length_of_mem inside) (List.idxOf_lt_length_of_mem listed) earlier
    exact Or.inr (by simpa using apart)
  · exact Or.inl ((List.idxOf_inj inside).mp together)

/-- Nothing fits where nothing is chosen. -/
theorem none_fits (best : (l.filter fits).argmin key = none) {b : α} (member : b ∈ l)
    : fits b = false := by
  have empty := List.argmin_eq_none.mp best
  by_contra fit
  have inside : b ∈ l.filter fits := List.mem_filter.mpr ⟨member, by simpa using fit⟩
  simp [empty] at inside

end BestFit
