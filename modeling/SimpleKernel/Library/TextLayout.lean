import Mathlib.Data.List.Basic

/-! Text laid out on lines of bounded width.
Characters are appended to a current line, which is closed by a newline or as soon as it is
full. A display of bounded height shows the last lines.
-/

namespace TextLayout

structure Layout (α : Type) where
  closed : List (List α)
  current : List α

variable {α : Type} {layout : Layout α} {width height y x : Nat} {a : α}

/-- Before any text there is one empty line. -/
def Layout.empty : Layout α where
  closed := []
  current := []

def Layout.lines (layout : Layout α) : List (List α) :=
  layout.closed ++ [layout.current]

def Layout.newline (layout : Layout α) : Layout α where
  closed := layout.lines
  current := []

def Layout.push (layout : Layout α) (a : α) : Layout α :=
  { layout with current := layout.current ++ [a] }

def Layout.append (width : Nat) (layout : Layout α) (a : α) : Layout α :=
  let layout := layout.push a
  if layout.current.length = width then layout.newline else layout

/-- The last lines, as many as the display holds. -/
def Layout.shown (height : Nat) (layout : Layout α) : List (List α) :=
  layout.lines.drop (layout.lines.length - height)

/-- The character that a display shows at a place, if any. -/
def Layout.shownAt (height : Nat) (layout : Layout α) (y x : Nat) : Option α :=
  (layout.shown height)[y]?.bind (fun chars => chars[x]?)

/-- The character at a place of the whole text. -/
def Layout.textAt (layout : Layout α) (y x : Nat) : Option α :=
  layout.lines[y]?.bind (fun chars => chars[x]?)

theorem Layout.lines_length : layout.lines.length = layout.closed.length + 1 := by
  simp [lines]

/-- The first line shown. -/
def Layout.top (height : Nat) (layout : Layout α) : Nat :=
  layout.closed.length + 1 - height

/-- What is shown is the text from the top line on. -/
theorem Layout.shownAt_eq
    : layout.shownAt height y x = layout.textAt (layout.top height + y) x := by
  rw [shownAt, shown, textAt, top, List.getElem?_drop, lines_length]

/-- The last line is the one that is written. -/
theorem Layout.textAt_current (here : y = layout.closed.length)
    : layout.textAt y x = layout.current[x]? := by
  simp [textAt, lines, here]

/-- The lines above it are closed. -/
theorem Layout.textAt_closed (early : y < layout.closed.length)
    : layout.textAt y x = layout.closed[y]?.bind (fun chars => chars[x]?) := by
  rw [textAt, lines, List.getElem?_append_left early]

/-- There is no text below it. -/
theorem Layout.textAt_beyond (late : layout.closed.length < y) : layout.textAt y x = none := by
  rw [textAt, List.getElem?_eq_none]
  · rfl
  · rw [lines_length]
    exact late

/-- A new line shows nothing that was not shown, so no character moves. -/
theorem Layout.textAt_newline : layout.newline.textAt y x = layout.textAt y x := by
  have count : layout.newline.closed.length = layout.closed.length + 1 := lines_length
  rcases Nat.lt_trichotomy y (layout.closed.length + 1) with early | here | late
  · rw [textAt_closed (by omega)]
    rfl
  · rw [textAt_current (by omega), textAt_beyond (by omega)]
    rfl
  · rw [textAt_beyond (by omega), textAt_beyond (by omega)]

/-- A character comes to stand at the end of the current line, and no other moves. -/
theorem Layout.textAt_push
    : (layout.push a).textAt y x
      = if y = layout.closed.length ∧ x = layout.current.length then some a
        else layout.textAt y x := by
  have closed : (layout.push a).closed = layout.closed := rfl
  rcases Nat.lt_trichotomy y layout.closed.length with early | rfl | late
  · rw [textAt_closed (by rwa [closed]), textAt_closed early, closed, if_neg (by omega)]
  · rw [textAt_current (by rw [closed]), textAt_current rfl, push, List.getElem?_append]
    rcases Nat.lt_trichotomy x layout.current.length with inside | rfl | beyond
    · rw [if_pos inside, if_neg (by omega)]
    · simp
    · have past : [a].length ≤ x - layout.current.length := by
        simp only [List.length_singleton]
        omega
      rw [if_neg (by omega), if_neg (by omega), List.getElem?_eq_none past,
        List.getElem?_eq_none (by omega)]
  · rw [textAt_beyond (by rwa [closed]), textAt_beyond late, if_neg (by omega)]

/-- A character is written where the last line ends, and changes no other. -/
theorem Layout.textAt_append
    : (layout.append width a).textAt y x
      = if y = layout.closed.length ∧ x = layout.current.length then some a
        else layout.textAt y x := by
  rw [← textAt_push, append]
  split
  · exact textAt_newline
  · rfl

/-- A character that fills its line closes it. -/
theorem Layout.append_full (full : layout.current.length + 1 = width)
    : (layout.append width a).closed.length = layout.closed.length + 1
      ∧ (layout.append width a).current.length = 0 := by
  have last : (layout.push a).current.length = width := by simpa [push] using full
  rw [append, if_pos last]
  exact ⟨lines_length, rfl⟩

theorem Layout.append_more (more : layout.current.length + 1 ≠ width)
    : (layout.append width a).closed.length = layout.closed.length
      ∧ (layout.append width a).current.length = layout.current.length + 1 := by
  have room : (layout.push a).current.length ≠ width := by simpa [push] using more
  rw [append, if_neg room]
  exact ⟨rfl, by simp [push]⟩

end TextLayout
