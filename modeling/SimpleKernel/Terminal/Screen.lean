import SimpleKernel.Library.TextLayout
import SimpleKernel.Terminal.Tty

/-! The terminal shows the tail of its text.
A reference keeps the whole text as lines of 80 characters with their colours. The buffer is
related to it by the number of lines that have been scrolled away.
-/

namespace SimpleKernel

open ByteMemory TextLayout

/-- The text written so far, with the colour for what comes next. -/
structure Text where
  layout : Layout (Byte × Byte)
  color : Byte

def Text.putchar (text : Text) (c : Byte) : Text :=
  {
    text with
    layout :=
      if c = 0x0A then text.layout.newline else text.layout.append 80 (c, text.color)
  }

inductive TerminalCall
  | putchar (c : Byte)
  | write (data : List Byte) (size : Nat)
  | setcolor (color : Byte)

def TerminalCall.exec (t : Terminal) : TerminalCall → Terminal
  | .putchar c => terminalPutchar t c
  | .write data size => terminalWrite t data size
  | .setcolor color => terminalSetcolor t color

/-- What a call adds to the text. -/
def TerminalCall.extend (text : Text) : TerminalCall → Text
  | .putchar c => text.putchar c
  | .write data size => (data.take size).foldl Text.putchar text
  | .setcolor color => { text with color := color }

/-- The text after `terminal_initialize`. -/
def Text.initial : Text where
  layout := .empty
  color := vgaEntryColor .lightGrey .black

/-- The cell of the buffer with the given index. -/
def Terminal.entry (t : Terminal) (index : Nat) : BitVec 16 :=
  t.mem.load16 (t.buffer + 2 * BitVec.ofNat 32 index)

/-- The character of a cell is its lower byte. -/
def entryGlyph (entry : BitVec 16) : Byte :=
  entry.setWidth 8

/-- The byte at `x` belongs to no cell. -/
def OutsideScreen (x : Addr) : Prop :=
  4000 ≤ (x - vgaMemory).toNat

variable {t t' : Terminal} {text : Text} {i n top : Nat} {entries : Nat → BitVec 16}

/-- A cell shows the character it was made of. -/
theorem entryGlyph_vgaEntry (uc color : Byte) : entryGlyph (vgaEntry uc color) = uc := by
  ext j inside
  simp only [entryGlyph, vgaEntry, BitVec.getElem_setWidth, BitVec.getLsbD_or,
    BitVec.getLsbD_setWidth, BitVec.getLsbD_shiftLeft]
  have low : j < 16 := by omega
  simp [inside, low]

-----------------------------------------------------------------------------------------
-- Cells
-----------------------------------------------------------------------------------------

/-- The terminal redrawn to the given cells, cursor and colour as they were. -/
structure Terminal.Redrawn (t t' : Terminal) (entries : Nat → BitVec 16) : Prop where
  buffer : t'.buffer = vgaMemory
  row : t'.row = t.row
  column : t'.column = t.column
  color : t'.color = t.color
  cells : ∀ i < 2000, t'.entry i = entries i
  outside : ∀ x, OutsideScreen x → t'.mem x = t.mem x

theorem Terminal.Redrawn.refl (buffer : t.buffer = vgaMemory) : t.Redrawn t t.entry :=
  ⟨buffer, rfl, rfl, rfl, fun _ _ => rfl, fun _ _ => rfl⟩

/-- One cell drawn. -/
theorem Terminal.Redrawn.setCell (redrawn : t.Redrawn t' entries) (index : Word)
    (inside : index.toNat < 2000) (entry : BitVec 16)
    : t.Redrawn (t'.setCell index entry)
        (fun i => if i = index.toNat then entry else entries i) where
  buffer := redrawn.buffer
  row := redrawn.row
  column := redrawn.column
  color := redrawn.color
  cells i small := by
    have drawn := redrawn.cells i small
    rw [Terminal.entry, redrawn.buffer] at drawn
    rw [Terminal.entry, Terminal.setCell, redrawn.buffer]
    split
    · next here =>
      have same : BitVec.ofNat 32 i = index := by
        rw [here, BitVec.ofNat_toNat, BitVec.setWidth_eq]
      rw [same, Memory.load16_store16_same]
    · next ne =>
      rw [Memory.load16_store16_of_apart (by bv_omega) (by bv_omega), drawn]
  outside x beyond := by
    rw [← redrawn.outside x beyond, Terminal.setCell, redrawn.buffer]
    rw [OutsideScreen] at beyond
    exact Memory.store16_of_outside (by bv_omega)

/-- One line copied over the line above it. -/
theorem Terminal.Redrawn.copyLine (redrawn : t.Redrawn t' entries) {dest src : Word}
    (below : src.toNat = dest.toNat + 80) (inside : src.toNat + 80 ≤ 2000)
    : t.Redrawn (copyLine t' dest src)
        (fun i => if dest.toNat ≤ i ∧ i < src.toNat then entries (i + 80) else entries i) := by
  have copied : (SimpleKernel.copyLine t' dest src).mem
      = t'.mem.copy (vgaMemory + 2 * dest) (vgaMemory + 2 * src) 160 := by
    simp only [SimpleKernel.copyLine, redrawn.buffer]
    exact memcpy_eq_copy t'.mem (by bv_omega)
  have buffer : (SimpleKernel.copyLine t' dest src).buffer = vgaMemory := by
    simp only [SimpleKernel.copyLine, redrawn.buffer]
  refine {
    buffer := buffer
    row := by simp only [SimpleKernel.copyLine, redrawn.row]
    column := by simp only [SimpleKernel.copyLine, redrawn.column]
    color := by simp only [SimpleKernel.copyLine, redrawn.color]
    cells := fun i small => ?_
    outside := fun x beyond => ?_
  }
  · rw [Terminal.entry, copied, buffer]
    split
    · next here =>
      have source := redrawn.cells (i + 80) (by omega)
      rw [Terminal.entry, redrawn.buffer] at source
      rw [Memory.load16_copy_of_inside _ (by bv_omega) (by decide), ← source]
      congr 1
      bv_omega
    · next elsewhere =>
      have kept := redrawn.cells i small
      rw [Terminal.entry, redrawn.buffer] at kept
      rw [Memory.load16_copy_of_outside _ (by bv_omega) (by bv_omega), kept]
  · rw [OutsideScreen] at beyond
    rw [copied, Memory.copy_of_outside _ (by bv_omega), redrawn.outside x beyond]

/-- The same cells, described in another way. -/
theorem Terminal.Redrawn.congr (redrawn : t.Redrawn t' entries)
    {entries' : Nat → BitVec 16} (same : ∀ i < 2000, entries i = entries' i)
    : t.Redrawn t' entries' where
  buffer := redrawn.buffer
  row := redrawn.row
  column := redrawn.column
  color := redrawn.color
  cells i small := by rw [redrawn.cells i small, same i small]
  outside := redrawn.outside

/-- A row of blanks in the terminal's colour, by induction on the cells of the row. -/
theorem Terminal.Redrawn.blankRow (redrawn : t.Redrawn t' entries) (start : Word)
    (inside : start.toNat + 80 ≤ 2000) (index : Word → Word)
    (at' : ∀ x : Word, x.toNat < 80 → (index x).toNat = start.toNat + x.toNat)
    : t.Redrawn
        (countedLoop vgaWidth (fun t x => t.setCell (index x) (vgaEntry 0x20 t.color)) t')
        (fun i =>
          if start.toNat ≤ i ∧ i < start.toNat + 80 then vgaEntry 0x20 t.color
          else entries i) := by
  refine countedLoop_induction
    (fun n t'' =>
      t.Redrawn t''
        (fun i =>
          if start.toNat ≤ i ∧ i < start.toNat + n then vgaEntry 0x20 t.color
          else entries i))
    ?_ ?_
  · intro t'' x below drawn
    have small : x.toNat < 80 := below
    have position := at' x small
    refine (drawn.setCell (index x) (by omega) _).congr (fun i _ => ?_)
    rw [drawn.color, position]
    by_cases here : i = start.toNat + x.toNat
    · rw [if_pos here, if_pos (by omega)]
    · rw [if_neg here]
      by_cases drawnBefore : start.toNat ≤ i ∧ i < start.toNat + x.toNat
      · rw [if_pos drawnBefore, if_pos (by omega)]
      · rw [if_neg drawnBefore, if_neg (by omega)]
  · exact redrawn.congr (fun i _ => (if_neg (by omega)).symm)

/-- Every row takes over the one below it, and the last one becomes blank. -/
theorem terminalScroll_redrawn (buffer : t.buffer = vgaMemory)
    : t.Redrawn (terminalScroll t)
        (fun i => if i < 1920 then t.entry (i + 80) else vgaEntry 0x20 t.color) := by
  have moved : t.Redrawn
      (countedLoop (vgaHeight - 1)
        (fun t i => copyLine t (vgaWidth * i) (vgaWidth * (i + 1))) t)
      (fun i => if i < 80 * 24 then t.entry (i + 80) else t.entry i) := by
    refine countedLoop_induction
      (fun n t' =>
        t.Redrawn t' (fun i => if i < 80 * n then t.entry (i + 80) else t.entry i))
      ?_ ?_
    · intro t' y below drawn
      have low : y.toNat < 24 := below
      have dest : (vgaWidth * y).toNat = 80 * y.toNat := by bv_omega
      have src : (vgaWidth * (y + 1)).toNat = 80 * y.toNat + 80 := by bv_omega
      refine (drawn.copyLine (by omega) (by omega)).congr (fun i _ => ?_)
      rw [dest, src]
      by_cases early : i < 80 * y.toNat
      · rw [if_neg (by omega), if_pos early, if_pos (by omega)]
      · by_cases here : i < 80 * y.toNat + 80
        · rw [if_pos (by omega), if_neg (by omega), if_pos (by omega)]
        · rw [if_neg (by omega), if_neg early, if_neg (by omega)]
    · exact (Terminal.Redrawn.refl buffer).congr (fun i _ => (if_neg (by omega)).symm)
  have start : (vgaWidth * (vgaHeight - 1)).toNat = 1920 := rfl
  have blank := moved.blankRow (vgaWidth * (vgaHeight - 1)) (by rw [start])
    (fun x => vgaWidth * (vgaHeight - 1) + x) (fun x small => by bv_omega)
  rw [start] at blank
  rw [terminalScroll, terminalDeleteLastLine]
  refine blank.congr (fun i small => ?_)
  by_cases last : i < 1920
  · rw [if_neg (by omega), if_pos (by omega), if_pos last]
  · rw [if_pos (by omega), if_neg last]

/-- The static variables as `terminal_initialize` sets them before its loop. -/
def Terminal.reset (t : Terminal) : Terminal :=
  {
    t with
    row := 0
    column := 0
    color := vgaEntryColor .lightGrey .black
    buffer := vgaMemory
  }

/-- `terminal_initialize` blanks every cell, line by line. -/
theorem terminalInitialize_redrawn (t : Terminal)
    : t.reset.Redrawn (terminalInitialize t) (fun _ => vgaEntry 0x20 t.reset.color) := by
  have rows : t.reset.Redrawn (terminalInitialize t)
      (fun i => if i < 80 * 25 then vgaEntry 0x20 t.reset.color else t.reset.entry i) := by
    rw [terminalInitialize]
    refine countedLoop_induction
      (fun n t' =>
        t.reset.Redrawn t'
          (fun i => if i < 80 * n then vgaEntry 0x20 t.reset.color else t.reset.entry i))
      ?_ ?_
    · intro t' y below drawn
      have low : y.toNat < 25 := below
      have start : (y * vgaWidth).toNat = y.toNat * 80 := lineIndex_toNat (by omega)
      refine (drawn.blankRow (y * vgaWidth) (by omega) (fun x => y * vgaWidth + x)
        (fun x small => by bv_omega)).congr (fun i _ => ?_)
      rw [start]
      by_cases early : i < 80 * y.toNat
      · rw [if_neg (by omega), if_pos early, if_pos (by omega)]
      · by_cases here : i < 80 * y.toNat + 80
        · rw [if_pos (by omega), if_pos (by omega)]
        · rw [if_neg (by omega), if_neg early, if_neg (by omega)]
    · exact (Terminal.Redrawn.refl rfl).congr (fun i _ => (if_neg (by omega)).symm)
  exact rows.congr (fun i small => if_pos small)

-----------------------------------------------------------------------------------------
-- The window
-----------------------------------------------------------------------------------------

/-- What a cell shows: a character in its colour, or a blank in any. -/
def Displays (entry : BitVec 16) : Option (Byte × Byte) → Prop
  | some (c, color) => entry = vgaEntry c color
  | none => entryGlyph entry = 0x20

/-- The buffer shows the lines of the text from `top` on, and the cursor stands at the end
of the current line.
-/
structure Terminal.Window (t : Terminal) (text : Text) (top : Nat) : Prop where
  buffer : t.buffer = vgaMemory
  color : t.color = text.color
  row : t.row.toNat + top = text.layout.closed.length
  column : t.column.toNat = text.layout.current.length
  narrow : text.layout.current.length < 80
  cells : ∀ y < 25, ∀ x < 80, Displays (t.entry (80 * y + x)) (text.layout.textAt (top + y) x)

/-- A blank cell shows no text. -/
theorem Displays.blank (color : Byte) : Displays (vgaEntry 0x20 color) none :=
  entryGlyph_vgaEntry 0x20 color

/-- Hence the screen shows the empty text. -/
theorem terminalInitialize_window (mem : Memory)
    : (terminalInitialize (unsetTerminal mem)).Window .initial 0 := by
  have redrawn := terminalInitialize_redrawn (unsetTerminal mem)
  refine {
    buffer := redrawn.buffer
    color := redrawn.color
    row := ?_
    column := ?_
    narrow := by simp [Text.initial, Layout.empty]
    cells := fun y low x left => ?_
  }
  · rw [redrawn.row]
    rfl
  · rw [redrawn.column]
    rfl
  · have nothing : Text.initial.layout.textAt (0 + y) x = none := by
      cases y with
      | zero => rfl
      | succ y => exact Layout.textAt_beyond (by simp [Text.initial, Layout.empty])
    rw [redrawn.cells _ (by omega), nothing]
    exact Displays.blank _

/-- A newline opens a line behind the last one. -/
theorem Terminal.Window.newline (window : t.Window text top) (small : t.row.toNat < 25)
    : { t with row := t.row + 1, column := 0 : Terminal }.Window
        { text with layout := text.layout.newline } top where
  buffer := window.buffer
  color := window.color
  row := by
    have row := window.row
    have count : text.layout.newline.closed.length = text.layout.closed.length + 1 :=
      Layout.lines_length
    rw [count]
    bv_omega
  column := rfl
  narrow := by simp [Layout.newline]
  cells y low x left := by
    rw [Layout.textAt_newline]
    exact window.cells y low x left

/-- A character drawn under the cursor is the next one of the text. -/
theorem Terminal.Window.drawn (window : t.Window text top) (row : t.row.toNat < 25) (c : Byte)
    : ∀ y < 25,
        ∀ x < 80,
          Displays
            ((t.setCell (t.row * vgaWidth + t.column) (vgaEntry c t.color)).entry (80 * y + x))
            ((text.layout.append 80 (c, text.color)).textAt (top + y) x) := by
  intro y low x left
  have column := window.column
  have narrow := window.narrow
  have position : (t.row * vgaWidth + t.column).toNat = t.row.toNat * 80 + t.column.toNat :=
    cellIndex_toNat (by omega)
  have redrawn := (Terminal.Redrawn.refl window.buffer).setCell (t.row * vgaWidth + t.column)
    (by omega) (vgaEntry c t.color)
  have lines := window.row
  rw [redrawn.cells _ (by omega), position, Layout.textAt_append]
  by_cases here : y = t.row.toNat ∧ x = t.column.toNat
  · rw [if_pos (by omega), if_pos (by omega), window.color]
    rfl
  · rw [if_neg (by omega), if_neg (by omega)]
    exact window.cells y low x left

/-- A character is drawn where the text goes on, by the three cases of the cursor. -/
theorem Terminal.Window.putcharCell (window : t.Window text top) (row : t.row.toNat < 25)
    (c : Byte)
    : (putcharCell t c).Window (text.putchar c) top := by
  have column := window.column
  have narrow := window.narrow
  have lines := window.row
  by_cases newline : c = 0x0A
  · rw [newline, putcharCell_newline]
    exact window.newline row
  · have cells := window.drawn row c
    have extended : text.putchar c
        = { text with layout := text.layout.append 80 (c, text.color) } := by
      rw [Text.putchar, if_neg newline]
    rw [extended]
    by_cases last : t.column + 1 = vgaWidth
    · have full : text.layout.current.length + 1 = 80 := by bv_omega
      obtain ⟨closed, current⟩ := Layout.append_full (a := (c, text.color)) full
      rw [putcharCell_wrap newline last]
      refine ⟨window.buffer, window.color, ?_, ?_, ?_, cells⟩
      · rw [closed]
        bv_omega
      · rw [current]
        rfl
      · rw [current]
        decide
    · have more : text.layout.current.length + 1 ≠ 80 := by bv_omega
      obtain ⟨closed, current⟩ := Layout.append_more (a := (c, text.color)) more
      rw [putcharCell_plain newline last]
      refine ⟨window.buffer, window.color, ?_, ?_, ?_, cells⟩
      · rw [closed]
        exact lines
      · rw [current]
        bv_omega
      · rw [current]
        omega

/-- Scrolling moves the window one line down, onto a line that is still empty. -/
theorem Terminal.Window.scroll (window : t.Window text top) (below : t.row = vgaHeight)
    (empty : text.layout.current = [])
    : { terminalScroll t with row := (terminalScroll t).row - 1 : Terminal }.Window text
        (top + 1) := by
  have redrawn := terminalScroll_redrawn window.buffer
  have lines := window.row
  generalize terminalScroll t = scrolled at redrawn ⊢
  refine {
    buffer := redrawn.buffer
    color := redrawn.color.trans window.color
    row := ?_
    column := by rw [redrawn.column, window.column]
    narrow := window.narrow
    cells := fun y low x left => ?_
  }
  · rw [redrawn.row, below]
    rw [below] at lines
    bv_omega
  · have drawn : scrolled.entry (80 * y + x) = _ := redrawn.cells (80 * y + x) (by omega)
    have height : vgaHeight.toNat = 25 := rfl
    rw [below] at lines
    by_cases last : y < 24
    · have old := window.cells (y + 1) (by omega) x left
      have index : 80 * y + x + 80 = 80 * (y + 1) + x := by omega
      have line : top + 1 + y = top + (y + 1) := by omega
      rw [if_pos (by omega), index] at drawn
      rw [line]
      exact drawn ▸ old
    · have nothing : text.layout.textAt (top + 1 + y) x = none := by
        rw [Layout.textAt_current (by omega), empty]
        rfl
      rw [if_neg (by omega)] at drawn
      rw [nothing]
      exact drawn ▸ Displays.blank t.color

-----------------------------------------------------------------------------------------
-- Runs
-----------------------------------------------------------------------------------------

/-- A character moves the cursor on in its row, or to the start of the next. -/
theorem putcharCell_cursor (t : Terminal) (c : Byte)
    : (putcharCell t c).row = t.row
      ∨ (putcharCell t c).row = t.row + 1 ∧ (putcharCell t c).column = 0 := by
  by_cases newline : c = 0x0A
  · rw [newline, putcharCell_newline]
    exact Or.inr ⟨rfl, rfl⟩
  · by_cases last : t.column + 1 = vgaWidth
    · rw [putcharCell_wrap newline last]
      exact Or.inr ⟨rfl, rfl⟩
    · rw [putcharCell_plain newline last]
      exact Or.inl rfl

/-- It is drawn on the screen. -/
theorem putcharCell_outside (buffer : t.buffer = vgaMemory) (bounds : t.InBounds) (c : Byte)
    {x : Addr} (beyond : OutsideScreen x)
    : (putcharCell t c).mem x = t.mem x := by
  obtain ⟨_, row, column⟩ := bounds
  have position : (t.row * vgaWidth + t.column).toNat = t.row.toNat * 80 + t.column.toNat :=
    cellIndex_toNat (by omega)
  have drawn := (Terminal.Redrawn.refl buffer).setCell (t.row * vgaWidth + t.column)
    (by omega) (vgaEntry c t.color)
  by_cases newline : c = 0x0A
  · rw [newline, putcharCell_newline]
  · by_cases last : t.column + 1 = vgaWidth
    · rw [putcharCell_wrap newline last]
      exact drawn.outside x beyond
    · rw [putcharCell_plain newline last]
      exact drawn.outside x beyond

/-- The terminal shows the last lines of the text, and has written to its buffer only. -/
structure Terminal.Tracks (t : Terminal) (mem : Memory) (text : Text) : Prop where
  window : t.Window text (text.layout.top 25)
  bounds : t.InBounds
  outside : ∀ x, OutsideScreen x → t.mem x = mem x

/-- The terminal follows a character: it is drawn, and the screen scrolls when its last line is
left.
-/
theorem Terminal.Tracks.terminalPutchar {mem : Memory} (tracks : t.Tracks mem text) (c : Byte)
    : (terminalPutchar t c).Tracks mem (text.putchar c) := by
  obtain ⟨window, bounds, outside⟩ := tracks
  have drawn := window.putcharCell bounds.row c
  have cursor := putcharCell_cursor t c
  have within := bounds.terminalPutchar c
  have lines := window.row
  have linesAfter := drawn.row
  have untouched (x) (beyond : OutsideScreen x) : (SimpleKernel.putcharCell t c).mem x = mem x :=
    (putcharCell_outside window.buffer bounds c beyond).trans (outside x beyond)
  simp only [Layout.top] at window drawn lines linesAfter
  simp only [SimpleKernel.terminalPutchar] at within ⊢
  split at within
  · next last =>
    have wrapped := cursor.resolve_left (fun same => by bv_omega)
    have empty : (text.putchar c).layout.current = [] := by
      rw [← List.length_eq_zero_iff, ← drawn.column, wrapped.2]
      rfl
    have scrolled := drawn.scroll last empty
    rw [if_pos last]
    refine ⟨?_, within, fun x beyond => ?_⟩
    · have top : text.layout.closed.length + 1 - 25 + 1 = (text.putchar c).layout.top 25 := by
        rw [Layout.top]
        bv_omega
      rwa [← top]
    · rw [← untouched x beyond]
      exact (terminalScroll_redrawn drawn.buffer).outside x beyond
  · next more =>
    rw [if_neg more]
    refine ⟨?_, within, untouched⟩
    have top : text.layout.closed.length + 1 - 25 = (text.putchar c).layout.top 25 := by
      rw [Layout.top]
      rcases cursor with same | ⟨next, _⟩
      · rw [same] at linesAfter
        omega
      · bv_omega
    rwa [← top]

/-- It follows a text, by induction on the characters. -/
theorem Terminal.Tracks.terminalWrite {mem : Memory} (tracks : t.Tracks mem text)
    (data : List Byte)
    : (data.foldl SimpleKernel.terminalPutchar t).Tracks mem (data.foldl Text.putchar text) := by
  induction data generalizing t text with
  | nil => exact tracks
  | cons c rest ih => exact ih (tracks.terminalPutchar c)

/-- It follows every call. -/
theorem Terminal.Tracks.exec {mem : Memory} (tracks : t.Tracks mem text) (call : TerminalCall)
    : (call.exec t).Tracks mem (call.extend text) := by
  cases call with
  | putchar c => exact tracks.terminalPutchar c
  | write data size => exact tracks.terminalWrite (data.take size)
  | setcolor color =>
      obtain ⟨window, bounds, outside⟩ := tracks
      exact ⟨⟨window.buffer, rfl, window.row, window.column, window.narrow, window.cells⟩,
        ⟨bounds.inside, bounds.row, bounds.column⟩, outside⟩

/-- The glyph that the reference displays at a place. -/
def Text.glyphAt (text : Text) (y x : Nat) : Byte :=
  ((text.layout.shownAt 25 y x).map Prod.fst).getD 0x20

/-- The screen and the cursor are those of the last 25 lines of the text. -/
structure Terminal.Shows (t : Terminal) (text : Text) : Prop where
  buffer : t.buffer = vgaMemory
  glyph : ∀ y < 25, ∀ x < 80, entryGlyph (t.entry (80 * y + x)) = text.glyphAt y x
  colored
    : ∀ y < 25,
        ∀ x < 80,
          ∀ c color,
            text.layout.shownAt 25 y x = some (c, color)
            → t.entry (80 * y + x) = vgaEntry c color
  row : t.row.toNat + 1 = (text.layout.shown 25).length
  column : t.column.toNat = text.layout.current.length

/-- A window on the last lines is what the screen is to show. -/
theorem Terminal.Window.shows (window : t.Window text (text.layout.top 25))
    (bounds : t.InBounds)
    : t.Shows text where
  buffer := window.buffer
  glyph y low x left := by
    have cell := window.cells y low x left
    rw [Text.glyphAt, Layout.shownAt_eq]
    cases shown : text.layout.textAt (text.layout.top 25 + y) x with
    | none =>
        rw [shown] at cell
        exact cell
    | some character =>
        rw [shown] at cell
        rw [show t.entry (80 * y + x) = vgaEntry character.1 character.2 from cell]
        exact entryGlyph_vgaEntry character.1 character.2
  colored y low x left c color shown := by
    have cell := window.cells y low x left
    rw [Layout.shownAt_eq] at shown
    rw [shown] at cell
    exact cell
  row := by
    have lines := window.row
    have row := bounds.row
    rw [Layout.top] at lines
    rw [Layout.shown, List.length_drop, Layout.lines_length]
    omega
  column := window.column

/-- What the terminal tracks from `terminal_initialize` on, by induction on the calls. -/
theorem terminalCalls_track (mem : Memory) (calls : List TerminalCall)
    : (calls.foldl TerminalCall.exec (terminalInitialize (unsetTerminal mem))).Tracks mem
        (calls.foldl TerminalCall.extend .initial) := by
  have start : (terminalInitialize (unsetTerminal mem)).Tracks mem .initial :=
    ⟨terminalInitialize_window mem, terminalInitialize_inBounds mem,
      (terminalInitialize_redrawn (unsetTerminal mem)).outside⟩
  generalize terminalInitialize (unsetTerminal mem) = t at start ⊢
  generalize Text.initial = text at start ⊢
  induction calls generalizing t text with
  | nil => exact start
  | cons call rest ih => exact ih (call.exec t) (call.extend text) (start.exec call)

/-- After any calls the terminal shows the last 25 lines of all that was written, with the
cursor behind the last character. Nothing outside the buffer was written.
-/
theorem terminalCalls_show (mem : Memory) (calls : List TerminalCall)
    : (calls.foldl TerminalCall.exec (terminalInitialize (unsetTerminal mem))).Shows
        (calls.foldl TerminalCall.extend .initial)
      ∧ (calls.foldl TerminalCall.exec (terminalInitialize (unsetTerminal mem))).InBounds
      ∧ ∀ x,
          OutsideScreen x
          → (calls.foldl TerminalCall.exec (terminalInitialize (unsetTerminal mem))).mem x
            = mem x := by
  have tracks := terminalCalls_track mem calls
  exact ⟨tracks.window.shows tracks.bounds, tracks.bounds, tracks.outside⟩

/-- Two lines of a text, the second in another colour. -/
example
    : ([.write [0x41, 0x0A] 2, .setcolor 0x0C, .putchar 0x42].foldl TerminalCall.extend
          .initial).layout.shown 25
      = [[(0x41, 0x07)], [(0x42, 0x0C)]] := by
  decide

end SimpleKernel
