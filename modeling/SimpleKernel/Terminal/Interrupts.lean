import SimpleKernel.Library.Runs
import SimpleKernel.Terminal.Tty

/-! Keyboard interrupts while the main program writes to the terminal.
`terminal_putchar` is cut into its steps on the shared cursor and buffer, and the keyboard
handler runs to its end between any two of them. The handler writes through the same
cursor, so it may find it between an increment and the test that follows.
-/

namespace SimpleKernel

open ByteMemory Runs

/-- The next step of `terminal_putchar`. -/
inductive PutcharStep
  /-- No call is in progress. -/
  | idle
  /-- `terminal_column++` among the arguments of the cell write. -/
  | bumpColumn (c : Byte)
  /-- `terminal_putentryat` at the column read before, in the current row and colour. -/
  | writeCell (c : Byte) (x : Word)
  /-- `terminal_column == VGA_WIDTH`. -/
  | testColumn
  /-- `terminal_row++`, for a newline or behind a full line. -/
  | advanceRow
  /-- `terminal_column = 0`. -/
  | resetColumn
  /-- `terminal_row == VGA_HEIGHT`. -/
  | testRow
  | scroll
  /-- `terminal_row--`. -/
  | retreatRow
  deriving DecidableEq

/-- The terminal, the step its caller is at and the characters still to be written. -/
structure TerminalSession where
  tty : Terminal
  next : PutcharStep
  pending : List Byte

/-- One step of the main program. -/
def TerminalSession.advance (s : TerminalSession) : TerminalSession :=
  let t := s.tty
  match s.next with
  | .idle =>
      match s.pending with
      | [] => s
      | c :: rest =>
          { s with next := if c = 0x0A then .advanceRow else .bumpColumn c, pending := rest }
  | .bumpColumn c =>
      { s with tty := { t with column := t.column + 1 }, next := .writeCell c t.column }
  | .writeCell c x =>
      { s with tty := terminalPutentryat t c t.color x t.row, next := .testColumn }
  | .testColumn => { s with next := if t.column = vgaWidth then .advanceRow else .testRow }
  | .advanceRow => { s with tty := { t with row := t.row + 1 }, next := .resetColumn }
  | .resetColumn => { s with tty := { t with column := 0 }, next := .testRow }
  | .testRow => { s with next := if t.row = vgaHeight then .scroll else .idle }
  | .scroll => { s with tty := terminalScroll t, next := .retreatRow }
  | .retreatRow => { s with tty := { t with row := t.row - 1 }, next := .idle }

/-- The string `"pressed"`. -/
def pressed : List Byte :=
  [0x70, 0x72, 0x65, 0x73, 0x73, 0x65, 0x64]

/-- What `keyboard_handler` does to the terminal. -/
def keyboardHandler (t : Terminal) : Terminal :=
  terminalWritestring t pressed

inductive TerminalEvent
  | advance
  | keyboard

def TerminalSession.exec (s : TerminalSession) : TerminalEvent → TerminalSession
  | .advance => s.advance
  | .keyboard => { s with tty := keyboardHandler s.tty }

/-- An interrupt may fire before any step. -/
def terminalMachine : Machine TerminalSession TerminalEvent where
  enabled _ _ := True
  exec s event := some (s.exec event)

instance (s : TerminalSession) (event : TerminalEvent)
    : Decidable (terminalMachine.enabled s event) :=
  inferInstanceAs (Decidable True)

/-- Interrupts fire anywhere. -/
def AnyEvent (_ : TerminalSession) (_ : TerminalEvent) : Prop :=
  True

instance (s : TerminalSession) (event : TerminalEvent) : Decidable (AnyEvent s event) :=
  inferInstanceAs (Decidable True)

/-- The main program is about to write `text` to a terminal that was just initialized. -/
def startWriting (mem : Memory) (text : List Byte) : TerminalSession where
  tty := terminalInitialize (unsetTerminal mem)
  next := .idle
  pending := text

/-- What the terminal owes its users: cells are written in the buffer only, and between two
calls the cursor stands on a cell.
-/
structure TerminalSession.Intact (s : TerminalSession) : Prop where
  inside : s.tty.Inside
  cursor : s.next = .idle → s.tty.row.toNat < 25 ∧ s.tty.column.toNat < 80

/-- Only the main program runs. -/
def Uninterrupted (_ : TerminalSession) : TerminalEvent → Prop
  | .advance => True
  | .keyboard => False

section Sequential

variable {s s' start : TerminalSession} {t : Terminal} {rest : List Byte}

/-- The main program may go on at any time. -/
theorem advance_step (run : terminalMachine.Reaches Uninterrupted start s)
    : terminalMachine.Reaches Uninterrupted start s.advance :=
  .step .advance run trivial trivial rfl

/-- From the test of the row on, the steps end the call. -/
theorem reaches_testRow (run : terminalMachine.Reaches Uninterrupted start ⟨t, .testRow, rest⟩)
    : terminalMachine.Reaches Uninterrupted start
        ⟨
          if t.row = vgaHeight then { terminalScroll t with row := (terminalScroll t).row - 1 }
          else t,
          .idle,
          rest
        ⟩ := by
  have tested := advance_step run
  simp only [TerminalSession.advance] at tested
  split
  · next last =>
    rw [if_pos last] at tested
    exact advance_step (advance_step tested)
  · next more =>
    rwa [if_neg more] at tested

/-- The steps up to the test of the row write the character and move the cursor. -/
theorem reaches_putcharCell {c : Byte}
    (run : terminalMachine.Reaches Uninterrupted start ⟨t, .idle, c :: rest⟩)
    : terminalMachine.Reaches Uninterrupted start ⟨putcharCell t c, .testRow, rest⟩ := by
  have began := advance_step run
  simp only [TerminalSession.advance] at began
  by_cases newline : c = 0x0A
  · rw [if_pos newline] at began
    rw [newline]
    exact advance_step (advance_step began)
  · rw [if_neg newline] at began
    have tested
        : terminalMachine.Reaches Uninterrupted start
            ⟨
              terminalPutentryat { t with column := t.column + 1 } c t.color t.column t.row,
              if t.column + 1 = vgaWidth then .advanceRow else .testRow,
              rest
            ⟩ :=
      advance_step (advance_step (advance_step began))
    by_cases last : t.column + 1 = vgaWidth
    · rw [if_pos last] at tested
      rw [putcharCell_wrap newline last]
      exact advance_step (advance_step tested)
    · rw [if_neg last] at tested
      rwa [putcharCell_plain newline last]

/-- The steps of one character make up one call. -/
theorem reaches_putchar {c : Byte}
    (run : terminalMachine.Reaches Uninterrupted start ⟨t, .idle, c :: rest⟩)
    : terminalMachine.Reaches Uninterrupted start ⟨terminalPutchar t c, .idle, rest⟩ :=
  reaches_testRow (reaches_putcharCell run)

/-- Without interrupts the main program performs `terminal_write`. -/
theorem reaches_write (run : terminalMachine.Reaches Uninterrupted start ⟨t, .idle, rest⟩)
    : terminalMachine.Reaches Uninterrupted start ⟨terminalWritestring t rest, .idle, []⟩ := by
  rw [terminalWritestring, terminalWrite, List.take_length]
  induction rest generalizing t with
  | nil => exact run
  | cons c rest ih => exact ih (reaches_putchar run)

end Sequential

-----------------------------------------------------------------------------------------
-- Where the cursor stands before each step
-----------------------------------------------------------------------------------------

def PutcharStep.Cursor (row column : Nat) : PutcharStep → Prop
  | .idle | .bumpColumn _ => row < 25 ∧ column < 80
  | .writeCell _ x => row < 25 ∧ column ≤ 80 ∧ x.toNat < 80
  | .testColumn => row < 25 ∧ column ≤ 80
  | .advanceRow => row < 25 ∧ column ≤ 80 * 25
  | .resetColumn => row ≤ 25 ∧ column ≤ 80 * 25
  | .testRow => row ≤ 25 ∧ column < 80
  | .scroll | .retreatRow => row = 25 ∧ column < 80

structure TerminalSession.OnTrack (s : TerminalSession) : Prop where
  inside : s.tty.Inside
  cursor : s.next.Cursor s.tty.row.toNat s.tty.column.toNat

variable {s : TerminalSession} {t : Terminal} {c : Byte} {data : List Byte}

/-- A write begins on track, with the cursor on the screen. -/
theorem startWriting_onTrack (mem : Memory) (text : List Byte)
    : (startWriting mem text).OnTrack := by
  obtain ⟨inside, row, column⟩ := terminalInitialize_inBounds mem
  exact ⟨inside, row, column⟩

/-- A terminal that is on track is intact. -/
theorem TerminalSession.OnTrack.intact (onTrack : s.OnTrack) : s.Intact where
  inside := onTrack.inside
  cursor idle := by
    have cursor := onTrack.cursor
    rwa [idle] at cursor

/-- The steps of the main program keep to the track, one case for each. -/
theorem TerminalSession.OnTrack.advance (onTrack : s.OnTrack) : s.advance.OnTrack := by
  obtain ⟨t, next, pending⟩ := s
  obtain ⟨inside, cursor⟩ := onTrack
  cases next with
  | idle =>
      obtain ⟨low, left⟩ : t.row.toNat < 25 ∧ t.column.toNat < 80 := cursor
      cases pending with
      | nil => exact ⟨inside, low, left⟩
      | cons c rest =>
          refine ⟨inside, ?_⟩
          simp only [TerminalSession.advance]
          split
          · exact ⟨low, by omega⟩
          · exact ⟨low, left⟩
  | bumpColumn c =>
      obtain ⟨low, left⟩ : t.row.toNat < 25 ∧ t.column.toNat < 80 := cursor
      have moved : (t.column + 1).toNat ≤ 80 := by bv_omega
      exact ⟨inside, low, moved, left⟩
  | writeCell c x =>
      obtain ⟨low, left, cell⟩ : t.row.toNat < 25 ∧ t.column.toNat ≤ 80 ∧ x.toNat < 80 :=
        cursor
      have index : (t.row * vgaWidth + x).toNat < 80 * 25 := by
        rw [cellIndex_toNat (by omega)]
        omega
      exact ⟨inside.setCell index, low, left⟩
  | testColumn =>
      obtain ⟨low, left⟩ : t.row.toNat < 25 ∧ t.column.toNat ≤ 80 := cursor
      refine ⟨inside, ?_⟩
      simp only [TerminalSession.advance]
      split
      · exact ⟨low, by omega⟩
      · next more => exact ⟨by omega, by bv_omega⟩
  | advanceRow =>
      obtain ⟨low, left⟩ : t.row.toNat < 25 ∧ t.column.toNat ≤ 80 * 25 := cursor
      have moved : (t.row + 1).toNat ≤ 25 := by bv_omega
      exact ⟨inside, moved, left⟩
  | resetColumn =>
      obtain ⟨low, _⟩ : t.row.toNat ≤ 25 ∧ t.column.toNat ≤ 80 * 25 := cursor
      exact ⟨inside, low, (by decide : BitVec.toNat (0 : Word) < 80)⟩
  | testRow =>
      obtain ⟨low, left⟩ : t.row.toNat ≤ 25 ∧ t.column.toNat < 80 := cursor
      refine ⟨inside, ?_⟩
      simp only [TerminalSession.advance]
      split
      · next last => exact ⟨congrArg BitVec.toNat last, left⟩
      · next more => exact ⟨by bv_omega, left⟩
  | scroll =>
      obtain ⟨low, left⟩ : t.row.toNat = 25 ∧ t.column.toNat < 80 := cursor
      obtain ⟨inside', row, column⟩ := terminalScroll_draws inside
      refine ⟨inside', ?_⟩
      simp only [TerminalSession.advance, row, column]
      exact ⟨low, left⟩
  | retreatRow =>
      obtain ⟨low, left⟩ : t.row.toNat = 25 ∧ t.column.toNat < 80 := cursor
      have moved : (t.row - 1).toNat < 25 := by bv_omega
      exact ⟨inside, moved, left⟩

/-- Either the cursor stands on a cell, or the column is about to be reset and the text of
the handler still ends before the buffer does.
-/
def TerminalSession.Harmless (s : TerminalSession) : Prop :=
  s.tty.row.toNat < 25 ∧ s.tty.column.toNat < 80
  ∨ (s.next = .advanceRow ∨ s.next = .resetColumn)
    ∧ s.tty.row.toNat * 80 + s.tty.column.toNat + pressed.length ≤ 80 * 25

instance (s : TerminalSession) : Decidable s.Harmless :=
  inferInstanceAs (Decidable (_ ∨ _))

/-- Every interrupt of the run does no harm when it fires. -/
def HarmlessInterrupts (s : TerminalSession) : TerminalEvent → Prop
  | .advance => True
  | .keyboard => s.Harmless

instance (s : TerminalSession) (event : TerminalEvent)
    : Decidable (HarmlessInterrupts s event) :=
  match event with
  | .advance => inferInstanceAs (Decidable True)
  | .keyboard => inferInstanceAs (Decidable s.Harmless)

/-- On a cell the handler leaves the cursor on a cell, wherever the main program stands. -/
theorem PutcharStep.Cursor.moved {next : PutcharStep} {row column row' column' : Nat}
    (cursor : next.Cursor row column) (low : row < 25) (low' : row' < 25)
    (left' : column' < 80)
    : next.Cursor row' column' := by
  cases next with
  | idle | bumpColumn => exact ⟨low', left'⟩
  | writeCell => exact ⟨low', by omega, cursor.2.2⟩
  | testColumn | advanceRow => exact ⟨low', by omega⟩
  | resetColumn => exact ⟨by omega, by omega⟩
  | testRow => exact ⟨by omega, left'⟩
  | scroll | retreatRow =>
      obtain ⟨last, _⟩ : row = 25 ∧ column < 80 := cursor
      omega

/-- Behind the end of its row the cursor misses both tests. -/
theorem terminalPutchar_overrun (visible : c ≠ 0x0A) (inside : t.Inside)
    (beyond : 80 ≤ t.column.toNat) (room : t.row.toNat * 80 + t.column.toNat < 80 * 25)
    : (terminalPutchar t c).Inside
      ∧ (terminalPutchar t c).row = t.row
      ∧ (terminalPutchar t c).column.toNat = t.column.toNat + 1 := by
  have more : t.column + 1 ≠ vgaWidth := by bv_omega
  have above : t.row ≠ vgaHeight := by bv_omega
  have index : (t.row * vgaWidth + t.column).toNat < 80 * 25 := by
    rwa [cellIndex_toNat (by omega)]
  rw [terminalPutchar, putcharCell_plain visible more]
  have written
      : (t.setCell (t.row * vgaWidth + t.column) (vgaEntry c t.color)).Inside :=
    inside.setCell index
  simp only [Terminal.setCell, above, if_false]
  exact ⟨written, trivial, by bv_omega⟩

/-- Text without newlines then runs on from cell to cell, by induction on the text. -/
theorem terminalWrite_overrun (visible : ∀ c ∈ data, c ≠ 0x0A) (inside : t.Inside)
    (beyond : 80 ≤ t.column.toNat)
    (room : t.row.toNat * 80 + t.column.toNat + data.length ≤ 80 * 25)
    : (data.foldl terminalPutchar t).Inside
      ∧ (data.foldl terminalPutchar t).row = t.row
      ∧ (data.foldl terminalPutchar t).column.toNat = t.column.toNat + data.length := by
  induction data generalizing t with
  | nil => exact ⟨inside, rfl, rfl⟩
  | cons c rest ih =>
      rw [List.length_cons] at room ⊢
      obtain ⟨inside', row, column⟩ :=
        terminalPutchar_overrun (visible c (by simp)) inside beyond (by omega)
      have later := ih (fun c member => visible c (by simp [member])) inside' (by omega)
        (by rw [row]; omega)
      rw [List.foldl_cons]
      refine ⟨later.1, later.2.1.trans row, ?_⟩
      rw [later.2.2, column]
      omega

/-- Between two characters the handler finds the cursor in bounds and leaves it there. -/
theorem keyboardHandler_inBounds (bounds : t.InBounds) : (keyboardHandler t).InBounds :=
  bounds.terminalWrite pressed pressed.length

/-- In the last column, before the line is wrapped, it writes into the next line; this stays on
the screen if there is room.
-/
theorem keyboardHandler_overrun (inside : t.Inside) (beyond : 80 ≤ t.column.toNat)
    (room : t.row.toNat * 80 + t.column.toNat + pressed.length ≤ 80 * 25)
    : (keyboardHandler t).Inside
      ∧ (keyboardHandler t).row = t.row
      ∧ (keyboardHandler t).column.toNat = t.column.toNat + pressed.length := by
  have visible : ∀ c ∈ pressed, c ≠ 0x0A := by decide
  rw [keyboardHandler, terminalWritestring, terminalWrite, List.take_length]
  exact terminalWrite_overrun visible inside beyond room

/-- A handler that does no harm leaves the terminal on track. -/
theorem TerminalSession.OnTrack.keyboard (onTrack : s.OnTrack) (harmless : s.Harmless)
    : (s.exec .keyboard).OnTrack := by
  obtain ⟨t, next, pending⟩ := s
  obtain ⟨inside, cursor⟩ := onTrack
  have onCell := keyboardHandler_inBounds (t := t)
  have overrun := keyboardHandler_overrun (t := t)
  change TerminalSession.OnTrack ⟨keyboardHandler t, next, pending⟩
  generalize keyboardHandler t = t' at onCell overrun ⊢
  by_cases cell : t.row.toNat < 25 ∧ t.column.toNat < 80
  · obtain ⟨low, left⟩ := cell
    have moved := onCell ⟨inside, low, left⟩
    exact ⟨moved.inside, cursor.moved low moved.row moved.column⟩
  · obtain ⟨stage, room⟩ := harmless.resolve_left cell
    have size : pressed.length = 7 := rfl
    simp only [size] at room overrun
    obtain ⟨inside', row, column⟩ := overrun inside (by omega) room
    refine ⟨inside', ?_⟩
    simp only [row, column]
    rcases stage with rfl | rfl
    · exact ⟨by omega, by omega⟩
    · exact ⟨by omega, by omega⟩

/-- So does a whole run whose interrupts do none, by induction on it. -/
theorem TerminalSession.OnTrack.reaches_harmless (onTrack : s.OnTrack)
    (run : terminalMachine.Reaches HarmlessInterrupts s s')
    : s'.OnTrack := by
  refine run.invariant onTrack ?_
  rintro s s' event onTrack _ guarded returned
  obtain rfl := Option.some.inj returned
  cases event with
  | advance => exact onTrack.advance
  | keyboard => exact onTrack.keyboard guarded

-----------------------------------------------------------------------------------------
-- Every other interrupt does harm
-----------------------------------------------------------------------------------------

/-- Text that starts outside the buffer writes outside it. -/
theorem terminalWrite_outside (visible : c ≠ 0x0A)
    (outside : 80 * 25 ≤ t.row.toNat * 80 + t.column.toNat)
    (bounded : t.row.toNat * 80 + t.column.toNat < 2 ^ 32)
    : ¬((c :: data).foldl terminalPutchar t).Inside := by
  intro inside
  have cell := inside _ (written_subset_write _ data (cell_mem_written visible))
  rw [cellIndex_toNat bounded] at cell
  omega

/-- Text that starts behind the end of its row and is longer than the rest of the buffer
leaves the buffer, by induction on the text.
-/
theorem terminalWrite_leaves (visible : ∀ c ∈ data, c ≠ 0x0A) (inside : t.Inside)
    (beyond : 80 ≤ t.column.toNat) (room : t.row.toNat * 80 + t.column.toNat ≤ 80 * 25)
    (long : 80 * 25 < t.row.toNat * 80 + t.column.toNat + data.length)
    : ¬(data.foldl terminalPutchar t).Inside := by
  induction data generalizing t with
  | nil => exact absurd long (by simpa using room)
  | cons c rest ih =>
      rcases Nat.lt_or_eq_of_le room with more | last
      · obtain ⟨inside', row, column⟩ :=
          terminalPutchar_overrun (visible c (by simp)) inside beyond more
        rw [List.length_cons] at long
        exact ih (fun c member => visible c (by simp [member])) inside' (by omega)
          (by rw [row]; omega) (by rw [row]; omega)
      · exact terminalWrite_outside (visible c (by simp)) last.ge (by omega)

/-- A handler that does harm writes behind the screen: below its last line, or over its end. -/
theorem keyboardHandler_outside (inside : t.Inside) (low : t.row.toNat ≤ 25)
    (narrow : t.column.toNat ≤ 80 * 25)
    (harm
      : t.row.toNat = 25
        ∨ 80 ≤ t.column.toNat
          ∧ 80 * 25 < t.row.toNat * 80 + t.column.toNat + pressed.length)
    : ¬(keyboardHandler t).Inside := by
  have visible : ∀ c ∈ pressed, c ≠ 0x0A := by decide
  rw [keyboardHandler, terminalWritestring, terminalWrite, List.take_length]
  rcases Nat.lt_or_ge (t.row.toNat * 80 + t.column.toNat) (80 * 25) with within | outside
  · obtain ⟨beyond, long⟩ := harm.resolve_left (by omega)
    exact terminalWrite_leaves visible inside beyond within.le long
  · exact terminalWrite_outside (visible 0x70 (by decide)) outside (by omega)

/-- A column past the end of the row is missed by its test and stays there. -/
theorem testColumn_misses {start : TerminalSession} {pending : List Byte}
    (run : terminalMachine.Reaches Uninterrupted start ⟨t, .testColumn, pending⟩)
    (low : t.row.toNat < 25) (beyond : 80 < t.column.toNat)
    : ∃ s', terminalMachine.Reaches Uninterrupted start s' ∧ ¬s'.Intact := by
  have more : t.column ≠ vgaWidth := by bv_omega
  have above : t.row ≠ vgaHeight := by bv_omega
  have ended := advance_step (advance_step run)
  simp only [TerminalSession.advance, more, above, if_false] at ended
  refine ⟨_, ended, fun intact => ?_⟩
  have cursor := (intact.cursor rfl).2
  simp only at cursor
  omega

/-- After any other interrupt the main program ends up with a terminal that is not intact,
even if no further one fires.
-/
theorem TerminalSession.OnTrack.harmed (onTrack : s.OnTrack) (harm : ¬s.Harmless)
    : ∃ s',
        terminalMachine.Reaches Uninterrupted (s.exec .keyboard) s' ∧ ¬s'.Intact := by
  obtain ⟨t, next, pending⟩ := s
  obtain ⟨inside, cursor⟩ := onTrack
  have outside := keyboardHandler_outside inside
  have overrun := keyboardHandler_overrun inside
  have size : pressed.length = 7 := rfl
  simp only [size] at outside overrun
  change ∃ s',
    terminalMachine.Reaches Uninterrupted ⟨keyboardHandler t, next, pending⟩ s' ∧ ¬s'.Intact
  generalize keyboardHandler t = t' at outside overrun ⊢
  simp only [TerminalSession.Harmless, not_or, not_and, size] at harm
  obtain ⟨offCell, offStage⟩ := harm
  have leaves (left : ¬t'.Inside)
      : ∃ s', terminalMachine.Reaches Uninterrupted ⟨t', next, pending⟩ s' ∧ ¬s'.Intact :=
    ⟨_, .refl, fun intact => left intact.inside⟩
  -- a full row that has not been tested yet
  have full (low : t.row.toNat < 25) (last : t.column.toNat = 80)
      : ¬t'.Inside ∨ t'.row.toNat < 25 ∧ 80 < t'.column.toNat := by
    rcases Nat.lt_or_ge (80 * 25) (t.row.toNat * 80 + t.column.toNat + 7) with long | room
    · exact Or.inl (outside (by omega) (by omega) (Or.inr ⟨by omega, long⟩))
    · obtain ⟨_, row, column⟩ := overrun (by omega) room
      exact Or.inr ⟨by rwa [row], by omega⟩
  cases next with
  | idle | bumpColumn => exact absurd cursor.2 (offCell cursor.1)
  | writeCell c x =>
      obtain ⟨low, narrow, _⟩ : t.row.toNat < 25 ∧ t.column.toNat ≤ 80 ∧ x.toNat < 80 :=
        cursor
      have beyond := offCell low
      rcases full low (by omega) with left | ⟨row, column⟩
      · exact leaves left
      · exact testColumn_misses (advance_step .refl) row column
  | testColumn =>
      obtain ⟨low, narrow⟩ : t.row.toNat < 25 ∧ t.column.toNat ≤ 80 := cursor
      have beyond := offCell low
      rcases full low (by omega) with left | ⟨row, column⟩
      · exact leaves left
      · exact testColumn_misses .refl row column
  | advanceRow =>
      obtain ⟨low, narrow⟩ : t.row.toNat < 25 ∧ t.column.toNat ≤ 80 * 25 := cursor
      have long := offStage (by simp)
      have beyond := offCell low
      exact leaves (outside (by omega) narrow (Or.inr ⟨by omega, by omega⟩))
  | resetColumn =>
      obtain ⟨low, narrow⟩ : t.row.toNat ≤ 25 ∧ t.column.toNat ≤ 80 * 25 := cursor
      have long := offStage (by simp)
      refine leaves (outside low narrow ?_)
      omega
  | testRow =>
      obtain ⟨low, left⟩ : t.row.toNat ≤ 25 ∧ t.column.toNat < 80 := cursor
      refine leaves (outside low (by omega) ?_)
      omega
  | scroll | retreatRow =>
      obtain ⟨low, left⟩ : t.row.toNat = 25 ∧ t.column.toNat < 80 := cursor
      exact leaves (outside (by omega) (by omega) (Or.inl low))

/-- In every run whose interrupts all fire where they do no harm the terminal stays intact.
One more interrupt is harmless exactly when the main program can go on from it undisturbed
with the terminal intact.
-/
theorem terminal_intact_iff {mem : Memory} {text : List Byte}
    (run : terminalMachine.Reaches HarmlessInterrupts (startWriting mem text) s)
    : s.Intact
      ∧ (s.Harmless
        ↔ ∀ s',
            terminalMachine.Reaches Uninterrupted (s.exec .keyboard) s' → s'.Intact) := by
  have onTrack := (startWriting_onTrack mem text).reaches_harmless run
  refine ⟨onTrack.intact, ?_, ?_⟩
  · intro harmless s' rest
    have quiet : terminalMachine.Reaches HarmlessInterrupts (s.exec .keyboard) s' := by
      refine rest.weaken ?_
      rintro _ event _ alone
      cases event with
      | advance => trivial
      | keyboard => exact alone.elim
    exact ((onTrack.keyboard harmless).reaches_harmless quiet).intact
  · intro intact
    by_contra harm
    obtain ⟨s', rest, broken⟩ := onTrack.harmed harm
    exact broken (intact s' rest)

/-- Eleven key presses, then the main program writes up to the increment of the column that
fills the row.
-/
def fillRow : List TerminalEvent :=
  List.replicate 11 .keyboard ++ List.replicate 12 .advance

/-- An interrupt is harmless exactly if the terminal stays intact behind it. Witness: one that
finds the first line full and not yet wrapped.
-/
theorem terminal_intact_fullRow
    : ∃ s : TerminalSession,
        s.tty.column = 80
        ∧ s.Intact
        ∧ (s.Harmless
          ↔ ∀ s',
              terminalMachine.Reaches Uninterrupted (s.exec .keyboard) s' → s'.Intact) := by
  have replayed
      : (terminalMachine.replay HarmlessInterrupts fillRow
          (startWriting (fun _ => 0) [0x61, 0x61, 0x61])).map (fun s => s.tty.column)
        = some 80 := by
    decide +kernel
  obtain ⟨s, reached, column⟩ := Option.map_eq_some_iff.mp replayed
  exact ⟨s, column, terminal_intact_iff (Machine.Reaches.refl.replay reached)⟩

/-- A key may be echoed between the two halves of a character's output. Counterexample: one
pressed before the test of the column leaves the cursor at column 87.
-/
theorem not_terminal_intact_fullRow
    : ¬∀ (mem : Memory) (text : List Byte) (s : TerminalSession),
        terminalMachine.Reaches AnyEvent (startWriting mem text) s → s.Intact := by
  intro claim
  have replayed
      : (terminalMachine.replay AnyEvent
          (fillRow ++ [.keyboard, .advance, .advance, .advance])
          (startWriting (fun _ => 0) [0x61, 0x61, 0x61])).map
            (fun s => (s.next, s.tty.column))
        = some (.idle, 87) := by
    decide +kernel
  obtain ⟨s, reached, ended⟩ := Option.map_eq_some_iff.mp replayed
  obtain ⟨idle, column⟩ := Prod.mk.inj ended
  have intact := claim (fun _ => 0) [0x61, 0x61, 0x61] s
    (Machine.Reaches.refl.replay reached)
  have cell := (intact.cursor idle).2
  rw [column] at cell
  exact absurd cell (by decide)

end SimpleKernel
