import SimpleKernel.Libc.Bytes
import SimpleKernel.Limits

/-! The text terminal: a cursor and a buffer of 25 rows of 80 cells in video memory.
A C string is given by its characters before the terminating NUL.
-/

namespace SimpleKernel

open ByteMemory

abbrev vgaWidth : Word := 80

abbrev vgaHeight : Word := 25

abbrev vgaMemory : Addr := 0xC03FE000

inductive VgaColor
  | black
  | blue
  | green
  | cyan
  | red
  | magenta
  | brown
  | lightGrey
  | darkGrey
  | lightBlue
  | lightGreen
  | lightCyan
  | lightRed
  | lightMagenta
  | lightBrown
  | white
  deriving DecidableEq

/-- The colours count up from `VGA_COLOR_BLACK = 0`. -/
def VgaColor.code (color : VgaColor) : Byte :=
  BitVec.ofNat 8 color.ctorIdx

def vgaEntryColor (fg bg : VgaColor) : Byte :=
  fg.code ||| bg.code <<< 4

def vgaEntry (uc color : Byte) : BitVec 16 :=
  uc.setWidth 16 ||| color.setWidth 16 <<< 8

structure Terminal where
  row : Word
  column : Word
  color : Byte
  buffer : Addr
  mem : Memory
  /-- The indices of the cells written so far, in order. -/
  written : List Word

/-- The static variables of the terminal before `terminal_initialize`. -/
def unsetTerminal (mem : Memory) : Terminal where
  row := 0
  column := 0
  color := 0
  buffer := null
  mem := mem
  written := []

/-- `terminal_buffer[index] = entry`. -/
def Terminal.setCell (t : Terminal) (index : Word) (entry : BitVec 16) : Terminal :=
  {
    t with
    mem := t.mem.store16 (t.buffer + 2 * index) entry
    written := t.written ++ [index]
  }

/-- The loop `for(i = 0; i < count; i++)`. -/
def countedLoop (count : Word) (body : Terminal → Word → Terminal) (t : Terminal)
    : Terminal :=
  (List.range count.toNat).foldl (fun t i => body t (BitVec.ofNat 32 i)) t

def terminalInitialize (t : Terminal) : Terminal :=
  let t :=
    {
      t with
      row := 0
      column := 0
      color := vgaEntryColor .lightGrey .black
      buffer := vgaMemory
    }
  countedLoop vgaHeight
    (fun t y =>
      countedLoop vgaWidth
        (fun t x => t.setCell (y * vgaWidth + x) (vgaEntry 0x20 t.color)) t)
    t

def terminalSetcolor (t : Terminal) (color : Byte) : Terminal :=
  { t with color := color }

def terminalPutentryat (t : Terminal) (c color : Byte) (x y : Word) : Terminal :=
  t.setCell (y * vgaWidth + x) (vgaEntry c color)

def terminalDeleteLastLine (t : Terminal) : Terminal :=
  countedLoop vgaWidth
    (fun t i => t.setCell (vgaWidth * (vgaHeight - 1) + i) (vgaEntry 0x20 t.color)) t

/-- `memcpy` of one line of cells to the cells from index `dest` upwards. -/
def copyLine (t : Terminal) (dest src : Word) : Terminal :=
  {
    t with
    mem := memcpy t.mem (t.buffer + 2 * dest) (t.buffer + 2 * src) (vgaWidth * 2)
    written := t.written ++ (List.range vgaWidth.toNat).map (fun i => dest + BitVec.ofNat 32 i)
  }

def terminalScroll (t : Terminal) : Terminal :=
  terminalDeleteLastLine
    (countedLoop (vgaHeight - 1)
      (fun t i => copyLine t (vgaWidth * i) (vgaWidth * (i + 1))) t)

/-- `terminal_putchar` up to its test of the row. -/
def putcharCell (t : Terminal) (c : Byte) : Terminal :=
  if c = 0x0A then { t with row := t.row + 1, column := 0 }
  else
    let x := t.column
    let t := terminalPutentryat { t with column := x + 1 } c t.color x t.row
    if t.column = vgaWidth then { t with row := t.row + 1, column := 0 } else t

def terminalPutchar (t : Terminal) (c : Byte) : Terminal :=
  let t := putcharCell t c
  if t.row = vgaHeight then
    let t := terminalScroll t
    { t with row := t.row - 1 }
  else t

def terminalWrite (t : Terminal) (data : List Byte) (size : Nat) : Terminal :=
  (data.take size).foldl terminalPutchar t

def terminalWritestring (t : Terminal) (data : List Byte) : Terminal :=
  terminalWrite t data data.length

-----------------------------------------------------------------------------------------
-- The cursor stays inside the buffer
-----------------------------------------------------------------------------------------

/-- Every cell written so far is one of the 25 rows of 80. -/
def Terminal.Inside (t : Terminal) : Prop :=
  ∀ index ∈ t.written, index.toNat < 80 * 25

structure Terminal.InBounds (t : Terminal) : Prop where
  inside : t.Inside
  row : t.row.toNat < 25
  column : t.column.toNat < 80

variable {t : Terminal}

/-- The index of a line does not wrap. -/
theorem lineIndex_toNat {y : Word} (bounded : y.toNat * 80 < 2 ^ 32)
    : (y * vgaWidth).toNat = y.toNat * 80 := by
  rw [BitVec.toNat_mul, show vgaWidth.toNat = 80 from rfl, Nat.mod_eq_of_lt bounded]

/-- Nor does that of a cell. -/
theorem cellIndex_toNat {x y : Word} (bounded : y.toNat * 80 + x.toNat < 2 ^ 32)
    : (y * vgaWidth + x).toNat = y.toNat * 80 + x.toNat := by
  rw [BitVec.toNat_add, lineIndex_toNat (by omega), Nat.mod_eq_of_lt bounded]

/-- What holds before each round of a loop, by induction on the rounds. -/
theorem countedLoop_induction (Inv : Nat → Terminal → Prop) {count : Word}
    {body : Terminal → Word → Terminal}
    (round : ∀ t i, i.toNat < count.toNat → Inv i.toNat t → Inv (i.toNat + 1) (body t i))
    (initially : Inv 0 t)
    : Inv count.toNat (countedLoop count body t) := by
  rw [countedLoop]
  have prefixes (n : Nat) (le : n ≤ count.toNat)
      : Inv n ((List.range n).foldl (fun t i => body t (BitVec.ofNat 32 i)) t) := by
    induction n with
    | zero => exact initially
    | succ n ih =>
        have index : (BitVec.ofNat 32 n).toNat = n := Nat.mod_eq_of_lt (by omega)
        have next := round _ (BitVec.ofNat 32 n) (by omega) (by rw [index]; exact ih (by omega))
        rw [index] at next
        rw [List.range_succ, List.foldl_append]
        exact next
  exact prefixes _ le_rfl

/-- What every round of a loop keeps, the loop keeps. -/
theorem countedLoop_invariant (Inv : Terminal → Prop) {count : Word}
    {body : Terminal → Word → Terminal}
    (round : ∀ t i, i.toNat < count.toNat → Inv t → Inv (body t i)) (initially : Inv t)
    : Inv (countedLoop count body t) :=
  countedLoop_induction (fun _ => Inv) round initially

/-- A cell on the screen is written inside the buffer. -/
theorem Terminal.Inside.setCell (inside : t.Inside) {index : Word} {entry : BitVec 16}
    (within : index.toNat < 80 * 25)
    : (t.setCell index entry).Inside := by
  intro written member
  rcases List.mem_append.mp member with earlier | now
  · exact inside written earlier
  · rwa [List.mem_singleton.mp now]

/-- A line copied onto the screen stays inside it. -/
theorem Terminal.Inside.copyLine (inside : t.Inside) {dest src : Word}
    (within : dest.toNat + 80 ≤ 80 * 25)
    : (copyLine t dest src).Inside := by
  intro written member
  rcases List.mem_append.mp member with earlier | now
  · exact inside written earlier
  · obtain ⟨i, listed, rfl⟩ := List.mem_map.mp now
    have small : i < 80 := List.mem_range.mp listed
    bv_omega

/-- What drawing leaves of the terminal: it writes cells of the buffer only, and the cursor
stays where it is.
-/
structure Terminal.Draws (t t' : Terminal) : Prop where
  inside : t'.Inside
  row : t'.row = t.row
  column : t'.column = t.column

/-- Scrolling draws on the screen only: 24 lines move up and the last one is blanked. -/
theorem terminalScroll_draws (inside : t.Inside) : t.Draws (terminalScroll t) := by
  rw [terminalScroll, terminalDeleteLastLine]
  refine countedLoop_invariant t.Draws ?_ (countedLoop_invariant t.Draws ?_ ⟨inside, rfl, rfl⟩)
  · rintro t' i below ⟨inside', row, column⟩
    refine ⟨inside'.setCell ?_, row, column⟩
    bv_omega
  · rintro t' i below ⟨inside', row, column⟩
    have small : i.toNat < 24 := below
    refine ⟨inside'.copyLine ?_, row, column⟩
    rw [BitVec.mul_comm, lineIndex_toNat (by omega)]
    omega

/-- The cursor starts in bounds. -/
theorem terminalInitialize_inBounds (mem : Memory)
    : (terminalInitialize (unsetTerminal mem)).InBounds := by
  have start : (unsetTerminal mem).Draws (terminalInitialize (unsetTerminal mem)) := by
    rw [terminalInitialize]
    refine countedLoop_invariant (unsetTerminal mem).Draws ?_ ?_
    · rintro t y below drawn
      refine countedLoop_invariant (unsetTerminal mem).Draws ?_ drawn
      rintro t x beside ⟨inside, row, column⟩
      have low : y.toNat < 25 := below
      have left : x.toNat < 80 := beside
      refine ⟨inside.setCell ?_, row, column⟩
      rw [cellIndex_toNat (by omega)]
      omega
    · exact ⟨by simp [unsetTerminal, Terminal.Inside], rfl, rfl⟩
  have row : (terminalInitialize (unsetTerminal mem)).row = 0 := start.row
  have column : (terminalInitialize (unsetTerminal mem)).column = 0 := start.column
  refine ⟨start.inside, ?_, ?_⟩
  · rw [row]
    decide
  · rw [column]
    decide

/-- A newline moves the cursor to the next line. -/
theorem putcharCell_newline
    : putcharCell t 0x0A = { t with row := t.row + 1, column := 0 } :=
  rfl

/-- A character in the last column wraps the line. -/
theorem putcharCell_wrap {c : Byte} (visible : c ≠ 0x0A) (last : t.column + 1 = vgaWidth)
    : putcharCell t c
      = {
          t.setCell (t.row * vgaWidth + t.column) (vgaEntry c t.color) with
          row := t.row + 1
          column := 0
        } := by
  rw [putcharCell, if_neg visible]
  exact if_pos last

/-- Any other moves the cursor by one. -/
theorem putcharCell_plain {c : Byte} (visible : c ≠ 0x0A) (more : t.column + 1 ≠ vgaWidth)
    : putcharCell t c
      = {
          t.setCell (t.row * vgaWidth + t.column) (vgaEntry c t.color) with
          column := t.column + 1
        } := by
  rw [putcharCell, if_neg visible]
  exact if_neg more

/-- Before the test of the row the cursor may stand behind the last row. -/
theorem putcharCell_bounds (bounds : t.InBounds) (c : Byte)
    : (putcharCell t c).Inside
      ∧ (putcharCell t c).row.toNat ≤ 25
      ∧ (putcharCell t c).column.toNat < 80 := by
  obtain ⟨inside, row, column⟩ := bounds
  have below : (t.row + 1).toNat ≤ 25 := by bv_omega
  by_cases newline : c = 0x0A
  · rw [newline, putcharCell_newline]
    exact ⟨inside, below, by simp⟩
  · have cell : (t.row * vgaWidth + t.column).toNat < 80 * 25 := by
      rw [cellIndex_toNat (by omega)]
      omega
    have written
        : (t.setCell (t.row * vgaWidth + t.column) (vgaEntry c t.color)).Inside :=
      inside.setCell cell
    by_cases last : t.column + 1 = vgaWidth
    · rw [putcharCell_wrap newline last]
      exact ⟨written, below, by simp⟩
    · rw [putcharCell_plain newline last]
      have more : (t.column + 1).toNat < 80 := by bv_omega
      have above : t.row.toNat ≤ 25 := by omega
      exact ⟨written, above, more⟩

/-- One character keeps the cursor inside the buffer, whatever it is. -/
theorem Terminal.InBounds.terminalPutchar (bounds : t.InBounds) (c : Byte)
    : (terminalPutchar t c).InBounds := by
  obtain ⟨inside, row, column⟩ := putcharCell_bounds bounds c
  simp only [SimpleKernel.terminalPutchar]
  split
  · next last =>
    have drawn := terminalScroll_draws inside
    refine ⟨drawn.inside, ?_, by rwa [drawn.column]⟩
    simp only [drawn.row, last]
    decide
  · next more => exact ⟨inside, by bv_omega, column⟩

/-- A whole write keeps the cursor in bounds, by induction on its characters. -/
theorem Terminal.InBounds.terminalWrite (bounds : t.InBounds) (data : List Byte)
    (size : Nat)
    : (terminalWrite t data size).InBounds := by
  rw [SimpleKernel.terminalWrite]
  induction data.take size generalizing t with
  | nil => exact bounds
  | cons c rest ih => exact ih (bounds.terminalPutchar c)

/-- A loop takes no write back. -/
theorem written_subset_countedLoop {count : Word} {body : Terminal → Word → Terminal}
    (round : ∀ t i, t.written ⊆ (body t i).written)
    : t.written ⊆ (countedLoop count body t).written :=
  countedLoop_invariant (fun t' => t.written ⊆ t'.written)
    (fun t' i _ earlier => List.Subset.trans earlier (round t' i)) (List.Subset.refl _)

theorem written_subset_putchar (t : Terminal) (c : Byte)
    : (putcharCell t c).written ⊆ (terminalPutchar t c).written := by
  have scrolled : (putcharCell t c).written ⊆ (terminalScroll (putcharCell t c)).written := by
    rw [terminalScroll, terminalDeleteLastLine]
    refine List.Subset.trans (written_subset_countedLoop ?_) (written_subset_countedLoop ?_)
    · exact fun t i => List.subset_append_left _ _
    · exact fun t i => List.subset_append_left _ _
  simp only [terminalPutchar]
  split
  · exact scrolled
  · exact List.Subset.refl _

theorem written_subset_putcharCell (t : Terminal) (c : Byte)
    : t.written ⊆ (putcharCell t c).written := by
  simp only [putcharCell]
  split
  · exact List.Subset.refl _
  · split <;> exact List.subset_append_left _ _

theorem written_subset_write (t : Terminal) (data : List Byte)
    : t.written ⊆ (data.foldl terminalPutchar t).written := by
  induction data generalizing t with
  | nil => exact List.Subset.refl _
  | cons c rest ih =>
      have first := List.Subset.trans (written_subset_putcharCell t c)
        (written_subset_putchar t c)
      exact List.Subset.trans first (ih (terminalPutchar t c))

/-- A character that is no newline goes to the cell under the cursor. -/
theorem cell_mem_written {c : Byte} (visible : c ≠ 0x0A)
    : t.row * vgaWidth + t.column ∈ (terminalPutchar t c).written := by
  refine written_subset_putchar t c ?_
  by_cases last : t.column + 1 = vgaWidth
  · rw [putcharCell_wrap visible last]
    exact List.mem_append_right _ (by simp)
  · rw [putcharCell_plain visible last]
    exact List.mem_append_right _ (by simp)

end SimpleKernel
