import SimpleKernel.Libc.Printf
import SimpleKernel.Terminal.Numbers

/-! Printing from memory.
The terminal reads its strings from the memory that its buffer is part of. Each character is
read after those before it were drawn, so a string may change while it is printed, unless
all of it lies outside the screen.
-/

namespace SimpleKernel

open ByteMemory

/-- `terminal_write` from index `i` on, with `rounds` bytes left. -/
def terminalWriteFrom (data : Addr) : Nat → Word → Terminal → Terminal
  | 0, _, t => t
  | rounds + 1, i, t =>
      terminalWriteFrom data rounds (i + 1) (terminalPutchar t (t.mem (data + i)))

def terminalWriteAt (t : Terminal) (data : Addr) (size : Word) : Terminal :=
  terminalWriteFrom data size.toNat 0 t

/-- `none` for a string that does not end. -/
def terminalWritestringAt (t : Terminal) (data : Addr) : Option Terminal :=
  (strlen t.mem data).map (terminalWriteAt t data)

/-- `putchar` writes the one character of a variable of its own. -/
def putcharTo (t : Terminal) (ca : Int) : Terminal × Int :=
  let (c, result) := putchar ca
  (terminalWrite t [c] 1, result)

/-- The loop of `print` from index `i` on. The bytes are those of the memory at the time. -/
def printToFrom (data : Memory → Word → Byte) : Nat → Word → Terminal → Bool × Terminal
  | 0, _, t => (true, t)
  | rounds + 1, i, t =>
      let (t, result) := putcharTo t (data t.mem i).toNat
      if result = eof then (false, t) else printToFrom data rounds (i + 1) t

def printTo (t : Terminal) (data : Memory → Word → Byte) (length : Word) : Bool × Terminal :=
  printToFrom data length.toNat 0 t

/-- What a round of `printf` has found when it comes to print. -/
inductive PrintfAction
  | finish
  /-- The format and the arguments behind the piece, whether there is no room for it, and the
  piece. -/
  | emit (format : Addr) (parameters : List Word) (full : Bool) (data : Memory → Word → Byte)
    (amount : Word)

/-- A round of `printf` up to its output. -/
def printfAction (m : Memory) (format : Addr) (parameters : List Word) (written : Word)
    : Option PrintfAction :=
  if m format = 0 then some .finish
  else
    let maxrem := intMax - written
    if m format ≠ percent ∨ m (format + 1) = percent then
      let format := if m format = percent then format + 1 else format
      (amountFrom m format stringRounds 1).map (fun amount =>
        .emit (format + amount) parameters (maxrem < amount) (fun m i => m (format + i)) amount)
    else
      let begun := format
      let format := format + 1
      if m format = letterC then
        match parameters with
        | [] => none
        | c :: parameters =>
            some (.emit (format + 1) parameters (maxrem = 0) (fun _ _ => c.setWidth 8) 1)
      else if m format = letterS then
        match parameters with
        | [] => none
        | str :: parameters =>
            (strlen m str).map (fun len =>
              .emit (format + 1) parameters (maxrem < len) (fun m i => m (str + i)) len)
      else
        (strlen m begun).map (fun len =>
          .emit (begun + len) parameters (maxrem < len) (fun m i => m (begun + i)) len)

/-- `printf` with `rounds` rounds of its loop left. -/
def printfTo : Nat → Terminal → Addr → List Word → Word → Option (Word × Terminal)
  | 0, _, _, _, _ => none
  | rounds + 1, t, format, parameters, written =>
      match printfAction t.mem format parameters written with
      | none => none
      | some .finish => some (written, t)
      | some (.emit format parameters full data amount) =>
          if full then some (-1, t)
          else
            match printTo t data amount with
            | (false, t) => some (-1, t)
            | (true, t) => printfTo rounds t format parameters (written + amount)

/-- `printf` on the terminal. -/
def consolePrintf (t : Terminal) (format : Addr) (parameters : List Word)
    : Option (Word × Terminal) :=
  printfTo stringRounds t format parameters 0

-----------------------------------------------------------------------------------------
-- Strings outside the screen
-----------------------------------------------------------------------------------------

/-- The memory differs in the screen at most. -/
def AgreesOffscreen (m mem : Memory) : Prop :=
  ∀ x, OutsideScreen x → m x = mem x

/-- No character of the string is shown on the screen, nor is its terminator. -/
structure OffscreenString (m : Memory) (str : Addr) (chars : List Byte) : Prop where
  string : CString m str chars
  outside : ∀ n ≤ chars.length, OutsideScreen (str + BitVec.ofNat 32 n)

/-- The word passes an argument that does not lie on the screen. -/
def PassesOffscreen (m : Memory) : PrintfArg → Word → Prop
  | .char c, word => word.setWidth 8 = c
  | .string chars, word => OffscreenString m word chars

variable {m mem : Memory} {t : Terminal} {text : Text} {str format : Addr}
  {chars rest piece : List Byte} {args : List PrintfArg} {parameters : List Word}
  {written amount : Word} {data : Memory → Word → Byte} {s : Printf}

/-- The string reads the same, whatever the screen shows. -/
theorem OffscreenString.congr (off : OffscreenString mem str chars)
    (agrees : AgreesOffscreen m mem)
    : CString m str chars :=
  off.string.congr (fun n le => agrees _ (off.outside n le))

/-- The rest of a string is off the screen as well. -/
theorem OffscreenString.suffix (off : OffscreenString mem str (piece ++ rest))
    : OffscreenString mem (str + BitVec.ofNat 32 piece.length) rest where
  string := off.string.suffix
  outside n le := by
    rw [BitVec.add_assoc, ← BitVec.ofNat_add]
    exact off.outside _ (by rw [List.length_append]; omega)

theorem OffscreenString.tail {char : Byte} (off : OffscreenString mem str (char :: rest))
    : OffscreenString mem (str + 1) rest :=
  (show OffscreenString mem str ([char] ++ rest) from off).suffix

/-- The first character is read whatever the screen shows meanwhile. -/
theorem OffscreenString.head {char : Byte} (off : OffscreenString mem str (char :: rest))
    (agrees : AgreesOffscreen m mem)
    : m str = char ∧ char ≠ 0 := by
  cases off.congr agrees with
  | cons here nonzero => exact ⟨here, nonzero⟩

/-- So is the terminator. -/
theorem OffscreenString.terminator (off : OffscreenString mem str [])
    (agrees : AgreesOffscreen m mem)
    : m str = 0 := by
  cases off.congr agrees with
  | nil terminator => exact terminator

theorem PassesOffscreen.passes {arg : PrintfArg} {word : Word}
    (passes : PassesOffscreen mem arg word)
    : Passes mem arg word := by
  cases arg with
  | char c => exact passes
  | string chars => exact OffscreenString.string passes

/-- The terminal draws on the screen only. -/
theorem Terminal.Tracks.agrees (tracks : t.Tracks mem text) : AgreesOffscreen t.mem mem :=
  tracks.outside

-----------------------------------------------------------------------------------------
-- What a round finds
-----------------------------------------------------------------------------------------

/-- The format and the strings that are still to be printed lie outside the screen. -/
structure Printable (mem : Memory) (format : Addr) (parameters : List Word) (rest : List Byte)
    (args : List PrintfArg)
    : Prop where
  format : OffscreenString mem format rest
  passed : List.Forall₂ (PassesOffscreen mem) args parameters
  expands : ∃ text, expand rest args = some text

/-- The characters of a piece, as they are before any of them is drawn. -/
def pieceChars (mem : Memory) (data : Memory → Word → Byte) (length : Nat) : List Byte :=
  (List.range length).map (fun n => data mem (BitVec.ofNat 32 n))

/-- A piece that reads the same however much of it has been drawn. -/
def SteadyPiece (mem : Memory) (data : Memory → Word → Byte) (length : Nat) : Prop :=
  ∀ m,
    AgreesOffscreen m mem
    → ∀ n < length, data m (BitVec.ofNat 32 n) = data mem (BitVec.ofNat 32 n)

/-- The piece that is to be printed next is steady, and so is what is behind it. -/
def PrintfAction.Steady (mem : Memory) : PrintfAction → Prop
  | .finish => True
  | .emit format parameters _ data amount =>
      (∃ rest args, Printable mem format parameters rest args)
      ∧ SteadyPiece mem data amount.toNat

/-- A round finds the same in every memory that differs in the screen only. -/
def FindsSteady (mem : Memory) (format : Addr) (parameters : List Word) (written : Word)
    : Prop :=
  ∃ action : PrintfAction,
    (∀ m, AgreesOffscreen m mem → printfAction m format parameters written = some action)
    ∧ action.Steady mem

/-- A piece of a string outside the screen. -/
theorem OffscreenString.steady (off : OffscreenString mem str chars) {length : Nat}
    (inside : length ≤ chars.length + 1) (agrees : AgreesOffscreen m mem)
    : ∀ n < length, m (str + BitVec.ofNat 32 n) = mem (str + BitVec.ofNat 32 n) :=
  fun n less => agrees _ (off.outside n (by omega))

/-- A stretch of text from `str` on. -/
theorem OffscreenString.copies {first : Byte} (off : OffscreenString mem str (first :: rest))
    (passed : List.Forall₂ (PassesOffscreen mem) args parameters)
    (expands : ∃ text, expand rest args = some text)
    : ∃ amount : Word,
        (∀ m, AgreesOffscreen m mem → amountFrom m str stringRounds 1 = some amount)
        ∧ (∃ rest', Printable mem (str + amount) parameters rest' args)
        ∧ amount.toNat ≤ rest.length + 1 := by
  have bound := off.string.length_lt
  rw [List.length_cons] at bound
  have shorter := (List.takeWhile_sublist (p := isText) (l := rest)).length_le
  have split : first :: rest = (first :: rest.takeWhile isText) ++ rest.dropWhile isText := by
    simp
  have amount
      : BitVec.ofNat 32 (first :: rest.takeWhile isText).length
        = 1 + BitVec.ofNat 32 (rest.takeWhile isText).length := by
    rw [List.length_cons, Nat.add_comm, BitVec.ofNat_add]
    rfl
  refine ⟨1 + BitVec.ofNat 32 (rest.takeWhile isText).length, fun m agrees => ?_, ?_, ?_⟩
  · have later := off.tail.congr agrees
    exact amountFrom_eq later stringRounds later.length_lt
  · have behind := off
    rw [split] at behind
    have after := behind.suffix
    rw [amount] at after
    obtain ⟨text, expansion⟩ := expands
    rw [expand_text] at expansion
    obtain ⟨text', remaining, _⟩ := Option.map_eq_some_iff.mp expansion
    exact ⟨_, after, passed, text', remaining⟩
  · rw [← amount, List.length_cons, BitVec.toNat_ofNat, Nat.mod_eq_of_lt (by omega)]
    omega

/-- An unknown directive prints the rest of the format as it is. -/
theorem printfAction_other (sign : m format = percent) (single : m (format + 1) ≠ percent)
    (noChar : m (format + 1) ≠ letterC) (noString : m (format + 1) ≠ letterS)
    : printfAction m format parameters written
      = (strlen m format).map (fun len =>
          .emit (format + len) parameters (intMax - written < len) (fun m i => m (format + i))
            len) := by
  have noText : ¬(m format ≠ percent ∨ m (format + 1) = percent) :=
    fun either => either.elim (fun ordinary => ordinary sign) single
  simp only [printfAction, if_neg (show m format ≠ 0 by simp [sign]), if_neg noText,
    if_neg noChar, if_neg noString]

/-- The rest of a format whose percent sign starts no directive. -/
theorem Printable.fallsBack (printable : Printable mem format parameters rest args)
    (found
      : ∀ m,
          AgreesOffscreen m mem
          → printfAction m format parameters written
            = (strlen m format).map (fun len =>
                .emit (format + len) parameters (intMax - written < len)
                  (fun m i => m (format + i)) len))
    : FindsSteady mem format parameters written := by
  have off := printable.format
  have length := off.string.length_lt
  let len := BitVec.ofNat 32 rest.length
  refine ⟨.emit (format + len) parameters (intMax - written < len) (fun m i => m (format + i))
    len, fun m agrees => ?_, ?_⟩
  · rw [found m agrees, (off.congr agrees).strlen_eq, Option.map_some]
  · refine ⟨⟨[], args, ?_, printable.passed, [], by simp [expand]⟩, fun m agrees => ?_⟩
    · have whole : OffscreenString mem format (rest ++ []) := by simpa using off
      exact whole.suffix
    · refine off.steady ?_ agrees
      rw [BitVec.toNat_ofNat, Nat.mod_eq_of_lt length]
      omega

/-- A character argument. -/
theorem Printable.char
    (printable : Printable mem format parameters (percent :: letterC :: rest) args)
    : FindsSteady mem format parameters written := by
  obtain ⟨text, expansion⟩ := printable.expands
  rw [expand_char] at expansion
  obtain ⟨⟨c, args'⟩, given, remaining⟩ := Option.bind_eq_some_iff.mp expansion
  obtain ⟨behind, later, _⟩ := Option.map_eq_some_iff.mp remaining
  obtain rfl := nextChar_eq_some given
  have passed := printable.passed
  cases parameters with
  | nil => cases passed
  | cons word parameters =>
      obtain ⟨_, others⟩ := List.forall₂_cons.mp passed
      refine ⟨.emit (format + 1 + 1) parameters (intMax - written = 0)
        (fun _ _ => word.setWidth 8) 1, fun m agrees => ?_, ?_⟩
      · have here := (printable.format.head agrees).1
        have here' := (printable.format.tail.head agrees).1
        have single : ¬(m format ≠ percent ∨ m (format + 1) = percent) := by
          rw [here, here']
          decide
        simp only [printfAction, if_neg (show m format ≠ 0 by simp [here]), if_neg single,
          if_pos here']
      · exact ⟨⟨rest, args', printable.format.tail.tail, others, behind, later⟩,
          fun _ _ _ _ => rfl⟩

/-- A string argument. -/
theorem Printable.string
    (printable : Printable mem format parameters (percent :: letterS :: rest) args)
    : FindsSteady mem format parameters written := by
  obtain ⟨text, expansion⟩ := printable.expands
  rw [expand_string] at expansion
  obtain ⟨⟨chars, args'⟩, given, remaining⟩ := Option.bind_eq_some_iff.mp expansion
  obtain ⟨behind, later, _⟩ := Option.map_eq_some_iff.mp remaining
  obtain rfl := nextString_eq_some given
  have passed := printable.passed
  cases parameters with
  | nil => cases passed
  | cons str parameters =>
      obtain ⟨passes, others⟩ := List.forall₂_cons.mp passed
      have off : OffscreenString mem str chars := passes
      have length := off.string.length_lt
      let len := BitVec.ofNat 32 chars.length
      refine ⟨.emit (format + 1 + 1) parameters (intMax - written < len)
        (fun m i => m (str + i)) len, fun m agrees => ?_, ?_⟩
      · have here := (printable.format.head agrees).1
        have here' := (printable.format.tail.head agrees).1
        have single : ¬(m format ≠ percent ∨ m (format + 1) = percent) := by
          rw [here, here']
          decide
        have noChar : m (format + 1) ≠ letterC := by
          rw [here']
          decide
        simp only [printfAction, if_neg (show m format ≠ 0 by simp [here]), if_neg single,
          if_neg noChar, if_pos here', (off.congr agrees).strlen_eq, Option.map_some]
        rfl
      · refine ⟨⟨rest, args', printable.format.tail.tail, others, behind, later⟩,
          fun m agrees => off.steady ?_ agrees⟩
        rw [BitVec.toNat_ofNat, Nat.mod_eq_of_lt length]
        omega

/-- A stretch of text from a doubled percent sign on, of which the second is printed. -/
theorem Printable.doubled
    (printable : Printable mem format parameters (percent :: percent :: rest) args)
    : FindsSteady mem format parameters written := by
  have off := printable.format
  obtain ⟨text, expansion⟩ := printable.expands
  rw [expand_percent] at expansion
  obtain ⟨remaining, later, _⟩ := Option.map_eq_some_iff.mp expansion
  obtain ⟨amount, found, ⟨rest', following⟩, bound⟩ :=
    off.tail.copies printable.passed ⟨remaining, later⟩
  refine ⟨.emit (format + 1 + amount) parameters (intMax - written < amount)
    (fun m i => m (format + 1 + i)) amount, fun m agrees => ?_,
    ⟨⟨rest', args, following⟩, fun m agrees => ?_⟩⟩
  · have here := (off.head agrees).1
    have here' := (off.tail.head agrees).1
    simp only [printfAction, if_neg (show m format ≠ 0 by simp [here]), if_pos (Or.inr here'),
      if_pos here, found m agrees, Option.map_some]
  · exact off.tail.steady (by rw [List.length_cons]; omega) agrees

/-- A stretch of text that starts with another character. -/
theorem Printable.ordinary {char : Byte}
    (printable : Printable mem format parameters (char :: rest) args) (other : char ≠ percent)
    : FindsSteady mem format parameters written := by
  have off := printable.format
  obtain ⟨text, expansion⟩ := printable.expands
  rw [expand_cons other] at expansion
  obtain ⟨behind, later, _⟩ := Option.map_eq_some_iff.mp expansion
  obtain ⟨amount, found, ⟨rest', next⟩, bound⟩ := off.copies printable.passed ⟨behind, later⟩
  refine ⟨.emit (format + amount) parameters (intMax - written < amount)
    (fun m i => m (format + i)) amount, fun m agrees => ?_,
    ⟨⟨rest', args, next⟩, fun m agrees => ?_⟩⟩
  · obtain ⟨here, nonzero⟩ := off.head agrees
    have differs : m format ≠ percent := by rwa [here]
    simp only [printfAction, if_neg (show m format ≠ 0 by rwa [here]), if_pos (Or.inl differs),
      if_neg differs, found m agrees, Option.map_some]
  · exact off.steady (by rw [List.length_cons]; omega) agrees

/-- A percent sign that ends the format. -/
theorem Printable.trailing (printable : Printable mem format parameters [percent] args)
    : FindsSteady mem format parameters written := by
  refine printable.fallsBack (fun m agrees => ?_)
  have terminator := printable.format.tail.terminator agrees
  have differs {char : Byte} (nonzero : 0 ≠ char) : m (format + 1) ≠ char := by
    rwa [terminator]
  exact printfAction_other (printable.format.head agrees).1 (differs (by decide))
    (differs (by decide)) (differs (by decide))

/-- A percent sign in front of a character that names no directive. -/
theorem Printable.unknown {next : Byte}
    (printable : Printable mem format parameters (percent :: next :: rest) args)
    (single : next ≠ percent) (noChar : next ≠ letterC) (noString : next ≠ letterS)
    : FindsSteady mem format parameters written := by
  refine printable.fallsBack (fun m agrees => ?_)
  have here' := (printable.format.tail.head agrees).1
  have differs {char : Byte} (ne : next ≠ char) : m (format + 1) ≠ char := by rwa [here']
  exact printfAction_other (printable.format.head agrees).1 (differs single) (differs noChar)
    (differs noString)

/-- Every round, by the characters at the head of the format. -/
theorem Printable.findsSteady (printable : Printable mem format parameters rest args)
    : FindsSteady mem format parameters written := by
  cases rest with
  | nil =>
      refine ⟨.finish, fun m agrees => ?_, trivial⟩
      rw [printfAction, if_pos (printable.format.terminator agrees)]
  | cons char tail =>
      by_cases sign : char = percent
      · subst sign
        cases tail with
        | nil => exact printable.trailing
        | cons next behind =>
            by_cases double : next = percent
            · subst double
              exact printable.doubled
            · by_cases isChar : next = letterC
              · subst isChar
                exact printable.char
              · by_cases isString : next = letterS
                · subst isString
                  exact printable.string
                · exact printable.unknown double isChar isString
      · exact printable.ordinary sign

-----------------------------------------------------------------------------------------
-- Output
-----------------------------------------------------------------------------------------

/-- `putchar` draws its character and does not report an error. -/
theorem putcharTo_byte (t : Terminal) (c : Byte)
    : (putcharTo t c.toNat).1 = terminalPutchar t c ∧ (putcharTo t c.toNat).2 ≠ eof := by
  obtain ⟨arrives, notEof⟩ := putchar_byte c
  refine ⟨?_, notEof⟩
  change terminalWrite t [(putchar c.toNat).1] 1 = terminalPutchar t c
  rw [arrives]
  rfl

/-- `print` draws the characters one by one, by induction on those that are left. -/
theorem printToFrom_eq (tracks : t.Tracks mem text) {start : Nat} (rounds : Nat)
    (steady : SteadyPiece mem data (start + rounds))
    : printToFrom data rounds (BitVec.ofNat 32 start) t
      = (true,
          ((List.range' start rounds).map (fun n => data mem (BitVec.ofNat 32 n))).foldl
            terminalPutchar t) := by
  induction rounds generalizing start t text with
  | zero => rfl
  | succ rounds ih =>
      have here := steady t.mem tracks.agrees start (by omega)
      obtain ⟨drawn, notEof⟩ := putcharTo_byte t (data mem (BitVec.ofNat 32 start))
      have next : BitVec.ofNat 32 start + 1 = BitVec.ofNat 32 (start + 1) :=
        (BitVec.ofNat_add start 1).symm
      rw [printToFrom, here, List.range'_succ, List.map_cons, List.foldl_cons]
      simp only [if_neg notEof, drawn, next]
      exact ih (tracks.terminalPutchar _) (by rwa [Nat.add_right_comm, Nat.add_assoc])

/-- `print` draws the piece as it was in memory before: its bytes lie off the screen, which is
all that drawing changes.
-/
theorem printTo_eq (tracks : t.Tracks mem text) (steady : SteadyPiece mem data amount.toNat)
    : printTo t data amount
      = (true, (pieceChars mem data amount.toNat).foldl terminalPutchar t) := by
  have whole : SteadyPiece mem data (0 + amount.toNat) := by rwa [Nat.zero_add]
  have printed := printToFrom_eq tracks amount.toNat whole
  rwa [← List.range_eq_range'] at printed

/-- `terminal_write` draws what `print` draws. -/
theorem terminalWriteFrom_eq (data : Addr) (rounds : Nat) (i : Word) (t : Terminal)
    : (true, terminalWriteFrom data rounds i t)
      = printToFrom (fun m i => m (data + i)) rounds i t := by
  induction rounds generalizing i t with
  | zero => rfl
  | succ rounds ih =>
      obtain ⟨drawn, notEof⟩ := putcharTo_byte t (t.mem (data + i))
      simp only [printToFrom, if_neg notEof, drawn]
      exact ih (i + 1) _

/-- `terminal_write` does as well, for the same reason. -/
theorem terminalWriteAt_eq (tracks : t.Tracks mem text)
    (steady : SteadyPiece mem (fun m i => m (str + i)) amount.toNat)
    : terminalWriteAt t str amount
      = (pieceChars mem (fun m i => m (str + i)) amount.toNat).foldl terminalPutchar t := by
  have printed := printTo_eq tracks steady
  rw [printTo, ← terminalWriteFrom_eq] at printed
  exact congrArg Prod.snd printed

-----------------------------------------------------------------------------------------
-- `printf`
-----------------------------------------------------------------------------------------

/-- A round on the list of the characters sent finds what one on the terminal does. -/
theorem printfRound_eq (m : Memory) (s : Printf)
    : printfRound m s
      = (printfAction m s.format s.parameters s.written).map (fun action =>
          match action with
          | .finish => .returns s.written s.sent
          | .emit format parameters full data amount =>
              printfEmit { s with format := format, parameters := parameters } full (data m)
                amount) := by
  simp only [printfRound, printfAction]
  split
  · rfl
  · split
    · rw [Option.map_map]
      rfl
    · split
      · cases s.parameters <;> rfl
      · split
        · cases s.parameters with
          | nil => rfl
          | cons str parameters =>
              rw [Option.map_map]
              rfl
        · rw [Option.map_map]
          rfl

/-- The loop on the terminal draws what the loop on the list sends. By induction on the rounds;
what was drawn so far shows on the screen only, so the next round finds the same.
-/
theorem printfTo_eq {t₀ : Terminal}
    (tracks : (s.sent.foldl terminalPutchar t₀).Tracks mem text)
    (printable : Printable mem s.format s.parameters rest args) (rounds : Nat)
    : printfTo rounds (s.sent.foldl terminalPutchar t₀) s.format s.parameters s.written
      = (printfLoop mem rounds s).map (fun (result, sent) =>
          (result, sent.foldl terminalPutchar t₀)) := by
  induction rounds generalizing s text rest args with
  | zero => rfl
  | succ rounds ih =>
      have finds : FindsSteady mem s.format s.parameters s.written := printable.findsSteady
      obtain ⟨action, found, steady⟩ := finds
      rw [printfTo, found _ tracks.agrees, printfLoop, printfRound_eq, found mem (fun _ _ => rfl)]
      cases action with
      | finish => rfl
      | emit format parameters full data amount =>
          obtain ⟨⟨rest', args', next⟩, piece⟩ := steady
          cases full with
          | true => rfl
          | false =>
              have drawn := tracks.terminalWrite (pieceChars mem data amount.toNat)
              rw [← List.foldl_append] at drawn
              have later := ih (s := ⟨format, parameters, s.written + amount, _⟩) drawn next
              rw [List.foldl_append] at later
              simp only [Option.map_some, printfEmit, print_eq, printTo_eq tracks piece,
                Bool.false_eq_true, if_false]
              exact later

/-- `printf` on the terminal draws what it would send from a memory that nothing changes. -/
theorem consolePrintf_eq (tracks : t.Tracks mem text)
    (printable : Printable mem format parameters rest args)
    : consolePrintf t format parameters
      = (printf mem format parameters).map (fun (result, sent) =>
          (result, sent.foldl terminalPutchar t)) :=
  printfTo_eq (s := ⟨format, parameters, 0, []⟩) tracks printable stringRounds

/-- An expansion that fits an `int` is drawn as a whole, and counted. -/
theorem Printable.draws {text' : List Byte} (tracks : t.Tracks mem text)
    (printable : Printable mem format parameters rest args)
    (expansion : expand rest args = some text') (short : text'.length ≤ intMax.toNat)
    : ∃ result,
        consolePrintf t format parameters = some (result, text'.foldl terminalPutchar t)
        ∧ result.toNat = text'.length := by
  have start
      : ({ format := format, parameters := parameters, written := 0, sent := [] } : Printf).Tracks
          mem text' rest args :=
    ⟨printable.format.string, printable.passed.imp (fun _ _ passes => passes.passes),
      ⟨text', expansion, rfl⟩, rfl, Nat.zero_le _⟩
  obtain ⟨result, sent, returned, fits, _⟩ :=
    start.loop stringRounds printable.format.string.length_lt
  obtain ⟨rfl, count⟩ := fits short
  refine ⟨result, ?_, count⟩
  rw [consolePrintf_eq tracks printable, printf, returned]
  rfl

-----------------------------------------------------------------------------------------
-- Runs
-----------------------------------------------------------------------------------------

/-- `puts`, with the address of its format `"%s\n"`. -/
def consolePuts (literal : Addr) (t : Terminal) (str : Addr) : Option (Word × Terminal) :=
  consolePrintf t literal [str]

inductive ConsoleCall
  | putchar (c : Byte)
  | write (data : Addr) (size : Word)
  | writestring (data : Addr)
  | setcolor (color : Byte)
  | iprint (n : BitVec 64)
  | printf (format : Addr) (parameters : List Word)
  | puts (str : Addr)

def ConsoleCall.exec (literal : Addr) (t : Terminal) : ConsoleCall → Option Terminal
  | .putchar c => some (putcharTo t c.toNat).1
  | .write data size => some (terminalWriteAt t data size)
  | .writestring data => terminalWritestringAt t data
  | .setcolor color => some (terminalSetcolor t color)
  | .iprint n => SimpleKernel.iprint terminalPutchar 20 t n
  | .printf format parameters => (consolePrintf t format parameters).map Prod.snd
  | .puts str => (consolePuts literal t str).map Prod.snd

/-- What a call prints when all that it reads lies outside the screen. -/
inductive Prints (mem : Memory) (literal : Addr) : ConsoleCall → List Byte → Prop
  | putchar (c : Byte) : Prints mem literal (.putchar c) [c]
  | write {data : Addr} {size : Word}
    (outside : ∀ n < size.toNat, OutsideScreen (data + BitVec.ofNat 32 n))
    : Prints mem literal (.write data size) (pieceChars mem (fun m i => m (data + i)) size.toNat)
  | writestring {data : Addr} {chars : List Byte} (off : OffscreenString mem data chars)
    : Prints mem literal (.writestring data) chars
  | setcolor (color : Byte) : Prints mem literal (.setcolor color) []
  | iprint (n : BitVec 64) : Prints mem literal (.iprint n) (numeralText (decimal n.toNat))
  | printf {format : Addr} {parameters : List Word} {rest text : List Byte}
    {args : List PrintfArg} (off : OffscreenString mem format rest)
    (passed : List.Forall₂ (PassesOffscreen mem) args parameters)
    (expansion : expand rest args = some text) (short : text.length ≤ intMax.toNat)
    : Prints mem literal (.printf format parameters) text
  | puts {str : Addr} {chars : List Byte} (off : OffscreenString mem str chars)
    (short : chars.length < intMax.toNat)
    : Prints mem literal (.puts str) (chars ++ [0x0A])

/-- The text behind a call that printed some characters. -/
def ConsoleCall.extend (text : Text) (call : ConsoleCall) (printed : List Byte) : Text :=
  match call with
  | .setcolor color => { text with color := color }
  | _ => printed.foldl Text.putchar text

variable {literal : Addr} {call : ConsoleCall} {printed : List Byte}

/-- One call draws what it prints. -/
theorem Prints.exec (prints : Prints mem literal call printed)
    (format : OffscreenString mem literal [percent, letterS, 0x0A])
    (tracks : t.Tracks mem text)
    : ∃ t', call.exec literal t = some t' ∧ t'.Tracks mem (call.extend text printed) := by
  cases prints with
  | putchar c =>
      exact ⟨_, rfl, by rw [(putcharTo_byte t c).1]; exact tracks.terminalPutchar c⟩
  | write outside =>
      refine ⟨_, rfl, ?_⟩
      rw [terminalWriteAt_eq tracks (fun m agrees n less => agrees _ (outside n less))]
      exact tracks.terminalWrite _
  | @writestring data _ off =>
      have whole : (BitVec.ofNat 32 printed.length).toNat = printed.length :=
        Nat.mod_eq_of_lt off.string.length_lt
      have counted : strlen t.mem data = some (BitVec.ofNat 32 printed.length) :=
        (off.congr tracks.agrees).strlen_eq
      have string : CString mem data (printed ++ []) := by simpa using off.string
      refine ⟨_, by rw [ConsoleCall.exec, terminalWritestringAt, counted, Option.map_some], ?_⟩
      have steady
          : SteadyPiece mem (fun m i => m (data + i)) (BitVec.ofNat 32 printed.length).toNat :=
        fun m agrees => off.steady (by omega) agrees
      rw [terminalWriteAt_eq tracks steady, whole, pieceChars, string.read]
      exact tracks.terminalWrite printed
  | setcolor color => exact ⟨_, rfl, tracks.exec (.setcolor color)⟩
  | iprint n =>
      refine ⟨_, ?_, tracks.terminalWrite (numeralText (decimal n.toNat))⟩
      rw [ConsoleCall.exec, iprint_eq, if_pos (decimal_length_le n)]
  | printf off passed expansion short =>
      obtain ⟨result, drawn, _⟩ :=
        (Printable.mk off passed ⟨_, expansion⟩).draws tracks expansion short
      exact ⟨_, by rw [ConsoleCall.exec, drawn, Option.map_some], tracks.terminalWrite _⟩
  | @puts str chars off short =>
      have expansion
          : expand [percent, letterS, 0x0A] [.string chars] = some (chars ++ [0x0A]) := by
        rw [expand_string]
        rfl
      have passed : List.Forall₂ (PassesOffscreen mem) [.string chars] [str] :=
        .cons off .nil
      have printable := Printable.mk format passed ⟨_, expansion⟩
      obtain ⟨result, drawn, _⟩ := printable.draws tracks expansion (by simpa using short)
      refine ⟨_, ?_, tracks.terminalWrite (chars ++ [0x0A])⟩
      rw [ConsoleCall.exec, consolePuts, drawn, Option.map_some]

/-- Whatever is printed, and in whatever way, the calls return, and the terminal shows the last
25 lines of all that the memory held for them before the first one. Only the screen changes.
-/
theorem consoleCalls_show {calls : List ConsoleCall} {texts : List (List Byte)}
    (prints : List.Forall₂ (Prints mem literal) calls texts)
    (format : OffscreenString mem literal [percent, letterS, 0x0A])
    : ∃ t,
        calls.foldlM (ConsoleCall.exec literal) (terminalInitialize (unsetTerminal mem)) = some t
        ∧ t.Shows
          ((calls.zip texts).foldl (fun text (call, printed) => call.extend text printed) .initial)
        ∧ t.InBounds
        ∧ ∀ x, OutsideScreen x → t.mem x = mem x := by
  have start : (terminalInitialize (unsetTerminal mem)).Tracks mem .initial := by
    simpa only [List.foldl_nil] using terminalCalls_track mem []
  generalize terminalInitialize (unsetTerminal mem) = t at start ⊢
  generalize Text.initial = text at start ⊢
  induction prints generalizing t text with
  | nil => exact ⟨t, rfl, start.window.shows start.bounds, start.bounds, start.outside⟩
  | cons first _ ih =>
      obtain ⟨t', drawn, tracks⟩ := first.exec format start
      obtain ⟨last, run, shown⟩ := ih t' _ tracks
      refine ⟨last, ?_, shown⟩
      rw [List.foldlM_cons, drawn]
      exact run

/-- Addresses below the text screen are off it. -/
theorem outsideScreen_of_lt {x : Addr} (below : x.toNat < 0xC03FE000) : OutsideScreen x := by
  rw [OutsideScreen]
  bv_omega

/-- The format of `puts` and the string `"Hi"`. -/
def greetingMemory : Memory
  | 0x1000 => percent
  | 0x1001 => letterS
  | 0x1002 => 0x0A
  | 0x2000 => 0x48
  | 0x2001 => 0x69
  | _ => 0

theorem greetingMemory_format
    : OffscreenString greetingMemory 0x1000 [percent, letterS, 0x0A] where
  string := .cons rfl (by decide) (.cons rfl (by decide) (.cons rfl (by decide) (.nil rfl)))
  outside n le := outsideScreen_of_lt (by
    simp only [List.length_cons, List.length_nil] at le
    bv_omega)

theorem greetingMemory_string : OffscreenString greetingMemory 0x2000 [0x48, 0x69] where
  string := .cons rfl (by decide) (.cons rfl (by decide) (.nil rfl))
  outside n le := outsideScreen_of_lt (by
    simp only [List.length_cons, List.length_nil] at le
    bv_omega)

/-- The screen shows what was printed, and the terminal is sound. Witness: a line printed by
`puts`, and behind it the same string in another colour.
-/
theorem consoleCalls_show_greeting
    : ∃ t,
        [.puts 0x2000, .setcolor 2, .writestring 0x2000].foldlM (ConsoleCall.exec 0x1000)
            (terminalInitialize (unsetTerminal greetingMemory))
          = some t
        ∧ t.Shows
          ([0x48, 0x69].foldl Text.putchar
            { [0x48, 0x69, 0x0A].foldl Text.putchar .initial with color := 2 }) := by
  have prints
      : List.Forall₂ (Prints greetingMemory 0x1000)
          [.puts 0x2000, .setcolor 2, .writestring 0x2000] [[0x48, 0x69, 0x0A], [], [0x48, 0x69]] :=
    .cons (.puts greetingMemory_string (by decide))
      (.cons (.setcolor 2) (.cons (.writestring greetingMemory_string) .nil))
  obtain ⟨t, drawn, shown, _⟩ := consoleCalls_show prints greetingMemory_format
  exact ⟨t, drawn, shown⟩

end SimpleKernel
