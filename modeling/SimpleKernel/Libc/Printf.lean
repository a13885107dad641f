import SimpleKernel.Libc.Strings

/-! `printf` and its format language.
The characters that `printf` hands to `putchar` are related to an expansion of the format as
a list of characters. Arguments are the words behind the format on the stack.
-/

namespace SimpleKernel

open ByteMemory

abbrev intMax : Word := 0x7FFFFFFF

def eof : Int := -1

abbrev percent : Byte := 0x25

abbrev letterC : Byte := 0x63

abbrev letterS : Byte := 0x73

/-- The character that reaches the terminal, and the value returned. -/
def putchar (ca : Int) : Byte × Int :=
  (BitVec.ofInt 8 ca, ca)

/-- The loop of `print` from index `i` on; `sent` holds all characters so far. -/
def printFrom (data : Word → Byte) : Nat → Word → List Byte → Bool × List Byte
  | 0, _, sent => (true, sent)
  | rounds + 1, i, sent =>
      let (c, result) := putchar (data i).toNat
      if result = eof then (false, sent ++ [c])
      else printFrom data rounds (i + 1) (sent ++ [c])

def print (data : Word → Byte) (length : Word) (sent : List Byte) : Bool × List Byte :=
  printFrom data length.toNat 0 sent

/-- What `printf` holds at the head of its loop. -/
structure Printf where
  format : Addr
  parameters : List Word
  written : Word
  sent : List Byte

inductive PrintfStep
  | next (s : Printf)
  | returns (result : Word) (sent : List Byte)

/-- The end of every branch: the test of the remaining capacity, the output, the count. -/
def printfEmit (s : Printf) (full : Bool) (data : Word → Byte) (amount : Word)
    : PrintfStep :=
  if full then .returns (-1) s.sent
  else
    let (printed, sent) := print data amount s.sent
    if printed then .next { s with written := s.written + amount, sent := sent }
    else .returns (-1) sent

/-- The length of a stretch of text, up to the next percent sign or the end. -/
def amountFrom (m : Memory) (format : Addr) : Nat → Word → Option Word
  | 0, _ => none
  | rounds + 1, amount =>
      if m (format + amount) ≠ 0 ∧ m (format + amount) ≠ percent then
        amountFrom m format rounds (amount + 1)
      else some amount

/-- One round of the loop; `none` reads an argument that was not passed, or a string that
does not end.
-/
def printfRound (m : Memory) (s : Printf) : Option PrintfStep :=
  if m s.format = 0 then some (.returns s.written s.sent)
  else
    let maxrem := intMax - s.written
    if m s.format ≠ percent ∨ m (s.format + 1) = percent then
      let format := if m s.format = percent then s.format + 1 else s.format
      (amountFrom m format stringRounds 1).map (fun amount =>
        printfEmit { s with format := format + amount } (maxrem < amount)
          (fun i => m (format + i)) amount)
    else
      let format := s.format + 1
      if m format = letterC then
        match s.parameters with
        | [] => none
        | c :: parameters =>
            some
              (printfEmit { s with format := format + 1, parameters := parameters }
                (maxrem = 0) (fun _ => c.setWidth 8) 1)
      else if m format = letterS then
        match s.parameters with
        | [] => none
        | str :: parameters =>
            (strlen m str).map (fun len =>
              printfEmit { s with format := format + 1, parameters := parameters }
                (maxrem < len) (fun i => m (str + i)) len)
      else
        (strlen m s.format).map (fun len =>
          printfEmit { s with format := s.format + len } (maxrem < len)
            (fun i => m (s.format + i)) len)

def printfLoop (m : Memory) : Nat → Printf → Option (Word × List Byte)
  | 0, _ => none
  | rounds + 1, s =>
      match printfRound m s with
      | none => none
      | some (.next s) => printfLoop m rounds s
      | some (.returns result sent) => some (result, sent)

/-- The value returned and the characters sent to `putchar`. -/
def printf (m : Memory) (format : Addr) (parameters : List Word) : Option (Word × List Byte) :=
  printfLoop m stringRounds
    { format := format, parameters := parameters, written := 0, sent := [] }

-----------------------------------------------------------------------------------------
-- The expansion
-----------------------------------------------------------------------------------------

inductive PrintfArg
  | char (c : Byte)
  | string (chars : List Byte)

/-- The next argument, if it is a character, and those behind it. -/
def nextChar : List PrintfArg → Option (Byte × List PrintfArg)
  | .char c :: args => some (c, args)
  | _ => none

def nextString : List PrintfArg → Option (List Byte × List PrintfArg)
  | .string chars :: args => some (chars, args)
  | _ => none

/-- What a format stands for; `none` when an argument is missing or of the wrong kind. -/
def expand : List Byte → List PrintfArg → Option (List Byte)
  | [], _ => some []
  | [char], _ => some [char]
  | char :: next :: rest, args =>
      if char ≠ percent then (expand (next :: rest) args).map (char :: ·)
      else if next = percent then (expand rest args).map (percent :: ·)
      else if next = letterC then
        (nextChar args).bind (fun (c, args) => (expand rest args).map (c :: ·))
      else if next = letterS then
        (nextString args).bind (fun (chars, args) => (expand rest args).map (chars ++ ·))
      else some (char :: next :: rest)

/-- The word on the stack that passes an argument. -/
def Passes (m : Memory) : PrintfArg → Word → Prop
  | .char c, word => word.setWidth 8 = c
  | .string chars, word => CString m word chars

/-- A character of ordinary text, as far as the search for a directive goes. -/
def isText (char : Byte) : Bool :=
  char ≠ percent

variable {m : Memory} {str format : Addr} {chars rest piece total : List Byte}
  {args : List PrintfArg} {char : Byte} {s : Printf}

/-- Ordinary characters stand for themselves. -/
theorem expand_cons (ordinary : char ≠ percent)
    : expand (char :: rest) args = (expand rest args).map (char :: ·) := by
  cases rest with
  | nil => rfl
  | cons next rest => rw [expand, if_pos ordinary]

/-- A doubled percent sign stands for one. -/
theorem expand_percent
    : expand (percent :: percent :: rest) args = (expand rest args).map (percent :: ·) := by
  rw [expand, if_neg (by simp), if_pos rfl]

/-- `%c` takes a character from the arguments. -/
theorem expand_char
    : expand (percent :: letterC :: rest) args
      = (nextChar args).bind (fun (c, args) => (expand rest args).map (c :: ·)) := by
  rw [expand, if_neg (by simp), if_neg (by decide), if_pos rfl]

/-- `%s` takes a string from the arguments. -/
theorem expand_string
    : expand (percent :: letterS :: rest) args
      = (nextString args).bind (fun (chars, args) => (expand rest args).map (chars ++ ·)) := by
  rw [expand, if_neg (by simp), if_neg (by decide), if_neg (by decide), if_pos rfl]

/-- An unknown directive is not expanded, and neither is what follows it. -/
theorem expand_other (noPercent : char ≠ percent) (noChar : char ≠ letterC)
    (noString : char ≠ letterS)
    : expand (percent :: char :: rest) args = some (percent :: char :: rest) := by
  rw [expand, if_neg (by simp), if_neg noPercent, if_neg noChar, if_neg noString]

theorem nextChar_eq_some {c : Byte} {args' : List PrintfArg}
    (given : nextChar args = some (c, args'))
    : args = .char c :: args' := by
  unfold nextChar at given
  split at given
  · obtain ⟨rfl, rfl⟩ := Prod.mk.inj (Option.some.inj given)
    rfl
  · cases given

theorem nextString_eq_some {args' : List PrintfArg}
    (given : nextString args = some (chars, args'))
    : args = .string chars :: args' := by
  unfold nextString at given
  split at given
  · obtain ⟨rfl, rfl⟩ := Prod.mk.inj (Option.some.inj given)
    rfl
  · cases given

/-- Text up to the next percent sign is copied, by induction on it. -/
theorem expand_text (chars : List Byte) (args : List PrintfArg)
    : expand chars args
      = (expand (chars.dropWhile isText) args).map (chars.takeWhile isText ++ ·) := by
  induction chars with
  | nil => rfl
  | cons char rest ih =>
      by_cases sign : char = percent
      · simp [isText, sign]
      · have more : isText char = true := by simpa [isText] using sign
        rw [List.takeWhile_cons_of_pos more, List.dropWhile_cons_of_pos more, expand_cons sign,
          ih, Option.map_map]
        rfl

-----------------------------------------------------------------------------------------
-- Output
-----------------------------------------------------------------------------------------

/-- A byte sent as an unsigned character arrives, and is never taken for `EOF`. -/
theorem putchar_byte (c : Byte) : (putchar c.toNat).1 = c ∧ (putchar c.toNat).2 ≠ eof := by
  constructor
  · simp [putchar]
  · simp only [putchar, eof]
    omega

/-- `print` sends the characters in order, by induction on the rounds. -/
theorem printFrom_eq (data : Word → Byte) (rounds : Nat) (i : Word) (sent : List Byte)
    : printFrom data rounds i sent
      = (true, sent ++ (List.range rounds).map (fun n => data (i + BitVec.ofNat 32 n))) := by
  induction rounds generalizing i sent with
  | zero => simp [printFrom]
  | succ rounds ih =>
      obtain ⟨arrives, notEof⟩ := putchar_byte (data i)
      have shifted (n : Nat) : i + 1 + BitVec.ofNat 32 n = i + BitVec.ofNat 32 (n + 1) :=
        add_one_add_ofNat i n
      simp only [printFrom, if_neg notEof, arrives, ih, shifted]
      simp [List.range_succ_eq_map, Function.comp_def]

/-- `print` sends its bytes and succeeds. -/
theorem print_eq (data : Word → Byte) (length : Word) (sent : List Byte)
    : print data length sent
      = (true, sent ++ (List.range length.toNat).map (fun n => data (BitVec.ofNat 32 n))) := by
  simp [print, printFrom_eq]

/-- The bytes of a string's beginning, read one by one. -/
theorem CString.read (string : CString m str (piece ++ rest))
    : (List.range piece.length).map (fun n => m (str + BitVec.ofNat 32 n)) = piece := by
  induction piece generalizing str with
  | nil => rfl
  | cons char tail ih =>
      cases string with
      | cons here text later =>
          rw [List.length_cons, List.range_succ_eq_map, List.map_cons, List.map_map]
          have shifted : (fun n => m (str + BitVec.ofNat 32 n)) ∘ Nat.succ
              = fun n => m (str + 1 + BitVec.ofNat 32 n) := by
            funext n
            rw [Function.comp, add_one_add_ofNat]
          rw [shifted, ih later]
          simp [here]

/-- The search for the next directive, by induction on the text before it. -/
theorem amountFrom_eq {amount : Word} (string : CString m (format + amount) chars)
    (rounds : Nat) (enough : chars.length < rounds)
    : amountFrom m format rounds amount
      = some (amount + BitVec.ofNat 32 (chars.takeWhile isText).length) := by
  induction chars generalizing amount rounds with
  | nil =>
      obtain ⟨rounds, rfl⟩ := Nat.exists_eq_succ_of_ne_zero (Nat.ne_zero_of_lt enough)
      cases string with
      | nil terminator => simp [amountFrom, terminator]
  | cons char tail ih =>
      obtain ⟨rounds, rfl⟩ := Nat.exists_eq_succ_of_ne_zero (Nat.ne_zero_of_lt enough)
      cases string with
      | cons here text later =>
          rw [BitVec.add_assoc] at later
          by_cases sign : char = percent
          · simp [amountFrom, here, sign, isText]
          · have more : isText char = true := by simpa [isText] using sign
            rw [amountFrom, here, if_pos ⟨text, sign⟩, ih later rounds (by simpa using enough),
              List.takeWhile_cons_of_pos more, add_one_add_ofNat, List.length_cons]

-----------------------------------------------------------------------------------------
-- The branches of a round
-----------------------------------------------------------------------------------------

/-- A round at ordinary text sends all of it up to the next percent sign. -/
theorem printfRound_text (open' : m s.format ≠ 0) (ordinary : m s.format ≠ percent)
    : printfRound m s
      = (amountFrom m s.format stringRounds 1).map (fun amount =>
          printfEmit { s with format := s.format + amount } (intMax - s.written < amount)
            (fun i => m (s.format + i)) amount) := by
  simp only [printfRound, if_neg open', if_pos (Or.inl ordinary), if_neg ordinary]

section Directives

variable (sign : m s.format = percent)
include sign

/-- A round at a doubled percent sign sends the second one with the text behind it. -/
theorem printfRound_percent (second : m (s.format + 1) = percent)
    : printfRound m s
      = (amountFrom m (s.format + 1) stringRounds 1).map (fun amount =>
          printfEmit { s with format := s.format + 1 + amount } (intMax - s.written < amount)
            (fun i => m (s.format + 1 + i)) amount) := by
  have open' : m s.format ≠ 0 := by simp [sign]
  simp only [printfRound, if_neg open', if_pos (Or.inr second), if_pos sign]

/-- Every other character behind the sign starts a directive or ends the search for one. -/
theorem printfRound_directive (single : m (s.format + 1) ≠ percent)
    : printfRound m s
      = if m (s.format + 1) = letterC then
          match s.parameters with
          | [] => none
          | c :: parameters =>
              some
                (printfEmit { s with format := s.format + 1 + 1, parameters := parameters }
                  (intMax - s.written = 0) (fun _ => c.setWidth 8) 1)
        else if m (s.format + 1) = letterS then
          match s.parameters with
          | [] => none
          | str :: parameters =>
              (strlen m str).map (fun len =>
                printfEmit { s with format := s.format + 1 + 1, parameters := parameters }
                  (intMax - s.written < len) (fun i => m (str + i)) len)
        else
          (strlen m s.format).map (fun len =>
            printfEmit { s with format := s.format + len } (intMax - s.written < len)
              (fun i => m (s.format + i)) len) := by
  have open' : m s.format ≠ 0 := by simp [sign]
  have noText : ¬(m s.format ≠ percent ∨ m (s.format + 1) = percent) :=
    fun either => either.elim (fun ordinary => ordinary sign) single
  simp only [printfRound, if_neg open', if_neg noText]

end Directives

-----------------------------------------------------------------------------------------
-- Rounds
-----------------------------------------------------------------------------------------

/-- The head of the loop: what has been sent and the expansion of what is left make up the
whole, and the count is that of the characters sent.
-/
structure Printf.Tracks (s : Printf) (m : Memory) (total rest : List Byte)
    (args : List PrintfArg)
    : Prop where
  format : CString m s.format rest
  passed : List.Forall₂ (Passes m) args s.parameters
  expansion : ∃ text, expand rest args = some text ∧ s.sent ++ text = total
  count : s.written.toNat = s.sent.length
  bounded : s.sent.length ≤ intMax.toNat

/-- A round leaves less of the format, or gives up on an expansion that is too long. -/
def Printf.Advances (m : Memory) (total sent : List Byte) (limit : Nat) : PrintfStep → Prop
  | .next s => ∃ rest args, s.Tracks m total rest args ∧ rest.length < limit
  | .returns result sent' => result = -1 ∧ sent' = sent ∧ intMax.toNat < total.length

/-- The end of a branch that has a piece of the expansion to send. -/
theorem Printf.Tracks.emit {full : Bool} {data : Word → Byte} {amount : Word}
    {rest' text : List Byte} {args' : List PrintfArg} {after : Addr} {parameters : List Word}
    (tracks : s.Tracks m total rest args) (shorter : rest'.length < rest.length)
    (next : CString m after rest') (passed : List.Forall₂ (Passes m) args' parameters)
    (expansion : expand rest' args' = some text) (sum : s.sent ++ (piece ++ text) = total)
    (test : full = decide (intMax.toNat < s.sent.length + piece.length))
    (whole : amount.toNat = piece.length)
    (bytes : (List.range piece.length).map (fun n => data (BitVec.ofNat 32 n)) = piece)
    : Printf.Advances m total s.sent rest.length
        (printfEmit { s with format := after, parameters := parameters } full data amount) := by
  have count := tracks.count
  by_cases exceeds : intMax.toNat < s.sent.length + piece.length
  · have stops : full = true := by rw [test, decide_eq_true exceeds]
    rw [printfEmit, if_pos stops]
    refine ⟨rfl, rfl, ?_⟩
    rw [← sum, List.length_append, List.length_append]
    omega
  · have goes : full = false := by rw [test, decide_eq_false exceeds]
    have sends : printfEmit { s with format := after, parameters := parameters } full data amount
        = .next
            {
              format := after
              parameters := parameters
              written := s.written + amount
              sent := s.sent ++ piece
            } := by
      simp [printfEmit, goes, print_eq, whole, bytes]
    rw [sends]
    refine ⟨rest', args', ⟨next, passed, ⟨text, expansion, ?_⟩, ?_, ?_⟩, shorter⟩
    · rw [List.append_assoc, sum]
    · rw [List.length_append]
      bv_omega
    · rw [List.length_append]
      omega

/-- The test of the remaining capacity. -/
theorem Printf.Tracks.room (tracks : s.Tracks m total rest args) {amount : Word}
    (whole : amount.toNat = piece.length)
    : decide (intMax - s.written < amount)
      = decide (intMax.toNat < s.sent.length + piece.length) := by
  have count := tracks.count
  have bounded := tracks.bounded
  rw [decide_eq_decide, BitVec.lt_def]
  bv_omega

/-- A stretch of text, which may start with the second of two percent signs. -/
theorem Printf.Tracks.copies {first : Byte} {tail : List Byte}
    (tracks : s.Tracks m total rest args) (string : CString m format (first :: tail))
    (shorter : tail.length < rest.length)
    (copied : expand rest args = (expand tail args).map (first :: ·))
    : ∃ step,
        (amountFrom m format stringRounds 1).map (fun amount =>
            printfEmit { s with format := format + amount } (intMax - s.written < amount)
              (fun i => m (format + i)) amount)
          = some step
        ∧ Printf.Advances m total s.sent rest.length step := by
  obtain ⟨text, expansion, sum⟩ := tracks.expansion
  have later : CString m (format + 1) tail := by
    cases string with
    | cons _ _ later => exact later
  have amount := amountFrom_eq later stringRounds later.length_lt
  rw [copied, expand_text, Option.map_map] at expansion
  obtain ⟨behind, rest', rfl⟩ := Option.map_eq_some_iff.mp expansion
  have split : first :: tail = (first :: tail.takeWhile isText) ++ tail.dropWhile isText := by
    simp
  rw [split] at string
  have after := string.suffix
  have bytes := string.read
  have length : (first :: tail.takeWhile isText).length < 2 ^ 32 := by
    have bound := string.length_lt
    rw [List.length_append] at bound
    omega
  have whole : (1 + BitVec.ofNat 32 (tail.takeWhile isText).length).toNat
      = (first :: tail.takeWhile isText).length := by
    rw [List.length_cons] at length ⊢
    bv_omega
  have reached : BitVec.ofNat 32 (first :: tail.takeWhile isText).length
      = 1 + BitVec.ofNat 32 (tail.takeWhile isText).length := by
    rw [← whole, BitVec.ofNat_toNat, BitVec.setWidth_eq]
  rw [reached] at after
  refine ⟨_, by rw [amount, Option.map_some], ?_⟩
  refine tracks.emit ?_ after tracks.passed rest' ?_ (tracks.room whole) whole bytes
  · have fewer := (List.dropWhile_sublist (p := isText) (l := tail)).length_le
    omega
  · simpa using sum

/-- The rest of the format, from a percent sign that starts no directive. -/
theorem Printf.Tracks.fallsBack (tracks : s.Tracks m total rest args) (more : rest ≠ [])
    (verbatim : expand rest args = some rest)
    : ∃ step,
        (strlen m s.format).map (fun len =>
            printfEmit { s with format := s.format + len } (intMax - s.written < len)
              (fun i => m (s.format + i)) len)
          = some step
        ∧ Printf.Advances m total s.sent rest.length step := by
  obtain ⟨text, expansion, sum⟩ := tracks.expansion
  rw [verbatim] at expansion
  obtain rfl := Option.some.inj expansion
  have string := tracks.format
  rw [← List.append_nil rest] at string
  have whole : (BitVec.ofNat 32 rest.length).toNat = rest.length :=
    Nat.mod_eq_of_lt tracks.format.length_lt
  refine ⟨_, by rw [tracks.format.strlen_eq, Option.map_some], ?_⟩
  refine tracks.emit ?_ string.suffix tracks.passed rfl ?_ (tracks.room whole) whole string.read
  · exact List.length_pos_iff.mpr more
  · simpa using sum

/-- A round at `%c` sends the character and goes on behind the directive. -/
theorem Printf.Tracks.sendsChar
    (tracks : s.Tracks m total (percent :: letterC :: rest) args)
    (after : CString m (s.format + 1 + 1) rest)
    : ∃ step,
        (match s.parameters with
          | [] => none
          | c :: parameters =>
              some
                (printfEmit { s with format := s.format + 1 + 1, parameters := parameters }
                  (intMax - s.written = 0) (fun _ => c.setWidth 8) 1))
          = some step
        ∧ Printf.Advances m total s.sent (percent :: letterC :: rest).length step := by
  obtain ⟨text, expansion, sum⟩ := tracks.expansion
  rw [expand_char] at expansion
  obtain ⟨⟨c, args'⟩, given, remaining⟩ := Option.bind_eq_some_iff.mp expansion
  obtain ⟨behind, later, rfl⟩ := Option.map_eq_some_iff.mp remaining
  obtain rfl := nextChar_eq_some given
  have passed := tracks.passed
  have count := tracks.count
  have bounded := tracks.bounded
  have limit : intMax.toNat = 2147483647 := rfl
  cases stack : s.parameters with
  | nil =>
      rw [stack] at passed
      cases passed
  | cons word parameters =>
      rw [stack] at passed
      obtain ⟨passes, others⟩ := List.forall₂_cons.mp passed
      have low : word.setWidth 8 = c := passes
      have bytes : (List.range [c].length).map (fun _ => word.setWidth 8) = [c] := by simp [low]
      have test : decide (intMax - s.written = 0)
          = decide (intMax.toNat < s.sent.length + [c].length) := by
        rw [decide_eq_decide, List.length_singleton, limit]
        bv_omega
      have whole : (1 : Word).toNat = [c].length := rfl
      have shorter : rest.length < (percent :: letterC :: rest).length := by
        simp only [List.length_cons]
        omega
      have joined : s.sent ++ ([c] ++ behind) = total := sum
      refine ⟨_, rfl, ?_⟩
      generalize decide (intMax - s.written = 0) = full at test ⊢
      exact tracks.emit shorter after others later joined test whole bytes

/-- A round at `%s` sends the string as a whole, because `strlen` finds its end. -/
theorem Printf.Tracks.sendsString
    (tracks : s.Tracks m total (percent :: letterS :: rest) args)
    (after : CString m (s.format + 1 + 1) rest)
    : ∃ step,
        (match s.parameters with
          | [] => none
          | str :: parameters =>
              (strlen m str).map (fun len =>
                printfEmit { s with format := s.format + 1 + 1, parameters := parameters }
                  (intMax - s.written < len) (fun i => m (str + i)) len))
          = some step
        ∧ Printf.Advances m total s.sent (percent :: letterS :: rest).length step := by
  obtain ⟨text, expansion, sum⟩ := tracks.expansion
  rw [expand_string] at expansion
  obtain ⟨⟨chars, args'⟩, given, remaining⟩ := Option.bind_eq_some_iff.mp expansion
  obtain ⟨behind, later, rfl⟩ := Option.map_eq_some_iff.mp remaining
  obtain rfl := nextString_eq_some given
  have passed := tracks.passed
  cases stack : s.parameters with
  | nil =>
      rw [stack] at passed
      cases passed
  | cons str parameters =>
      rw [stack] at passed
      obtain ⟨passes, others⟩ := List.forall₂_cons.mp passed
      have string : CString m str chars := passes
      have whole : (BitVec.ofNat 32 chars.length).toNat = chars.length :=
        Nat.mod_eq_of_lt string.length_lt
      refine ⟨_, by simp only [string.strlen_eq, Option.map_some]; rfl, ?_⟩
      rw [← List.append_nil chars] at string
      refine tracks.emit ?_ after others later sum (tracks.room whole) whole string.read
      simp only [List.length_cons]
      omega

/-- One round, by the characters at the head of the format. -/
theorem Printf.Tracks.round (tracks : s.Tracks m total rest args) (more : rest ≠ [])
    : ∃ step,
        printfRound m s = some step ∧ Printf.Advances m total s.sent rest.length step := by
  have string := tracks.format
  cases string with
  | nil terminator => exact absurd rfl more
  | @cons _ char tail here text later =>
      by_cases sign : char = percent
      · subst sign
        cases later with
        | nil terminator =>
            have single : m (s.format + 1) ≠ percent := by
              rw [terminator]
              decide
            rw [printfRound_directive here single, terminator]
            exact tracks.fallsBack more rfl
        | @cons _ next behind here' text' later' =>
            by_cases double : next = percent
            · subst double
              rw [printfRound_percent here here']
              exact tracks.copies (.cons here' text' later') (by simp) expand_percent
            · have single : m (s.format + 1) ≠ percent := by rwa [here']
              rw [printfRound_directive here single, here']
              by_cases isChar : next = letterC
              · subst isChar
                exact tracks.sendsChar later'
              · by_cases isString : next = letterS
                · subst isString
                  exact tracks.sendsString later'
                · rw [if_neg isChar, if_neg isString]
                  exact tracks.fallsBack more (expand_other double isChar isString)
      · rw [printfRound_text (by rwa [here]) (by rwa [here])]
        exact tracks.copies tracks.format (Nat.lt_succ_self _) (expand_cons sign)

-----------------------------------------------------------------------------------------
-- Runs
-----------------------------------------------------------------------------------------

/-- What has been sent is the beginning of the expansion. -/
theorem Printf.Tracks.prefix_sent (tracks : s.Tracks m total rest args) : s.sent <+: total := by
  obtain ⟨text, _, sum⟩ := tracks.expansion
  exact ⟨text, sum⟩

/-- At the end of the format the whole expansion has been sent. -/
theorem Printf.Tracks.finishes (tracks : s.Tracks m total [] args)
    : printfRound m s = some (.returns s.written s.sent) ∧ s.sent = total := by
  obtain ⟨text, expansion, sum⟩ := tracks.expansion
  rw [expand] at expansion
  obtain rfl := Option.some.inj expansion
  cases tracks.format with
  | nil terminator => exact ⟨by rw [printfRound, if_pos terminator], by simpa using sum⟩

/-- The loop ends, by induction on the rounds it may take. -/
theorem Printf.Tracks.loop (tracks : s.Tracks m total rest args) (rounds : Nat)
    (enough : rest.length < rounds)
    : ∃ result sent,
        printfLoop m rounds s = some (result, sent)
        ∧ (total.length ≤ intMax.toNat → sent = total ∧ result.toNat = total.length)
        ∧ (intMax.toNat < total.length
          → result = -1 ∧ sent <+: total ∧ sent.length ≤ intMax.toNat) := by
  induction rounds generalizing s rest args with
  | zero => cases enough
  | succ rounds ih =>
      have bounded := tracks.bounded
      by_cases done : rest = []
      · subst done
        obtain ⟨returned, all⟩ := tracks.finishes
        refine ⟨s.written, s.sent, by rw [printfLoop, returned], fun _ => ⟨all, ?_⟩, ?_⟩
        · rw [tracks.count, all]
        · intro long
          rw [all] at bounded
          omega
      · obtain ⟨step, round, advances⟩ := tracks.round done
        cases step with
        | next s' =>
            obtain ⟨rest', args', tracks', shorter⟩ := advances
            rw [printfLoop, round]
            exact ih tracks' (by omega)
        | returns result sent =>
            obtain ⟨rfl, rfl, long⟩ := advances
            refine ⟨-1, s.sent, by rw [printfLoop, round], fun short => ?_, fun _ => ?_⟩
            · omega
            · exact ⟨rfl, tracks.prefix_sent, bounded⟩

/-- One round that does not return. -/
def PrintfContinues (m : Memory) (s s' : Printf) : Prop :=
  printfRound m s = some (.next s')

/-- Every state of the loop still tracks the expansion, by induction on the rounds. -/
theorem Printf.Tracks.reached {s' : Printf} (tracks : s.Tracks m total rest args)
    (run : Relation.ReflTransGen (PrintfContinues m) s s')
    : ∃ rest' args', s'.Tracks m total rest' args' := by
  induction run with
  | refl => exact ⟨rest, args, tracks⟩
  | tail _ continues ih =>
      obtain ⟨rest', args', tracks'⟩ := ih
      rw [PrintfContinues] at continues
      by_cases done : rest' = []
      · subst done
        rw [tracks'.finishes.1] at continues
        cases continues
      · obtain ⟨step, round, advances⟩ := tracks'.round done
        rw [continues] at round
        obtain rfl := Option.some.inj round
        obtain ⟨rest₂, args₂, tracks₂, _⟩ := advances
        exact ⟨rest₂, args₂, tracks₂⟩

/-- `printf` ends. It sends the expansion of its format and returns the number of characters
if that fits an `int`; otherwise it returns -1 after a part that fits. In every round the
count is that of the characters sent, so it never overflows.
-/
theorem printf_expands {parameters : List Word} {text : List Byte}
    (string : CString m format chars) (passed : List.Forall₂ (Passes m) args parameters)
    (expansion : expand chars args = some text)
    : (∃ result sent,
        printf m format parameters = some (result, sent)
        ∧ (text.length ≤ intMax.toNat → sent = text ∧ result.toNat = text.length)
        ∧ (intMax.toNat < text.length
          → result = -1 ∧ sent <+: text ∧ sent.length ≤ intMax.toNat))
      ∧ ∀ s,
        Relation.ReflTransGen (PrintfContinues m)
          { format := format, parameters := parameters, written := 0, sent := [] } s
        → s.written.toNat = s.sent.length ∧ s.sent.length ≤ intMax.toNat := by
  have start
      : ({ format := format, parameters := parameters, written := 0, sent := [] } : Printf).Tracks
          m text chars args :=
    ⟨string, passed, ⟨text, expansion, rfl⟩, rfl, Nat.zero_le _⟩
  refine ⟨start.loop stringRounds string.length_lt, fun s run => ?_⟩
  obtain ⟨rest, args', tracks⟩ := start.reached run
  exact ⟨tracks.count, tracks.bounded⟩

/-- The format `%c%s%` with a character and a string of one character. -/
def directiveMemory : Memory
  | 0x1000 => percent
  | 0x1001 => letterC
  | 0x1002 => percent
  | 0x1003 => letterS
  | 0x1004 => percent
  | 0x2000 => 0x42
  | _ => 0

/-- The directives expand to their arguments. Witness: `%c%s%` with `A` and `B`, where the lone
percent sign at the end stays.
-/
theorem printf_expands_directives
    : printf directiveMemory 0x1000 [0x41, 0x2000] = some (3, [0x41, 0x42, percent]) := by
  have string : CString directiveMemory 0x1000 [percent, letterC, percent, letterS, percent] :=
    .cons rfl (by decide) (.cons rfl (by decide) (.cons rfl (by decide)
      (.cons rfl (by decide) (.cons rfl (by decide) (.nil rfl)))))
  have argument : CString directiveMemory 0x2000 [0x42] := .cons rfl (by decide) (.nil rfl)
  have passed
      : List.Forall₂ (Passes directiveMemory) [.char 0x41, .string [0x42]] [0x41, 0x2000] :=
    .cons rfl (.cons argument .nil)
  have expansion
      : expand [percent, letterC, percent, letterS, percent] [.char 0x41, .string [0x42]]
        = some [0x41, 0x42, percent] :=
    rfl
  obtain ⟨⟨result, sent, returned, short, _⟩, _⟩ := printf_expands string passed expansion
  obtain ⟨rfl, count⟩ := short (by decide)
  rw [returned, BitVec.eq_of_toNat_eq (show result.toNat = (3 : Word).toNat from count)]

end SimpleKernel
