import SimpleKernel.Libc.Bytes

/-! The C library's comparisons of NUL-terminated strings.
`memcmp` compares unsigned bytes and `strcmp` subtracts signed characters, so they order
strings differently where ASCII meets a byte of 0x80 or above.
-/

namespace SimpleKernel

open ByteMemory

/-- A loop over a string that has not ended by then has seen every address and found no NUL.
-/
def stringRounds : Nat := 2 ^ 32

/-- `strlen` from index `len` on; `none` when it never ends. -/
def strlenFrom (m : Memory) (str : Addr) : Nat → Word → Option Word
  | 0, _ => none
  | rounds + 1, len =>
      if m (str + len) ≠ 0 then strlenFrom m str rounds (len + 1) else some len

def strlen (m : Memory) (str : Addr) : Option Word :=
  strlenFrom m str stringRounds 0

/-- The loop of `strcmp`, and the difference of two signed characters at its end. -/
def strcmpFrom (m : Memory) : Nat → Addr → Addr → Option Int
  | 0, _, _ => none
  | rounds + 1, s1, s2 =>
      if m s1 ≠ 0 ∧ m s1 = m s2 then strcmpFrom m rounds (s1 + 1) (s2 + 1)
      else some ((m s1).toInt - (m s2).toInt)

def strcmp (m : Memory) (s1 s2 : Addr) : Option Int :=
  strcmpFrom m stringRounds s1 s2

/-- `memcmp` from index `i` on, with `rounds` bytes left. -/
def memcmpFrom (m : Memory) (a b : Addr) : Nat → Word → Int
  | 0, _ => 0
  | rounds + 1, i =>
      if m (a + i) < m (b + i) then -1
      else if m (b + i) < m (a + i) then 1
      else memcmpFrom m a b rounds (i + 1)

def memcmp (m : Memory) (aptr bptr : Addr) (size : Word) : Int :=
  memcmpFrom m aptr bptr size.toNat 0

/-- The characters from `str` up to the first NUL. -/
inductive CString (m : Memory) : Addr → List Byte → Prop
  | nil {str : Addr} (terminator : m str = 0) : CString m str []
  | cons {str : Addr} {char : Byte} {rest : List Byte} (here : m str = char)
      (text : char ≠ 0) (tail : CString m (str + 1) rest)
    : CString m str (char :: rest)

variable {m : Memory} {str s t : Addr} {chars rest xs ys : List Byte}

theorem add_one_add_ofNat (a : Addr) (n : Nat)
    : a + 1 + BitVec.ofNat 32 n = a + BitVec.ofNat 32 (n + 1) := by
  rw [BitVec.ofNat_add, BitVec.add_assoc, BitVec.add_comm 1]
  rfl

/-- What follows some characters of a string is a string. -/
theorem CString.suffix (string : CString m str (chars ++ rest))
    : CString m (str + BitVec.ofNat 32 chars.length) rest := by
  induction chars generalizing str with
  | nil => simpa using string
  | cons char tail ih =>
      cases string with
      | cons here text later =>
          have next := ih later
          rwa [add_one_add_ofNat] at next

/-- Equal characters and an equal terminator make the same string. -/
theorem CString.congr {m' : Memory} (string : CString m s chars)
    (same : ∀ n ≤ chars.length, m' (t + BitVec.ofNat 32 n) = m (s + BitVec.ofNat 32 n))
    : CString m' t chars := by
  induction string generalizing t with
  | nil terminator =>
      have here := same 0 le_rfl
      rw [BitVec.add_zero, BitVec.add_zero] at here
      exact .nil (here.trans terminator)
  | @cons s char tail here text later ih =>
      have first := same 0 (Nat.zero_le _)
      rw [BitVec.add_zero, BitVec.add_zero] at first
      refine .cons (first.trans here) text (ih (fun n le => ?_))
      rw [add_one_add_ofNat, add_one_add_ofNat]
      exact same (n + 1) (by simpa using le)

/-- An address determines the string at it. -/
theorem CString.unique (left : CString m str xs) (right : CString m str ys) : xs = ys := by
  induction left generalizing ys with
  | nil terminator =>
      cases right with
      | nil => rfl
      | cons here text => exact absurd (here.symm.trans terminator) text
  | cons here text tail ih =>
      cases right with
      | nil terminator => exact absurd (here.symm.trans terminator) text
      | cons here' text' tail' => rw [← here, ← here', ih tail']

/-- A string ends with its terminator. -/
theorem CString.terminator (string : CString m str chars)
    : m (str + BitVec.ofNat 32 chars.length) = 0 := by
  rw [← List.append_nil chars] at string
  cases string.suffix with
  | nil terminator => exact terminator

/-- A string that came back to its start would never end. -/
theorem CString.length_lt (string : CString m str chars) : chars.length < 2 ^ 32 := by
  by_contra long
  rw [← List.take_append_drop (2 ^ 32) chars] at string
  have again := string.suffix
  rw [List.length_take, Nat.min_eq_left (by omega)] at again
  have lengths := congrArg List.length (string.unique (by simpa using again))
  simp only [List.length_append, List.length_take, List.length_drop] at lengths
  omega

/-- No character before it is zero. -/
theorem CString.text (string : CString m str chars) {i : Nat} (inside : i < chars.length)
    : m (str + BitVec.ofNat 32 i) ≠ 0 := by
  rw [← List.take_append_drop i chars, List.drop_eq_getElem_cons inside] at string
  have later := string.suffix
  rw [List.length_take, Nat.min_eq_left (by omega)] at later
  cases later with
  | cons here text => rwa [here]

/-- `strlen` counts the characters, by induction on the string. -/
theorem strlenFrom_eq {len : Word} (string : CString m (str + len) chars) (rounds : Nat)
    (enough : chars.length < rounds)
    : strlenFrom m str rounds len = some (len + BitVec.ofNat 32 chars.length) := by
  induction chars generalizing len rounds with
  | nil =>
      obtain ⟨rounds, rfl⟩ := Nat.exists_eq_add_of_lt enough
      cases string with
      | nil terminator => simp [strlenFrom, terminator]
  | cons char tail ih =>
      obtain ⟨rounds, rfl⟩ := Nat.exists_eq_succ_of_ne_zero (Nat.ne_zero_of_lt enough)
      cases string with
      | cons here text later =>
          rw [BitVec.add_assoc] at later
          rw [strlenFrom, here, if_pos text, ih later rounds (by simpa using enough)]
          rw [add_one_add_ofNat, List.length_cons]

/-- `strlen` counts the characters in front of the terminator. -/
theorem CString.strlen_eq (string : CString m str chars)
    : strlen m str = some (BitVec.ofNat 32 chars.length) := by
  have start : CString m (str + 0) chars := by simpa using string
  have counted := strlenFrom_eq start stringRounds string.length_lt
  simpa [strlen] using counted

-----------------------------------------------------------------------------------------
-- Comparisons
-----------------------------------------------------------------------------------------

/-- The characters at which two strings first differ, with the terminator for the end. -/
def firstDifference : List Byte → List Byte → Option (Byte × Byte)
  | [], [] => none
  | [], y :: _ => some (0, y)
  | x :: _, [] => some (x, 0)
  | x :: xs, y :: ys => if x = y then firstDifference xs ys else some (x, y)

/-- The lexicographic order of unsigned bytes as a sign. -/
def lexicographic (xs ys : List Byte) : Int :=
  if xs < ys then -1 else if ys < xs then 1 else 0

theorem lexicographic_cons (x : Byte) (xs ys : List Byte)
    : lexicographic (x :: xs) (x :: ys) = lexicographic xs ys := by
  simp [lexicographic]

/-- A list is not before itself. -/
theorem lexicographic_self (xs : List Byte) : lexicographic xs xs = 0 := by
  induction xs with
  | nil => rfl
  | cons x rest ih => rw [lexicographic_cons, ih]

theorem lexicographic_cons_of_ne {x y : Byte} (ne : x ≠ y) (xs ys : List Byte)
    : lexicographic (x :: xs) (y :: ys) = if x < y then -1 else 1 := by
  simp only [lexicographic, List.cons_lt_cons_iff, ne, ne.symm, false_and, or_false]
  split
  · rfl
  · next notLess => rw [if_pos (by bv_omega)]

/-- `memcmp` up to the shorter string's terminator orders strings lexicographically, by
induction on both.
-/
theorem memcmpFrom_eq {a b : Addr} {i : Word} (left : CString m (a + i) xs)
    (right : CString m (b + i) ys)
    : memcmpFrom m a b (min xs.length ys.length + 1) i = lexicographic xs ys := by
  induction xs generalizing i ys with
  | nil =>
      cases left with
      | nil terminator =>
          cases right with
          | nil terminator' => simp [memcmpFrom, terminator, terminator', lexicographic]
          | cons here text tail =>
              simpa [memcmpFrom, terminator, here, lexicographic] using text
  | cons x rest ih =>
      cases left with
      | cons here text tail =>
          cases right with
          | nil terminator => simpa [memcmpFrom, terminator, here, lexicographic] using text
          | @cons _ y rest' here' text' tail' =>
              rw [BitVec.add_assoc] at tail tail'
              rw [List.length_cons, List.length_cons, Nat.add_min_add_right, memcmpFrom, here,
                here']
              by_cases same : x = y
              · subst same
                rw [if_neg (by bv_omega), if_neg (by bv_omega), ih tail tail',
                  lexicographic_cons]
              · rw [lexicographic_cons_of_ne same]
                split
                · rfl
                · rw [if_pos (by bv_omega)]

/-- Two strings that fill the address space have their NUL at the same place. -/
theorem CString.same_of_full (left : CString m s xs) (right : CString m t ys)
    (full : 2 ^ 32 ≤ min xs.length ys.length + 1)
    : xs = ys := by
  have shortX := left.length_lt
  have shortY := right.length_lt
  have final := left.terminator
  by_cases same : s = t
  · subst same
    exact left.unique right
  · have lengthX : xs.length = 2 ^ 32 - 1 := by omega
    have inside : (s - 1 - t).toNat < ys.length := by bv_omega
    have text := right.text inside
    have place : t + BitVec.ofNat 32 (s - 1 - t).toNat = s + BitVec.ofNat 32 xs.length := by
      rw [BitVec.ofNat_toNat, BitVec.setWidth_eq, lengthX]
      bv_omega
    rw [place] at text
    exact absurd final text

/-- `memcmp` orders strings lexicographically if it compares the shorter one with its
terminator, which is less than any character.
-/
theorem CString.memcmp_eq (left : CString m s xs) (right : CString m t ys)
    : memcmp m s t (BitVec.ofNat 32 (min xs.length ys.length + 1)) = lexicographic xs ys := by
  rw [memcmp, BitVec.toNat_ofNat]
  by_cases full : 2 ^ 32 ≤ min xs.length ys.length + 1
  · -- the size wraps to nothing
    have shortX := left.length_lt
    have size : min xs.length ys.length + 1 = 2 ^ 32 := by omega
    rw [size, left.same_of_full right full, lexicographic_self]
    rfl
  · rw [Nat.mod_eq_of_lt (by omega)]
    exact memcmpFrom_eq (by simpa using left) (by simpa using right)

/-- The characters at which `strcmp` stops. -/
theorem strcmpFrom_eq (left : CString m s xs) (right : CString m t ys) (rounds : Nat)
    (enough : min xs.length ys.length < rounds)
    : strcmpFrom m rounds s t
      = some
        (match firstDifference xs ys with
        | none => 0
        | some (x, y) => x.toInt - y.toInt) := by
  induction left generalizing t ys rounds with
  | nil terminator =>
      obtain ⟨rounds, rfl⟩ := Nat.exists_eq_succ_of_ne_zero (Nat.ne_zero_of_lt enough)
      cases right with
      | nil terminator' => simp [strcmpFrom, terminator, terminator', firstDifference]
      | cons here text tail => simp [strcmpFrom, terminator, here, firstDifference]
  | @cons s x xs here text tail ih =>
      obtain ⟨rounds, rfl⟩ := Nat.exists_eq_succ_of_ne_zero (Nat.ne_zero_of_lt enough)
      cases right with
      | nil terminator => simp [strcmpFrom, terminator, here, firstDifference]
      | @cons _ y ys here' text' tail' =>
          rw [List.length_cons, List.length_cons, Nat.add_min_add_right] at enough
          rw [strcmpFrom, here, here', firstDifference]
          by_cases same : x = y
          · rw [if_pos ⟨text, same⟩, if_pos same]
            exact ih tail' rounds (by omega)
          · rw [if_neg (fun both => same both.2), if_neg same]

/-- `strcmp` answers with the difference of the first characters that differ, taken as signed
ones.
-/
theorem CString.strcmp_eq (left : CString m s xs) (right : CString m t ys)
    : strcmp m s t
      = some
        (match firstDifference xs ys with
        | none => 0
        | some (x, y) => x.toInt - y.toInt) :=
  strcmpFrom_eq left right stringRounds (by
    have short := left.length_lt
    rw [stringRounds]
    omega)

/-- The first difference decides the order, by induction on both strings. -/
theorem lexicographic_eq (textX : ∀ x ∈ xs, x ≠ 0) (textY : ∀ y ∈ ys, y ≠ 0)
    : firstDifference xs ys = none ∧ lexicographic xs ys = 0
      ∨ ∃ x y,
          firstDifference xs ys = some (x, y)
          ∧ x ≠ y
          ∧ lexicographic xs ys = if x < y then -1 else 1 := by
  induction xs generalizing ys with
  | nil =>
      cases ys with
      | nil => exact Or.inl ⟨rfl, rfl⟩
      | cons y rest =>
          have text := textY y (by simp)
          have less : 0 < y := by bv_omega
          exact Or.inr ⟨0, y, rfl, text.symm, by rw [if_pos less]; rfl⟩
  | cons x rest ih =>
      cases ys with
      | nil =>
          have text := textX x (by simp)
          exact Or.inr ⟨x, 0, rfl, text, by simp [lexicographic]⟩
      | cons y rest' =>
          by_cases same : x = y
          · subst same
            rw [lexicographic_cons, firstDifference, if_pos rfl]
            exact ih (fun z member => textX z (by simp [member]))
              (fun z member => textY z (by simp [member]))
          · refine Or.inr ⟨x, y, by rw [firstDifference, if_neg same], same, ?_⟩
            exact lexicographic_cons_of_ne same rest rest'

/-- A character of a string is not zero. -/
theorem CString.text_of_mem (string : CString m str chars) : ∀ char ∈ chars, char ≠ 0 := by
  induction string with
  | nil => simp
  | cons here text tail ih => exact List.forall_mem_cons.mpr ⟨text, ih⟩

/-- Reading two different bytes as signed keeps their order exactly when their top bits
agree.
-/
theorem signed_order_iff {x y : Byte} (ne : x ≠ y)
    : (x.toInt - y.toInt).sign = (if x < y then -1 else 1 : Int).sign ↔ x.msb = y.msb := by
  have apart : x.toNat ≠ y.toNat := fun same => ne (BitVec.eq_of_toNat_eq same)
  have boundX := x.isLt
  have boundY := y.isLt
  have tops : x.msb = y.msb ↔ (128 ≤ x.toNat ↔ 128 ≤ y.toNat) := by
    rw [BitVec.msb_eq_decide, BitVec.msb_eq_decide, decide_eq_decide]
  have signedX := BitVec.toInt_eq_toNat_cond x
  have signedY := BitVec.toInt_eq_toNat_cond y
  rw [tops]
  by_cases less : x < y
  · rw [if_pos less, Int.sign_neg_one, Int.sign_eq_neg_one_iff_neg]
    rw [BitVec.lt_def] at less
    omega
  · rw [if_neg less, Int.sign_one, Int.sign_eq_one_iff_pos]
    rw [BitVec.lt_def] at less
    omega

/-- `memcmp` gives the lexicographic order of two strings, and `strcmp` gives it exactly
when the strings are equal or both bytes at their first difference have the same top bit.
-/
theorem strcmp_sign_iff (left : CString m s xs) (right : CString m t ys)
    : ∃ order,
        strcmp m s t = some order
        ∧ strlen m s = some (BitVec.ofNat 32 xs.length)
        ∧ strlen m t = some (BitVec.ofNat 32 ys.length)
        ∧ memcmp m s t (BitVec.ofNat 32 (min xs.length ys.length + 1)) = lexicographic xs ys
        ∧ (order.sign
            = (memcmp m s t (BitVec.ofNat 32 (min xs.length ys.length + 1))).sign
          ↔ ∀ x y, firstDifference xs ys = some (x, y) → x.msb = y.msb) := by
  refine ⟨_, left.strcmp_eq right, left.strlen_eq, right.strlen_eq, left.memcmp_eq right, ?_⟩
  rw [left.memcmp_eq right]
  rcases lexicographic_eq left.text_of_mem right.text_of_mem
    with ⟨equal, order⟩ | ⟨x, y, differ, ne, order⟩
  · simp [equal, order]
  · rw [differ, order]
    refine (signed_order_iff ne).trans ⟨?_, fun same => same x y rfl⟩
    rintro same _ _ ⟨⟩
    exact same

/-- Two strings of one character each, at 0x1000 and 0x2000. -/
def oneCharacterStrings (x y : Byte) : Memory :=
  fun a => if a = 0x1000 then x else if a = 0x2000 then y else 0

theorem oneCharacterStrings_left {x : Byte} (text : x ≠ 0) (y : Byte)
    : CString (oneCharacterStrings x y) 0x1000 [x] :=
  .cons rfl text (.nil rfl)

theorem oneCharacterStrings_right (x : Byte) {y : Byte} (text : y ≠ 0)
    : CString (oneCharacterStrings x y) 0x2000 [y] :=
  .cons rfl text (.nil rfl)

/-- On letters the signed order is that of `memcmp`. Witness: `a` and `b`. -/
theorem strcmp_sign_letters
    : ∃ order,
        strcmp (oneCharacterStrings 0x61 0x62) 0x1000 0x2000 = some order
        ∧ strlen (oneCharacterStrings 0x61 0x62) 0x1000 = some 1
        ∧ strlen (oneCharacterStrings 0x61 0x62) 0x2000 = some 1
        ∧ memcmp (oneCharacterStrings 0x61 0x62) 0x1000 0x2000 2
          = lexicographic [0x61] [0x62]
        ∧ (order.sign = (memcmp (oneCharacterStrings 0x61 0x62) 0x1000 0x2000 2).sign
          ↔ ∀ x y, firstDifference [0x61] [0x62] = some (x, y) → x.msb = y.msb) :=
  strcmp_sign_iff (oneCharacterStrings_left (by decide) 0x62)
    (oneCharacterStrings_right 0x61 (by decide))

/-- One comparison takes characters as signed and the other as unsigned. Counterexample: a byte
of 0x80 comes before a letter for `strcmp` and behind it for `memcmp`.
-/
theorem strcmp_sign_highByte
    : ¬∀ (m : Memory) (s t : Addr) (xs ys : List Byte),
        CString m s xs
        → CString m t ys
        → ∃ order,
            strcmp m s t = some order
            ∧ order.sign
              = (memcmp m s t (BitVec.ofNat 32 (min xs.length ys.length + 1))).sign := by
  intro claim
  have left := oneCharacterStrings_left (x := 0x80) (by decide) 0x61
  have right := oneCharacterStrings_right 0x80 (y := 0x61) (by decide)
  obtain ⟨order, called, same⟩ := claim _ _ _ _ _ left right
  rw [left.strcmp_eq right] at called
  rw [left.memcmp_eq right, ← Option.some.inj called] at same
  exact absurd same (by decide)

end SimpleKernel
