import SimpleKernel.Library.Numerals
import SimpleKernel.Terminal.Screen

/-! `iprint` and the decimal numerals it prints. -/

namespace SimpleKernel

open ByteMemory Numerals

variable {σ : Type} {d : Nat}

/-- `'0' + n`, as the `char` that is passed. -/
def iprintChar (n : BitVec 64) : Byte :=
  (0x30 + n).setWidth 8

/-- `iprint` with at most `depth` calls under way at once; `none` when these do not suffice.
What `terminal_putchar` does to the state is a parameter, so that a run can be followed on
the terminal or on the list of the characters sent.
-/
def iprint (terminalPutchar : σ → Byte → σ) : Nat → σ → BitVec 64 → Option σ
  | 0, _, _ => none
  | depth + 1, s, n =>
      if n > 9 then
        let a := n / 10
        let n := n - 10 * a
        (iprint terminalPutchar depth s a).map (fun s => terminalPutchar s (iprintChar n))
      else some (terminalPutchar s (iprintChar n))

-----------------------------------------------------------------------------------------
-- The digits
-----------------------------------------------------------------------------------------

/-- The character of a decimal digit. -/
def digitChar (d : Nat) : Byte :=
  BitVec.ofNat 8 (0x30 + d)

/-- The numeral of `n` in base 10. -/
def decimal (n : Nat) : Numeral 10 :=
  .ofNat (by decide) n

/-- What a numeral looks like on the screen, most significant digit first. -/
def numeralText (numeral : Numeral 10) : List Byte :=
  numeral.digits.map digitChar

/-- The character that `iprint` prints is the last digit. -/
theorem iprintChar_eq (n : BitVec 64) : iprintChar n = digitChar n.toNat := by
  rw [iprintChar, digitChar]
  bv_omega

/-- What one call splits off: the quotient is passed on and the remainder printed. -/
theorem iprint_quotient (n : BitVec 64)
    : (n / 10).toNat = n.toNat / 10 ∧ (n - 10 * (n / 10)).toNat = n.toNat % 10 := by
  have quotient : (n / 10).toNat = n.toNat / 10 := BitVec.toNat_udiv
  have bounded := n.isLt
  refine ⟨quotient, ?_⟩
  have product : (10 * (n / 10)).toNat = 10 * (n.toNat / 10) := by
    rw [BitVec.toNat_mul, quotient, show (10 : BitVec 64).toNat = 10 from rfl,
      Nat.mod_eq_of_lt (by omega)]
  rw [BitVec.toNat_sub_of_le (by rw [BitVec.le_def, product]; omega), product]
  omega

/-- Digits are printed in order. -/
theorem numeralText_snoc {numeral : Numeral 10} (positive : 0 < numeral.value)
    (below : d < 10)
    : numeralText (numeral.snoc positive d below) = numeralText numeral ++ [digitChar d] :=
  List.map_append

/-- A number below ten has one digit. -/
theorem decimal_small {n : Nat} (small : n < 10)
    : (decimal n).length = 1 ∧ numeralText (decimal n) = [digitChar n] := by
  have single : decimal n = .digit n small := Numeral.ofNat_of_lt (by decide) small
  rw [single]
  exact ⟨rfl, rfl⟩

/-- The digits of the quotient, and the remainder behind them. -/
theorem decimal_large {n : Nat} (large : 10 ≤ n)
    : (decimal n).length = (decimal (n / 10)).length + 1
      ∧ numeralText (decimal n) = numeralText (decimal (n / 10)) ++ [digitChar (n % 10)] := by
  have split : decimal n = _ := Numeral.ofNat_of_le (by decide) large
  rw [split]
  exact ⟨Numeral.length_snoc _ _, numeralText_snoc _ _⟩

/-- `iprint` sends the numeral of its argument, by induction on the calls under way. It needs
one for every digit.
-/
theorem iprint_eq (putchar : σ → Byte → σ) (depth : Nat) (s : σ) (n : BitVec 64)
    : iprint putchar depth s n
      = if (decimal n.toNat).length ≤ depth
        then some ((numeralText (decimal n.toNat)).foldl putchar s)
        else none := by
  induction depth generalizing s n with
  | zero =>
      have positive := (decimal n.toNat).length_pos
      rw [if_neg (by omega)]
      rfl
  | succ depth ih =>
      rw [iprint]
      split
      · next more =>
        obtain ⟨quotient, remainder⟩ := iprint_quotient n
        obtain ⟨length, text⟩ := decimal_large (show 10 ≤ n.toNat by bv_omega)
        simp only [ih, quotient, iprintChar_eq, remainder]
        rw [length, text, List.foldl_append]
        by_cases deep : (decimal (n.toNat / 10)).length ≤ depth
        · rw [if_pos deep, if_pos (Nat.add_le_add_right deep 1)]
          rfl
        · rw [if_neg deep, if_neg (by omega)]
          rfl
      · next one =>
        obtain ⟨length, text⟩ := decimal_small (show n.toNat < 10 by bv_omega)
        rw [length, text, iprintChar_eq, if_pos (Nat.le_add_left 1 depth)]
        rfl

/-- A number of 64 bits has at most 20 digits. -/
theorem decimal_length_le (n : BitVec 64) : (decimal n.toNat).length ≤ 20 := by
  refine Numeral.length_le (by decide) (by decide) ?_
  rw [decimal, Numeral.value_ofNat]
  exact n.isLt.trans (by decide)

/-- `iprint` returns for every number, and what it sends is the one decimal numeral of it. The
recursion is as deep as the numeral is long.
-/
theorem iprint_decimal (n : BitVec 64)
    : ∃! numeral : Numeral 10,
        numeral.value = n.toNat
        ∧ numeral.length ≤ 20
        ∧ ∀ (σ : Type) (putchar : σ → Byte → σ) (depth : Nat) (s : σ),
            iprint putchar depth s n
              = if numeral.length ≤ depth
                then some ((numeralText numeral).foldl putchar s)
                else none := by
  have value : (decimal n.toNat).value = n.toNat := Numeral.value_ofNat (by decide) n.toNat
  refine ⟨decimal n.toNat, ⟨value, decimal_length_le n, ?_⟩, ?_⟩
  · intro σ putchar depth s
    exact iprint_eq putchar depth s n
  · rintro other ⟨same, _, _⟩
    exact Numeral.value_injective (by decide) (same.trans value.symm)

/-- Zeros inside a number are printed. -/
example
    : iprint (fun sent c => sent ++ [c]) 4 [] 1005 = some [0x31, 0x30, 0x30, 0x35] := by
  decide

-----------------------------------------------------------------------------------------
-- Numbers on the screen
-----------------------------------------------------------------------------------------

/-- After any calls `iprint` makes the terminal show the text so far with the number behind
it.
-/
theorem iprint_shows (mem : Memory) (calls : List TerminalCall) (n : BitVec 64)
    : ∃ t,
        iprint terminalPutchar 20
            (calls.foldl TerminalCall.exec (terminalInitialize (unsetTerminal mem))) n
          = some t
        ∧ t.InBounds
        ∧ t.Shows
          ((numeralText (decimal n.toNat)).foldl Text.putchar
            (calls.foldl TerminalCall.extend .initial)) := by
  have shown := (terminalCalls_track mem calls).terminalWrite (numeralText (decimal n.toNat))
  refine ⟨_, ?_, shown.bounds, shown.window.shows shown.bounds⟩
  rw [iprint_eq, if_pos (decimal_length_le n)]

end SimpleKernel
