import Mathlib.Data.Nat.Digits.Lemmas

/-! Positional numerals, most significant digit first.
A numeral has no leading zero, so its value determines it.
-/

namespace Numerals

/-- A number written in a base. Only the single digit of zero starts with a zero. -/
@[ext]
structure Numeral (base : Nat) where
  digits : List Nat
  below : ∀ d ∈ digits, d < base
  nonempty : digits ≠ []
  leading : digits.head? = some 0 → digits = [0]

variable {base n d k : Nat} {numeral : Numeral base}

def Numeral.value (numeral : Numeral base) : Nat :=
  Nat.ofDigits base numeral.digits.reverse

def Numeral.length (numeral : Numeral base) : Nat :=
  numeral.digits.length

/-- The numeral of a number below the base. -/
def Numeral.digit (d : Nat) (below : d < base) : Numeral base where
  digits := [d]
  below := by simpa using below
  nonempty := List.cons_ne_nil d []
  leading := by simp

@[simp]
theorem Numeral.value_digit (below : d < base) : (Numeral.digit d below).value = d :=
  Nat.ofDigits_singleton

/-- The numeral 0 stands for zero. -/
theorem Numeral.value_eq_zero (zero : numeral.digits = [0]) : numeral.value = 0 := by
  rw [Numeral.value, zero]
  exact Nat.ofDigits_singleton

/-- One more digit behind a numeral that is not zero. -/
def Numeral.snoc (numeral : Numeral base) (positive : 0 < numeral.value) (d : Nat)
    (below : d < base)
    : Numeral base where
  digits := numeral.digits ++ [d]
  below := by
    intro digit member
    rcases List.mem_append.mp member with earlier | last
    · exact numeral.below digit earlier
    · rwa [List.mem_singleton.mp last]
  nonempty := by simp
  leading := by
    intro zero
    rw [List.head?_append_of_ne_nil _ numeral.nonempty] at zero
    have value := Numeral.value_eq_zero (numeral.leading zero)
    omega

/-- A digit put behind a numeral counts as its lowest. -/
@[simp]
theorem Numeral.value_snoc (positive : 0 < numeral.value) (below : d < base)
    : (numeral.snoc positive d below).value = d + base * numeral.value := by
  simp only [Numeral.value, Numeral.snoc, List.reverse_append, List.reverse_singleton,
    List.singleton_append, Nat.ofDigits_cons]

theorem Numeral.length_pos (numeral : Numeral base) : 0 < numeral.length :=
  List.length_pos_of_ne_nil numeral.nonempty

@[simp]
theorem Numeral.length_snoc (positive : 0 < numeral.value) (below : d < base)
    : (numeral.snoc positive d below).length = numeral.length + 1 := by
  simp [Numeral.length, Numeral.snoc]

/-- The digits of a numeral that is not zero, read off its value. -/
theorem Numeral.digits_value (base_gt : 1 < base) (ne : numeral.digits ≠ [0])
    : Nat.digits base numeral.value = numeral.digits.reverse := by
  refine Nat.digits_ofDigits base base_gt _ (fun d member => ?_) (fun nonempty last => ?_)
  · exact numeral.below d (List.mem_reverse.mp member)
  · rw [List.getLast_reverse] at last
    refine ne (numeral.leading ?_)
    rw [List.head?_eq_some_head numeral.nonempty, last]

/-- Any other numeral is positive: it does not begin with a zero. -/
theorem Numeral.value_pos (base_gt : 1 < base) (ne : numeral.digits ≠ [0])
    : 0 < numeral.value := by
  have digits := numeral.digits_value base_gt ne
  refine Nat.pos_of_ne_zero (fun zero => numeral.nonempty ?_)
  rw [zero, Nat.digits_zero] at digits
  exact List.reverse_eq_nil_iff.mp digits.symm

/-- A number has one numeral. -/
theorem Numeral.value_injective (base_gt : 1 < base)
    : Function.Injective (Numeral.value : Numeral base → Nat) := by
  intro numeral other same
  ext1
  by_cases zero : numeral.digits = [0]
  · rw [Numeral.value_eq_zero zero] at same
    rw [zero]
    by_contra ne
    have positive := other.value_pos base_gt (Ne.symm ne)
    omega
  · have digits := numeral.digits_value base_gt zero
    have positive := numeral.value_pos base_gt zero
    have ne : other.digits ≠ [0] := by
      intro zero
      rw [same, Numeral.value_eq_zero zero] at positive
      exact Nat.lt_irrefl 0 positive
    rw [same, other.digits_value base_gt ne] at digits
    exact (List.reverse_injective digits).symm

/-- The numeral of any number. -/
def Numeral.ofNat (base_gt : 1 < base) (n : Nat) : Numeral base where
  digits := if n = 0 then [0] else (Nat.digits base n).reverse
  below := by
    intro d member
    split at member
    · rw [List.mem_singleton.mp member]
      omega
    · exact Nat.digits_lt_base base_gt (List.mem_reverse.mp member)
  nonempty := by
    split
    · simp
    · next ne =>
      rw [Ne, List.reverse_eq_nil_iff]
      exact Nat.digits_ne_nil_iff_ne_zero.mpr ne
  leading := by
    split
    · exact fun _ => rfl
    · next ne =>
      have nonempty : Nat.digits base n ≠ [] := Nat.digits_ne_nil_iff_ne_zero.mpr ne
      rw [List.head?_reverse, List.getLast?_eq_some_getLast nonempty]
      exact fun zero => absurd (Option.some.inj zero) (Nat.getLast_digit_ne_zero base ne)

/-- The numeral of a number stands for it, by induction on the number. -/
@[simp]
theorem Numeral.value_ofNat (base_gt : 1 < base) (n : Nat)
    : (Numeral.ofNat base_gt n).value = n := by
  simp only [Numeral.value, Numeral.ofNat]
  split
  · next zero => simp [zero]
  · rw [List.reverse_reverse, Nat.ofDigits_digits]

theorem Numeral.ofNat_of_lt (base_gt : 1 < base) (below : n < base)
    : Numeral.ofNat base_gt n = Numeral.digit n below :=
  Numeral.value_injective base_gt (by simp)

/-- The last digit of a numeral is the remainder, and the others are the quotient's. -/
theorem Numeral.ofNat_of_le (base_gt : 1 < base) (le : base ≤ n)
    : Numeral.ofNat base_gt n
      = (Numeral.ofNat base_gt (n / base)).snoc
          (by rw [Numeral.value_ofNat]; exact Nat.div_pos le (by omega)) (n % base)
          (Nat.mod_lt n (by omega)) :=
  Numeral.value_injective base_gt (by simp [Nat.mod_add_div])

/-- A number below a power of the base has at most as many digits as the exponent says. -/
theorem Numeral.length_le (base_gt : 1 < base) (positive : 0 < k)
    (bounded : numeral.value < base ^ k)
    : numeral.length ≤ k := by
  rw [Numeral.length]
  by_cases zero : numeral.digits = [0]
  · rw [zero]
    exact positive
  · have length := (Nat.digits_length_le_iff base_gt numeral.value).mpr bounded
    rwa [numeral.digits_value base_gt zero, List.length_reverse] at length

end Numerals
