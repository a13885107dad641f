import Mathlib

/-! Splitting a machine word at a mask of low bits.
The bits under the mask and the bits above it are independent fields of one word.
-/

namespace Masks

variable {w : Nat}

/-- A mask of low bits takes a remainder. -/
theorem toNat_and_low (x : BitVec w) (k : Nat) (fits : k ≤ w)
    : (x &&& BitVec.ofNat w (2 ^ k - 1)).toNat = x.toNat % 2 ^ k := by
  have small : 2 ^ k - 1 < 2 ^ w := by
    have bound := Nat.pow_le_pow_right (show 0 < 2 by decide) fits
    have positive := Nat.two_pow_pos k
    omega
  rw [BitVec.toNat_and, BitVec.toNat_ofNat, Nat.mod_eq_of_lt small, Nat.and_two_pow_sub_one_eq_mod]

/-- Clearing the low bits rounds down to a multiple of the mask's power of two. -/
theorem toNat_and_high (x : BitVec w) (k : Nat) (fits : k ≤ w)
    : (x &&& ~~~BitVec.ofNat w (2 ^ k - 1)).toNat = x.toNat / 2 ^ k * 2 ^ k := by
  have small : 2 ^ k - 1 < 2 ^ w := by
    have bound := Nat.pow_le_pow_right (show 0 < 2 by decide) fits
    have positive := Nat.two_pow_pos k
    omega
  apply Nat.eq_of_testBit_eq
  intro i
  rw [BitVec.testBit_toNat, BitVec.getLsbD_and, BitVec.getLsbD_not, ← BitVec.testBit_toNat,
    ← BitVec.testBit_toNat, BitVec.toNat_ofNat, Nat.mod_eq_of_lt small,
    Nat.testBit_two_pow_sub_one, Nat.testBit_mul_two_pow, Nat.testBit_div_two_pow]
  by_cases low : i < k
  · simp [low, Nat.not_le.mpr low]
  · have sum : i - k + k = i := by omega
    by_cases inside : i < w
    · simp [low, inside, Nat.not_lt.mp low, sum]
    · have zero : x.toNat.testBit i = false := by
        rw [BitVec.testBit_toNat]
        exact BitVec.getLsbD_of_ge x i (Nat.not_lt.mp inside)
      simp [zero, sum]

/-- Fields on the two sides of a mask are combined as they are added. -/
theorem toNat_or_low {x y : BitVec w} (k : Nat) (high : x.toNat % 2 ^ k = 0)
    (low : y.toNat < 2 ^ k)
    : (x ||| y).toNat = x.toNat + y.toNat := by
  have field : x.toNat = (x.toNat / 2 ^ k) <<< k := by
    rw [Nat.shiftLeft_eq, Nat.div_mul_cancel (Nat.dvd_of_mod_eq_zero high)]
  rw [BitVec.toNat_or, field, ← Nat.shiftLeft_add_eq_or_of_lt low]

/-- The field above the mask survives a new value under it. -/
theorem pack_and_high (x y mask : BitVec w)
    : (x &&& ~~~mask ||| y &&& mask) &&& ~~~mask = x &&& ~~~mask := by
  ext i inside
  simp only [BitVec.getElem_and, BitVec.getElem_or, BitVec.getElem_not]
  cases x[i] <;> cases y[i] <;> cases mask[i] <;> rfl

/-- The field under the mask survives a new value above it. -/
theorem pack_and_low (x y mask : BitVec w)
    : (x &&& ~~~mask ||| y &&& mask) &&& mask = y &&& mask := by
  ext i inside
  simp only [BitVec.getElem_and, BitVec.getElem_or, BitVec.getElem_not]
  cases x[i] <;> cases y[i] <;> cases mask[i] <;> rfl

/-- Setting bits outside a field leaves the field. -/
theorem or_and_of_disjoint {y mask : BitVec w} (disjoint : y &&& mask = 0) (x : BitVec w)
    : (x ||| y) &&& mask = x &&& mask := by
  ext i inside
  have bit := congrArg (fun z => z[i]) disjoint
  simp only [BitVec.getElem_and, BitVec.getElem_or, BitVec.ofNat_eq_ofNat,
    BitVec.getElem_zero] at bit ⊢
  cases field : y[i] <;> cases kept : mask[i] <;> simp_all

/-- Clearing bits outside a field leaves the field. -/
theorem and_not_and_of_disjoint {y mask : BitVec w} (disjoint : y &&& mask = 0)
    (x : BitVec w)
    : (x &&& ~~~y) &&& mask = x &&& mask := by
  ext i inside
  have bit := congrArg (fun z => z[i]) disjoint
  simp only [BitVec.getElem_and, BitVec.getElem_not, BitVec.ofNat_eq_ofNat,
    BitVec.getElem_zero] at bit ⊢
  cases field : y[i] <;> cases kept : mask[i] <;> simp_all

/-- A bit under the mask is read through the mask. -/
theorem getLsbD_of_and_eq {x y mask : BitVec w} {i : Nat} (same : x &&& mask = y &&& mask)
    (under : mask.getLsbD i = true)
    : x.getLsbD i = y.getLsbD i := by
  have bits := congrArg (fun z => z.getLsbD i) same
  simpa only [BitVec.getLsbD_and, under, Bool.and_true] using bits

/-- Setting a bit changes that bit only. -/
theorem getLsbD_or_bit (x : BitVec w) {i : Nat} (inside : i < w) (j : Nat)
    : (x ||| 1#w <<< i).getLsbD j = (x.getLsbD j || decide (j = i)) := by
  rw [← BitVec.twoPow_eq, BitVec.getLsbD_or, BitVec.getLsbD_twoPow]
  simp [inside, eq_comm]

/-- Clearing a bit changes that bit only. -/
theorem getLsbD_and_not_bit (x : BitVec w) {i j : Nat} (inside : i < w)
    : (x &&& ~~~(1#w <<< i)).getLsbD j = (x.getLsbD j && !decide (j = i)) := by
  rw [← BitVec.twoPow_eq, BitVec.getLsbD_and, BitVec.getLsbD_not, BitVec.getLsbD_twoPow]
  by_cases within : j < w
  · simp [inside, within, eq_comm]
  · simp [BitVec.getLsbD_of_ge x j (Nat.not_lt.mp within)]

/-- A bit is tested with a mask. -/
theorem and_bit_ne_zero (x : BitVec w) {i : Nat} (inside : i < w)
    : (x &&& 1#w <<< i != 0#w) = x.getLsbD i := by
  rw [← BitVec.twoPow_eq, BitVec.and_twoPow]
  have nonzero : BitVec.twoPow w i ≠ 0#w := by
    intro zero
    have bit := congrArg (fun y => y.getLsbD i) zero
    simp [inside] at bit
  cases bit : x.getLsbD i <;> simp [nonzero]

end Masks
