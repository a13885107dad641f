import SimpleKernel.Library.ByteMemory

/-! The byte loops of the C library.
`memset` fills its range, and a loop that copies in the direction of the overlap copies all
bytes at once.
-/

namespace SimpleKernel

open ByteMemory

/-- `memset` from index `i` on, with `rounds` bytes left. -/
def memsetFrom (buf : Addr) (value : Byte) : Nat → Word → Memory → Memory
  | 0, _, m => m
  | rounds + 1, i, m => memsetFrom buf value rounds (i + 1) (m.store8 (buf + i) value)

def memset (m : Memory) (bufptr : Addr) (value : Word) (size : Word) : Memory :=
  memsetFrom bufptr (value.setWidth 8) size.toNat 0 m

/-- `memcpy` from index `i` on, with `rounds` bytes left. -/
def memcpyFrom (dst src : Addr) : Nat → Word → Memory → Memory
  | 0, _, m => m
  | rounds + 1, i, m => memcpyFrom dst src rounds (i + 1) (m.store8 (dst + i) (m (src + i)))

def memcpy (m : Memory) (dstptr srcptr : Addr) (size : Word) : Memory :=
  memcpyFrom dstptr srcptr size.toNat 0 m

/-- The backward loop of `memmove`, with the bytes below `i` left. -/
def memmoveBack (dst src : Addr) : Nat → Memory → Memory
  | 0, m => m
  | i + 1, m =>
      memmoveBack dst src i
        (m.store8 (dst + BitVec.ofNat 32 i) (m (src + BitVec.ofNat 32 i)))

/-- Its forward loop is that of `memcpy`. -/
def memmove (m : Memory) (dstptr srcptr : Addr) (size : Word) : Memory :=
  if dstptr < srcptr then memcpyFrom dstptr srcptr size.toNat 0 m
  else memmoveBack dstptr srcptr size.toNat m

/-- The forward loop fills what is left of its range, by induction on the rounds. -/
theorem memsetFrom_eq_fill (buf : Addr) (value : Byte) (rounds : Nat) (i : Word) (m : Memory)
    : memsetFrom buf value rounds i m = m.fill (buf + i) value rounds := by
  induction rounds generalizing i m with
  | zero => exact (m.fill_zero _ _).symm
  | succ rounds ih =>
      rw [memsetFrom, ih, ← BitVec.add_assoc]
      exact m.fill_first (buf + i) value rounds

/-- The loop of `memset` fills the block. -/
theorem memset_eq_fill (m : Memory) (bufptr : Addr) (value size : Word)
    : memset m bufptr value size = m.fill bufptr (value.setWidth 8) size.toNat := by
  have whole := memsetFrom_eq_fill bufptr (value.setWidth 8) size.toNat 0 m
  simpa [memset] using whole

/-- `memset` leaves every byte outside its range alone. -/
theorem memset_outside (m : Memory) {bufptr x : Addr} (value : Word) {size : Word}
    (outside : size.toNat ≤ (x - bufptr).toNat)
    : memset m bufptr value size x = m x := by
  rw [memset_eq_fill]
  exact m.fill_of_outside _ outside

-----------------------------------------------------------------------------------------
-- Copies
-----------------------------------------------------------------------------------------

/-- A store of `memcpy` reaches the bytes of the block only, by induction on the rounds. -/
theorem memcpyFrom_outside {dst x : Addr} (src : Addr) (rounds : Nat) (i : Word)
    (m : Memory) (bounded : i.toNat + rounds < 2 ^ 32)
    (outside : (x - dst).toNat < i.toNat ∨ i.toNat + rounds ≤ (x - dst).toNat)
    : memcpyFrom dst src rounds i m x = m x := by
  induction rounds generalizing i m with
  | zero => rfl
  | succ rounds ih =>
      have next : (i + 1).toNat = i.toNat + 1 := by bv_omega
      rw [memcpyFrom, ih (i + 1) _ (by omega) (by omega)]
      exact m.store8_of_ne _ (by bv_omega)

/-- `memcpy` leaves every byte outside its destination alone. -/
theorem memcpy_outside (m : Memory) {dstptr x : Addr} (srcptr : Addr) {size : Word}
    (outside : size.toNat ≤ (x - dstptr).toNat)
    : memcpy m dstptr srcptr size x = m x :=
  memcpyFrom_outside _ _ 0 m (by have small := size.isLt; simpa using small)
    (Or.inr (by simpa using outside))

/-- The forward loop copies at once what is left, as long as the source does not start
within the range below it.
-/
theorem memcpyFrom_eq_copy (dst src : Addr) (rounds : Nat) (i : Word) (m : Memory)
    (behind : (src - dst).toNat + rounds ≤ 2 ^ 32)
    : memcpyFrom dst src rounds i m = m.copy (dst + i) (src + i) rounds := by
  induction rounds generalizing i m with
  | zero => exact (m.copy_zero).symm
  | succ rounds ih =>
      have apart : src + i - (dst + i) = src - dst := by bv_omega
      rw [memcpyFrom, ih (i + 1) _ (by omega), ← BitVec.add_assoc, ← BitVec.add_assoc]
      exact m.copy_first (by rw [apart]; omega)

/-- `memcpy` copies blocks if the source does not begin behind the destination inside it: no
byte is read after it has been overwritten.
-/
theorem memcpy_eq_copy (m : Memory) {dstptr srcptr : Addr} {size : Word}
    (behind : (srcptr - dstptr).toNat + size.toNat ≤ 2 ^ 32)
    : memcpy m dstptr srcptr size = m.copy dstptr srcptr size.toNat := by
  have whole := memcpyFrom_eq_copy dstptr srcptr size.toNat 0 m behind
  simpa [memcpy] using whole

/-- The backward loop copies at once what is left, as long as the destination does not start
within the range below it.
-/
theorem memmoveBack_eq_copy (dst src : Addr) (i : Nat) (m : Memory)
    (below : (dst - src).toNat + i ≤ 2 ^ 32)
    : memmoveBack dst src i m = m.copy dst src i := by
  induction i generalizing m with
  | zero => exact (m.copy_zero).symm
  | succ i ih =>
      rw [memmoveBack, ih _ (by omega)]
      exact m.copy_last (by omega)

/-- The direction `memmove` chooses is right for ranges that do not wrap. -/
theorem memmove_eq_copy (m : Memory) {dstptr srcptr : Addr} {size : Word}
    (dstRange : dstptr.toNat + size.toNat ≤ 2 ^ 32)
    (srcRange : srcptr.toNat + size.toNat ≤ 2 ^ 32)
    : memmove m dstptr srcptr size = m.copy dstptr srcptr size.toNat := by
  rw [memmove]
  split
  · next forward => exact memcpy_eq_copy m (by bv_omega)
  · next backward => exact memmoveBack_eq_copy _ _ _ m (by bv_omega)

/-- `memmove` copies its range as if all bytes were read before any is written, and leaves
every other byte alone.
-/
theorem memmove_simultaneous (m : Memory) {dstptr srcptr : Addr} {size : Word}
    (dstRange : dstptr.toNat + size.toNat ≤ 2 ^ 32)
    (srcRange : srcptr.toNat + size.toNat ≤ 2 ^ 32)
    : (∀ i : Word, i < size → memmove m dstptr srcptr size (dstptr + i) = m (srcptr + i))
      ∧ ∀ x : Addr,
          x.toNat < dstptr.toNat ∨ dstptr.toNat + size.toNat ≤ x.toNat
          → memmove m dstptr srcptr size x = m x := by
  rw [memmove_eq_copy m dstRange srcRange]
  constructor
  · intro i inside
    have offset : dstptr + i - dstptr = i := by bv_omega
    rw [m.copy_of_inside (by rw [offset]; exact inside), offset]
  · intro x outside
    exact m.copy_of_outside (by bv_omega)

/-- Every byte arrives as it was before the call. Witness: five bytes moved up by two, over
their own upper end, which are copied from the last to the first.
-/
theorem memmove_simultaneous_overlapping
    : (∀ i : Word,
          i < 5
          → memmove (fun x => x.setWidth 8) 0x1002 0x1000 5 (0x1002 + i)
            = (0x1000 + i : Addr).setWidth 8)
      ∧ ∀ x : Addr,
          x.toNat < (0x1002 : Addr).toNat
            ∨ (0x1002 : Addr).toNat + (5 : Word).toNat ≤ x.toNat
          → memmove (fun x => x.setWidth 8) 0x1002 0x1000 5 x = x.setWidth 8 :=
  memmove_simultaneous (fun x => x.setWidth 8) (by decide) (by decide)

end SimpleKernel
