import Mathlib

/-! Byte-addressed memory of a 32-bit little-endian machine.
A memory is total: what an address holds before the first store to it is arbitrary.
-/

namespace ByteMemory

abbrev Addr := BitVec 32

abbrev Word := BitVec 32

abbrev Byte := BitVec 8

abbrev Memory := Addr → Byte

/-- The four bytes from `a` upwards, lowest byte first. -/
def Memory.load32 (m : Memory) (a : Addr) : Word :=
  m (a + 3) ++ m (a + 2) ++ m (a + 1) ++ m a

def Memory.store32 (m : Memory) (a : Addr) (value : Word) : Memory :=
  fun x => if (x - a).toNat < 4 then value.extractLsb' (8 * (x - a).toNat) 8 else m x

def Memory.store8 (m : Memory) (a : Addr) (value : Byte) : Memory :=
  fun x => if x = a then value else m x

/-- The two bytes from `a` upwards, lower byte first. -/
def Memory.load16 (m : Memory) (a : Addr) : BitVec 16 :=
  m (a + 1) ++ m a

def Memory.store16 (m : Memory) (a : Addr) (value : BitVec 16) : Memory :=
  (m.store8 a (value.setWidth 8)).store8 (a + 1) (value.extractLsb' 8 8)

/-- Every byte of the `count` bytes from `a` upwards becomes `value`. -/
def Memory.fill (m : Memory) (a : Addr) (value : Byte) (count : Nat) : Memory :=
  fun x => if (x - a).toNat < count then value else m x

/-- The `count` bytes from `src` upwards copied to `dst` upwards, all at once. -/
def Memory.copy (m : Memory) (dst src : Addr) (count : Nat) : Memory :=
  fun x => if (x - dst).toNat < count then m (src + (x - dst)) else m x

/-- A word is stored to its four bytes only; the distance to its first one wraps for a byte in
front of it.
-/
theorem Memory.store32_of_outside (m : Memory) (value : Word) {a x : Addr}
    (outside : 4 ≤ (x - a).toNat)
    : m.store32 a value x = m x :=
  if_neg (Nat.not_lt.mpr outside)

@[simp] theorem Memory.store8_same (m : Memory) (a : Addr) (value : Byte)
    : m.store8 a value a = value := by
  simp [Memory.store8]

theorem Memory.store8_of_ne (m : Memory) (value : Byte) {a x : Addr} (ne : x ≠ a)
    : m.store8 a value x = m x := by
  simp [Memory.store8, ne]

section Halfwords

variable {m m' : Memory} {a b x : Addr} {value : BitVec 16}

theorem Memory.store16_of_outside (outside : 2 ≤ (x - a).toNat)
    : m.store16 a value x = m x := by
  have ne : x ≠ a := by bv_omega
  have neHigh : x ≠ a + 1 := by bv_omega
  rw [Memory.store16, store8_of_ne _ _ neHigh, store8_of_ne _ _ ne]

/-- A half word is read from its two bytes. -/
theorem Memory.load16_congr (low : m' b = m a) (high : m' (b + 1) = m (a + 1))
    : m'.load16 b = m.load16 a := by
  rw [Memory.load16, low, high, Memory.load16]

@[simp] theorem Memory.load16_store16_same : (m.store16 a value).load16 a = value := by
  have ne : a ≠ a + 1 := by bv_omega
  rw [Memory.load16, Memory.store16, store8_same, store8_of_ne _ _ ne, store8_same]
  ext i inside
  simp only [BitVec.getElem_append, BitVec.getElem_extractLsb', BitVec.getElem_setWidth]
  grind

theorem Memory.load16_store8_of_ne {byte : Byte} (first : b ≠ a) (second : b + 1 ≠ a)
    : (m.store8 a byte).load16 b = m.load16 b :=
  load16_congr (store8_of_ne _ _ first) (store8_of_ne _ _ second)

theorem Memory.load16_store16_of_apart (below : 2 ≤ (b - a).toNat) (above : 2 ≤ (a - b).toNat)
    : (m.store16 a value).load16 b = m.load16 b :=
  load16_congr (store16_of_outside below) (store16_of_outside (by bv_omega))

end Halfwords

/-- A byte inside the block is filled. -/
theorem Memory.fill_of_inside (m : Memory) (value : Byte) {a x : Addr} {count : Nat}
    (inside : (x - a).toNat < count)
    : m.fill a value count x = value :=
  if_pos inside

/-- A byte outside it stays. -/
theorem Memory.fill_of_outside (m : Memory) (value : Byte) {a x : Addr} {count : Nat}
    (outside : count ≤ (x - a).toNat)
    : m.fill a value count x = m x :=
  if_neg (Nat.not_lt.mpr outside)

/-- A word is determined by its four bytes. -/
theorem Memory.load32_congr {m m' : Memory} {a : Addr}
    (same : ∀ x : Addr, (x - a).toNat < 4 → m' x = m x)
    : m'.load32 a = m.load32 a := by
  have byte (k : Addr) (small : k.toNat < 4) : m' (a + k) = m (a + k) :=
    same (a + k) (by simpa using small)
  have first : m' a = m a := same a (by simp)
  simp [Memory.load32, byte, first]

/-- A word stored is the word loaded, by reassembling its four extracted bytes. -/
@[simp] theorem Memory.load32_store32_same (m : Memory) (a : Addr) (value : Word)
    : (m.store32 a value).load32 a = value := by
  have byte (k : Addr) (small : k.toNat < 4)
      : m.store32 a value (a + k) = value.extractLsb' (8 * k.toNat) 8 := by
    simp [Memory.store32, small]
  have first : m.store32 a value a = value.extractLsb' 0 8 := by simp [Memory.store32]
  simp only [Memory.load32, byte 3 (by decide), byte 2 (by decide), byte 1 (by decide), first]
  ext i small
  simp only [BitVec.getElem_append, BitVec.getElem_extractLsb']
  grind

@[simp] theorem Memory.store32_store32_same (m : Memory) (a : Addr) (first second : Word)
    : (m.store32 a first).store32 a second = m.store32 a second := by
  funext x
  simp only [Memory.store32]
  split <;> rfl

/-- Words four bytes apart, in either direction around the address space, are independent. -/
theorem Memory.load32_store32_of_apart (m : Memory) (value : Word) {a b : Addr}
    (below : 4 ≤ (b - a).toNat) (above : 4 ≤ (a - b).toNat)
    : (m.store32 a value).load32 b = m.load32 b := by
  apply Memory.load32_congr
  intro x near
  apply Memory.store32_of_outside
  bv_omega

/-- Distinct four-byte aligned words are independent. -/
theorem Memory.load32_store32_of_ne (m : Memory) (value : Word) {a b : Addr}
    (alignedA : a.toNat % 4 = 0) (alignedB : b.toNat % 4 = 0) (ne : b ≠ a)
    : (m.store32 a value).load32 b = m.load32 b := by
  exact m.load32_store32_of_apart value (by bv_omega) (by bv_omega)

/-- A word outside a block is not filled with it. -/
theorem Memory.load32_fill_of_outside (m : Memory) (value : Byte) {a b : Addr} {count : Nat}
    (below : count ≤ (b - a).toNat) (above : (b - a).toNat + 4 ≤ 2 ^ 32)
    : (m.fill a value count).load32 b = m.load32 b := by
  apply Memory.load32_congr
  intro x near
  apply Memory.fill_of_outside
  bv_omega

/-- A word inside a block of zeros is zero. -/
theorem Memory.load32_fill_zero (m : Memory) {a b : Addr} {count : Nat}
    (inside : (b - a).toNat + 4 ≤ count) (bounded : count ≤ 2 ^ 32)
    : (m.fill a 0 count).load32 b = 0 := by
  have byte (k : Addr) (small : k.toNat < 4) : m.fill a 0 count (b + k) = 0 :=
    m.fill_of_inside 0 (by bv_omega)
  have first : m.fill a 0 count b = 0 := m.fill_of_inside 0 (by omega)
  simp only [Memory.load32, byte 3 (by decide), byte 2 (by decide), byte 1 (by decide), first]
  rfl

@[simp] theorem Memory.fill_zero (m : Memory) (a : Addr) (value : Byte)
    : m.fill a value 0 = m := by
  funext x
  exact m.fill_of_outside value (Nat.zero_le _)

/-- Bytes filled from the lowest on. -/
theorem Memory.fill_first (m : Memory) (a : Addr) (value : Byte) (count : Nat)
    : (m.store8 a value).fill (a + 1) value count = m.fill a value (count + 1) := by
  funext x
  simp only [Memory.fill, Memory.store8]
  by_cases first : x = a
  · simp [first]
  · have shifted : (x - (a + 1)).toNat + 1 = (x - a).toNat := by bv_omega
    by_cases inside : (x - a).toNat < count + 1
    · rw [if_pos inside, if_pos (by omega)]
    · rw [if_neg inside, if_neg (by omega), if_neg first]

section Copy

variable (m : Memory) {dst src x : Addr} {count : Nat}

theorem Memory.copy_of_inside (inside : (x - dst).toNat < count)
    : m.copy dst src count x = m (src + (x - dst)) :=
  if_pos inside

theorem Memory.copy_of_outside (outside : count ≤ (x - dst).toNat)
    : m.copy dst src count x = m x :=
  if_neg (Nat.not_lt.mpr outside)

/-- A half word inside a copy reads as at its source. -/
theorem Memory.load16_copy_of_inside (inside : (x - dst).toNat + 2 ≤ count)
    (bounded : count < 2 ^ 32)
    : (m.copy dst src count).load16 x = m.load16 (src + (x - dst)) := by
  have next : x + 1 - dst = x - dst + 1 := by bv_omega
  refine load16_congr (m.copy_of_inside (by omega)) ?_
  rw [m.copy_of_inside (by bv_omega), next, BitVec.add_assoc]

theorem Memory.load16_copy_of_outside (outside : count ≤ (x - dst).toNat)
    (apart : (x - dst).toNat + 2 ≤ 2 ^ 32)
    : (m.copy dst src count).load16 x = m.load16 x :=
  load16_congr (m.copy_of_outside outside) (m.copy_of_outside (by bv_omega))

@[simp] theorem Memory.copy_zero : m.copy dst src 0 = m := by
  funext x
  exact m.copy_of_outside (Nat.zero_le _)

/-- Copying the lowest byte first is right as long as no later source byte is the lowest of
the destination.
-/
theorem Memory.copy_first (behind : (src - dst).toNat + count < 2 ^ 32)
    : (m.store8 dst (m src)).copy (dst + 1) (src + 1) count = m.copy dst src (count + 1) := by
  funext x
  by_cases first : x = dst
  · rw [first, copy_of_outside _ (by bv_omega), m.copy_of_inside (by simp)]
    simp
  · have shifted : (x - (dst + 1)).toNat + 1 = (x - dst).toNat := by bv_omega
    by_cases inside : (x - dst).toNat < count + 1
    · have source : src + 1 + (x - (dst + 1)) = src + (x - dst) := by bv_omega
      have unread : src + (x - dst) ≠ dst := by bv_omega
      rw [copy_of_inside _ (by omega), m.copy_of_inside inside, source]
      exact m.store8_of_ne _ unread
    · rw [copy_of_outside _ (by omega), m.copy_of_outside (by omega)]
      exact m.store8_of_ne _ first

/-- Copying the highest byte first is right as long as no earlier source byte is the highest
of the destination.
-/
theorem Memory.copy_last (below : (dst - src).toNat + count < 2 ^ 32)
    : (m.store8 (dst + BitVec.ofNat 32 count) (m (src + BitVec.ofNat 32 count))).copy
        dst src count
      = m.copy dst src (count + 1) := by
  funext x
  have last : (BitVec.ofNat 32 count).toNat = count := Nat.mod_eq_of_lt (by omega)
  generalize BitVec.ofNat 32 count = top at last
  by_cases inside : (x - dst).toNat < count
  · have unread : src + (x - dst) ≠ dst + top := by bv_omega
    rw [copy_of_inside _ inside, m.copy_of_inside (by omega)]
    exact m.store8_of_ne _ unread
  · rw [copy_of_outside _ (by omega)]
    by_cases final : x = dst + top
    · have offset : x - dst = top := by bv_omega
      rw [final, m.copy_of_inside (by bv_omega), m.store8_same, ← final, offset]
    · rw [m.copy_of_outside (by bv_omega)]
      exact m.store8_of_ne _ final

end Copy

end ByteMemory
