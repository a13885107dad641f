import SimpleKernel.Limits
import SimpleKernel.Library.Masks

/-! Heap area headers in kernel memory.
A header is two words at an 8-byte aligned address. The low three bits of each word are
flags, so a link and the flags beside it are read and written separately.
-/

namespace SimpleKernel

open ByteMemory

abbrev heapStart : Addr := 0xE0000000

/-- `0xFFC00000 - sizeof(struct heap_area)`. -/
abbrev heapEnd : Addr := 0xFFC00000 - 8

/-- `sizeof(struct heap_area)`. -/
abbrev headerSize : Word := 8

def areaNext (m : Memory) (area : Addr) : Word :=
  m.load32 area

def areaPrev (m : Memory) (area : Addr) : Word :=
  m.load32 (area + 4)

/-- `area->next = value`. -/
def storeNext (m : Memory) (area : Addr) (value : Word) : Memory :=
  m.store32 area value

/-- `area->prev = value`. -/
def storePrev (m : Memory) (area : Addr) (value : Word) : Memory :=
  m.store32 (area + 4) value

def getNextAddress (m : Memory) (area : Addr) : Addr :=
  areaNext m area &&& ~~~0b111#32

def setNextAddress (m : Memory) (area next : Addr) : Memory :=
  let n := next &&& ~~~0b111#32
  let flags := areaNext m area &&& 0b111#32
  storeNext m area (n ||| flags)

def getPrevAddress (m : Memory) (area : Addr) : Addr :=
  areaPrev m area &&& ~~~0b111#32

def setPrevAddress (m : Memory) (area prev : Addr) : Memory :=
  let n := prev &&& ~~~0b111#32
  let flags := areaPrev m area &&& 0b111#32
  storePrev m area (n ||| flags)

def getAreaUsed (m : Memory) (area : Addr) : Bool :=
  areaNext m area &&& 1#32 != 0#32

def setAreaUsed (m : Memory) (area : Addr) (used : Bool) : Memory :=
  if used then storeNext m area (areaNext m area ||| 1#32)
  else storeNext m area (areaNext m area &&& ~~~1#32)

def getAreaEpsilon (m : Memory) (area : Addr) : Bool :=
  areaNext m area >>> 1 &&& 1#32 != 0#32

def setAreaEpsilon (m : Memory) (area : Addr) (ep : Bool) : Memory :=
  if ep then storeNext m area (areaNext m area ||| 1#32 <<< 1)
  else storeNext m area (areaNext m area &&& ~~~(1#32 <<< 1))

/-- `area->prev = 0; area->next = 0`. -/
def clearHeader (m : Memory) (area : Addr) : Memory :=
  storeNext (storePrev m area 0) area 0

def getAreaSize (m : Memory) (area : Addr) : Word :=
  let next := getNextAddress m area
  if getAreaEpsilon m area ∨ next = null then 0 else next - area - headerSize

def Aligned (a : Addr) : Prop :=
  a.toNat % 8 = 0

/-- Clearing the low three bits rounds down to a multiple of eight. -/
theorem toNat_and_not_7 (x : Word) : (x &&& ~~~0b111#32).toNat = x.toNat / 8 * 8 :=
  Masks.toNat_and_high x 3 (by decide)

@[simp] theorem aligned_and_not_7 (x : Word) : Aligned (x &&& ~~~0b111#32) := by
  rw [Aligned, toNat_and_not_7]
  omega

/-- Nothing changes on an aligned address. -/
theorem Aligned.and_not_7 {a : Addr} (aligned : Aligned a) : a &&& ~~~0b111#32 = a := by
  apply BitVec.eq_of_toNat_eq
  rw [toNat_and_not_7]
  simp only [Aligned] at aligned
  omega

/-- The mask as the simplifier writes it. -/
@[simp] theorem Aligned.and_link {a : Addr} (aligned : Aligned a)
    : a &&& 0xFFFFFFF8#32 = a :=
  aligned.and_not_7

@[simp] theorem aligned_getNextAddress (m : Memory) (a : Addr)
    : Aligned (getNextAddress m a) :=
  aligned_and_not_7 _

@[simp] theorem aligned_getPrevAddress (m : Memory) (a : Addr)
    : Aligned (getPrevAddress m a) :=
  aligned_and_not_7 _

@[simp] theorem aligned_heapStart : Aligned heapStart := rfl

@[simp] theorem aligned_heapEnd : Aligned heapEnd := rfl

-----------------------------------------------------------------------------------------
-- Words of distinct headers are independent
-----------------------------------------------------------------------------------------

section Words

variable (m : Memory) {a b : Addr} (value : Word)

@[simp] theorem areaNext_storeNext_same : areaNext (storeNext m a value) a = value :=
  m.load32_store32_same a value

@[simp] theorem areaPrev_storePrev_same : areaPrev (storePrev m a value) a = value :=
  m.load32_store32_same (a + 4) value

variable (alignedA : Aligned a) (alignedB : Aligned b)
include alignedA alignedB

/-- The fields of other headers stay: two aligned headers do not overlap. -/
theorem areaNext_storeNext_of_ne (ne : b ≠ a)
    : areaNext (storeNext m a value) b = areaNext m b := by
  simp only [Aligned] at alignedA alignedB
  exact m.load32_store32_of_ne value (by omega) (by omega) ne

theorem areaPrev_storePrev_of_ne (ne : b ≠ a)
    : areaPrev (storePrev m a value) b = areaPrev m b := by
  simp only [Aligned] at alignedA alignedB
  exact m.load32_store32_of_ne value (by bv_omega) (by bv_omega) (by bv_omega)

/-- The two fields of a header do not overlap either. -/
theorem areaNext_storePrev
    : areaNext (storePrev m a value) b = areaNext m b := by
  simp only [Aligned] at alignedA alignedB
  exact m.load32_store32_of_ne value (by bv_omega) (by omega) (by bv_omega)

theorem areaPrev_storeNext
    : areaPrev (storeNext m a value) b = areaPrev m b := by
  simp only [Aligned] at alignedA alignedB
  exact m.load32_store32_of_ne value (by omega) (by bv_omega) (by bv_omega)

end Words

/-- The used mark is bit 0 of the first field. -/
theorem getAreaUsed_eq (m : Memory) (a : Addr)
    : getAreaUsed m a = (areaNext m a).getLsbD 0 :=
  Masks.and_bit_ne_zero (areaNext m a) (show 0 < 32 by decide)

/-- The epsilon mark is bit 1. -/
theorem getAreaEpsilon_eq (m : Memory) (a : Addr)
    : getAreaEpsilon m a = (areaNext m a).getLsbD 1 := by
  have bit := Masks.and_bit_ne_zero (areaNext m a >>> 1) (show 0 < 32 by decide)
  rw [BitVec.getLsbD_ushiftRight] at bit
  exact bit

-----------------------------------------------------------------------------------------
-- Each getter after each setter
-----------------------------------------------------------------------------------------

section Setters

variable {m : Memory} {a b : Addr} (alignedA : Aligned a) (alignedB : Aligned b)
include alignedA alignedB

theorem areaNext_setNextAddress (x : Addr)
    : areaNext (setNextAddress m a x) b
      = if b = a then x &&& ~~~0b111#32 ||| areaNext m a &&& 0b111#32
        else areaNext m b := by
  split
  · next same => simp [setNextAddress, same]
  · next ne => exact areaNext_storeNext_of_ne m _ alignedA alignedB ne

theorem areaNext_setAreaUsed (used : Bool)
    : areaNext (setAreaUsed m a used) b
      = if b = a then if used then areaNext m a ||| 1#32 else areaNext m a &&& ~~~1#32
        else areaNext m b := by
  split
  · next same => cases used <;> simp [setAreaUsed, same]
  · next ne =>
    cases used <;> exact areaNext_storeNext_of_ne m _ alignedA alignedB ne

theorem areaNext_setAreaEpsilon (ep : Bool)
    : areaNext (setAreaEpsilon m a ep) b
      = if b = a then
          if ep then areaNext m a ||| 1#32 <<< 1 else areaNext m a &&& ~~~(1#32 <<< 1)
        else areaNext m b := by
  split
  · next same => cases ep <;> simp [setAreaEpsilon, same]
  · next ne =>
    cases ep <;> exact areaNext_storeNext_of_ne m _ alignedA alignedB ne

theorem areaNext_setPrevAddress (x : Addr)
    : areaNext (setPrevAddress m a x) b = areaNext m b :=
  areaNext_storePrev m _ alignedA alignedB

theorem areaNext_clearHeader
    : areaNext (clearHeader m a) b = if b = a then 0 else areaNext m b := by
  split
  · next same => simp [clearHeader, same]
  · next ne =>
    rw [clearHeader, areaNext_storeNext_of_ne _ _ alignedA alignedB ne,
      areaNext_storePrev _ _ alignedA alignedB]

theorem areaPrev_setPrevAddress (x : Addr)
    : areaPrev (setPrevAddress m a x) b
      = if b = a then x &&& ~~~0b111#32 ||| areaPrev m a &&& 0b111#32
        else areaPrev m b := by
  split
  · next same => simp [setPrevAddress, same]
  · next ne => exact areaPrev_storePrev_of_ne m _ alignedA alignedB ne

theorem areaPrev_clearHeader
    : areaPrev (clearHeader m a) b = if b = a then 0 else areaPrev m b := by
  rw [clearHeader, areaPrev_storeNext _ _ alignedA alignedB]
  split
  · next same => simp [same]
  · next ne => exact areaPrev_storePrev_of_ne m _ alignedA alignedB ne

theorem areaPrev_setNextAddress (x : Addr)
    : areaPrev (setNextAddress m a x) b = areaPrev m b :=
  areaPrev_storeNext m _ alignedA alignedB

theorem areaPrev_setAreaUsed (used : Bool)
    : areaPrev (setAreaUsed m a used) b = areaPrev m b := by
  cases used <;> exact areaPrev_storeNext m _ alignedA alignedB

theorem areaPrev_setAreaEpsilon (ep : Bool)
    : areaPrev (setAreaEpsilon m a ep) b = areaPrev m b := by
  cases ep <;> exact areaPrev_storeNext m _ alignedA alignedB

-- Links

@[simp] theorem getNextAddress_setNextAddress (x : Addr)
    : getNextAddress (setNextAddress m a x) b
      = if b = a then x &&& ~~~0b111#32 else getNextAddress m b := by
  rw [getNextAddress, areaNext_setNextAddress alignedA alignedB]
  split
  · exact Masks.pack_and_high _ _ _
  · rfl

@[simp] theorem getNextAddress_setPrevAddress (x : Addr)
    : getNextAddress (setPrevAddress m a x) b = getNextAddress m b := by
  rw [getNextAddress, areaNext_setPrevAddress alignedA alignedB, getNextAddress]

@[simp] theorem getNextAddress_setAreaUsed (used : Bool)
    : getNextAddress (setAreaUsed m a used) b = getNextAddress m b := by
  rw [getNextAddress, areaNext_setAreaUsed alignedA alignedB, getNextAddress]
  split
  · next same =>
    subst same
    cases used
    · exact Masks.and_not_and_of_disjoint (by decide) _
    · exact Masks.or_and_of_disjoint (by decide) _
  · rfl

@[simp] theorem getNextAddress_setAreaEpsilon (ep : Bool)
    : getNextAddress (setAreaEpsilon m a ep) b = getNextAddress m b := by
  rw [getNextAddress, areaNext_setAreaEpsilon alignedA alignedB, getNextAddress]
  split
  · next same =>
    subst same
    cases ep
    · exact Masks.and_not_and_of_disjoint (by decide) _
    · exact Masks.or_and_of_disjoint (by decide) _
  · rfl

@[simp] theorem getNextAddress_clearHeader
    : getNextAddress (clearHeader m a) b = if b = a then null else getNextAddress m b := by
  rw [getNextAddress, areaNext_clearHeader alignedA alignedB]
  split <;> rfl

@[simp] theorem getPrevAddress_setPrevAddress (x : Addr)
    : getPrevAddress (setPrevAddress m a x) b
      = if b = a then x &&& ~~~0b111#32 else getPrevAddress m b := by
  rw [getPrevAddress, areaPrev_setPrevAddress alignedA alignedB]
  split
  · exact Masks.pack_and_high _ _ _
  · rfl

@[simp] theorem getPrevAddress_clearHeader
    : getPrevAddress (clearHeader m a) b = if b = a then null else getPrevAddress m b := by
  rw [getPrevAddress, areaPrev_clearHeader alignedA alignedB]
  split <;> rfl

@[simp] theorem getPrevAddress_setNextAddress (x : Addr)
    : getPrevAddress (setNextAddress m a x) b = getPrevAddress m b := by
  rw [getPrevAddress, areaPrev_setNextAddress alignedA alignedB, getPrevAddress]

@[simp] theorem getPrevAddress_setAreaUsed (used : Bool)
    : getPrevAddress (setAreaUsed m a used) b = getPrevAddress m b := by
  rw [getPrevAddress, areaPrev_setAreaUsed alignedA alignedB, getPrevAddress]

@[simp] theorem getPrevAddress_setAreaEpsilon (ep : Bool)
    : getPrevAddress (setAreaEpsilon m a ep) b = getPrevAddress m b := by
  rw [getPrevAddress, areaPrev_setAreaEpsilon alignedA alignedB, getPrevAddress]

-- Flags

/-- The bits below the address are kept when the address is set. -/
theorem flag_setNextAddress (x : Addr) {i : Nat} (flag : (0b111#32).getLsbD i = true)
    : (areaNext (setNextAddress m a x) b).getLsbD i = (areaNext m b).getLsbD i := by
  rw [areaNext_setNextAddress alignedA alignedB]
  split
  · next same =>
    rw [same]
    exact Masks.getLsbD_of_and_eq (Masks.pack_and_low _ _ _) flag
  · rfl

@[simp] theorem getAreaUsed_setNextAddress (x : Addr)
    : getAreaUsed (setNextAddress m a x) b = getAreaUsed m b := by
  rw [getAreaUsed_eq, flag_setNextAddress alignedA alignedB x (by decide), getAreaUsed_eq]

@[simp] theorem getAreaUsed_setPrevAddress (x : Addr)
    : getAreaUsed (setPrevAddress m a x) b = getAreaUsed m b := by
  rw [getAreaUsed_eq, areaNext_setPrevAddress alignedA alignedB, getAreaUsed_eq]

@[simp] theorem getAreaUsed_setAreaUsed (used : Bool)
    : getAreaUsed (setAreaUsed m a used) b = if b = a then used else getAreaUsed m b := by
  rw [getAreaUsed_eq, areaNext_setAreaUsed alignedA alignedB, getAreaUsed_eq]
  split
  · cases used <;> simp
  · rfl

@[simp] theorem getAreaUsed_setAreaEpsilon (ep : Bool)
    : getAreaUsed (setAreaEpsilon m a ep) b = getAreaUsed m b := by
  rw [getAreaUsed_eq, areaNext_setAreaEpsilon alignedA alignedB, getAreaUsed_eq]
  split
  · next same => cases ep <;> simp [same]
  · rfl

@[simp] theorem getAreaUsed_clearHeader
    : getAreaUsed (clearHeader m a) b = if b = a then false else getAreaUsed m b := by
  rw [getAreaUsed_eq, areaNext_clearHeader alignedA alignedB, getAreaUsed_eq]
  split <;> simp

@[simp] theorem getAreaEpsilon_setNextAddress (x : Addr)
    : getAreaEpsilon (setNextAddress m a x) b = getAreaEpsilon m b := by
  rw [getAreaEpsilon_eq, flag_setNextAddress alignedA alignedB x (by decide), getAreaEpsilon_eq]

@[simp] theorem getAreaEpsilon_setPrevAddress (x : Addr)
    : getAreaEpsilon (setPrevAddress m a x) b = getAreaEpsilon m b := by
  rw [getAreaEpsilon_eq, areaNext_setPrevAddress alignedA alignedB, getAreaEpsilon_eq]

@[simp] theorem getAreaEpsilon_setAreaUsed (used : Bool)
    : getAreaEpsilon (setAreaUsed m a used) b = getAreaEpsilon m b := by
  rw [getAreaEpsilon_eq, areaNext_setAreaUsed alignedA alignedB, getAreaEpsilon_eq]
  split
  · next same => cases used <;> simp [same]
  · rfl

@[simp] theorem getAreaEpsilon_setAreaEpsilon (ep : Bool)
    : getAreaEpsilon (setAreaEpsilon m a ep) b
      = if b = a then ep else getAreaEpsilon m b := by
  rw [getAreaEpsilon_eq, areaNext_setAreaEpsilon alignedA alignedB, getAreaEpsilon_eq]
  split
  · cases ep <;> simp
  · rfl

@[simp] theorem getAreaEpsilon_clearHeader
    : getAreaEpsilon (clearHeader m a) b
      = if b = a then false else getAreaEpsilon m b := by
  rw [getAreaEpsilon_eq, areaNext_clearHeader alignedA alignedB, getAreaEpsilon_eq]
  split <;> simp

end Setters

/-- The byte at `x` is none of the header at `a`. -/
def OutsideHeader (x a : Addr) : Prop :=
  8 ≤ (x - a).toNat

section Bytes

variable (m : Memory) {a x : Addr} (outside : OutsideHeader x a)
include outside

/-- A store to a field changes no byte outside its header. -/
theorem storeNext_outside (value : Word) : storeNext m a value x = m x := by
  simp only [OutsideHeader] at outside
  exact m.store32_of_outside value (by omega)

theorem storePrev_outside (value : Word) : storePrev m a value x = m x := by
  simp only [OutsideHeader] at outside
  exact m.store32_of_outside value (by bv_omega)

@[simp] theorem setNextAddress_outside (next : Addr)
    : setNextAddress m a next x = m x :=
  storeNext_outside m outside _

@[simp] theorem setPrevAddress_outside (prev : Addr)
    : setPrevAddress m a prev x = m x :=
  storePrev_outside m outside _

@[simp] theorem setAreaUsed_outside (used : Bool) : setAreaUsed m a used x = m x := by
  cases used <;> exact storeNext_outside m outside _

@[simp] theorem setAreaEpsilon_outside (ep : Bool) : setAreaEpsilon m a ep x = m x := by
  cases ep <;> exact storeNext_outside m outside _

@[simp] theorem clearHeader_outside : clearHeader m a x = m x := by
  rw [clearHeader, storeNext_outside _ outside, storePrev_outside _ outside]

end Bytes

end SimpleKernel
