import SimpleKernel.Limits
import SimpleKernel.Library.Masks

/-! The physical frame allocator: a bitmap with one bit per frame, set when the frame is
taken, and a cached position of the frame to hand out next.
-/

namespace SimpleKernel

open ByteMemory

structure ManagedMemory where
  bitmap : Addr
  size : Word
  nextIndex : Word
  nextOffset : Byte
  freePages : Word
  setUp : Bool

/-- The allocator's record together with the bytes its `bitmap` pointer leads to. Bytes at
`size` and above belong to whatever follows the bitmap in memory.
-/
structure Pmm extends ManagedMemory where
  bytes : Memory

def firstZeroFrom (b : Byte) : Nat → Byte → Byte
  | 0, _ => 8
  | rounds + 1, i => if b &&& 1#8 <<< i.toNat = 0 then i else firstZeroFrom b rounds (i + 1)

def firstZeroInByte (b : Byte) : Byte :=
  if b = ~~~0 then 8 else firstZeroFrom b 8 0

/-- The bitmap index and the bit offset of the frame that contains `physaddr`. -/
def physaddrToOffsets (physaddr : Addr) : Word × Word :=
  let y := physaddr / pageSize
  (y / 8, y % 8)

def offsetsToPhysaddr (bmIndex : Word) (offset : Byte) : Addr :=
  pageSize * (bmIndex * 8 + offset.setWidth 32)

def getPageState (pmm : Pmm) (physaddr : Addr) : Bool :=
  let (index, offset) := physaddrToOffsets physaddr
  pmm.bytes index &&& 1#8 <<< offset.toNat != 0#8

/-- The rescan of `get_page`: index and offset after at most `rounds` more iterations from
index `i`. Without a break the loop leaves the offset it started with.
-/
def scanBitmap (bytes : Memory) : Nat → Word → Byte → Word × Byte
  | 0, i, o => (i, o)
  | rounds + 1, i, o =>
      if bytes i ≠ 0xFF then (i, firstZeroInByte (bytes i))
      else scanBitmap bytes rounds (i + 1) o

def getPage (pmm : Pmm) : Addr × Pmm :=
  let page := offsetsToPhysaddr pmm.nextIndex pmm.nextOffset
  let bytes :=
    pmm.bytes.store8 pmm.nextIndex
      (pmm.bytes pmm.nextIndex ||| 1#8 <<< pmm.nextOffset.toNat)
  let (i, o) := scanBitmap bytes pmm.size.toNat 0 pmm.nextOffset
  (page, { pmm with bytes := bytes, nextIndex := i, nextOffset := o })

def freePage (pmm : Pmm) (physaddr : Addr) : Pmm :=
  let (index, offset) := physaddrToOffsets physaddr
  {
    pmm with
    bytes := pmm.bytes.store8 index (pmm.bytes index &&& ~~~(1#8 <<< offset.toNat))
    nextIndex := index
    nextOffset := offset.setWidth 8
  }

/-- The bitmap indices the rescan reads, in order. -/
def scanReads (bytes : Memory) : Nat → Word → List Word
  | 0, _ => []
  | rounds + 1, i => i :: if bytes i ≠ 0xFF then [] else scanReads bytes rounds (i + 1)

/-- The bitmap indices `get_page` reads or writes, in order. -/
def getPageAccesses (pmm : Pmm) : List Word :=
  pmm.nextIndex
  :: scanReads
      (pmm.bytes.store8 pmm.nextIndex
        (pmm.bytes pmm.nextIndex ||| 1#8 <<< pmm.nextOffset.toNat))
      pmm.size.toNat 0

-----------------------------------------------------------------------------------------
-- Frame numbers and their bits
-----------------------------------------------------------------------------------------

/-- The bit of frame `k`; a set bit marks a taken frame. -/
def Pmm.bit (pmm : Pmm) (k : Nat) : Bool :=
  (pmm.bytes (BitVec.ofNat 32 (k / 8))).getLsbD (k % 8)

/-- Frame `k` has a bit in the bitmap and that bit is clear. -/
def Pmm.Free (pmm : Pmm) (k : Nat) : Prop :=
  k < 8 * pmm.size.toNat ∧ pmm.bit k = false

instance (pmm : Pmm) (k : Nat) : Decidable (pmm.Free k) := by
  unfold Pmm.Free
  infer_instance

def Pmm.HasFree (pmm : Pmm) : Prop :=
  ∃ k, pmm.Free k

/-- The number of the cached next frame. -/
def Pmm.cached (pmm : Pmm) : Nat :=
  8 * pmm.nextIndex.toNat + pmm.nextOffset.toNat

/-- The cached next frame lies inside the bitmap and has a clear bit. -/
structure Pmm.CacheFree (pmm : Pmm) : Prop where
  offset : pmm.nextOffset.toNat < 8
  free : pmm.Free pmm.cached

/-- Every clear bit stands for a frame that a 32-bit physical address can name. -/
def Pmm.Addressable (pmm : Pmm) : Prop :=
  ∀ k, pmm.Free k → k < 2 ^ 20

def frameNumber (physaddr : Addr) : Nat :=
  physaddr.toNat / 4096

/-- There are 2^20 frames of a 32-bit address. -/
theorem frameNumber_lt (physaddr : Addr) : frameNumber physaddr < 2 ^ 20 := by
  simp only [frameNumber]
  omega

/-- The byte of a frame's bit. -/
theorem physaddrToOffsets_fst (physaddr : Addr)
    : (physaddrToOffsets physaddr).1 = BitVec.ofNat 32 (frameNumber physaddr / 8) := by
  apply BitVec.eq_of_toNat_eq
  simp only [physaddrToOffsets, frameNumber, pageSize, BitVec.ofNat_eq_ofNat,
    BitVec.toNat_udiv, BitVec.toNat_ofNat, Nat.reducePow, Nat.reduceMod]
  omega

/-- The position of the bit in that byte. -/
theorem physaddrToOffsets_snd (physaddr : Addr)
    : (physaddrToOffsets physaddr).2.toNat = frameNumber physaddr % 8 := by
  simp [physaddrToOffsets, frameNumber, BitVec.toNat_umod, BitVec.toNat_udiv]

/-- The state query reads the bit of the frame that holds the address. -/
theorem getPageState_eq (pmm : Pmm) (physaddr : Addr)
    : getPageState pmm physaddr = pmm.bit (frameNumber physaddr) := by
  have inside : frameNumber physaddr % 8 < 8 := Nat.mod_lt _ (by decide)
  simp only [getPageState, Pmm.bit, physaddrToOffsets_fst, physaddrToOffsets_snd]
  exact Masks.and_bit_ne_zero _ inside

/-- Handed-out addresses are page aligned, wrapped or not. -/
theorem offsetsToPhysaddr_aligned (bmIndex : Word) (offset : Byte)
    : (offsetsToPhysaddr bmIndex offset).toNat % 4096 = 0 := by
  simp only [offsetsToPhysaddr]
  bv_omega

/-- The address that belongs to a bit has its frame number, as far as that fits into an
address.
-/
theorem offsetsToPhysaddr_frameNumber (bmIndex : Word) (offset : Byte)
    : frameNumber (offsetsToPhysaddr bmIndex offset)
      = (8 * bmIndex.toNat + offset.toNat) % 2 ^ 20 := by
  simp only [offsetsToPhysaddr, frameNumber]
  bv_omega

end SimpleKernel
