import SimpleKernel.Frames.ManagedMemory

/-! The frame allocator's setup at boot.
The first walk over the memory map sanitizes its available entries, finds the entry that
the bitmap is charged to, and remembers the last available entry. The second walk clears
the bits of the frames of available entries.
The map is a list of its entries. Their `size` fields, which only lead from one entry to
the next, are left out, and the map is taken to lie outside the memory written here.
-/

namespace SimpleKernel

open ByteMemory

abbrev memAvailable : Word := 1

abbrev multibootMagic : Word := 0x2BADB002

structure MmapEntry where
  addr : BitVec 64
  length : BitVec 64
  type : Word
  deriving DecidableEq

structure MultibootInfo where
  flags : Word
  mmap : List MmapEntry

/-- `_kernel_start`, which the linker script puts at 1 MiB. -/
abbrev kernelStart : Addr := 0x100000

/-- `PAGE_SIZE` where it meets a 64-bit operand. -/
abbrev widePageSize : BitVec 64 := 4096

theorem widePageSize_toNat : widePageSize.toNat = 4096 := rfl

def earlyPhysaddrToOffsets (physaddr : Addr) : Word × Word :=
  physaddrToOffsets physaddr

/-- The search of `sanitize_available`: `e` is cut off at the lowest non-available entry
that starts inside it. `lowestReserved` is the address of the lowest one so far.
-/
def trimReserved : List MmapEntry → MmapEntry → Option (BitVec 64) → MmapEntry
  | [], e, _ => e
  | cur :: rest, e, lowestReserved =>
      if cur.type ≠ memAvailable
          ∧ (e.addr < cur.addr ∧ e.addr + e.length > cur.addr)
          ∧ lowestReserved.all (fun lowest => lowest > cur.addr) then
        trimReserved rest { e with length := cur.addr - e.addr } (some cur.addr)
      else trimReserved rest e lowestReserved

def sanitizeAvailable (table : List MmapEntry) (e : MmapEntry) : MmapEntry :=
  if e.type ≠ memAvailable then e
  else
    let e := trimReserved table e none
    if e.addr % widePageSize ≠ 0 then
      let addr := e.addr + (widePageSize - e.addr % widePageSize)
      {
        e with
        addr := addr
        length := e.length - (widePageSize - (addr + e.length) % widePageSize)
      }
    else e

structure TableScan where
  /-- The entries passed, sanitized. -/
  passed : List MmapEntry
  kernelEntry : Option MmapEntry
  lastAddr : BitVec 64
  lastSize : BitVec 64

/-- An entry is matched against the kernel before it is sanitized, and read through
`kernel_entry` after it is.
-/
def scanTable (kernelSize : Word) : List MmapEntry → TableScan → TableScan
  | [], scan => scan
  | e :: rest, scan =>
      let sanitized := sanitizeAvailable (scan.passed ++ e :: rest) e
      scanTable kernelSize rest
        {
          passed := scan.passed ++ [sanitized]
          kernelEntry :=
            if kernelStart.setWidth 64 ≥ e.addr ∧ e.length ≥ kernelSize.setWidth 64 then
              some sanitized
            else scan.kernelEntry
          lastAddr :=
            if sanitized.type = memAvailable then sanitized.addr else scan.lastAddr
          lastSize :=
            if sanitized.type = memAvailable then sanitized.length else scan.lastSize
        }

/-- One frame of an available entry, with the flag `pmm_next_set`. -/
def clearPage (combinedEnd pageAddr : Addr) : Pmm × Bool → Pmm × Bool
  | (pmm, pmmNextSet) =>
      if kernelStart ≤ pageAddr ∧ pageAddr < combinedEnd then (pmm, pmmNextSet)
      else if pageAddr < mb then (pmm, pmmNextSet)
      else
        let (index, offset) := earlyPhysaddrToOffsets pageAddr
        let pmm := {
          pmm with
          bytes := pmm.bytes.store8 index (pmm.bytes index &&& ~~~(1#8 <<< offset.toNat))
          freePages := pmm.freePages + 1
        }
        if pmmNextSet then (pmm, true)
        else ({ pmm with nextIndex := index, nextOffset := offset.setWidth 8 }, true)

/-- The address of page `i`, cut to the width of a pointer. -/
def MmapEntry.pageAddr (e : MmapEntry) (i : Word) : Addr :=
  (e.addr + (i * pageSize).setWidth 64).setWidth 32

/-- The number of pages, cut to the width of the loop counter. -/
def MmapEntry.npages (e : MmapEntry) : Word :=
  (e.length / widePageSize).setWidth 32

/-- The loop over the pages of an entry from page `i` on. -/
def clearPages (combinedEnd : Addr) (e : MmapEntry) : Nat → Word → Pmm × Bool → Pmm × Bool
  | 0, _, state => state
  | rounds + 1, i, state =>
      clearPages combinedEnd e rounds (i + 1) (clearPage combinedEnd (e.pageAddr i) state)

def clearTable (combinedEnd : Addr) : List MmapEntry → Pmm × Bool → Pmm × Bool
  | [], state => state
  | e :: rest, state =>
      clearTable combinedEnd rest
        (if e.type = memAvailable then clearPages combinedEnd e e.npages.toNat 0 state
        else state)

inductive EarlyPmm
  /-- A wrong magic number stops the machine. -/
  | hangs
  | notInstalled
  | installed (pmm : Pmm)

def kernelPageCount (kernelEnd : Addr) : Word :=
  divCeil (kernelEnd - kernelStart) pageSize

/-- One bit for each page up to the end of the last available entry. -/
def bitmapSize (lastAddr lastSize : BitVec 64) : Word :=
  divCeil (((lastAddr + lastSize) / widePageSize).setWidth 32) 8

def combinedPageCount (kernelEnd : Addr) (bitmapSize : Word) : Word :=
  kernelPageCount kernelEnd + divCeil bitmapSize pageSize

/-- The record before the second walk: every frame is taken. -/
def blankPmm (ram : Memory) (kernelEnd : Addr) (size : Word) : Pmm where
  bitmap := kernelStart + kernelPageCount kernelEnd * pageSize
  size := size
  nextIndex := 0
  nextOffset := 0
  freePages := 0
  setUp := false
  bytes := ram.fill 0 0xFF size.toNat

/-- `ram` is what the memory from the bitmap on held before, and `kernelEnd` the physical end of
the kernel image.
-/
def initFrameAllocator (ram : Memory) (kernelEnd : Addr) (magic : Word) (mbh : MultibootInfo)
    : EarlyPmm :=
  if magic ≠ multibootMagic then .hangs
  else if mbh.flags &&& 1#32 <<< 6 = 0 then .notInstalled
  else
    let scan := scanTable (kernelEnd - kernelStart) mbh.mmap ⟨[], none, 0, 0⟩
    let size := bitmapSize scan.lastAddr scan.lastSize
    let combined := combinedPageCount kernelEnd size
    let combinedEnd := kernelStart + pageSize * combined
    match scan.kernelEntry with
    | none => .notInstalled
    | some kernelEntry =>
        if kernelEntry.length / widePageSize ≥ combined.setWidth 64 then
          let pmm := blankPmm ram kernelEnd size
          .installed (clearTable combinedEnd scan.passed (pmm, false)).1
        else .notInstalled

end SimpleKernel
