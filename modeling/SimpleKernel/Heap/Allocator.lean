import SimpleKernel.Heap.Areas
import SimpleKernel.Libc.Bytes
import SimpleKernel.Paging.Tables

/-! The kernel heap: a chain of areas from `heap_start` to the sentinel `heap_end`, with a
best-fit search, splitting on allocation and merging on release.
Kernel memory and the page tables are separate components of the state. Header and payload
accesses go to `mem` by virtual address, and neither fault nor alias there whatever is mapped;
`paging` records which pages are backed. `Heap.Clearing` has the page faults of `kcalloc`, and
`Heap.Isolation` says when two pages share no frame. The terminal output of `init_heap` is left
out.
-/

namespace SimpleKernel

open ByteMemory

structure Kernel where
  mem : Memory
  paging : Paging
  /-- The static flag `ran` of `init_heap`. -/
  heapRan : Bool

/-- More rounds than there are 8-byte aligned addresses: a scan that has not ended by then
has met a header twice and never ends.
-/
def areaRounds : Nat := 2 ^ 29 + 1

/-- More rounds than there are pages. -/
def pageRounds : Nat := 2 ^ 20 + 1

/-- The loop over areas from `a` to the first epsilon area; `none` when it never ends. -/
def scanAreas (m : Memory) (visit : Addr → Word × Addr → Word × Addr)
    : Nat → Addr → Word × Addr → Option (Word × Addr)
  | 0, _, _ => none
  | rounds + 1, a, best =>
      if getAreaEpsilon m a then some best
      else scanAreas m visit rounds (getNextAddress m a) (visit a best)

/-- The loop `for(p = start; p <= end; p += PAGE_SIZE)` that maps what is not mapped yet. -/
def mapMissingPages (flags : BitVec 16) (endPage : Addr)
    : Nat → Addr → Paging → Option Paging
  | 0, _, _ => none
  | rounds + 1, p, vm =>
      if p ≤ endPage then
        mapMissingPages flags endPage rounds (p + pageSize)
          (if getPhysaddr vm p = null then mapFreshPage vm p flags else vm)
      else some vm

def initHeap (k : Kernel) : Kernel :=
  if k.heapRan then k
  else
    let vm := mapFreshPage k.paging heapStart 0x3
    let vm := mapFreshPage vm (heapEnd &&& ~~~0b111111111111#32) 0x3
    let m := clearHeader (clearHeader k.mem heapStart) heapEnd
    let m := setNextAddress m heapStart heapEnd
    let m := setPrevAddress m heapStart null
    let m := setAreaEpsilon m heapStart false
    let m := setAreaUsed m heapStart false
    let m := setNextAddress m heapEnd null
    let m := setPrevAddress m heapEnd heapStart
    let m := setAreaEpsilon m heapEnd true
    { mem := m, paging := vm, heapRan := true }

def mergeFreeAreas (m : Memory) (area : Addr) : Memory :=
  let prev := getPrevAddress m area
  let next := getNextAddress m area
  let mergeTowardsRoot := prev ≠ null ∧ getAreaUsed m prev = false
  let mergeTowardsTail := next ≠ null ∧ getAreaUsed m next = false
  if mergeTowardsRoot ∧ mergeTowardsTail then
    let na := getNextAddress m next
    setPrevAddress (setNextAddress m prev na) na prev
  else if mergeTowardsTail then
    setPrevAddress (setNextAddress m area (getNextAddress m next)) next area
  else if mergeTowardsRoot then
    setNextAddress (setPrevAddress m next prev) prev next
  else m

def kfree (m : Memory) (ptr : Addr) : Memory :=
  if ptr = null then m
  else
    let a := ptr - headerSize
    if getAreaUsed m a = false then m
    else mergeFreeAreas (setAreaUsed m a false) a

-----------------------------------------------------------------------------------------
-- Allocation
-----------------------------------------------------------------------------------------

/-- A new free area head at `new`, between `area` and the area after it. -/
def insertArea (m : Memory) (area new : Addr) : Memory :=
  let m := clearHeader m new
  let m := setNextAddress m new (getNextAddress m area)
  let m := setPrevAddress m new area
  setNextAddress m area new

def kmallocSize (size : Word) : Word :=
  divCeil (size + headerSize) 8 * 8

def kmallocVisit (m : Memory) (size : Word) (a : Addr) : Word × Addr → Word × Addr
  | (bestSize, bestFit) =>
      let areaSize := getAreaSize m a
      if getAreaUsed m a then (bestSize, bestFit)
      else if areaSize > size ∧ bestSize - size > areaSize - size then (areaSize, a)
      else (bestSize, bestFit)

def kmallocScan (m : Memory) (size : Word) : Option (Word × Addr) :=
  scanAreas m (kmallocVisit m size) areaRounds heapStart (1073741824, null)

/-- The split of `kmalloc` leaves more than a header and 8 bytes. -/
def kmallocSplits (bestSize size : Word) : Bool :=
  bestSize - size > headerSize * 2

def kmallocCarve (m : Memory) (bestSize size : Word) (bestFit : Addr) : Memory :=
  let m := if kmallocSplits bestSize size then insertArea m bestFit (bestFit + size) else m
  setAreaUsed m bestFit true

def kmallocMap (vm : Paging) (bestSize size : Word) (bestFit : Addr) : Option Paging :=
  if kmallocSplits bestSize size then
    let startPage := bestFit &&& ~~~0b111111111111#32
    let endPage := (bestFit + size) &&& ~~~0b111111111111#32
    mapMissingPages 0x103 endPage pageRounds startPage vm
  else some vm

/-- The pointer returned and the state after it; `none` when the call never returns. -/
def kmalloc (k : Kernel) (size : Word) : Option (Addr × Kernel) :=
  if size = 0 then some (null, k)
  else
    let size := kmallocSize size
    match kmallocScan k.mem size with
    | none => none
    | some (bestSize, bestFit) =>
        if bestFit = null then some (null, k)
        else
          match kmallocMap k.paging bestSize size bestFit with
          | none => none
          | some vm =>
              some
                (bestFit + headerSize,
                  { k with mem := kmallocCarve k.mem bestSize size bestFit, paging := vm })

/-- `kcalloc` in flat memory, where clearing the block does not fault. -/
def kcalloc (k : Kernel) (nmemb size : Word) : Option (Addr × Kernel) :=
  let total := nmemb * size
  if nmemb = 0 ∨ size = 0 then some (null, k)
  else if size ≠ total / nmemb then some (null, k)
  else
    match kmalloc k total with
    | none => none
    | some (km, k) =>
        if km = null then some (km, k)
        else some (km, { k with mem := memset k.mem km 0 total })

/-- `krealloc` up to its own call of `kfree`, for a block it has to move: the new block and
the state in which the old payload has been copied.
-/
def kreallocCopy (k : Kernel) (ptr : Addr) (size : Word) : Option (Addr × Kernel) :=
  let areaSize := getAreaSize k.mem (ptr - headerSize)
  match kmalloc k size with
  | none => none
  | some (new, k) =>
      if new = null then some (null, k)
      else some (new, { k with mem := memcpy k.mem new ptr areaSize })

def krealloc (k : Kernel) (ptr : Addr) (size : Word) : Option (Addr × Kernel) :=
  if size = 0 then some (null, k)
  else if ptr = null then kmalloc k size
  else if getAreaSize k.mem (ptr - headerSize) ≥ size then some (ptr, k)
  else
    match kreallocCopy k ptr size with
    | none => none
    | some (new, k) =>
        if new = null then some (null, k)
        else some (new, { k with mem := kfree k.mem ptr })

-----------------------------------------------------------------------------------------
-- Page-aligned allocation
-----------------------------------------------------------------------------------------

def nextPage (a : Addr) : Addr :=
  (a &&& ~~~0b111111111111#32) + pageSize

def kpageallocVisit (m : Memory) (size : Word) (a : Addr) : Word × Addr → Word × Addr
  | (bestSize, bestFit) =>
      let areaSize := getAreaSize m a
      if getAreaUsed m a then (bestSize, bestFit)
      else if areaSize > size ∧ bestSize - size > areaSize - size then
        let fullSize := size + (nextPage a - a) + headerSize
        let fullSize :=
          if nextPage a - headerSize ≠ a then fullSize + headerSize else fullSize
        if areaSize > fullSize ∧ bestSize - fullSize > areaSize - fullSize then (areaSize, a)
        else (bestSize, bestFit)
      else (bestSize, bestFit)

def kpageallocScan (m : Memory) (size : Word) : Option (Word × Addr) :=
  scanAreas m (kpageallocVisit m size) areaRounds heapStart (gb, null)

/-- A new area head right before the first allocated page, when the free area does not
already start there.
-/
def insertPageHead (m : Memory) (bestFit ret : Addr) : Memory :=
  let next := getNextAddress m bestFit
  let m := clearHeader m ret
  let m := setPrevAddress m ret bestFit
  let m := setNextAddress m ret next
  let m := setPrevAddress m next ret
  setNextAddress m bestFit ret

def kpageallocSplits (bestSize size : Word) (bestFit : Addr) : Bool :=
  let fullSize := size + (nextPage bestFit - bestFit) + headerSize
  bestSize - fullSize > headerSize * 2

def kpageallocCarve (m : Memory) (bestSize size : Word) (bestFit : Addr) : Memory :=
  let ret := nextPage bestFit - headerSize
  let m := if ret ≠ bestFit then insertPageHead m bestFit ret else m
  let m :=
    if kpageallocSplits bestSize size bestFit then
      insertArea m ret (ret + size + headerSize)
    else m
  setAreaUsed m ret true

def kpageallocMap (vm : Paging) (bestSize size : Word) (bestFit : Addr) : Option Paging :=
  if kpageallocSplits bestSize size bestFit then
    let new := nextPage bestFit - headerSize + size + headerSize
    mapMissingPages 0x3 new pageRounds (nextPage bestFit) vm
  else some vm

def kpagealloc (k : Kernel) (n : Word) : Option (Addr × Kernel) :=
  if n = 0 then some (null, k)
  else
    let size := n * pageSize
    match kpageallocScan k.mem size with
    | none => none
    | some (bestSize, bestFit) =>
        if bestFit = null then some (null, k)
        else
          match kpageallocMap k.paging bestSize size bestFit with
          | none => none
          | some vm =>
              some
                (nextPage bestFit - headerSize + headerSize,
                  {
                    k with
                    mem := kpageallocCarve k.mem bestSize size bestFit
                    paging := vm
                  })

end SimpleKernel
