import SimpleKernel.Frames.Bitmap

/-! The two-level page tables and the functions that read and extend them.
Slot 1023 of the page directory maps the directory itself. An address at or above
`0xFFC00000` is therefore translated by the directory alone: its page index selects a
directory entry, and the frame of that entry is shown as a page of words.
The tables are read directly, so a flush of the translation cache leaves no trace here.
-/

namespace SimpleKernel

open ByteMemory

/-- The page directory and page tables in physical memory, with the frame allocator. -/
structure Paging where
  /-- Physical address of the page directory. -/
  directory : Addr
  phys : Memory
  pmm : Pmm

inductive PageErrors
  | mapPagePhysaddrUnaligned
  | mapPageVirtualaddrUnaligned
  | mapPageMappingAlreadyPresent
  deriving DecidableEq

/-- The physical address that the recursive slot shows at `va`. -/
def Paging.recursiveAddr (vm : Paging) (va : Addr) : Addr :=
  let entry := vm.phys.load32 (vm.directory + 4#32 * (va >>> 12 &&& 0b1111111111#32))
  entry &&& ~~~0b111111111111#32 ||| va &&& 0b111111111111#32

def Paging.load (vm : Paging) (va : Addr) : Word :=
  vm.phys.load32 (vm.recursiveAddr va)

def Paging.store (vm : Paging) (va : Addr) (value : Word) : Paging :=
  { vm with phys := vm.phys.store32 (vm.recursiveAddr va) value }

/-- `memset(va, 0, PAGE_SIZE)` over one page of the recursive window. -/
def Paging.zeroPage (vm : Paging) (va : Addr) : Paging :=
  { vm with phys := vm.phys.fill (vm.recursiveAddr va) 0 4096 }

def getPhysaddr (vm : Paging) (virtualaddr : Addr) : Addr :=
  let pdindex := virtualaddr >>> 22
  let ptindex := virtualaddr >>> 12 &&& 0b1111111111#32
  let offset := virtualaddr &&& 0b111111111111#32
  let pt := vm.load (0xFFFFF000#32 ||| pdindex <<< 2)
  if pt &&& 1 = 0 then null
  else
    let page := vm.load (0xFFC00000#32 ||| pdindex <<< 12 ||| ptindex <<< 2)
    if page &&& 1 = 0 then null
    else page &&& ~~~0b111111111111#32 ||| offset

/-- The error `map_page` returns, or `none` for its result 0, and the tables after it. -/
def mapPage (vm : Paging) (physaddr virtualaddr : Addr) (flags : BitVec 16)
    : Option PageErrors × Paging :=
  if physaddr % pageSize ≠ 0 then (some .mapPagePhysaddrUnaligned, vm)
  else if virtualaddr % pageSize ≠ 0 then (some .mapPageVirtualaddrUnaligned, vm)
  else
    let pdindex := virtualaddr >>> 22
    let ptindex := virtualaddr >>> 12 &&& 0b1111111111#32
    let pdeptr := 0xFFFFF000#32 ||| pdindex <<< 2
    -- `((uint32_t*)0xFFC00000) + (0x400 * pdindex)`
    let pt := 0xFFC00000#32 + 4#32 * (0x400#32 * pdindex)
    let vm :=
      if vm.load pdeptr &&& 1 = 0 then
        let (physPage, pmm) := getPage vm.pmm
        ({ vm with pmm := pmm }.store pdeptr (physPage ||| 0x3)).zeroPage pt
      else vm
    if vm.load (pt + 4#32 * ptindex) &&& 1 ≠ 0 then (some .mapPageMappingAlreadyPresent, vm)
    else
      (none,
        vm.store (pt + 4#32 * ptindex)
          (physaddr ||| flags.setWidth 32 &&& 0b111111111111#32 ||| 1))

/-- `unmap_page` always returns 0. -/
def unmapPage (vm : Paging) (virtualaddr : Addr) : Paging :=
  let pdindex := virtualaddr >>> 22
  let ptindex := virtualaddr >>> 12 &&& 0b1111111111#32
  let pt := 0xFFC00000#32 + 4#32 * (0x400#32 * pdindex)
  vm.store (pt + 4#32 * ptindex) (~~~0)

/-- `map_page(get_page(), virtualaddr, flags)` with its return code dropped. -/
def mapFreshPage (vm : Paging) (virtualaddr : Addr) (flags : BitVec 16) : Paging :=
  let (page, pmm) := getPage vm.pmm
  (mapPage { vm with pmm := pmm } page virtualaddr flags).2

end SimpleKernel
