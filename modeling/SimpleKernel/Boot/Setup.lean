import SimpleKernel.Boot.ClearedFrames

/-! The allocator that setup installs.
Its size, place and bits are functions of the memory map and the kernel's end; the choice
of `kernel_entry` only decides whether it is installed.
-/

namespace SimpleKernel

open ByteMemory

variable {mmap : List MmapEntry} {kernelEnd page : Addr} {ram : Memory} {k : Nat}
  {pages : List Addr} {state : Pmm × Bool}

/-- Clearing a frame clears its own bit and no other. -/
theorem clearFrame_bit (state : Pmm × Bool) (page : Addr) (bounded : k < 2 ^ 35)
    : (clearFrame state page).1.bit k
      = (state.1.bit k && !decide (k = frameNumber page)) :=
  freePage_bit state.1 page bounded

/-- By induction on the pages, each of which clears one bit. -/
theorem foldl_clearFrame_bit (pages : List Addr) (state : Pmm × Bool) (bounded : k < 2 ^ 35)
    : (pages.foldl clearFrame state).1.bit k = false
      ↔ state.1.bit k = false ∨ k ∈ pages.map frameNumber := by
  induction pages generalizing state with
  | nil => simp
  | cons page rest ih =>
      rw [List.foldl_cons, ih, clearFrame_bit _ _ bounded, List.map_cons, List.mem_cons]
      simp only [Bool.and_eq_false_iff, Bool.not_eq_false', decide_eq_true_eq]
      exact or_assoc

/-- Everything but bits, count and cache stays as it was. -/
theorem foldl_clearFrame_record (pages : List Addr) (state : Pmm × Bool)
    : (pages.foldl clearFrame state).1.bitmap = state.1.bitmap
      ∧ (pages.foldl clearFrame state).1.size = state.1.size
      ∧ (pages.foldl clearFrame state).1.freePages
        = state.1.freePages + BitVec.ofNat 32 pages.length := by
  induction pages generalizing state with
  | nil => simp
  | cons page rest ih =>
      obtain ⟨bitmap, size, freePages⟩ := ih (clearFrame state page)
      rw [List.foldl_cons]
      refine ⟨bitmap, size, ?_⟩
      rw [freePages, List.length_cons]
      simp only [clearFrame, BitVec.ofNat_add]
      rw [BitVec.add_assoc, BitVec.add_comm 1]
      rfl

/-- The cache stays once it is set. -/
theorem foldl_clearFrame_latched (pages : List Addr) (pmm : Pmm)
    : (pages.foldl clearFrame (pmm, true)).1.nextIndex = pmm.nextIndex
      ∧ (pages.foldl clearFrame (pmm, true)).1.nextOffset = pmm.nextOffset := by
  induction pages generalizing pmm with
  | nil => exact ⟨rfl, rfl⟩
  | cons page rest ih => exact ih _

/-- The first page cleared is cached. -/
theorem foldl_clearFrame_cached (page : Addr) (rest : List Addr) (pmm : Pmm)
    : ((page :: rest).foldl clearFrame (pmm, false)).1.cached = frameNumber page
      ∧ ((page :: rest).foldl clearFrame (pmm, false)).1.nextOffset.toNat < 8 := by
  obtain ⟨index, offset⟩ :=
    foldl_clearFrame_latched rest (clearFrame (pmm, false) page).1
  have cached := freePage_cached pmm page
  have inside := freePage_nextOffset pmm page
  rw [List.foldl_cons, Pmm.cached]
  change 8 * (rest.foldl clearFrame ((clearFrame (pmm, false) page).1, true)).1.nextIndex.toNat
      + (rest.foldl clearFrame ((clearFrame (pmm, false) page).1, true)).1.nextOffset.toNat
      = frameNumber page
    ∧ (rest.foldl clearFrame ((clearFrame (pmm, false) page).1, true)).1.nextOffset.toNat < 8
  rw [index, offset]
  refine ⟨cached, ?_⟩
  change (freePage pmm page).nextOffset.toNat < 8
  omega

-----------------------------------------------------------------------------------------
-- Setup as a function of the map
-----------------------------------------------------------------------------------------

def bootBitmapSize (mmap : List MmapEntry) : Word :=
  (lastAvailable mmap).elim (bitmapSize 0 0) (fun e => bitmapSize e.addr e.length)

def bootCombinedPageCount (kernelEnd : Addr) (mmap : List MmapEntry) : Word :=
  combinedPageCount kernelEnd (bootBitmapSize mmap)

def bootCombinedEnd (kernelEnd : Addr) (mmap : List MmapEntry) : Addr :=
  kernelStart + pageSize * bootCombinedPageCount kernelEnd mmap

/-- The pages setup releases, in order. -/
def bootPages (kernelEnd : Addr) (mmap : List MmapEntry) : List Addr :=
  clearedPages (bootCombinedEnd kernelEnd mmap) (sanitizedTable mmap)

def bootPmm (ram : Memory) (kernelEnd : Addr) (mmap : List MmapEntry) : Pmm :=
  ((bootPages kernelEnd mmap).foldl clearFrame
    (blankPmm ram kernelEnd (bootBitmapSize mmap), false)).1

/-- The entry that `kernel_entry` leads to after the first walk. -/
def bootKernelEntry (kernelEnd : Addr) (mmap : List MmapEntry) : Option MmapEntry :=
  (mmap.filter (MmapEntry.MatchesKernel (kernelEnd - kernelStart))).getLast?.map
    (sanitizeAvailable mmap)

/-- Setup as a function of the map. By the two walks: the first finds the last available entry
and the kernel's, the second releases pages.
-/
theorem initFrameAllocator_eq (ram : Memory) (kernelEnd : Addr) (magic : Word)
    (mbh : MultibootInfo)
    : initFrameAllocator ram kernelEnd magic mbh
      = if magic ≠ multibootMagic then .hangs
        else if mbh.flags &&& 1#32 <<< 6 = 0 then .notInstalled
        else
          match bootKernelEntry kernelEnd mbh.mmap with
          | none => .notInstalled
          | some kernelEntry =>
              if kernelEntry.length / widePageSize
                  ≥ (bootCombinedPageCount kernelEnd mbh.mmap).setWidth 64 then
                .installed (bootPmm ram kernelEnd mbh.mmap)
              else .notInstalled := by
  let scan := scanTable (kernelEnd - kernelStart) mbh.mmap ⟨[], none, 0, 0⟩
  have passed : scan.passed = sanitizedTable mbh.mmap :=
    scanTable_passed _ mbh.mmap mbh.mmap ⟨[], none, 0, 0⟩ rfl
  have last
      : (scan.lastAddr, scan.lastSize)
        = (lastAvailable mbh.mmap).elim (0, 0) (fun e => (e.addr, e.length)) :=
    scanTable_last _ mbh.mmap mbh.mmap ⟨[], none, 0, 0⟩ rfl
  have size : bitmapSize scan.lastAddr scan.lastSize = bootBitmapSize mbh.mmap := by
    rw [bootBitmapSize]
    cases found : lastAvailable mbh.mmap with
    | none =>
        rw [found] at last
        obtain ⟨lastAddr, lastSize⟩ := Prod.mk.inj last
        rw [lastAddr, lastSize]
        rfl
    | some e =>
        rw [found] at last
        obtain ⟨lastAddr, lastSize⟩ := Prod.mk.inj last
        rw [lastAddr, lastSize]
        rfl
  have entry : scan.kernelEntry = bootKernelEntry kernelEnd mbh.mmap := by
    have matched := scanTable_kernelEntry (kernelEnd - kernelStart) mbh.mmap mbh.mmap
      ⟨[], none, 0, 0⟩ rfl
    rw [bootKernelEntry]
    refine matched.trans ?_
    cases (mbh.mmap.filter (MmapEntry.MatchesKernel (kernelEnd - kernelStart))).getLast? with
    | none => rfl
    | some e => rfl
  rw [initFrameAllocator]
  change (if magic ≠ multibootMagic then EarlyPmm.hangs
    else if mbh.flags &&& 1#32 <<< 6 = 0 then .notInstalled
    else
      match scan.kernelEntry with
      | none => .notInstalled
      | some kernelEntry =>
          if kernelEntry.length / widePageSize
              ≥ (combinedPageCount kernelEnd
                (bitmapSize scan.lastAddr scan.lastSize)).setWidth 64 then
            .installed
              (clearTable
                (kernelStart
                  + pageSize
                    * combinedPageCount kernelEnd
                      (bitmapSize scan.lastAddr scan.lastSize))
                scan.passed
                (blankPmm ram kernelEnd (bitmapSize scan.lastAddr scan.lastSize), false)).1
          else .notInstalled) = _
  rw [size, entry, passed, clearTable_eq]
  rfl

/-- Setup installs a bitmap if the kernel's entry is long enough for the kernel and the bitmap.
-/
theorem initFrameAllocator_installed (ram : Memory) {mbh : MultibootInfo} {e : MmapEntry}
    (mapped : mbh.flags &&& 1#32 <<< 6 ≠ 0)
    (entry : bootKernelEntry kernelEnd mbh.mmap = some e)
    (fits
      : e.length / widePageSize ≥ (bootCombinedPageCount kernelEnd mbh.mmap).setWidth 64)
    : initFrameAllocator ram kernelEnd multibootMagic mbh
      = .installed (bootPmm ram kernelEnd mbh.mmap) := by
  rw [initFrameAllocator_eq, if_neg (by decide), if_neg mapped, entry]
  exact if_pos fits

/-- Setup installs one allocator for a map, if it installs any. -/
theorem eq_bootPmm {magic : Word} {mbh : MultibootInfo} {pmm : Pmm}
    (installed : initFrameAllocator ram kernelEnd magic mbh = .installed pmm)
    : pmm = bootPmm ram kernelEnd mbh.mmap := by
  rw [initFrameAllocator_eq] at installed
  split at installed
  · simp at installed
  · split at installed
    · simp at installed
    · split at installed
      · simp at installed
      · split at installed
        · exact (EarlyPmm.installed.inj installed).symm
        · simp at installed

-----------------------------------------------------------------------------------------
-- The record installed
-----------------------------------------------------------------------------------------

theorem bootPmm_bitmap (ram : Memory) (kernelEnd : Addr) (mmap : List MmapEntry)
    : (bootPmm ram kernelEnd mmap).bitmap
      = kernelStart + kernelPageCount kernelEnd * pageSize :=
  (foldl_clearFrame_record _ _).1

theorem bootPmm_size (ram : Memory) (kernelEnd : Addr) (mmap : List MmapEntry)
    : (bootPmm ram kernelEnd mmap).size = bootBitmapSize mmap :=
  (foldl_clearFrame_record _ _).2.1

theorem bootPmm_freePages (ram : Memory) (kernelEnd : Addr) (mmap : List MmapEntry)
    : (bootPmm ram kernelEnd mmap).freePages
      = BitVec.ofNat 32 (bootPages kernelEnd mmap).length :=
  (foldl_clearFrame_record _ _).2.2.trans (BitVec.zero_add _)

/-- The first page released is cached. -/
theorem bootPmm_cached (ram : Memory) {rest : List Addr}
    (released : bootPages kernelEnd mmap = page :: rest)
    : (bootPmm ram kernelEnd mmap).cached = frameNumber page
      ∧ (bootPmm ram kernelEnd mmap).nextOffset.toNat < 8 := by
  rw [bootPmm, released]
  exact foldl_clearFrame_cached page rest _

/-- A bit of the bitmap is clear exactly when its frame was released. -/
theorem bootPmm_free_iff (ram : Memory) (kernelEnd : Addr) (mmap : List MmapEntry) (k : Nat)
    : (bootPmm ram kernelEnd mmap).Free k
      ↔ k < 8 * (bootBitmapSize mmap).toNat
        ∧ k ∈ (bootPages kernelEnd mmap).map frameNumber := by
  rw [Pmm.Free, bootPmm_size]
  refine and_congr_right (fun inside => ?_)
  rw [bootPmm, foldl_clearFrame_bit _ _ (by omega)]
  have index : (BitVec.ofNat 32 (k / 8)).toNat = k / 8 := by
    rw [BitVec.toNat_ofNat]
    omega
  have taken : (blankPmm ram kernelEnd (bootBitmapSize mmap)).bit k = true := by
    refine Pmm.bit_of_full (Memory.fill_of_inside ram 0xFF ?_)
    change (BitVec.ofNat 32 (k / 8) - 0#32).toNat < _
    rw [BitVec.sub_zero, index]
    omega
  rw [taken]
  simp

/-- The kernel's end as the linker script leaves it: behind its start, below 1 GiB. -/
structure KernelImage (kernelEnd : Addr) : Prop where
  start : 0x100000 ≤ kernelEnd.toNat
  stop : kernelEnd.toNat ≤ 0x40000000

/-- The pages of the kernel, rounded up without overflow. -/
theorem KernelImage.kernelPageCount (image : KernelImage kernelEnd)
    : (SimpleKernel.kernelPageCount kernelEnd).toNat
      = (kernelEnd.toNat - 0x100000 + 4095) / 4096 := by
  have start := image.start
  have size : (kernelEnd - kernelStart).toNat = kernelEnd.toNat - 0x100000 := by bv_omega
  rw [SimpleKernel.kernelPageCount, divCeil_toNat (by decide), size]
  · rw [pageSize_toNat]
    omega
  · rw [size, pageSize_toNat]
    omega

/-- A bitmap has at most 2^29 bytes, one bit for each 32-bit frame count. -/
theorem bootBitmapSize_le (mmap : List MmapEntry) : (bootBitmapSize mmap).toNat ≤ 2 ^ 29 := by
  have eighth (a : Word) : (divCeil a 8).toNat ≤ 2 ^ 29 := by
    rw [divCeil, BitVec.toNat_udiv]
    rw [eight_toNat]
    omega
  rw [bootBitmapSize]
  cases lastAvailable mmap with
  | none => exact eighth _
  | some e => exact eighth _

/-- The pages of the kernel and of the bitmap are counted without overflow, because the kernel
ends below 1 GiB.
-/
theorem KernelImage.bootCombinedPageCount (image : KernelImage kernelEnd)
    (mmap : List MmapEntry)
    : (SimpleKernel.bootCombinedPageCount kernelEnd mmap).toNat
      = (kernelEnd.toNat - 0x100000 + 4095) / 4096
        + ((bootBitmapSize mmap).toNat + 4095) / 4096 := by
  have small := bootBitmapSize_le mmap
  have bitmapPages := divCeil_toNat (a := bootBitmapSize mmap) (b := pageSize) (by decide)
    (by rw [pageSize_toNat]; omega)
  rw [pageSize_toNat] at bitmapPages
  have rounded : (bootBitmapSize mmap).toNat + 4096 - 1 = (bootBitmapSize mmap).toNat + 4095 := by
    omega
  rw [rounded] at bitmapPages
  rw [SimpleKernel.bootCombinedPageCount, combinedPageCount, BitVec.toNat_add, bitmapPages,
    image.kernelPageCount]
  exact Nat.mod_eq_of_lt (by omega)

/-- Hence the end of these pages is one of a 32-bit address as well. -/
theorem KernelImage.bootCombinedEnd (image : KernelImage kernelEnd) (mmap : List MmapEntry)
    : (SimpleKernel.bootCombinedEnd kernelEnd mmap).toNat
      = 0x100000 + 4096 * (SimpleKernel.bootCombinedPageCount kernelEnd mmap).toNat := by
  have combined := image.bootCombinedPageCount mmap
  have small := bootBitmapSize_le mmap
  have stop := image.stop
  rw [SimpleKernel.bootCombinedEnd]
  bv_omega

/-- The bitmap lies on the page behind the kernel. -/
theorem KernelImage.bitmap (image : KernelImage kernelEnd) (mmap : List MmapEntry)
    (ram : Memory)
    : (bootPmm ram kernelEnd mmap).bitmap.toNat
      = 0x100000 + 4096 * ((kernelEnd.toNat - 0x100000 + 4095) / 4096) := by
  have pages := image.kernelPageCount
  have stop := image.stop
  rw [bootPmm_bitmap]
  bv_omega

/-- The pointer to a page of an entry has lost the upper half of its 64-bit address. -/
theorem MmapEntry.pageAddr_toNat (e : MmapEntry) (i : Nat)
    : (e.pageAddr (BitVec.ofNat 32 i)).toNat = (e.addr.toNat + 4096 * i) % 2 ^ 32 := by
  rw [MmapEntry.pageAddr, BitVec.toNat_setWidth, BitVec.toNat_add, BitVec.toNat_setWidth,
    BitVec.toNat_mul, BitVec.toNat_ofNat, pageSize_toNat]
  omega

/-- The number of pages of an entry loses what does not fit into 32 bits. -/
theorem MmapEntry.npages_toNat (e : MmapEntry)
    : e.npages.toNat = e.length.toNat / 4096 % 2 ^ 32 := by
  rw [MmapEntry.npages, BitVec.toNat_setWidth, BitVec.toNat_udiv,
    widePageSize_toNat]

/-- The pages released: those of sanitized available entries, outside the windows. -/
theorem mem_bootPages {kernelEnd : Addr} {mmap : List MmapEntry}
    : page ∈ bootPages kernelEnd mmap
      ↔ (∃ e ∈ mmap,
          e.type = memAvailable
          ∧ ∃ i < (sanitizeAvailable mmap e).npages.toNat,
              page = (sanitizeAvailable mmap e).pageAddr (BitVec.ofNat 32 i))
        ∧ IsCleared (bootCombinedEnd kernelEnd mmap) page = true := by
  rw [bootPages, clearedPages, List.mem_filter, List.mem_flatMap]
  refine and_congr_left (fun _ => ?_)
  simp only [List.mem_filter, sanitizedTable, List.mem_map, MmapEntry.isAvailable_iff,
    MmapEntry.pages, List.mem_range]
  constructor
  · rintro ⟨_, ⟨⟨e, member, rfl⟩, available⟩, i, inside, same⟩
    rw [sanitizeAvailable_type] at available
    exact ⟨e, member, available, i, inside, same.symm⟩
  · rintro ⟨e, member, available, i, inside, same⟩
    exact ⟨_, ⟨⟨e, member, rfl⟩, (sanitizeAvailable_type mmap e).trans available⟩, i, inside,
      same.symm⟩

/-- A page is released from 1 MiB on, behind the kernel and the bitmap. -/
theorem isCleared_iff_toNat {combinedEnd : Addr}
    : IsCleared combinedEnd page = true
      ↔ 0x100000 ≤ page.toNat ∧ combinedEnd.toNat ≤ page.toNat :=
  isCleared_iff

end SimpleKernel
