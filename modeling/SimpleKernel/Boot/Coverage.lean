import SimpleKernel.Boot.Sanitizing
import SimpleKernel.Boot.Setup

/-! The frames that the bitmap has bits for.
The bitmap is sized for the frames up to the end of the last available entry, and the second
walk clears the bits of all available entries. Nothing makes the last entry the highest.
-/

namespace SimpleKernel

open ByteMemory

variable {mmap : List MmapEntry} {kernelEnd : Addr} {ram : Memory} {magic : Word}
  {mbh : MultibootInfo} {pmm : Pmm} {e : MmapEntry}

/-- The bitmap indices that the second walk writes, in order. -/
def clearedIndices (kernelEnd : Addr) (mmap : List MmapEntry) : List Word :=
  (bootPages kernelEnd mmap).map (fun page => (earlyPhysaddrToOffsets page).1)

/-- Entries of whole pages below 4 GiB, in any order. -/
structure PagedMap (mmap : List MmapEntry) : Prop where
  addr : ∀ e ∈ mmap, e.addr.toNat % 4096 = 0
  length : ∀ e ∈ mmap, e.length.toNat % 4096 = 0
  below : ∀ e ∈ mmap, e.addr.toNat + e.length.toNat ≤ 2 ^ 32

/-- Where the last available entry stops. -/
def lastStop (mmap : List MmapEntry) : Nat :=
  (mmap.filter MmapEntry.IsAvailable).getLast?.elim 0 (fun e => e.stop mmap)

/-- One bit for each frame up to there, in whole bytes. -/
def bitmapBytes (mmap : List MmapEntry) : Nat :=
  (lastStop mmap / 4096 + 7) / 8

/-- The end of the pages of the kernel and of such a bitmap behind it. -/
def reservedEnd (kernelEnd : Addr) (mmap : List MmapEntry) : Nat :=
  0x100000 + 4096 * ((kernelEnd.toNat - 0x100000 + 4095) / 4096 + (bitmapBytes mmap + 4095) / 4096)

/-- The frames of available entries behind the bitmap, in the order of the entries. -/
def releasedFrames (kernelEnd : Addr) (mmap : List MmapEntry) : List Nat :=
  (mmap.filter MmapEntry.IsAvailable).flatMap (fun e =>
    (List.range' (e.addr.toNat / 4096) ((e.stop mmap - e.addr.toNat) / 4096)).filter
      (fun k => reservedEnd kernelEnd mmap ≤ 4096 * k))

/-- No available entry with a page reaches beyond the frames of the bitmap, unless it ends
with the kernel and the bitmap.
-/
def LastCovers (kernelEnd : Addr) (mmap : List MmapEntry) : Prop :=
  ∀ e ∈ mmap,
    e.type = memAvailable
    → e.stop mmap ≤ e.addr.toNat
      ∨ e.stop mmap ≤ 4096 * (8 * bitmapBytes mmap)
      ∨ e.stop mmap ≤ reservedEnd kernelEnd mmap

instance (kernelEnd : Addr) (mmap : List MmapEntry) : Decidable (LastCovers kernelEnd mmap) :=
  inferInstanceAs (Decidable (∀ e ∈ mmap, _ → _))

/-- Sanitizing keeps the order and the types of the entries, so the available ones of the table
are those of the map.
-/
theorem sanitizedTable_filter_isAvailable (mmap : List MmapEntry)
    : (sanitizedTable mmap).filter MmapEntry.IsAvailable
      = (mmap.filter MmapEntry.IsAvailable).map (sanitizeAvailable mmap) := by
  have kept
      : MmapEntry.IsAvailable ∘ sanitizeAvailable mmap = MmapEntry.IsAvailable := by
    funext e
    simp only [Function.comp, MmapEntry.IsAvailable, sanitizeAvailable_type]
  rw [sanitizedTable, List.filter_map, kept]

/-- The last available entry, as sanitizing leaves it. -/
theorem lastAvailable_eq (mmap : List MmapEntry)
    : lastAvailable mmap
      = (mmap.filter MmapEntry.IsAvailable).getLast?.map (sanitizeAvailable mmap) := by
  rw [lastAvailable, sanitizedTable_filter_isAvailable, List.getLast?_map]

section Map

variable (map : PagedMap mmap)
include map

/-- An entry of whole pages stops on a page boundary, since all its bounds are page boundaries.
-/
theorem PagedMap.stop_aligned (member : e ∈ mmap) : e.stop mmap % 4096 = 0 := by
  obtain ⟨inside, behind⟩ := MmapEntry.le_stop_iff.mp (le_refl (e.stop mmap))
  -- the stop can be rounded up, as all of its bounds are page boundaries
  have rounded : pageCeil (e.stop mmap) ≤ e.stop mmap := by
    rw [pageCeil]
    refine MmapEntry.le_stop_iff.mpr ⟨?_, fun r listed reserved start => ?_⟩
    · have addr := map.addr e member
      have length := map.length e member
      omega
    · have addr := map.addr r listed
      have bound := behind r listed reserved start
      omega
  rw [pageCeil] at rounded
  omega

/-- A sanitized entry has the pages from its start to its stop. -/
theorem PagedMap.sanitized (member : e ∈ mmap) (available : e.type = memAvailable)
    : (sanitizeAvailable mmap e).addr = e.addr
      ∧ e.addr.toNat + (sanitizeAvailable mmap e).length.toNat = e.stop mmap
      ∧ e.stop mmap ≤ 2 ^ 32 := by
  have below := map.below e member
  obtain ⟨addr, length⟩ := sanitizeAvailable_onPage mmap available (by omega)
    (map.addr e member)
  have inside := (MmapEntry.le_stop_iff.mp (le_refl (e.stop mmap))).1
  exact ⟨addr, length, by omega⟩

/-- Its pages lie between its start and its stop. -/
theorem PagedMap.page (member : e ∈ mmap) (available : e.type = memAvailable) {i : Nat}
    (inside : i < (sanitizeAvailable mmap e).npages.toNat)
    : ((sanitizeAvailable mmap e).pageAddr (BitVec.ofNat 32 i)).toNat = e.addr.toNat + 4096 * i
      ∧ e.addr.toNat + 4096 * i < e.stop mmap := by
  obtain ⟨addr, length, small⟩ := map.sanitized member available
  rw [MmapEntry.npages_toNat] at inside
  rw [MmapEntry.pageAddr_toNat, addr]
  omega

/-- On such a map the size of the bitmap is not cut off: there are at most 2^20 frames. -/
theorem PagedMap.bootBitmapSize : (bootBitmapSize mmap).toNat = bitmapBytes mmap := by
  rw [SimpleKernel.bootBitmapSize, lastAvailable_eq, bitmapBytes, lastStop]
  cases last : (mmap.filter MmapEntry.IsAvailable).getLast? with
  | none =>
      change (bitmapSize 0 0).toNat = (0 / 4096 + 7) / 8
      decide
  | some e =>
      obtain ⟨member, available⟩ := List.mem_filter.mp (List.mem_of_getLast? last)
      obtain ⟨addr, length, small⟩ := map.sanitized member
        (MmapEntry.isAvailable_iff.mp available)
      simp only [Option.map_some, Option.elim_some, bitmapSize]
      have frames
          : (((sanitizeAvailable mmap e).addr + (sanitizeAvailable mmap e).length)
              / widePageSize).setWidth 32
            = BitVec.ofNat 32 (e.stop mmap / 4096) := by
        apply BitVec.eq_of_toNat_eq
        rw [BitVec.toNat_setWidth, BitVec.toNat_udiv, BitVec.toNat_add, addr, BitVec.toNat_ofNat,
          widePageSize_toNat]
        omega
      rw [frames, divCeil_toNat (by decide)]
      · rw [BitVec.toNat_ofNat, eight_toNat]
        omega
      · rw [BitVec.toNat_ofNat, eight_toNat]
        omega

/-- Nor is the end of the pages of kernel and bitmap. -/
theorem PagedMap.bootCombinedEnd (image : KernelImage kernelEnd)
    : (bootCombinedEnd kernelEnd mmap).toNat = reservedEnd kernelEnd mmap := by
  rw [image.bootCombinedEnd, image.bootCombinedPageCount, map.bootBitmapSize, reservedEnd]

/-- The pages released, by their addresses: those of available entries behind the bitmap. -/
theorem PagedMap.mem_bootPages (image : KernelImage kernelEnd) {page : Addr}
    : page ∈ bootPages kernelEnd mmap
      ↔ page.toNat % 4096 = 0
        ∧ reservedEnd kernelEnd mmap ≤ page.toNat
        ∧ ∃ e ∈ mmap,
            e.type = memAvailable
            ∧ e.addr.toNat ≤ page.toNat
            ∧ page.toNat < e.stop mmap := by
  rw [SimpleKernel.mem_bootPages, isCleared_iff_toNat, map.bootCombinedEnd image]
  have behind : 0x100000 ≤ reservedEnd kernelEnd mmap := Nat.le_add_right _ _
  constructor
  · rintro ⟨⟨e, member, available, i, inside, rfl⟩, _, high⟩
    obtain ⟨position, stop⟩ := map.page member available inside
    have aligned := map.addr e member
    exact ⟨by omega, high, e, member, available, by omega, by omega⟩
  · rintro ⟨onPage, high, e, member, available, start, stop⟩
    obtain ⟨addr, length, small⟩ := map.sanitized member available
    have aligned := map.addr e member
    have stopAligned := map.stop_aligned member
    refine ⟨⟨e, member, available, (page.toNat - e.addr.toNat) / 4096, ?_, ?_⟩, by omega, high⟩
    · rw [MmapEntry.npages_toNat]
      omega
    · apply BitVec.eq_of_toNat_eq
      rw [MmapEntry.pageAddr_toNat, addr]
      omega

/-- The pages that setup releases are those, in order. -/
theorem PagedMap.bootPages_frames (image : KernelImage kernelEnd)
    : (bootPages kernelEnd mmap).map frameNumber = releasedFrames kernelEnd mmap := by
  rw [bootPages, clearedPages, sanitizedTable_filter_isAvailable, List.flatMap_map,
    List.filter_flatMap, List.map_flatMap, releasedFrames]
  refine List.flatMap_congr (fun e listed => ?_)
  obtain ⟨member, type⟩ := List.mem_filter.mp listed
  have available := MmapEntry.isAvailable_iff.mp type
  obtain ⟨addr, length, small⟩ := map.sanitized member available
  have aligned := map.addr e member
  have count
      : (sanitizeAvailable mmap e).npages.toNat = (e.stop mmap - e.addr.toNat) / 4096 := by
    rw [MmapEntry.npages_toNat]
    omega
  have frame {i : Nat} (inside : i < (e.stop mmap - e.addr.toNat) / 4096)
      : frameNumber ((sanitizeAvailable mmap e).pageAddr (BitVec.ofNat 32 i))
        = e.addr.toNat / 4096 + i := by
    rw [frameNumber, (map.page member available (count ▸ inside)).1]
    omega
  have cleared {i : Nat} (inside : i < (e.stop mmap - e.addr.toNat) / 4096)
      : IsCleared (SimpleKernel.bootCombinedEnd kernelEnd mmap)
          ((sanitizeAvailable mmap e).pageAddr (BitVec.ofNat 32 i))
        = decide (reservedEnd kernelEnd mmap ≤ 4096 * (e.addr.toNat / 4096 + i)) := by
    have behind : 0x100000 ≤ reservedEnd kernelEnd mmap := Nat.le_add_right _ _
    rw [Bool.eq_iff_iff, isCleared_iff_toNat, map.bootCombinedEnd image,
      (map.page member available (count ▸ inside)).1, decide_eq_true_iff]
    omega
  rw [MmapEntry.pages, count, List.range'_eq_map_range, List.filter_map, List.filter_map,
    List.map_map]
  have same
      : (List.range ((e.stop mmap - e.addr.toNat) / 4096)).filter
          (IsCleared (SimpleKernel.bootCombinedEnd kernelEnd mmap)
            ∘ fun i => (sanitizeAvailable mmap e).pageAddr (BitVec.ofNat 32 i))
        = (List.range ((e.stop mmap - e.addr.toNat) / 4096)).filter
          ((fun k => decide (reservedEnd kernelEnd mmap ≤ 4096 * k))
            ∘ fun i => e.addr.toNat / 4096 + i) := by
    refine List.filter_congr (fun i inside => ?_)
    rw [Function.comp_apply, cleared (List.mem_range.mp inside), Function.comp_apply]
  rw [same]
  refine List.map_congr_left (fun i inside => ?_)
  exact frame (List.mem_range.mp (List.mem_of_mem_filter inside))

end Map

/-- The second walk stays inside the bitmap exactly if the last available entry covers all
others.
-/
theorem clearedIndices_covered_iff (image : KernelImage kernelEnd) (map : PagedMap mbh.mmap)
    (installed : initFrameAllocator ram kernelEnd magic mbh = .installed pmm)
    : (∀ index ∈ clearedIndices kernelEnd mbh.mmap, index.toNat < pmm.size.toNat)
      ↔ LastCovers kernelEnd mbh.mmap := by
  have size : pmm.size.toNat = bitmapBytes mbh.mmap := by
    rw [eq_bootPmm installed, bootPmm_size, map.bootBitmapSize]
  have index (page : Addr)
      : (earlyPhysaddrToOffsets page).1.toNat = page.toNat / 4096 / 8 := by
    rw [earlyPhysaddrToOffsets, physaddrToOffsets_fst, frameNumber, BitVec.toNat_ofNat]
    omega
  rw [clearedIndices, List.forall_mem_map, size]
  simp only [index]
  constructor
  · intro covered e member available
    obtain ⟨_, _, small⟩ := map.sanitized member available
    have aligned := map.addr e member
    have stopAligned := map.stop_aligned member
    have endAligned : reservedEnd kernelEnd mbh.mmap % 4096 = 0 := by
      rw [reservedEnd]
      omega
    by_contra uncovered
    simp only [not_or, Nat.not_le] at uncovered
    -- the last page of the entry is cleared, and has no bit
    have last : (BitVec.ofNat 32 (e.stop mbh.mmap - 4096)).toNat = e.stop mbh.mmap - 4096 := by
      rw [BitVec.toNat_ofNat]
      omega
    have written := covered (BitVec.ofNat 32 (e.stop mbh.mmap - 4096))
      ((map.mem_bootPages image).mpr ⟨by omega, by omega, e, member, available, by omega,
        by omega⟩)
    omega
  · intro covers page released
    obtain ⟨onPage, high, e, member, available, start, stop⟩ :=
      (map.mem_bootPages image).mp released
    rcases covers e member available with none | inside | low
    · omega
    · omega
    · omega

/-- The first megabyte's RAM and two megabytes behind it. -/
def orderedMap : List MmapEntry :=
  [⟨0, 0x9F000, 1⟩, ⟨0x100000, 0x200000, 1⟩]

/-- Setup installs a bitmap for the ordered map, by evaluation. -/
theorem installed_orderedMap
    : initFrameAllocator (fun _ => 0) 0x104000 multibootMagic ⟨0x40, orderedMap⟩
      = .installed (bootPmm (fun _ => 0) 0x104000 orderedMap) := by
  rw [initFrameAllocator_eq]
  rfl

/-- The walk stays inside the bitmap. Witness: the indices of an ordered map, the first of them
0x20.
-/
theorem clearedIndices_covered_ordered
    : 0x20 ∈ clearedIndices 0x104000 orderedMap
      ∧ BitVec.toNat (0x20 : Word) < (bootPmm (fun _ => 0) 0x104000 orderedMap).size.toNat := by
  have cleared : 0x20 ∈ clearedIndices 0x104000 orderedMap := by decide +kernel
  have covered := (clearedIndices_covered_iff ⟨by decide, by decide⟩
    ⟨by decide, by decide, by decide⟩ installed_orderedMap).mpr (by decide)
  exact ⟨cleared, covered 0x20 cleared⟩

/-- Without the last entry covering the others, setup clears bits past the end. Counterexample:
an ordered map the other way round, whose bitmap stops at the entry listed last while index
0x20 is cleared.
-/
theorem not_covered_reversed
    : ¬∀ (ram : Memory) (kernelEnd : Addr) (magic : Word) (mbh : MultibootInfo) (pmm : Pmm),
        KernelImage kernelEnd
        → PagedMap mbh.mmap
        → initFrameAllocator ram kernelEnd magic mbh = .installed pmm
        → ∀ index ∈ clearedIndices kernelEnd mbh.mmap, index.toNat < pmm.size.toNat := by
  intro claim
  have covered := claim (fun _ => 0) 0x104000 multibootMagic ⟨0x40, orderedMap.reverse⟩ _
    ⟨by decide, by decide⟩ ⟨by decide, by decide, by decide⟩ (initFrameAllocator_eq _ _ _ _)
  exact absurd (covered 0x20 (by decide +kernel)) (by decide +kernel)

end SimpleKernel
