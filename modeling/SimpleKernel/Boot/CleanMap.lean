import SimpleKernel.Boot.Coverage
import SimpleKernel.Boot.FreeRam

/-! Setup on a clean memory map.
With sorted, disjoint entries of whole pages sanitizing changes nothing, the entry at 1 MiB is
the last one that starts in time, and the second walk releases pages in ascending order.
-/

namespace SimpleKernel

open ByteMemory

variable {mmap : List MmapEntry} {kernelEnd : Addr} {ram : Memory} {mbh : MultibootInfo}
  {pmm : Pmm} {e f a : MmapEntry} {k : Nat}

/-- Non-empty entries of whole pages below 4 GiB, sorted by address and disjoint. -/
structure CleanMap (mmap : List MmapEntry) : Prop where
  nonempty : ∀ e ∈ mmap, 0 < e.length.toNat
  paged : PagedMap mmap
  sorted : mmap.Pairwise (fun e f => e.addr.toNat ≤ f.addr.toNat)
  disjoint : mmap.Pairwise MmapEntry.Apart

/-- The end of the highest available entry. -/
def topOfRam (mmap : List MmapEntry) : Nat :=
  ((mmap.filter MmapEntry.IsAvailable).map
    (fun e => e.addr.toNat + e.length.toNat)).foldr max 0

/-- An available entry from 1 MiB on with room for the kernel and for a bitmap with one bit
for each frame up to the top of RAM.
-/
def HoldsKernel (mmap : List MmapEntry) (kernelEnd : Addr) (e : MmapEntry) : Prop :=
  e.type = memAvailable
  ∧ e.addr.toNat = 0x100000
  ∧ kernelEnd.toNat ≤ e.addr.toNat + e.length.toNat
  ∧ (kernelEnd.toNat - 0x100000 + 4095) / 4096 + ((topOfRam mmap / 4096 + 7) / 8 + 4095) / 4096
    ≤ e.length.toNat / 4096

/-- Frame `k` is RAM from 1 MiB on, outside the pages of the kernel and of the bitmap. -/
structure UsableFrame (mmap : List MmapEntry) (kernelEnd : Addr) (pmm : Pmm) (k : Nat)
    : Prop where
  available : FrameAvailable mmap k
  high : 0x100000 ≤ 4096 * k
  outsideKernel
    : 4096 * k < 0x100000
      ∨ 0x100000 + (kernelEnd.toNat - 0x100000 + 4095) / 4096 * 4096 ≤ 4096 * k
  outsideBitmap
    : 4096 * k < pmm.bitmap.toNat
      ∨ pmm.bitmap.toNat + (pmm.size.toNat + 4095) / 4096 * 4096 ≤ 4096 * k

/-- Bits, count and cache all say which frames are usable. -/
structure ExactSetup (mmap : List MmapEntry) (kernelEnd : Addr) (pmm : Pmm) : Prop where
  free_iff : ∀ k, pmm.Free k ↔ UsableFrame mmap kernelEnd pmm k
  count : pmm.freePages.toNat = pmm.freeFrames.card
  cacheFree : pmm.HasFree → pmm.CacheFree
  cacheLowest : ∀ k, pmm.Free k → pmm.cached ≤ k

section Map

variable (map : CleanMap mmap)
include map

/-- Entries that are sorted and disjoint follow one another, as none of them is empty. -/
theorem CleanMap.ordered
    : mmap.Pairwise (fun e f => e.addr.toNat + e.length.toNat ≤ f.addr.toNat) := by
  have both := map.sorted.and map.disjoint
  refine both.imp_of_mem ?_
  intro e f listed member facts
  by_contra overlap
  have nonempty := map.nonempty f member
  exact facts.2 f.addr.toNat ⟨⟨facts.1, by omega⟩, ⟨le_rfl, by omega⟩⟩

/-- No entry starts inside another. -/
theorem CleanMap.stop (member : e ∈ mmap) (available : e.type = memAvailable)
    : e.stop mmap = e.addr.toNat + e.length.toNat := by
  refine Nat.le_antisymm (MmapEntry.le_stop_iff.mp le_rfl).1 ?_
  refine MmapEntry.le_stop_iff.mpr ⟨le_rfl, fun r listed reserved behind => ?_⟩
  by_contra inside
  have ne : e ≠ r := by
    rintro rfl
    exact reserved available
  have nonempty := map.nonempty r listed
  have start : e.addr.toNat < r.addr.toNat := behind
  exact map.disjoint.forall member listed ne r.addr.toNat
    ⟨⟨by omega, by omega⟩, ⟨le_rfl, by omega⟩⟩

/-- The last available entry is the highest. -/
theorem CleanMap.lastStop : lastStop mmap = topOfRam mmap := by
  have ordered := map.ordered.filter MmapEntry.IsAvailable
  rw [SimpleKernel.lastStop, topOfRam]
  rcases List.eq_nil_or_concat (mmap.filter MmapEntry.IsAvailable) with none | ⟨before, last, some⟩
  · rw [none]
    rfl
  · have listed : last ∈ mmap.filter MmapEntry.IsAvailable := by simp [some]
    obtain ⟨member, available⟩ := List.mem_filter.mp listed
    rw [some] at ordered ⊢
    rw [List.concat_eq_append] at ordered ⊢
    rw [List.getLast?_append, List.getLast?_singleton]
    change last.stop mmap = _
    rw [map.stop member (MmapEntry.isAvailable_iff.mp available)]
    apply le_antisymm
    · exact Bounds.le_foldr_max_iff.mpr (Or.inr ⟨_, List.mem_map.mpr ⟨last, by simp, rfl⟩, le_rfl⟩)
    · refine Bounds.foldr_max_le_iff.mpr ⟨Nat.zero_le _, ?_⟩
      rw [List.forall_mem_map]
      intro e earlier
      rcases List.mem_append.mp earlier with earlier | same
      · have before := (List.pairwise_append.mp ordered).2.2 e earlier last (by simp)
        omega
      · rw [List.mem_singleton.mp same]

/-- The bitmap covers all RAM: the last available entry is the highest one of a sorted map. -/
theorem CleanMap.bitmapBytes : bitmapBytes mmap = (topOfRam mmap / 4096 + 7) / 8 := by
  rw [SimpleKernel.bitmapBytes, map.lastStop]

/-- RAM ends at 4 GiB at the latest, where every entry does. -/
theorem CleanMap.topOfRam_le : topOfRam mmap ≤ 2 ^ 32 := by
  refine Bounds.foldr_max_le_iff.mpr ⟨Nat.zero_le _, ?_⟩
  rw [List.forall_mem_map]
  exact fun e listed => map.paged.below e (List.mem_of_mem_filter listed)

/-- Behind the entry at 1 MiB none starts in time to be matched. -/
theorem CleanMap.bootKernelEntry (image : KernelImage kernelEnd) (member : a ∈ mmap)
    (holds : HoldsKernel mmap kernelEnd a)
    : ∃ e,
        bootKernelEntry kernelEnd mmap = some e
        ∧ e.length.toNat = a.length.toNat := by
  obtain ⟨available, start, kernel, _⟩ := holds
  have first := image.start
  have size : (kernelEnd - kernelStart).toNat = kernelEnd.toNat - 0x100000 := by bv_omega
  obtain ⟨before, after, split⟩ := List.append_of_mem member
  have matched : a.MatchesKernel (kernelEnd - kernelStart) = true := by
    refine MmapEntry.matchesKernel_iff.mpr ⟨?_, ?_⟩
    · rw [ge_iff_le, BitVec.le_def, start]
      exact le_rfl
    · rw [ge_iff_le, BitVec.le_def, BitVec.toNat_setWidth, size]
      omega
  have none : after.filter (MmapEntry.MatchesKernel (kernelEnd - kernelStart)) = [] := by
    refine List.filter_eq_nil_iff.mpr (fun e later fits => ?_)
    have nonempty := map.nonempty a member
    have ordered := map.ordered
    rw [split] at ordered
    have behind := (List.pairwise_cons.mp (List.pairwise_append.mp ordered).2.1).1 e later
    have early : e.addr.toNat ≤ 0x100000 := (MmapEntry.matchesKernel_iff.mp fits).1
    omega
  refine ⟨sanitizeAvailable mmap a, ?_, ?_⟩
  · have last
        : (mmap.filter (MmapEntry.MatchesKernel (kernelEnd - kernelStart))).getLast?
          = some a := by
      rw [split, List.filter_append, List.filter_cons_of_pos matched, none]
      exact List.getLast?_concat
    rw [SimpleKernel.bootKernelEntry, last]
    rfl
  · obtain ⟨_, length, _⟩ := map.paged.sanitized member available
    rw [map.stop member available] at length
    omega

/-- The pages released are those of available entries behind the bitmap. -/
theorem CleanMap.mem_bootPages (image : KernelImage kernelEnd) {page : Addr}
    : page ∈ bootPages kernelEnd mmap
      ↔ page.toNat % 4096 = 0
        ∧ reservedEnd kernelEnd mmap ≤ page.toNat
        ∧ FrameAvailable mmap (page.toNat / 4096) := by
  rw [map.paged.mem_bootPages image]
  refine and_congr_right (fun onPage => and_congr_right (fun _ => ?_))
  constructor
  · rintro ⟨e, member, available, start, stop⟩
    rw [map.stop member available] at stop
    have addr := map.paged.addr e member
    have length := map.paged.length e member
    exact ⟨e, member, available, by omega, by omega⟩
  · rintro ⟨e, member, available, start, stop⟩
    refine ⟨e, member, available, by omega, ?_⟩
    rw [map.stop member available]
    omega

/-- The pages are released in ascending order. -/
theorem CleanMap.bootPages_sorted
    : (bootPages kernelEnd mmap).Pairwise (fun p q => p.toNat < q.toNat) := by
  refine List.Pairwise.filter _ (List.pairwise_flatMap.mpr ⟨?_, ?_⟩)
  · intro s listed
    obtain ⟨sanitized, type⟩ := List.mem_filter.mp listed
    obtain ⟨e, member, rfl⟩ := List.mem_map.mp sanitized
    have available := (sanitizeAvailable_type mmap e).symm.trans
      (MmapEntry.isAvailable_iff.mp type)
    refine List.pairwise_map.mpr (List.pairwise_lt_range.imp_of_mem ?_)
    intro i j first second order
    obtain ⟨position, _⟩ := map.paged.page member available (List.mem_range.mp first)
    obtain ⟨later, _⟩ := map.paged.page member available (List.mem_range.mp second)
    omega
  · refine List.pairwise_filter.mpr (List.pairwise_map.mpr (map.ordered.imp_of_mem ?_))
    intro e f member other order first second p inE q inF
    obtain ⟨i, inside, rfl⟩ := List.mem_map.mp inE
    obtain ⟨j, insideToo, rfl⟩ := List.mem_map.mp inF
    have available := (sanitizeAvailable_type mmap e).symm.trans
      (MmapEntry.isAvailable_iff.mp first)
    have availableToo := (sanitizeAvailable_type mmap f).symm.trans
      (MmapEntry.isAvailable_iff.mp second)
    obtain ⟨position, stop⟩ := map.paged.page member available (List.mem_range.mp inside)
    obtain ⟨later, _⟩ := map.paged.page other availableToo (List.mem_range.mp insideToo)
    rw [map.stop member available] at stop
    omega

/-- The bits that are clear, as frame numbers. -/
theorem CleanMap.free_iff (image : KernelImage kernelEnd) (ram : Memory)
    : (bootPmm ram kernelEnd mmap).Free k
      ↔ k ∈ (bootPages kernelEnd mmap).map frameNumber := by
  rw [bootPmm_free_iff, and_iff_right_iff_imp, List.mem_map]
  rintro ⟨page, released, rfl⟩
  obtain ⟨_, _, e, member, available, _, stop⟩ := (map.mem_bootPages image).mp released
  have top : e.addr.toNat + e.length.toNat ≤ topOfRam mmap :=
    Bounds.le_foldr_max_iff.mpr (Or.inr ⟨_, List.mem_map.mpr ⟨e, List.mem_filter.mpr
      ⟨member, MmapEntry.isAvailable_iff.mpr available⟩, rfl⟩, le_rfl⟩)
  rw [map.paged.bootBitmapSize, map.bitmapBytes, frameNumber]
  omega

/-- The clear bits are those of the usable frames. -/
theorem CleanMap.usable_iff (image : KernelImage kernelEnd) (ram : Memory)
    : (bootPmm ram kernelEnd mmap).Free k
      ↔ UsableFrame mmap kernelEnd (bootPmm ram kernelEnd mmap) k := by
  have bitmap := image.bitmap mmap ram
  have size : (bootPmm ram kernelEnd mmap).size.toNat = SimpleKernel.bitmapBytes mmap := by
    rw [bootPmm_size, map.paged.bootBitmapSize]
  have windows : reservedEnd kernelEnd mmap
      = 0x100000
        + 4096
          * ((kernelEnd.toNat - 0x100000 + 4095) / 4096
            + (SimpleKernel.bitmapBytes mmap + 4095) / 4096) :=
    rfl
  rw [map.free_iff image, List.mem_map]
  constructor
  · rintro ⟨page, released, rfl⟩
    obtain ⟨onPage, behind, available⟩ := (map.mem_bootPages image).mp released
    rw [frameNumber]
    exact ⟨available, by omega, Or.inr (by omega), Or.inr (by omega)⟩
  · intro usable
    have high := usable.high
    have kernel := usable.outsideKernel
    have pages := usable.outsideBitmap
    have small : 4096 * k + 4096 ≤ 2 ^ 32 := by
      obtain ⟨e, member, _, _, stop⟩ := usable.available
      have below := map.paged.below e member
      omega
    have position : (BitVec.ofNat 32 (4096 * k)).toNat = 4096 * k := by
      rw [BitVec.toNat_ofNat]
      omega
    have frame : 4096 * k / 4096 = k := by omega
    refine ⟨BitVec.ofNat 32 (4096 * k), (map.mem_bootPages image).mpr ⟨by omega, by omega, ?_⟩, ?_⟩
    · rw [position, frame]
      exact usable.available
    · rw [frameNumber, position, frame]

/-- Setup releases frames in ascending order, hence none twice, because the pages of an entry
ascend and the entries do.
-/
theorem CleanMap.frames_sorted (image : KernelImage kernelEnd)
    : ((bootPages kernelEnd mmap).map frameNumber).Pairwise (· < ·) := by
  refine List.pairwise_map.mpr (map.bootPages_sorted.imp_of_mem ?_)
  intro p q first second order
  have onPageToo := ((map.mem_bootPages image).mp second).1
  simp only [frameNumber]
  omega

/-- Setup counts each frame that it frees once. By the order of the releases, whose frames all
have a bit.
-/
theorem CleanMap.count (image : KernelImage kernelEnd) (ram : Memory)
    : (bootPmm ram kernelEnd mmap).freePages.toNat
      = (bootPmm ram kernelEnd mmap).freeFrames.card := by
  have frames : (bootPmm ram kernelEnd mmap).freeFrames
      = ((bootPages kernelEnd mmap).map frameNumber).toFinset := by
    ext k
    rw [Pmm.mem_freeFrames, map.free_iff image, List.mem_toFinset]
  have unique : ((bootPages kernelEnd mmap).map frameNumber).Nodup :=
    (map.frames_sorted image).imp Nat.ne_of_lt
  have card := List.toFinset_card_of_nodup unique
  rw [List.length_map] at card
  have few : (bootPmm ram kernelEnd mmap).freeFrames.card ≤ 8 * 2 ^ 17 := by
    refine (Finset.card_filter_le _ _).trans ?_
    have top := map.topOfRam_le
    rw [Finset.card_range, bootPmm_size, map.paged.bootBitmapSize, map.bitmapBytes]
    omega
  rw [bootPmm_freePages, BitVec.toNat_ofNat, ← card, ← frames]
  exact Nat.mod_eq_of_lt (by omega)

/-- The first page released is the lowest. -/
theorem CleanMap.cacheLowest (image : KernelImage kernelEnd) (ram : Memory)
    (free : (bootPmm ram kernelEnd mmap).Free k)
    : (bootPmm ram kernelEnd mmap).CacheFree ∧ (bootPmm ram kernelEnd mmap).cached ≤ k := by
  have listed := (map.free_iff image ram).mp free
  have sorted := map.frames_sorted image
  cases released : bootPages kernelEnd mmap with
  | nil => simp [released] at listed
  | cons page rest =>
      obtain ⟨cached, offset⟩ := bootPmm_cached ram released
      rw [released, List.map_cons] at listed sorted
      have first : (bootPmm ram kernelEnd mmap).Free (frameNumber page) := by
        rw [map.free_iff image, released]
        exact List.mem_cons_self
      rw [← cached] at first
      refine ⟨⟨offset, first⟩, ?_⟩
      rw [cached]
      rcases List.mem_cons.mp listed with same | later
      · exact same.ge
      · exact ((List.pairwise_cons.mp sorted).1 k later).le

end Map

/-- On a clean map setup installs a bitmap that says exactly which frames are usable: a bit is
clear just for the RAM outside kernel and bitmap, the counter is the number of clear bits, and
the cache names the lowest of them.
-/
theorem setup_exact (image : KernelImage kernelEnd) (map : CleanMap mbh.mmap)
    (mapped : mbh.flags &&& 1#32 <<< 6 ≠ 0)
    (kernel : ∃ e ∈ mbh.mmap, HoldsKernel mbh.mmap kernelEnd e) (ram : Memory)
    : ∃ pmm,
        initFrameAllocator ram kernelEnd multibootMagic mbh = .installed pmm
        ∧ ExactSetup mbh.mmap kernelEnd pmm := by
  obtain ⟨a, member, holds⟩ := kernel
  obtain ⟨e, entry, length⟩ := map.bootKernelEntry image member holds
  refine ⟨bootPmm ram kernelEnd mbh.mmap, initFrameAllocator_installed ram mapped entry ?_, {
    free_iff := fun k => map.usable_iff image ram
    count := map.count image ram
    cacheFree := fun ⟨k, free⟩ => (map.cacheLowest image ram free).1
    cacheLowest := fun k free => (map.cacheLowest image ram free).2
  }⟩
  have room := holds.2.2.2
  rw [ge_iff_le, BitVec.le_def, BitVec.toNat_setWidth, BitVec.toNat_udiv,
    image.bootCombinedPageCount, map.paged.bootBitmapSize, map.bitmapBytes, length,
    widePageSize_toNat]
  omega

/-- Low RAM, reserved memory, and two megabytes of RAM behind it with the kernel in front. -/
def cleanMap : List MmapEntry :=
  [⟨0, 0x9F000, 1⟩, ⟨0xF0000, 0x10000, 2⟩, ⟨0x100000, 0x200000, 1⟩]

/-- The map is clean, by evaluation of each condition. -/
theorem cleanMap_clean : CleanMap cleanMap where
  nonempty := by decide
  paged := ⟨by decide, by decide, by decide⟩
  sorted := by decide
  disjoint := by
    have ordered
        : cleanMap.Pairwise (fun e f => e.addr.toNat + e.length.toNat ≤ f.addr.toNat) := by
      decide
    exact ordered.imp MmapEntry.Apart.of_le

/-- Setup is exact on a map with RAM on both sides of a reserved entry. Witness: the kernel
takes four pages and the bitmap one.
-/
theorem setup_exact_cleanMap
    : ∃ pmm,
        initFrameAllocator (fun _ => 0) 0x104000 multibootMagic ⟨0x40, cleanMap⟩
          = .installed pmm
        ∧ ExactSetup cleanMap 0x104000 pmm :=
  setup_exact ⟨by decide, by decide⟩ cleanMap_clean (by decide)
    ⟨⟨0x100000, 0x200000, 1⟩, by decide, rfl, rfl, by decide, by decide⟩ (fun _ => 0)

end SimpleKernel
