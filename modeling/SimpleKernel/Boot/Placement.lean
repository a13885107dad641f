import SimpleKernel.Boot.Coverage
import SimpleKernel.Library.Bounds

/-! The memory that the bitmap is placed in.
The bitmap always starts on the page behind the kernel. The entry that setup charges it to
only has to start no later than the kernel and to be long enough, so that it may end before
the bitmap does, or lie elsewhere.
-/

namespace SimpleKernel

open ByteMemory

variable {mmap : List MmapEntry} {kernelEnd : Addr} {ram : Memory} {magic : Word}
  {mbh : MultibootInfo} {pmm : Pmm} {e r : MmapEntry} {x : Nat}

/-- Kernel and bitmap lie inside one available entry and outside all others. -/
structure PlacedInRam (mmap : List MmapEntry) (pmm : Pmm) : Prop where
  inside
    : ∃ e ∈ mmap,
        e.type = memAvailable
        ∧ e.addr.toNat ≤ 0x100000
        ∧ pmm.bitmap.toNat + pmm.size.toNat ≤ e.addr.toNat + e.length.toNat
  unreserved
    : ∀ r ∈ mmap,
        r.type ≠ memAvailable
        → ∀ x, 0x100000 ≤ x → x < pmm.bitmap.toNat + pmm.size.toNat → ¬r.Holds x

/-- The frames up to the end of the last available entry, as sanitizing leaves it. -/
def lastFrames (mmap : List MmapEntry) : Nat :=
  (lastAvailable mmap).elim 0 (fun e => (e.addr + e.length).toNat / 4096)

/-- Where the RAM around 1 MiB ends: at the end of the longest available entry that starts
there or before, or where the first non-available entry starts that ends behind 1 MiB.
-/
def usableEnd (mmap : List MmapEntry) : Nat :=
  ((mmap.filter (fun r => r.type ≠ memAvailable
      ∧ 0x100000 < r.addr.toNat + r.length.toNat
      ∧ r.length ≠ 0)).map (fun r => r.addr.toNat)).foldr min
    (((mmap.filter (fun e => e.type = memAvailable ∧ e.addr.toNat ≤ 0x100000)).map
      (fun e => e.addr.toNat + e.length.toNat)).foldr max 0)

/-- The kernel's pages and one bit for each of the last entry's frames, with the page count
cut to 32 bits, fit into that RAM.
-/
def BitmapFits (kernelEnd : Addr) (mmap : List MmapEntry) : Prop :=
  0x100000 + 4096 * ((kernelEnd.toNat - 0x100000 + 4095) / 4096)
      + (lastFrames mmap % 2 ^ 32 + 7) % 2 ^ 32 / 8
    ≤ usableEnd mmap

instance (kernelEnd : Addr) (mmap : List MmapEntry) : Decidable (BitmapFits kernelEnd mmap) :=
  inferInstanceAs (Decidable (_ ≤ _))

/-- A position is inside the RAM around 1 MiB exactly if an available entry reaches it and no
other entry starts before it. By the bounds of the minimum and the maximum.
-/
theorem le_usableEnd_iff (positive : 0 < x)
    : x ≤ usableEnd mmap
      ↔ (∃ e ∈ mmap,
          e.type = memAvailable
          ∧ e.addr.toNat ≤ 0x100000
          ∧ x ≤ e.addr.toNat + e.length.toNat)
        ∧ ∀ r ∈ mmap,
            r.type ≠ memAvailable
            → 0x100000 < r.addr.toNat + r.length.toNat
            → r.length ≠ 0
            → x ≤ r.addr.toNat := by
  rw [usableEnd, Bounds.le_foldr_min_iff, Bounds.le_foldr_max_iff, List.forall_mem_map,
    or_iff_right (Nat.not_le.mpr positive)]
  simp only [List.mem_map, List.mem_filter, decide_eq_true_eq, and_imp]
  refine and_congr_left (fun _ => ?_)
  constructor
  · rintro ⟨_, ⟨e, ⟨member, available, start⟩, rfl⟩, stop⟩
    exact ⟨e, member, available, start, stop⟩
  · rintro ⟨e, member, available, start, stop⟩
    exact ⟨_, ⟨e, ⟨member, available, start⟩, rfl⟩, stop⟩

/-- The size of the bitmap in terms of the frames, with the two places where it loses its upper
bits: the cast of the page count and the rounding.
-/
theorem bootBitmapSize_toNat (mmap : List MmapEntry)
    : (bootBitmapSize mmap).toNat = (lastFrames mmap % 2 ^ 32 + 7) % 2 ^ 32 / 8 := by
  have eighth (pages : Word) : (divCeil pages 8).toNat = (pages.toNat + 7) % 2 ^ 32 / 8 := by
    rw [divCeil, BitVec.toNat_udiv, eight_toNat]
    congr 1
    bv_omega
  rw [bootBitmapSize, lastFrames]
  cases lastAvailable mmap with
  | none =>
      change (bitmapSize 0 0).toNat = (0 % 2 ^ 32 + 7) % 2 ^ 32 / 8
      decide
  | some e =>
      simp only [Option.elim_some, bitmapSize]
      rw [eighth, BitVec.toNat_setWidth, BitVec.toNat_udiv,
        widePageSize_toNat]

/-- On a map of whole pages below 4 GiB the condition can be read off the map, where the bitmap
has one bit for each frame up to the stop of the last available entry.
-/
theorem PagedMap.bitmapFits_iff (map : PagedMap mmap)
    : BitmapFits kernelEnd mmap
      ↔ 0x100000 + 4096 * ((kernelEnd.toNat - 0x100000 + 4095) / 4096) + bitmapBytes mmap
        ≤ usableEnd mmap := by
  rw [BitmapFits, ← bootBitmapSize_toNat, map.bootBitmapSize]

/-- A non-available entry reaches into the range exactly if it ends behind 1 MiB and starts
before the range does.
-/
theorem MmapEntry.outside_iff {stop : Nat} (nonempty : 0x100000 < stop)
    : (∀ x, 0x100000 ≤ x → x < stop → ¬r.Holds x)
      ↔ 0x100000 < r.addr.toNat + r.length.toNat → r.length ≠ 0 → stop ≤ r.addr.toNat := by
  constructor
  · intro outside behind solid
    by_contra reaches
    have length : r.length.toNat ≠ 0 := fun zero => solid (BitVec.eq_of_toNat_eq zero)
    exact outside (max 0x100000 r.addr.toNat) (le_max_left _ _) (by omega)
      ⟨le_max_right _ _, by omega⟩
  · rintro starts x low high ⟨first, last⟩
    have solid : r.length ≠ 0 := by
      intro zero
      rw [zero] at last
      simp at last
      omega
    have stop := starts (by omega) solid
    omega

/-- The bitmap is placed in RAM exactly if it fits behind the kernel. By the bounds of the RAM
around 1 MiB, as setup always starts the bitmap on the page behind the kernel.
-/
theorem setup_placedInRam_iff (image : KernelImage kernelEnd)
    (nonempty : 0x100000 < kernelEnd.toNat)
    (installed : initFrameAllocator ram kernelEnd magic mbh = .installed pmm)
    : PlacedInRam mbh.mmap pmm ↔ BitmapFits kernelEnd mbh.mmap := by
  obtain rfl := eq_bootPmm installed
  have stop
      : (bootPmm ram kernelEnd mbh.mmap).bitmap.toNat
          + (bootPmm ram kernelEnd mbh.mmap).size.toNat
        = 0x100000 + 4096 * ((kernelEnd.toNat - 0x100000 + 4095) / 4096)
          + (lastFrames mbh.mmap % 2 ^ 32 + 7) % 2 ^ 32 / 8 := by
    rw [image.bitmap, bootPmm_size, bootBitmapSize_toNat]
  rw [BitmapFits, ← stop, le_usableEnd_iff (by omega)]
  have outside (r : MmapEntry) := MmapEntry.outside_iff (r := r)
    (show 0x100000 < (bootPmm ram kernelEnd mbh.mmap).bitmap.toNat
      + (bootPmm ram kernelEnd mbh.mmap).size.toNat by omega)
  constructor
  · rintro ⟨inside, unreserved⟩
    exact ⟨inside, fun r member reserved => (outside r).mp (unreserved r member reserved)⟩
  · rintro ⟨inside, behind⟩
    exact ⟨inside, fun r member reserved => (outside r).mpr (behind r member reserved)⟩

/-- RAM around 1 MiB up to `stop`, reserved memory behind it, and RAM up to 1.5 GiB. -/
def tightMap (stop : BitVec 64) : List MmapEntry :=
  [
    ⟨0xF0000, stop - 0xF0000, 1⟩,
    ⟨stop, 0x8000, 2⟩,
    ⟨0x40000000, 0x20000000, 1⟩
  ]

/-- A bitmap of 12 pages is placed in RAM. Witness: the entry around 1 MiB ends at 0x110000,
right behind the bitmap.
-/
theorem setup_placedInRam_roomy
    : PlacedInRam (tightMap 0x110000) (bootPmm (fun _ => 0) 0x104000 (tightMap 0x110000)) := by
  have installed
      : initFrameAllocator (fun _ => 0) 0x104000 multibootMagic ⟨0x40, tightMap 0x110000⟩
        = .installed (bootPmm (fun _ => 0) 0x104000 (tightMap 0x110000)) :=
    initFrameAllocator_installed _ (e := ⟨0xF0000, 0x20000, 1⟩) (by decide) (by decide)
      (by decide)
  exact (setup_placedInRam_iff ⟨by decide, by decide⟩ (by decide) installed).mpr (by decide)

/-- Setup does not compare the end of the bitmap with the end of the entry. Counterexample: an
entry with 24 pages, of which only eight lie behind 1 MiB for kernel and bitmap.
-/
theorem not_placedInRam_tight
    : ¬∀ (ram : Memory) (kernelEnd : Addr) (magic : Word) (mbh : MultibootInfo) (pmm : Pmm),
        KernelImage kernelEnd
        → 0x100000 < kernelEnd.toNat
        → (∃ e ∈ mbh.mmap,
            e.type = memAvailable
            ∧ e.addr.toNat ≤ 0x100000
            ∧ kernelEnd.toNat ≤ e.addr.toNat + e.length.toNat)
        → initFrameAllocator ram kernelEnd magic mbh = .installed pmm
        → PlacedInRam mbh.mmap pmm := by
  intro claim
  have installed
      : initFrameAllocator (fun _ => 0) 0x104000 multibootMagic ⟨0x40, tightMap 0x108000⟩
        = .installed (bootPmm (fun _ => 0) 0x104000 (tightMap 0x108000)) :=
    initFrameAllocator_installed _ (e := ⟨0xF0000, 0x18000, 1⟩) (by decide) (by decide)
      (by decide)
  have image : KernelImage 0x104000 := ⟨by decide, by decide⟩
  have placed := claim _ _ _ _ _ image (by decide) (by decide) installed
  have size : (bootPmm (fun _ => 0) 0x104000 (tightMap 0x108000)).size = 0xC000 := by
    rw [bootPmm_size]
    decide
  refine placed.unreserved ⟨0x108000, 0x8000, 2⟩ (by decide) (by decide) 0x108000 (by decide) ?_
    ⟨by decide, by decide⟩
  rw [image.bitmap, size]
  decide

end SimpleKernel
