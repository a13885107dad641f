import SimpleKernel.Boot.BootTables

/-! The allocator's bitmap after the switch to paging.
`late_pmm_init` maps the bitmap at `0xC0000000` plus the size of the kernel, but the kernel is
mapped from `0xC0100000` on. The two meet once kernel and bitmap together need more than 256
pages, and the mapping calls that fail there are not noticed.
-/

namespace SimpleKernel

open ByteMemory

variable {vm vm₀ : Paging} {kernelEnd bitmap : Addr} {pmm : Pmm}

/-- The loop of `late_pmm_init` from page `i` on; the return codes are dropped. -/
def mapBitmapPages (kernelPages : Word) : Nat → Word → Paging → Paging
  | 0, _, vm => vm
  | rounds + 1, i, vm =>
      let va := 0xC0000000#32 ||| i <<< 12
      let pa := vm.pmm.bitmap + (i - kernelPages) * pageSize
      mapBitmapPages kernelPages rounds (i + 1) (mapPage vm pa va 0x103).2

def latePmmInit (kernelEnd : Addr) (vm : Paging) (p : Pmm) : Paging :=
  let kernelPages := kernelPageCount kernelEnd
  let combined := kernelPages + divCeil p.size pageSize
  let bitmapVirtaddr := 0xC0000000#32 ||| kernelPages <<< 12
  let vm :=
    mapBitmapPages kernelPages (combined.toNat - kernelPages.toNat) kernelPages
      { vm with pmm := p }
  { vm with pmm := { vm.pmm with bitmap := bitmapVirtaddr, setUp := true } }

/-- The allocator finds its bitmap, and the kernel's pages stay where they were. -/
structure BitmapVisible (kernelEnd : Addr) (vm : Paging) (p : Pmm) : Prop where
  bitmap
    : ∀ i : Word,
        i.toNat < p.size.toNat
        → getPhysaddr (latePmmInit kernelEnd vm p)
            ((latePmmInit kernelEnd vm p).pmm.bitmap + i)
          = p.bitmap + i
  kernel
    : ∀ x,
        InKernel kernelEnd x
        → getPhysaddr (latePmmInit kernelEnd vm p) (0xC0000000 + x)
          = getPhysaddr vm (0xC0000000 + x)

-----------------------------------------------------------------------------------------
-- The mapping loop
-----------------------------------------------------------------------------------------

/-- The pages `first` to `next` of the window show the bitmap, and all others what they did.
-/
structure WindowMapped (vm₀ : Paging) (first : Word) (next : Nat) (vm : Paging) : Prop where
  recursive : vm.Recursive
  distinct : vm.TablesDistinct
  table : IsPresent (vm.directoryEntry 0xC0000000)
  pmm : vm.pmm = vm₀.pmm
  window
    : ∀ va : Addr,
        va.toNat % 4096 = 0
        → 0xC0000000 + 4096 * first.toNat ≤ va.toNat
        → va.toNat < 0xC0000000 + 4096 * next
        → ∃ entry,
            vm.entry va = some entry
            ∧ frameOf entry = vm₀.pmm.bitmap + (va - (0xC0000000#32 + 4096#32 * first))
  others
    : ∀ va : Addr,
        va.toNat < 0xC0000000 + 4096 * first.toNat ∨ 0xC0000000 + 4096 * next ≤ va.toNat
        → vm.entry va = vm₀.entry va

/-- The address that the loop forms with a bitwise or is a sum, as the page number does not
reach the base.
-/
theorem windowAddr_toNat {i : Word} (small : i.toNat < 256)
    : (0xC0000000#32 ||| i <<< 12).toNat = 0xC0000000 + 4096 * i.toNat := by
  have shifted : (i <<< 12).toNat = 4096 * i.toNat := by
    rw [BitVec.toNat_shiftLeft, Nat.shiftLeft_eq]
    omega
  rw [Masks.toNat_or_low 30 (by decide) (by omega), shifted]
  rfl

section Window

variable {first i : Word} (aligned : vm₀.pmm.bitmap.toNat % 4096 = 0)
  (free
    : ∀ va : Addr,
        0xC0000000 + 4096 * first.toNat ≤ va.toNat
        → va.toNat < 0xC0100000
        → vm₀.entry va = none)
include aligned free

/-- One round maps page `i`, which has a table and is not mapped yet. -/
theorem WindowMapped.step (mapped : WindowMapped vm₀ first i.toNat vm)
    (start : first.toNat ≤ i.toNat) (small : i.toNat < 256)
    : WindowMapped vm₀ first (i.toNat + 1)
        (mapPage vm (vm.pmm.bitmap + (i - first) * pageSize) (0xC0000000#32 ||| i <<< 12)
          0x103).2 := by
  have position := windowAddr_toNat small
  generalize 0xC0000000#32 ||| i <<< 12 = here at position ⊢
  have shown
      : vm.pmm.bitmap + (i - first) * pageSize
        = vm₀.pmm.bitmap + (here - (0xC0000000#32 + 4096#32 * first)) := by
    rw [mapped.pmm]
    bv_omega
  have alignedPage
      : (vm₀.pmm.bitmap + (here - (0xC0000000#32 + 4096#32 * first))).toNat % 4096 = 0 := by
    bv_omega
  have upper : IsPresent (vm.directoryEntry here) := by
    have slot : vm.directorySlot here = vm.directorySlot 0xC0000000 := by
      refine vm.directorySlot_congr ?_
      rw [position, show BitVec.toNat (0xC0000000 : Addr) = 0xC0000000 from rfl]
      omega
    rw [Paging.directoryEntry, slot]
    exact mapped.table
  have below : here.toNat < 0xFFC00000 := by omega
  have table := mapped.distinct.notDirectory mapped.recursive below upper
  have unmapped : vm.entry here = none :=
    (mapped.others here (by omega)).trans (free here (by omega) (by omega))
  rw [shown, mapPage_of_table mapped.recursive alignedPage (by omega) upper unmapped]
  refine {
    recursive := mapped.recursive.addEntry table _
    distinct := mapped.distinct.addEntry mapped.recursive.aligned table _
    table := ?_
    pmm := mapped.pmm
    window := fun va alignedVa low high => ?_
    others := fun va outside => ?_
  }
  · rw [Paging.addEntry_directoryEntry mapped.recursive.aligned table]
    exact mapped.table
  · by_cases same : va = here
    · subst same
      exact ⟨_, Paging.addEntry_entry mapped.recursive.aligned table upper
        (isPresent_pageEntry _ _), frameOf_pageEntry alignedPage _⟩
    · have ne : va.toNat ≠ here.toNat := fun equal => same (BitVec.eq_of_toNat_eq equal)
      rw [mapped.distinct.addEntry_others mapped.recursive below upper _ (by omega)]
      exact mapped.window va alignedVa low (by omega)
  · rw [mapped.distinct.addEntry_others mapped.recursive below upper _ (by omega)]
    exact mapped.others va (by omega)

/-- By induction on the rounds. -/
theorem WindowMapped.loop (rounds : Nat) (mapped : WindowMapped vm₀ first i.toNat vm)
    (start : first.toNat ≤ i.toNat) (fits : i.toNat + rounds ≤ 256)
    : WindowMapped vm₀ first (i.toNat + rounds) (mapBitmapPages first rounds i vm) := by
  induction rounds generalizing i vm with
  | zero => exact mapped
  | succ rounds ih =>
      have next : (i + 1).toNat = i.toNat + 1 := by bv_omega
      have later := ih (i := i + 1)
        (next ▸ mapped.step aligned free start (by omega)) (by omega) (by omega)
      rw [next, show i.toNat + 1 + rounds = i.toNat + (rounds + 1) by omega] at later
      exact later

end Window

-----------------------------------------------------------------------------------------
-- The switch
-----------------------------------------------------------------------------------------

/-- What `init_frame_allocator` says of the bitmap: right behind the kernel, and small enough
for its page count to be exact.
-/
structure BehindKernel (kernelEnd : Addr) (p : Pmm) : Prop where
  bitmap : p.bitmap = kernelStart + kernelPageCount kernelEnd * pageSize
  size : p.size.toNat ≤ 2 ^ 29

/-- Setup places the bitmap on the page behind the kernel. -/
theorem behindKernel_of_installed {ram : Memory} {magic : Word} {mbh : MultibootInfo}
    (installed : initFrameAllocator ram kernelEnd magic mbh = .installed pmm)
    : BehindKernel kernelEnd pmm := by
  rw [eq_bootPmm installed]
  refine ⟨bootPmm_bitmap ram kernelEnd mbh.mmap, ?_⟩
  rw [bootPmm_size]
  exact bootBitmapSize_le mbh.mmap

/-- The number of pages the loop maps. -/
theorem BehindKernel.rounds (behind : BehindKernel kernelEnd pmm)
    (small : (kernelPageCount kernelEnd).toNat < 256)
    : (kernelPageCount kernelEnd + divCeil pmm.size pageSize).toNat
        - (kernelPageCount kernelEnd).toNat
      = (pmm.size.toNat + 4095) / 4096 := by
  have size := behind.size
  have pages := divCeil_toNat (a := pmm.size) (b := pageSize) (by decide)
    (by rw [pageSize_toNat]; omega)
  rw [pageSize_toNat] at pages
  rw [BitVec.toNat_add, pages]
  omega

/-- The pages below the kernel's are not mapped: the table starts with the kernel. -/
theorem MapsKernel.entry_none (maps : MapsKernel kernelEnd vm) {va : Addr}
    (low : 0xC0000000 ≤ va.toNat) (high : va.toNat < 0xC0100000)
    : vm.entry va = none := by
  have outside := maps.nothingElse (va - 0xC0000000) (by bv_omega)
    (fun inside => by have start := inside.1; bv_omega)
  rwa [show 0xC0000000 + (va - 0xC0000000) = va by bv_omega] at outside

/-- With 256 pages for kernel and bitmap the loop keeps below the kernel. -/
theorem MapsKernel.window (maps : MapsKernel kernelEnd vm) (behind : BehindKernel kernelEnd pmm)
    (small : (kernelPageCount kernelEnd).toNat < 256)
    (fits : (kernelPageCount kernelEnd).toNat + (pmm.size.toNat + 4095) / 4096 ≤ 256)
    : WindowMapped { vm with pmm := pmm } (kernelPageCount kernelEnd)
        ((kernelPageCount kernelEnd).toNat + (pmm.size.toNat + 4095) / 4096)
        (mapBitmapPages (kernelPageCount kernelEnd)
          ((kernelPageCount kernelEnd + divCeil pmm.size pageSize).toNat
            - (kernelPageCount kernelEnd).toNat)
          (kernelPageCount kernelEnd) { vm with pmm := pmm }) := by
  have recursive : Paging.Recursive { vm with pmm := pmm } := maps.recursive.congr rfl rfl
  rw [behind.rounds small]
  refine WindowMapped.loop ?_ ?_ _ ?_ le_rfl fits
  · change pmm.bitmap.toNat % 4096 = 0
    rw [behind.bitmap]
    bv_omega
  · exact fun va low high => maps.entry_none (by omega) high
  · exact {
      recursive := recursive
      distinct := maps.distinct
      table := maps.table
      pmm := rfl
      window := fun va _ low high => by omega
      others := fun va _ => rfl
    }

/-- Page 256 of the window is the kernel's first page, which cannot show the bitmap too. -/
theorem BitmapVisible.fits (nonempty : 0x100000 < kernelEnd.toNat)
    (image : KernelImage kernelEnd) (small : (kernelPageCount kernelEnd).toNat < 256)
    (maps : MapsKernel kernelEnd vm) (behind : BehindKernel kernelEnd pmm)
    (visible : BitmapVisible kernelEnd vm pmm)
    : (kernelPageCount kernelEnd).toNat + (pmm.size.toNat + 4095) / 4096 ≤ 256 := by
  by_contra large
  have pages := image.kernelPageCount
  have window := windowAddr_toNat small
  have virtaddr
      : (latePmmInit kernelEnd vm pmm).pmm.bitmap
        = 0xC0000000#32 ||| kernelPageCount kernelEnd <<< 12 :=
    rfl
  have meet := visible.bitmap (4096#32 * (256#32 - kernelPageCount kernelEnd)) (by bv_omega)
  have first : InKernel kernelEnd 0x100000 := by
    refine ⟨le_rfl, ?_⟩
    rw [show BitVec.toNat (0x100000 : Addr) = 0x100000 from rfl]
    omega
  have kept := visible.kernel 0x100000 first
  rw [maps.kernel 0x100000 first] at kept
  rw [virtaddr, behind.bitmap,
    show (0xC0000000#32 ||| kernelPageCount kernelEnd <<< 12)
      + 4096#32 * (256#32 - kernelPageCount kernelEnd) = 0xC0000000 + 0x100000 by bv_omega,
    kept] at meet
  bv_omega

/-- The window below the kernel shows every byte of the bitmap. -/
theorem MapsKernel.visible (image : KernelImage kernelEnd)
    (small : (kernelPageCount kernelEnd).toNat < 256)
    (maps : MapsKernel kernelEnd vm) (behind : BehindKernel kernelEnd pmm)
    (fits : (kernelPageCount kernelEnd).toNat + (pmm.size.toNat + 4095) / 4096 ≤ 256)
    : BitmapVisible kernelEnd vm pmm := by
  have pages := image.kernelPageCount
  have window := windowAddr_toNat small
  have mapped := maps.window behind small fits
  have recursive : (latePmmInit kernelEnd vm pmm).Recursive := mapped.recursive.congr rfl rfl
  refine ⟨fun i inside => ?_, fun x kernel => ?_⟩
  · obtain ⟨off, offset⟩ : ∃ off : Word, off.toNat = i.toNat % 4096 :=
      ⟨i % 4096#32, BitVec.toNat_umod⟩
    have page
        : (0xC0000000#32 + 4096#32 * kernelPageCount kernelEnd + (i - off)).toNat
          = 0xC0000000 + 4096 * (kernelPageCount kernelEnd).toNat
            + i.toNat / 4096 * 4096 := by
      bv_omega
    obtain ⟨entry, found, frame⟩ := mapped.window
      (0xC0000000#32 + 4096#32 * kernelPageCount kernelEnd + (i - off))
      (by omega) (by omega) (by omega)
    have shown := getPhysaddr_page recursive (by omega) found
      (show off.toNat < 4096 by omega)
    have virtaddr
        : (latePmmInit kernelEnd vm pmm).pmm.bitmap
          = 0xC0000000#32 + 4096#32 * kernelPageCount kernelEnd := by
      change 0xC0000000#32 ||| kernelPageCount kernelEnd <<< 12 = _
      bv_omega
    have parts (base : Addr) : base + (i - off) + off = base + i := by
      rw [BitVec.add_assoc, BitVec.sub_add_cancel]
    rw [add_sub_cancel_left] at frame
    rw [virtaddr, ← parts, shown, frame]
    exact parts pmm.bitmap
  · have start := kernel.1
    have stop := kernel.2
    exact getPhysaddr_congr maps.recursive recursive
      (mapped.others (0xC0000000 + x) (Or.inr (by bv_omega)))

/-- The switch shows the allocator its bitmap and keeps the kernel exactly if kernel and
bitmap together need at most 256 pages.
-/
theorem latePmmInit_bitmapVisible_iff {ram : Memory} {magic : Word} {mbh : MultibootInfo}
    (nonempty : 0x100000 < kernelEnd.toNat) (image : KernelImage kernelEnd)
    (small : (kernelPageCount kernelEnd).toNat < 256) (maps : MapsKernel kernelEnd vm)
    (installed : initFrameAllocator ram kernelEnd magic mbh = .installed pmm)
    : BitmapVisible kernelEnd vm pmm
      ↔ (kernelPageCount kernelEnd).toNat + (pmm.size.toNat + 4095) / 4096 ≤ 256 := by
  have behind := behindKernel_of_installed installed
  exact ⟨fun visible => visible.fits nonempty image small maps behind,
    maps.visible image small behind⟩

def gigabyteMap : List MmapEntry :=
  [⟨0, 0x9F000, 1⟩, ⟨0xF0000, 0x10000, 2⟩, ⟨0x100000, 0x3FF00000, 1⟩]

/-- One bit for each of the 2^18 frames. -/
theorem gigabyteMap_size (kernelEnd : Addr)
    : (bootPmm (fun _ => 0) kernelEnd gigabyteMap).size = 0x8000 := by
  rw [bootPmm_size]
  decide

/-- Memory of zeros holds cleared tables wherever they lie. -/
theorem clearedTables_zero : ClearedTables 0x102000 0x103000 (fun _ => 0) where
  alignedDirectory := rfl
  alignedTable := rfl
  apart := by decide
  directory := fun _ _ => rfl
  table := fun _ _ => rfl

/-- The bitmap is visible at its virtual address when its pages fit behind the kernel in the
boot table. Witness: a kernel of four pages and the eight pages of bitmap of one gigabyte.
-/
theorem latePmmInit_bitmapVisible_fourPages
    : BitmapVisible 0x104000
        (bootPaging 0x102000 0x103000 0x102000 0x104000 (fun _ => 0) smallPmm)
        (bootPmm (fun _ => 0) 0x104000 gigabyteMap) := by
  have image : KernelImage 0x104000 := ⟨by decide, by decide⟩
  have installed
      : initFrameAllocator (fun _ => 0) 0x104000 multibootMagic ⟨0x40, gigabyteMap⟩
        = .installed (bootPmm (fun _ => 0) 0x104000 gigabyteMap) :=
    initFrameAllocator_installed _ (e := ⟨0x100000, 0x3FF00000, 1⟩) (by decide) (by decide)
      (by decide)
  refine (latePmmInit_bitmapVisible_iff (by decide) image (by decide)
    (bootPaging_mapsKernel clearedTables_zero 0x102000 0x104000 smallPmm image (by decide))
    installed).mpr ?_
  rw [gigabyteMap_size]
  decide

/-- The boot table has 256 pages for kernel and bitmap together. Counterexample: a kernel of
250 pages leaves six of them for the eight pages of the bitmap.
-/
theorem not_bitmapVisible_largeKernel
    : ¬∀ (ram : Memory) (kernelEnd : Addr) (magic : Word) (mbh : MultibootInfo) (vm : Paging)
          (pmm : Pmm),
        0x100000 < kernelEnd.toNat
        → KernelImage kernelEnd
        → (kernelPageCount kernelEnd).toNat < 256
        → MapsKernel kernelEnd vm
        → initFrameAllocator ram kernelEnd magic mbh = .installed pmm
        → BitmapVisible kernelEnd vm pmm := by
  intro claim
  have image : KernelImage 0x1FA000 := ⟨by decide, by decide⟩
  have maps := bootPaging_mapsKernel clearedTables_zero 0x102000 0x1FA000 smallPmm image
    (by decide)
  have installed
      : initFrameAllocator (fun _ => 0) 0x1FA000 multibootMagic ⟨0x40, gigabyteMap⟩
        = .installed (bootPmm (fun _ => 0) 0x1FA000 gigabyteMap) :=
    initFrameAllocator_installed _ (e := ⟨0x100000, 0x3FF00000, 1⟩) (by decide) (by decide)
      (by decide)
  have visible := claim _ _ _ _ _ _ (by decide) image (by decide) maps installed
  have fits := visible.fits (by decide) image (by decide) maps
    (behindKernel_of_installed installed)
  rw [gigabyteMap_size] at fits
  exact absurd fits (by decide)

end SimpleKernel
