import SimpleKernel.Boot.CleanMap
import SimpleKernel.Boot.LatePmm
import SimpleKernel.Heap.Isolation

/-! From the boot loader to the heap.
`boot.S` maps the kernel, `late_pmm_init` the bitmap and `kernel_main` the text screen. The
heap starts in an address space that holds these pages and nothing else, and all it maps
later is RAM that the boot loader reported and nothing else uses.
-/

namespace SimpleKernel

open ByteMemory Runs

variable {vm vm' : Paging} {ram m : Memory} {mmap : List MmapEntry} {mbh : MultibootInfo}
  {pmm pmm₀ : Pmm} {kernelEnd nowriteEnd directory table va other physaddr : Addr}
  {entry magic : Word} {k limit : Nat}

/-- The pages that `kernel_main` maps and the frames it takes before it starts the heap. It
returns if the text screen cannot be mapped. The frames that it compares are not freed.
-/
def kernelMainPaging (kernelEnd : Addr) (vm : Paging) (p : Pmm) : Option Paging :=
  let vm := latePmmInit kernelEnd vm p
  match mapPage vm 0x000B8000 0xC03FE000 0x103 with
  | (some _, _) => none
  | (none, vm) => some { vm with pmm := (getPage (getPage vm.pmm).2).2 }

/-- What the linker script and the boot loader provide: a kernel of less than 256 pages, the
directory and its table among them and cleared, and a clean memory map.
-/
structure Loaded (kernelEnd directory table : Addr) (m : Memory) (mmap : List MmapEntry)
    : Prop where
  image : KernelImage kernelEnd
  small : (kernelPageCount kernelEnd).toNat < 256
  cleared : ClearedTables directory table m
  directory : InKernel kernelEnd directory
  table : InKernel kernelEnd table
  map : CleanMap mmap

/-- The pages of the kernel and of the bitmap. -/
def ownPages (kernelEnd : Addr) (pmm : Pmm) : Nat :=
  (kernelPageCount kernelEnd).toNat + (pmm.size.toNat + 4095) / 4096

/-- The address space below the heap: the kernel, read-only up to the end of its code, the
bitmap and the text screen.
-/
structure KernelSpace (kernelEnd nowriteEnd : Addr) (pmm : Pmm) (vm : Paging) : Prop where
  recursive : vm.Recursive
  kernel
    : ∀ x,
        InKernel kernelEnd x
        → vm.entry (0xC0000000 + x) = some (bootEntry nowriteEnd (x.toNat / 4096))
  bitmap
    : ∀ i : Word,
        i.toNat < pmm.size.toNat
        → getPhysaddr vm (0xC0000000 + 4096 * kernelPageCount kernelEnd + i) = pmm.bitmap + i
  screen : vm.entry 0xC03FE000 = some 0xB8103
  nothingElse
    : ∀ (va : Addr) (entry : Word),
        va.toNat < 0xE0000000
        → vm.entry va = some entry
        → 0xC0000000 ≤ va.toNat
          ∧ (InKernel kernelEnd (va - 0xC0000000)
            ∨ (kernelPageCount kernelEnd).toNat ≤ (va.toNat - 0xC0000000) / 4096
              ∧ (va.toNat - 0xC0000000) / 4096 < ownPages kernelEnd pmm
            ∨ va.toNat / 4096 = 0xC03FE)

/-- All frames in use lie below `limit` and all free ones do not, and a single table, in slot
768, maps pages.
-/
structure Paging.Confined (vm : Paging) (limit : Nat) : Prop where
  recursive : vm.Recursive
  ready : vm.pmm.Ready
  free : ∀ k, vm.pmm.Free k → limit ≤ k
  positive : 0 < limit
  directory : frameNumber vm.directory < limit
  tables
    : ∀ va : Addr,
        va.toNat < 0xFFC00000
        → IsPresent (vm.directoryEntry va)
        → va.toNat / 4194304 = 768
          ∧ frameNumber (vm.directoryEntry va) ≠ frameNumber vm.directory
          ∧ frameNumber (vm.directoryEntry va) < limit
  pages
    : ∀ (va : Addr) (entry : Word),
        va.toNat < 0xFFC00000 → vm.entry va = some entry → frameNumber entry < limit

/-- Then the heap, which has no table yet, can be given frames of its own. -/
theorem Paging.Confined.isolates (confined : vm.Confined limit) : vm.Isolates := by
  have inUse {frame : Nat} (below : frame < limit) : ¬vm.pmm.Free frame := by
    intro free
    have above := confined.free frame free
    omega
  have absent {va : Addr} (inHeap : InHeap va) : ¬IsPresent (vm.directoryEntry va) := by
    intro upper
    have slot := (confined.tables va inHeap.2 upper).1
    have low := inHeap.1
    omega
  have unmapped {va : Addr} {entry : Word} (inHeap : InHeap va)
      (found : vm.entry va = some entry)
      : False :=
    absent inHeap (Paging.entry_eq_some.mp found).1
  refine {
    backs := {
      sound := {
        recursive := confined.recursive
        ready := confined.ready
        zero := inUse confined.positive
        directory := inUse confined.directory
        tables := fun va below upper => ?_
      }
      frames := fun va entry inHeap found => (unmapped inHeap found).elim
    }
    taken := fun va entry below found => inUse (confined.pages va entry below found)
    tables := fun va other inHeap _ upper => absurd upper (absent inHeap)
    notDirectory := fun va entry inHeap found => (unmapped inHeap found).elim
    notTable := fun va other entry inHeap found => (unmapped inHeap found).elim
    apart := fun va other entry entry' inHeap _ found => (unmapped inHeap found).elim
  }
  obtain ⟨_, notDirectory, below⟩ := confined.tables va below upper
  exact ⟨notDirectory, inUse below⟩

-----------------------------------------------------------------------------------------
-- The frames
-----------------------------------------------------------------------------------------

/-- The bit offset of the cached frame is below eight, be it the first one or that of a page
released.
-/
theorem bootPmm_offset (ram : Memory) (kernelEnd : Addr) (mmap : List MmapEntry)
    : (bootPmm ram kernelEnd mmap).nextOffset.toNat < 8 := by
  cases released : bootPages kernelEnd mmap with
  | nil =>
      rw [bootPmm, released, List.foldl_nil]
      exact (by decide : (0 : Byte).toNat < 8)
  | cons page rest => exact (bootPmm_cached ram released).2

/-- Setup leaves the allocator ready for requests. -/
theorem CleanMap.ready (map : CleanMap mmap) (image : KernelImage kernelEnd) (ram : Memory)
    : (bootPmm ram kernelEnd mmap).Ready where
  offset := bootPmm_offset ram kernelEnd mmap
  addressable k free := by
    obtain ⟨⟨e, member, _, _, stop⟩, _, _, _⟩ := (map.usable_iff image ram).mp free
    have below := map.paged.below e member
    omega
  cache := fun ⟨_, free⟩ => (map.cacheLowest image ram free).1

/-- The usable frames lie behind the kernel and the bitmap. -/
theorem UsableFrame.behind (usable : UsableFrame mmap kernelEnd pmm k)
    (image : KernelImage kernelEnd) (behind : BehindKernel kernelEnd pmm)
    (fits : ownPages kernelEnd pmm ≤ 256)
    : 256 + ownPages kernelEnd pmm ≤ k := by
  have pages := image.kernelPageCount
  have high := usable.high
  have kernel := usable.outsideKernel
  have bitmap := usable.outsideBitmap
  have total : ownPages kernelEnd pmm
      = (kernelPageCount kernelEnd).toNat + (pmm.size.toNat + 4095) / 4096 :=
    rfl
  rw [behind.bitmap] at bitmap
  have position
      : (kernelStart + kernelPageCount kernelEnd * pageSize).toNat
        = 0x100000 + 4096 * (kernelPageCount kernelEnd).toNat := by
    bv_omega
  omega

-----------------------------------------------------------------------------------------
-- The tables after the switch
-----------------------------------------------------------------------------------------

/-- A page that has a table is mapped without a change to the directory. -/
theorem mapPage_directoryEntry (recursive : vm.Recursive)
    (alignedPage : physaddr.toNat % 4096 = 0) (aligned : va.toNat % 4096 = 0)
    (upper : IsPresent (vm.directoryEntry va))
    (notDirectory : frameNumber (vm.directoryEntry va) ≠ frameNumber vm.directory)
    (flags : BitVec 16)
    : (mapPage vm physaddr va flags).2.directory = vm.directory
      ∧ ∀ other,
          (mapPage vm physaddr va flags).2.directoryEntry other = vm.directoryEntry other := by
  cases found : vm.entry va with
  | some entry =>
      rw [mapPage_of_mapped recursive alignedPage aligned found]
      exact ⟨rfl, fun _ => rfl⟩
  | none =>
      rw [mapPage_of_table recursive alignedPage aligned upper found]
      exact ⟨rfl, Paging.addEntry_directoryEntry recursive.aligned notDirectory _⟩

/-- The loop of `late_pmm_init` changes no directory entry. By induction on the rounds. -/
theorem WindowMapped.directoryEntry {vm₀ : Paging} {first i : Word} {rounds : Nat}
    (aligned : vm₀.pmm.bitmap.toNat % 4096 = 0)
    (free
      : ∀ va : Addr,
          0xC0000000 + 4096 * first.toNat ≤ va.toNat
          → va.toNat < 0xC0100000
          → vm₀.entry va = none)
    (mapped : WindowMapped vm₀ first i.toNat vm) (start : first.toNat ≤ i.toNat)
    (fits : i.toNat + rounds ≤ 256)
    : (mapBitmapPages first rounds i vm).directory = vm.directory
      ∧ ∀ va, (mapBitmapPages first rounds i vm).directoryEntry va = vm.directoryEntry va := by
  induction rounds generalizing i vm with
  | zero => exact ⟨rfl, fun _ => rfl⟩
  | succ rounds ih =>
      have next : (i + 1).toNat = i.toNat + 1 := by bv_omega
      have position := windowAddr_toNat (i := i) (by omega)
      have alignedPage : (vm.pmm.bitmap + (i - first) * pageSize).toNat % 4096 = 0 := by
        rw [mapped.pmm]
        bv_omega
      have upper : IsPresent (vm.directoryEntry (0xC0000000#32 ||| i <<< 12)) := by
        have slot
            : vm.directorySlot (0xC0000000#32 ||| i <<< 12) = vm.directorySlot 0xC0000000 := by
          refine vm.directorySlot_congr ?_
          rw [position, show BitVec.toNat (0xC0000000 : Addr) = 0xC0000000 from rfl]
          omega
        rw [Paging.directoryEntry, slot]
        exact mapped.table
      have table := mapped.distinct.notDirectory mapped.recursive (by omega) upper
      obtain ⟨directory, entries⟩ :=
        mapPage_directoryEntry mapped.recursive alignedPage (by omega) upper table 0x103
      have step := mapped.step aligned free start (by omega)
      rw [← next] at step
      obtain ⟨later, laterEntries⟩ := ih step (by omega) (by omega)
      exact ⟨later.trans directory, fun va => (laterEntries va).trans (entries va)⟩

/-- `boot.S` maps the pages of the kernel, and nothing else. -/
theorem bootPaging_entry (cleared : ClearedTables directory table m) (nowriteEnd : Addr)
    (pmm : Pmm) (stop : kernelEnd.toNat ≤ 0x3FF000) (below : va.toNat < 0xFFC00000)
    : (bootPaging directory table nowriteEnd kernelEnd m pmm).entry va
      = if va.toNat / 4194304 = 768
          ∧ 256 ≤ va.toNat / 4096 % 1024
          ∧ 4096 * (va.toNat / 4096 % 1024) < kernelEnd.toNat then
          some (bootEntry nowriteEnd (va.toNat / 4096 % 1024))
        else none := by
  have upper := bootPaging_directoryEntry cleared nowriteEnd kernelEnd pmm va
  split
  · next inside =>
    have slot := inside.1
    rw [if_neg (by omega), if_neg (by omega), if_pos slot] at upper
    have isTable : IsPresent (table + 0x3) := by
      rw [cleared.table_or]
      exact IsPresent.or_right (by decide) _
    refine Paging.entry_eq_some.mpr ⟨upper.symm ▸ isTable, bootEntry_isPresent nowriteEnd _, ?_⟩
    rw [bootPaging_tableEntry cleared nowriteEnd kernelEnd pmm stop slot, if_pos inside.2]
  · next outside =>
    by_cases slot : va.toNat / 4194304 = 768
    · have lower := bootPaging_tableEntry cleared nowriteEnd kernelEnd pmm stop slot
      rw [if_neg (fun inside => outside ⟨slot, inside⟩)] at lower
      refine if_neg (fun both => ?_)
      rw [lower] at both
      exact both.2 rfl
    · have zero
          : (bootPaging directory table nowriteEnd kernelEnd m pmm).directoryEntry va = 0 := by
        rw [upper, if_neg slot, if_neg (show ¬va.toNat / 4194304 = 1023 by omega)]
        split <;> rfl
      refine Paging.entry_of_absent ?_
      rw [zero]
      exact fun isPresent => isPresent rfl

/-- The tables behind `late_pmm_init`, which has mapped the bitmap. -/
structure LateTables (kernelEnd : Addr) (pmm : Pmm) (boot late : Paging) : Prop where
  recursive : late.Recursive
  distinct : late.TablesDistinct
  directory : late.directory = boot.directory
  frames
    : late.pmm
      = { pmm with bitmap := 0xC0000000#32 ||| kernelPageCount kernelEnd <<< 12, setUp := true }
  entries : ∀ va, late.directoryEntry va = boot.directoryEntry va
  bitmap
    : ∀ va : Addr,
        va.toNat % 4096 = 0
        → 0xC0000000 + 4096 * (kernelPageCount kernelEnd).toNat ≤ va.toNat
        → va.toNat < 0xC0000000 + 4096 * ownPages kernelEnd pmm
        → ∃ entry,
            late.entry va = some entry
            ∧ frameOf entry
              = pmm.bitmap + (va - (0xC0000000#32 + 4096#32 * kernelPageCount kernelEnd))
  others
    : ∀ va : Addr,
        va.toNat < 0xC0000000 + 4096 * (kernelPageCount kernelEnd).toNat
          ∨ 0xC0000000 + 4096 * ownPages kernelEnd pmm ≤ va.toNat
        → late.entry va = boot.entry va

section Loaded

variable (loaded : Loaded kernelEnd directory table m mmap)
include loaded

/-- The kernel ends below 2 MiB. -/
theorem Loaded.stop : kernelEnd.toNat ≤ 0x200000 := by
  have pages := loaded.image.kernelPageCount
  have small := loaded.small
  omega

/-- `late_pmm_init` adds the pages of the bitmap behind those of the kernel, in the table that
`boot.S` made. None of them needs a new table, as all of them fit into its window.
-/
theorem Loaded.lateTables (behind : BehindKernel kernelEnd pmm)
    (fits : ownPages kernelEnd pmm ≤ 256) (nowriteEnd : Addr) (pmm₀ : Pmm)
    : LateTables kernelEnd pmm (bootPaging directory table nowriteEnd kernelEnd m pmm₀)
        (latePmmInit kernelEnd (bootPaging directory table nowriteEnd kernelEnd m pmm₀) pmm) := by
  have maps := bootPaging_mapsKernel loaded.cleared nowriteEnd kernelEnd pmm₀ loaded.image
    (loaded.stop.trans (by decide))
  generalize bootPaging directory table nowriteEnd kernelEnd m pmm₀ = boot at maps ⊢
  have mapped := maps.window behind loaded.small fits
  have initially
      : WindowMapped { boot with pmm := pmm } (kernelPageCount kernelEnd)
          (kernelPageCount kernelEnd).toNat { boot with pmm := pmm } := {
    recursive := maps.recursive.congr rfl rfl
    distinct := maps.distinct
    table := maps.table
    pmm := rfl
    window := fun va _ low high => by omega
    others := fun va _ => rfl
  }
  have aligned : pmm.bitmap.toNat % 4096 = 0 := by
    rw [behind.bitmap]
    bv_omega
  have free (va : Addr)
      (low : 0xC0000000 + 4096 * (kernelPageCount kernelEnd).toNat ≤ va.toNat)
      (high : va.toNat < 0xC0100000)
      : Paging.entry { boot with pmm := pmm } va = none :=
    maps.entry_none (by omega) high
  have rounds
      : (kernelPageCount kernelEnd).toNat
          + ((kernelPageCount kernelEnd + divCeil pmm.size pageSize).toNat
            - (kernelPageCount kernelEnd).toNat)
        ≤ 256 := by
    rw [behind.rounds loaded.small]
    exact fits
  obtain ⟨directory, entries⟩ := initially.directoryEntry aligned free le_rfl rounds
  exact {
    recursive := mapped.recursive.congr rfl rfl
    distinct := mapped.distinct
    directory := directory
    frames := by rw [latePmmInit, mapped.pmm]
    entries := entries
    bitmap := mapped.window
    others := mapped.others
  }

/-- What the tables show then, page by page. -/
theorem Loaded.late_entry (behind : BehindKernel kernelEnd pmm)
    (fits : ownPages kernelEnd pmm ≤ 256) {late : Paging}
    (tables
      : LateTables kernelEnd pmm (bootPaging directory table nowriteEnd kernelEnd m pmm₀) late)
    (below : va.toNat < 0xFFC00000) (found : late.entry va = some entry)
    : 0xC0000000 ≤ va.toNat
      ∧ (InKernel kernelEnd (va - 0xC0000000)
          ∧ entry = bootEntry nowriteEnd ((va.toNat - 0xC0000000) / 4096)
        ∨ (kernelPageCount kernelEnd).toNat ≤ (va.toNat - 0xC0000000) / 4096
          ∧ (va.toNat - 0xC0000000) / 4096 < ownPages kernelEnd pmm
          ∧ frameNumber entry = 256 + (va.toNat - 0xC0000000) / 4096) := by
  have pages := loaded.image.kernelPageCount
  have start := loaded.image.start
  by_cases window
      : 0xC0000000 + 4096 * (kernelPageCount kernelEnd).toNat ≤ va.toNat
        ∧ va.toNat < 0xC0000000 + 4096 * ownPages kernelEnd pmm
  · obtain ⟨off, offset⟩ : ∃ off : Addr, off.toNat = va.toNat % 4096 :=
      ⟨va % 4096#32, BitVec.toNat_umod⟩
    have page : (va - off).toNat = va.toNat / 4096 * 4096 := by bv_omega
    obtain ⟨entry', found', frame⟩ :=
      tables.bitmap (va - off) (by omega) (by omega) (by omega)
    have samePage : late.entry (va - off) = late.entry va := late.entry_congr (by omega)
    rw [samePage, found] at found'
    obtain rfl := Option.some.inj found'
    have frames := frameOf_toNat entry
    rw [frame, behind.bitmap] at frames
    refine ⟨by omega, .inr ⟨by omega, by omega, ?_⟩⟩
    rw [frameNumber]
    bv_omega
  · rw [tables.others va (by omega),
      bootPaging_entry loaded.cleared nowriteEnd pmm₀ (loaded.stop.trans (by decide)) below]
      at found
    split at found
    · next inside =>
      obtain rfl := Option.some.inj found
      have index : va.toNat / 4096 % 1024 = (va.toNat - 0xC0000000) / 4096 := by omega
      rw [index] at inside ⊢
      have position : (va - 0xC0000000).toNat = va.toNat - 0xC0000000 := by bv_omega
      exact ⟨by omega, .inl ⟨⟨by omega, by omega⟩, rfl⟩⟩
    · cases found

/-- The text screen has a table and is not mapped yet. -/
theorem Loaded.mapPage_screen (fits : ownPages kernelEnd pmm ≤ 256) {late : Paging}
    (tables
      : LateTables kernelEnd pmm (bootPaging directory table nowriteEnd kernelEnd m pmm₀) late)
    : IsPresent (late.directoryEntry 0xC03FE000)
      ∧ mapPage late 0x000B8000 0xC03FE000 0x103
        = (none, late.addEntry 0xC03FE000 0xB8103) := by
  have stop := loaded.stop
  have upper : IsPresent (late.directoryEntry 0xC03FE000) := by
    rw [tables.entries, bootPaging_directoryEntry loaded.cleared]
    change IsPresent (table + 0x3)
    rw [loaded.cleared.table_or]
    exact IsPresent.or_right (by decide) _
  have unmapped : late.entry 0xC03FE000 = none := by
    rw [tables.others _ (.inr (by
        rw [show BitVec.toNat (0xC03FE000 : Addr) = 0xC03FE000 from rfl]
        omega)),
      bootPaging_entry loaded.cleared nowriteEnd pmm₀ (stop.trans (by decide)) (by decide)]
    refine if_neg (fun inside => ?_)
    have high := inside.2.2
    rw [show BitVec.toNat (0xC03FE000 : Addr) / 4096 % 1024 = 1022 from rfl] at high
    omega
  exact ⟨upper, mapPage_of_table tables.recursive (by decide) (by decide) upper unmapped 0x103⟩

end Loaded

-----------------------------------------------------------------------------------------
-- The state in which the heap starts
-----------------------------------------------------------------------------------------

/-- The screen's entry and the frames that `kernel_main` takes. -/
structure ScreenMapped (late vm : Paging) : Prop where
  recursive : vm.Recursive
  directory : vm.directory = late.directory
  entries : ∀ va, vm.directoryEntry va = late.directoryEntry va
  entry
    : ∀ va : Addr,
        va.toNat < 0xFFC00000
        → vm.entry va = if va.toNat / 4096 = 0xC03FE then some 0xB8103 else late.entry va
  draws : late.pmm.Draws vm.pmm

/-- `kernel_main` maps the text screen into the last page but one of that table and draws two
frames.
-/
theorem LateTables.screenMapped {boot late : Paging}
    (tables : LateTables kernelEnd pmm boot late) (ready : late.pmm.Ready)
    (upper : IsPresent (late.directoryEntry 0xC03FE000))
    : ScreenMapped late
        {
          late.addEntry 0xC03FE000 0xB8103 with
          pmm := (getPage (getPage late.pmm).2).2
        } := by
  have below : BitVec.toNat (0xC03FE000 : Addr) < 0xFFC00000 := by decide
  have table := tables.distinct.notDirectory tables.recursive below upper
  have aligned := tables.recursive.aligned
  have once := ready.getPage
  refine {
    recursive := (tables.recursive.addEntry table 0xB8103).congr rfl rfl
    directory := rfl
    entries := Paging.addEntry_directoryEntry aligned table 0xB8103
    entry := fun va inside => ?_
    draws := once.trans once.ready.getPage
  }
  change (late.addEntry 0xC03FE000 0xB8103).entry va = _
  split
  · next here =>
    rw [Paging.entry_congr _ (show va.toNat / 4096 = BitVec.toNat (0xC03FE000 : Addr) / 4096
      from here)]
    exact Paging.addEntry_entry aligned table upper (by decide)
  · next elsewhere =>
    exact tables.distinct.addEntry_others tables.recursive below upper _ elsewhere

/-- The heap starts in the kernel's address space, with free frames behind all in use. -/
structure Started (kernelEnd nowriteEnd : Addr) (pmm : Pmm) (vm : Paging) : Prop where
  space : KernelSpace kernelEnd nowriteEnd pmm vm
  confined : vm.Confined (256 + ownPages kernelEnd pmm)
  free : ∀ k, vm.pmm.Free k → pmm.Free k

section Loaded

variable (loaded : Loaded kernelEnd directory table m mmap)
  (behind : BehindKernel kernelEnd pmm) (fits : ownPages kernelEnd pmm ≤ 256)
  {late : Paging}
  (tables
    : LateTables kernelEnd pmm (bootPaging directory table nowriteEnd kernelEnd m pmm₀) late)
  (screen : ScreenMapped late vm)
include loaded behind fits tables screen

/-- The frames in use at this point are those of the kernel and of the bitmap; all free ones
lie behind, because they are usable.
-/
theorem Loaded.confined (ready : vm.pmm.Ready)
    (free : ∀ k, vm.pmm.Free k → UsableFrame mmap kernelEnd pmm k)
    : vm.Confined (256 + ownPages kernelEnd pmm) := by
  have pages := loaded.image.kernelPageCount
  have total : ownPages kernelEnd pmm
      = (kernelPageCount kernelEnd).toNat + (pmm.size.toNat + 4095) / 4096 :=
    rfl
  have own {x : Addr} (inside : InKernel kernelEnd x)
      : frameNumber x < 256 + ownPages kernelEnd pmm := by
    have high := inside.2
    rw [frameNumber]
    omega
  have placed : vm.directory = directory := screen.directory.trans tables.directory
  refine {
    recursive := screen.recursive
    ready := ready
    free := fun k free' => (free k free').behind loaded.image behind fits
    positive := by omega
    directory := by rw [placed]; exact own loaded.directory
    tables := fun va below upper => ?_
    pages := fun va entry below found => ?_
  }
  · rw [screen.entries, tables.entries] at upper ⊢
    rcases bootPaging_named loaded.cleared nowriteEnd kernelEnd pmm₀ upper with
      ⟨last, _⟩ | ⟨slot, frame⟩
    · omega
    · rw [frame, placed]
      exact ⟨slot, loaded.cleared.apart, own loaded.table⟩
  · rw [screen.entry va below] at found
    split at found
    · obtain rfl := Option.some.inj found
      rw [show frameNumber 0xB8103 = 0xB8 from rfl]
      omega
    · rcases loaded.late_entry behind fits tables below found with
        ⟨_, ⟨inside, same⟩ | ⟨_, high, frame⟩⟩
      · rw [same, ← frameNumber_frameOf, frameOf_bootEntry, frameNumber]
        have high := inside.2
        bv_omega
      · omega

/-- The address space of `kernel_main`, assembled from what `boot.S`, `late_pmm_init` and the
mapping of the screen entered.
-/
theorem Loaded.kernelSpace
    (visible
      : ∀ i : Word,
          i.toNat < pmm.size.toNat
          → getPhysaddr late (late.pmm.bitmap + i) = pmm.bitmap + i)
    : KernelSpace kernelEnd nowriteEnd pmm vm := by
  have pages := loaded.image.kernelPageCount
  have total : ownPages kernelEnd pmm
      = (kernelPageCount kernelEnd).toNat + (pmm.size.toNat + 4095) / 4096 :=
    rfl
  have stop := loaded.stop
  refine {
    recursive := screen.recursive
    kernel := fun x inside => ?_
    bitmap := fun i inside => ?_
    screen := by rw [screen.entry _ (by decide)]; exact if_pos rfl
    nothingElse := fun va entry below found => ?_
  }
  · have low := inside.1
    have high := inside.2
    have position : (0xC0000000 + x).toNat = 0xC0000000 + x.toNat := by bv_omega
    have index : (0xC0000000 + x).toNat / 4096 % 1024 = x.toNat / 4096 := by omega
    rw [screen.entry _ (by omega), if_neg (by omega), tables.others _ (.inr (by omega)),
      bootPaging_entry loaded.cleared nowriteEnd pmm₀ (stop.trans (by decide)) (by omega), index,
      if_pos (by omega)]
  · have window := windowAddr_toNat loaded.small
    have bitmap : late.pmm.bitmap = 0xC0000000 + 4096 * kernelPageCount kernelEnd := by
      rw [tables.frames]
      change 0xC0000000#32 ||| kernelPageCount kernelEnd <<< 12 = _
      bv_omega
    have position
        : (0xC0000000 + 4096 * kernelPageCount kernelEnd + i).toNat
          = 0xC0000000 + 4096 * (kernelPageCount kernelEnd).toNat + i.toNat := by
      bv_omega
    have same := screen.entry (0xC0000000 + 4096 * kernelPageCount kernelEnd + i) (by omega)
    rw [if_neg (by omega)] at same
    rw [getPhysaddr_congr tables.recursive screen.recursive same, ← bitmap]
    exact visible i inside
  · rw [screen.entry va (by omega)] at found
    split at found
    · next here => exact ⟨by omega, .inr (.inr here)⟩
    · obtain ⟨low, shown⟩ := loaded.late_entry behind fits tables (by omega) found
      rcases shown with ⟨inside, _⟩ | ⟨first, last, _⟩
      · exact ⟨low, .inl inside⟩
      · exact ⟨low, .inr (.inl ⟨first, last⟩)⟩

end Loaded

/-- From `boot.S` to the heap: `kernel_main` maps what it means to and reaches `init_heap`. -/
theorem Loaded.started (loaded : Loaded kernelEnd directory table m mbh.mmap)
    (installed : initFrameAllocator ram kernelEnd magic mbh = .installed pmm)
    (fits : ownPages kernelEnd pmm ≤ 256) (nowriteEnd : Addr) (pmm₀ : Pmm)
    : ∃ vm,
        kernelMainPaging kernelEnd (bootPaging directory table nowriteEnd kernelEnd m pmm₀) pmm
          = some vm
        ∧ Started kernelEnd nowriteEnd pmm vm := by
  have behind := behindKernel_of_installed installed
  have tables := loaded.lateTables behind fits nowriteEnd pmm₀
  have maps := bootPaging_mapsKernel loaded.cleared nowriteEnd kernelEnd pmm₀ loaded.image
    (loaded.stop.trans (by decide))
  have visible := (maps.visible loaded.image loaded.small behind fits).bitmap
  obtain ⟨upper, mapped⟩ := loaded.mapPage_screen fits tables
  have usable {k : Nat} (free : pmm.Free k) : UsableFrame mbh.mmap kernelEnd pmm k := by
    rw [eq_bootPmm installed] at free ⊢
    exact (loaded.map.usable_iff loaded.image ram).mp free
  have ready : pmm.Ready := by
    rw [eq_bootPmm installed]
    exact loaded.map.ready loaded.image ram
  rw [kernelMainPaging]
  generalize latePmmInit kernelEnd (bootPaging directory table nowriteEnd kernelEnd m pmm₀) pmm
    = late at tables visible upper mapped ⊢
  have lateReady : late.pmm.Ready := by
    rw [tables.frames]
    exact ⟨ready.offset, ready.addressable, fun left =>
      ⟨(ready.cache left).offset, (ready.cache left).free⟩⟩
  have screen := tables.screenMapped lateReady upper
  have free (k : Nat) (left : (getPage (getPage late.pmm).2).2.Free k) : pmm.Free k := by
    have before := screen.draws.free k left
    rw [tables.frames] at before
    exact before
  rw [mapped]
  exact ⟨_, rfl, {
    space := loaded.kernelSpace behind fits tables screen visible
    confined := loaded.confined behind fits tables screen screen.draws.ready
      (fun k left => usable (free k left))
    free := free
  }⟩

-----------------------------------------------------------------------------------------
-- Runs of the heap
-----------------------------------------------------------------------------------------

/-- The address space below the heap depends on its entries only. -/
theorem KernelSpace.congr (space : KernelSpace kernelEnd nowriteEnd pmm vm)
    (image : KernelImage kernelEnd) (fits : ownPages kernelEnd pmm ≤ 256)
    (recursive : vm'.Recursive)
    (same : ∀ va : Addr, va.toNat < 0xE0000000 → vm'.entry va = vm.entry va)
    : KernelSpace kernelEnd nowriteEnd pmm vm' := by
  have pages := image.kernelPageCount
  have total : ownPages kernelEnd pmm
      = (kernelPageCount kernelEnd).toNat + (pmm.size.toNat + 4095) / 4096 :=
    rfl
  refine {
    recursive := recursive
    kernel := fun x inside => ?_
    bitmap := fun i inside => ?_
    screen := (same _ (by decide)).trans space.screen
    nothingElse := fun va entry below found =>
      space.nothingElse va entry below ((same va below).symm.trans found)
  }
  · have high := inside.2
    rw [same _ (by bv_omega)]
    exact space.kernel x inside
  · rw [getPhysaddr_congr space.recursive recursive (same _ (by bv_omega))]
    exact space.bitmap i inside

/-- A page of the heap is backed by a usable frame. -/
theorem Started.heapFrame (started : Started kernelEnd nowriteEnd pmm vm)
    (enlarges : vm.Enlarges vm') (inHeap : InHeap va) (found : vm'.entry va = some entry)
    : pmm.Free (frameNumber entry) := by
  rcases enlarges.source va entry inHeap.2 found with earlier | ⟨_, free⟩
  · have slot := (started.confined.tables va inHeap.2 (Paging.entry_eq_some.mp earlier).1).1
    have low := inHeap.1
    omega
  · exact started.free _ free

/-- Every byte of a live block is a byte of RAM: the boot loader reported its frame as
available, neither kernel nor bitmap lie there, and no other address shows it. Below the heap
the address space stays as `kernel_main` left it.
-/
theorem bootRun_ownsRam {kernel : Kernel} {s : HeapSession}
    (loaded : Loaded kernelEnd directory table m mbh.mmap)
    (installed : initFrameAllocator ram kernelEnd magic mbh = .installed pmm)
    (fits : ownPages kernelEnd pmm ≤ 256)
    (entered
      : kernelMainPaging kernelEnd (bootPaging directory table nowriteEnd kernelEnd m pmm₀) pmm
        = some kernel.paging)
    (fresh : kernel.heapRan = false)
    (run : heapMachine.Reaches BackingSafe ⟨initHeap kernel, []⟩ s)
    (left : s.kernel.paging.pmm.HasFree)
    : KernelSpace kernelEnd nowriteEnd pmm s.kernel.paging
      ∧ ∀ b ∈ s.live,
          ∀ va : Addr,
            b.ptr.toNat ≤ va.toNat
            → va.toNat < b.stop.toNat
            → UsableFrame mbh.mmap kernelEnd pmm (frameNumber (getPhysaddr s.kernel.paging va))
              ∧ ∀ (other : Addr) (entry : Word),
                  other.toNat < 0xFFC00000
                  → s.kernel.paging.entry other = some entry
                  → getPhysaddr s.kernel.paging other = getPhysaddr s.kernel.paging va
                  → other = va := by
  obtain ⟨_, reached, started⟩ := loaded.started installed fits nowriteEnd pmm₀
  obtain rfl := Option.some.inj (entered.symm.trans reached)
  have isolates := started.confined.isolates
  have enlarges := isolates.of_run fresh (run.weaken (fun _ _ _ guarded => guarded.1)) left
  obtain ⟨areas, supplied⟩ := HeapSession.Supplied.of_run fresh isolates.backs run
  have apart := enlarges.isolates
  have backed := supplied.backed left
  refine ⟨started.space.congr loaded.image fits apart.backs.sound.recursive
    (fun va below => enlarges.below_heap below), fun b member va low high => ?_⟩
  have sound := supplied.sound
  have bounds := sound.wf.bounds (sound.listed b member)
  rw [sound.stop b member] at bounds
  have header : b.header.toNat + 8 = b.ptr.toNat := by
    simp only [LiveBlock.header] at bounds ⊢
    bv_omega
  have inHeap : InHeap va := ⟨by omega, by omega⟩
  have mapped := backed.blocks b member va (by omega) high
  obtain ⟨entry, found⟩ := (apart.backs.mapped_iff inHeap).mp mapped
  have free := started.heapFrame enlarges inHeap found
  refine ⟨?_, fun other entry' below found' same => ?_⟩
  · rw [(getPhysaddr_frame apart.backs.sound.recursive found).1]
    rw [eq_bootPmm installed] at free ⊢
    exact (loaded.map.usable_iff loaded.image ram).mp free
  · exact (apart.getPhysaddr_inj inHeap below found found' same.symm).symm

/-- Low RAM, and 32 pages of RAM with the kernel in front. -/
def tinyMap : List MmapEntry :=
  [⟨0, 0x9F000, 1⟩, ⟨0x100000, 0x20000, 1⟩]

/-- The boot conditions hold for a kernel of four pages in one available entry. -/
theorem tinyMap_loaded : Loaded 0x104000 0x102000 0x103000 (fun _ => 0) tinyMap where
  image := ⟨by decide, by decide⟩
  small := by decide
  cleared := clearedTables_zero
  directory := ⟨by decide, by decide⟩
  table := ⟨by decide, by decide⟩
  map := {
    nonempty := by decide
    paged := ⟨by decide, by decide, by decide⟩
    sorted := by decide
    disjoint := by
      have ordered
          : tinyMap.Pairwise (fun e f => e.addr.toNat + e.length.toNat ≤ f.addr.toNat) := by
        decide
      exact ordered.imp MmapEntry.Apart.of_le
  }

/-- Setup installs a bitmap there, by evaluation. -/
theorem tinyMap_installed
    : initFrameAllocator (fun _ => 0) 0x104000 multibootMagic ⟨0x40, tinyMap⟩
      = .installed (bootPmm (fun _ => 0) 0x104000 tinyMap) :=
  initFrameAllocator_installed _ (e := ⟨0x100000, 0x20000, 1⟩) (by decide) (by decide)
    (by decide)

/-- The pages of the heap are RAM of their own after boot. Witness: a map of 32 pages behind 1
MiB and a kernel of four, with three blocks live behind a release and a reallocation.
-/
theorem bootRun_ownsRam_reuse
    : ∃ s : HeapSession,
        s.live.length = 3
        ∧ KernelSpace 0x104000 0x102000 (bootPmm (fun _ => 0) 0x104000 tinyMap)
            s.kernel.paging := by
  have replayed
      : (kernelMainPaging 0x104000
          (bootPaging 0x102000 0x103000 0x102000 0x104000 (fun _ => 0) smallPmm)
          (bootPmm (fun _ => 0) 0x104000 tinyMap)).bind
            (fun vm =>
              (heapMachine.replay SplitSafe reuseCalls
                ⟨initHeap ⟨fun _ => 0, vm, false⟩, []⟩).map
                (fun s => (s.live.length, decide (s.kernel.paging.pmm.Free 0x11F))))
        = some (3, true) := by
    decide +kernel
  obtain ⟨vm, entered, replayed⟩ := Option.bind_eq_some_iff.mp replayed
  obtain ⟨s, reached, facts⟩ := Option.map_eq_some_iff.mp replayed
  obtain ⟨count, free⟩ := Prod.mk.inj facts
  have run : heapMachine.Reaches SplitSafe ⟨initHeap ⟨fun _ => 0, vm, false⟩, []⟩ s :=
    Machine.Reaches.refl.replay reached
  have owned := bootRun_ownsRam tinyMap_loaded tinyMap_installed
    (by decide) entered rfl (run.weaken (fun _ _ _ guarded => guarded.backingSafe))
    ⟨0x11F, of_decide_eq_true free⟩
  exact ⟨s, count, owned.1⟩

end SimpleKernel
