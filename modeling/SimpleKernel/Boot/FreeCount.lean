import SimpleKernel.Boot.Coverage

/-! The counter of free frames.
Setup counts a frame each time it clears its bit, whether the bit was set or even exists, and
no request ever counts one back. The counter is therefore too large by the frames counted
in vain and by the frames that are handed out.
-/

namespace SimpleKernel

open ByteMemory Runs

variable {mmap : List MmapEntry} {kernelEnd physaddr : Addr} {ram : Memory} {magic : Word}
  {mbh : MultibootInfo} {initial pmm : Pmm} {s : FrameSession} {k : Nat}

/-- Pages that setup counts although they have no bit or their bit is clear already. -/
def countedInVain (kernelEnd : Addr) (mmap : List MmapEntry) : Nat :=
  (bootPages kernelEnd mmap).length
  - (((bootPages kernelEnd mmap).map frameNumber).filter
      (fun k => k < 8 * (bootBitmapSize mmap).toNat)).dedup.length

/-- Frames of the bitmap that clients hold. -/
def FrameSession.handedOut (s : FrameSession) : Nat :=
  (s.held.filter (fun page => frameNumber page < 8 * s.pmm.size.toNat)).length

-----------------------------------------------------------------------------------------
-- What holds in every state of a run
-----------------------------------------------------------------------------------------

/-- The cached frame is clear while any frame is free, inside the bitmap or not. -/
structure FrameSession.Counted (initial : Pmm) (s : FrameSession) : Prop where
  size : s.pmm.size = initial.size
  freePages : s.pmm.freePages = initial.freePages
  offset : s.pmm.nextOffset.toNat < 8
  cache : s.pmm.HasFree → s.pmm.bit s.pmm.cached = false ∧ s.pmm.cached < 2 ^ 20
  addressable : s.pmm.Addressable
  marks : Pmm.Marks initial s.pmm s.held
  heldAligned : ∀ page ∈ s.held, page.toNat % 4096 = 0
  heldClear : ∀ page ∈ s.held, initial.bit (frameNumber page) = false
  heldUnique : s.held.Nodup

/-- A request hands out the cached frame, whose bit was clear, and leaves the counter alone. -/
theorem FrameSession.Counted.getPage (counted : s.Counted initial) (free : s.pmm.HasFree)
    : FrameSession.Counted initial
        ⟨(SimpleKernel.getPage s.pmm).2, (SimpleKernel.getPage s.pmm).1 :: s.held⟩ := by
  obtain ⟨clear, small⟩ := counted.cache free
  have frame := getPage_frameNumber small
  have kept (k : Nat) (free : (SimpleKernel.getPage s.pmm).2.Free k) : k < 2 ^ 20 := by
    have bits := getPage_bit counted.offset free.lt
    rw [free.2] at bits
    exact counted.addressable k ⟨free.1, (Bool.or_eq_false_iff.mp bits.symm).1⟩
  have unmarked := mt (counted.marks s.pmm.cached (by omega)).mpr (by simp [clear])
  simp only [not_or, Bool.not_eq_true] at unmarked
  refine {
    size := counted.size
    freePages := counted.freePages
    offset := ?_
    cache := fun left => ?_
    addressable := kept
    marks := counted.marks.getPage counted.offset frame
    heldAligned :=
      List.forall_mem_cons.mpr ⟨getPage_aligned s.pmm, counted.heldAligned⟩
    heldClear := List.forall_mem_cons.mpr ⟨by rw [frame]; exact unmarked.1, counted.heldClear⟩
    heldUnique :=
      List.nodup_cons.mpr ⟨fun member => unmarked.2 ⟨_, member, frame⟩, counted.heldUnique⟩
  }
  · rcases getPage_cache s.pmm with cache | ⟨_, same, _⟩
    · exact cache.offset
    · rw [same]
      exact counted.offset
  · have cache := getPage_cacheFree s.pmm left
    exact ⟨cache.free.2, kept _ cache.free⟩

/-- A returned frame becomes the cached one. It was clear at the start, as all frames that were
handed out were.
-/
theorem FrameSession.Counted.freePage (counted : s.Counted initial)
    (held : physaddr ∈ s.held)
    : FrameSession.Counted initial
        ⟨SimpleKernel.freePage s.pmm physaddr, s.held.erase physaddr⟩ := by
  have small := frameNumber_lt physaddr
  have distinct (page : Addr) (member : page ∈ s.held) (ne : page ≠ physaddr)
      : frameNumber page ≠ frameNumber physaddr := by
    intro same
    exact ne (address_eq_of_frameNumber (counted.heldAligned page member)
      (counted.heldAligned physaddr held) same)
  refine {
    size := counted.size
    freePages := counted.freePages
    offset := ?_
    cache := fun _ => ?_
    addressable := fun k free => ?_
    marks :=
      counted.marks.freePage (counted.heldClear physaddr held) counted.heldUnique distinct
    heldAligned := fun page member => counted.heldAligned page (List.mem_of_mem_erase member)
    heldClear := fun page member => counted.heldClear page (List.mem_of_mem_erase member)
    heldUnique := counted.heldUnique.erase physaddr
  }
  · rw [freePage_nextOffset]
    exact Nat.mod_lt _ (by decide)
  · rw [freePage_cached, freePage_bit _ _ (by omega)]
    exact ⟨by simp, small⟩
  · have bits := freePage_bit s.pmm physaddr free.lt
    rw [free.2] at bits
    by_cases same : k = frameNumber physaddr
    · rw [same]
      exact small
    · have clear : s.pmm.bit k = false := by simpa [same] using bits.symm
      exact counted.addressable k ⟨free.1, clear⟩

/-- The clear bits are the initially clear ones but for the frames handed out. -/
theorem FrameSession.Counted.card (counted : s.Counted initial)
    : s.pmm.freeFrames.card + s.handedOut = initial.freeFrames.card := by
  let inBitmap := s.held.filter (fun page => frameNumber page < 8 * s.pmm.size.toNat)
  have unique : (inBitmap.map frameNumber).Nodup := by
    refine List.Nodup.map_on ?_ (counted.heldUnique.filter _)
    intro p first q second same
    exact address_eq_of_frameNumber (counted.heldAligned p (List.mem_of_mem_filter first))
      (counted.heldAligned q (List.mem_of_mem_filter second)) same
  have count := List.toFinset_card_of_nodup unique
  rw [List.length_map] at count
  have members (k : Nat)
      : k ∈ (inBitmap.map frameNumber).toFinset
        ↔ k < 8 * initial.size.toNat ∧ ∃ page ∈ s.held, frameNumber page = k := by
    rw [List.mem_toFinset, List.mem_map, ← counted.size]
    constructor
    · rintro ⟨page, member, rfl⟩
      obtain ⟨held, inside⟩ := List.mem_filter.mp member
      exact ⟨of_decide_eq_true inside, page, held, rfl⟩
    · rintro ⟨inside, page, held, rfl⟩
      exact ⟨page, List.mem_filter.mpr ⟨held, decide_eq_true inside⟩, rfl⟩
  have left : s.pmm.freeFrames = initial.freeFrames \ (inBitmap.map frameNumber).toFinset := by
    ext k
    rw [Finset.mem_sdiff, Pmm.mem_freeFrames, Pmm.mem_freeFrames, members, Pmm.Free, Pmm.Free,
      counted.size]
    by_cases inside : k < 8 * initial.size.toNat
    · have small := initial.size.isLt
      have marks := counted.marks k (by omega)
      simp only [inside, true_and, ← Bool.not_eq_true, marks, not_or]
    · simp [inside]
  have inside : (inBitmap.map frameNumber).toFinset ⊆ initial.freeFrames := by
    intro k member
    obtain ⟨bounded, page, held, rfl⟩ := (members k).mp member
    exact Pmm.mem_freeFrames.mpr ⟨bounded, counted.heldClear page held⟩
  rw [FrameSession.handedOut, left]
  change _ + inBitmap.length = _
  rw [← count]
  exact Finset.card_sdiff_add_card_eq_card inside

/-- The invariant holds behind setup, where no frame is handed out: the cached frame is the
first one that the walk cleared, if any.
-/
theorem FrameSession.Counted.setup (ram : Memory) (kernelEnd : Addr)
    (mmap : List MmapEntry)
    : FrameSession.Counted (bootPmm ram kernelEnd mmap) ⟨bootPmm ram kernelEnd mmap, []⟩ := by
  refine {
    size := rfl
    freePages := rfl
    offset := ?_
    cache := fun ⟨k, free⟩ => ?_
    addressable := fun k free => ?_
    marks := fun k _ => by simp
    heldAligned := by simp
    heldClear := by simp
    heldUnique := List.nodup_nil
  }
  · cases released : bootPages kernelEnd mmap with
    | nil =>
        change (bootPmm ram kernelEnd mmap).nextOffset.toNat < 8
        rw [bootPmm, released]
        exact show (0 : Byte).toNat < 8 by decide
    | cons page rest => exact (bootPmm_cached ram released).2
  · have listed := ((bootPmm_free_iff ram kernelEnd mmap k).mp free).2
    cases released : bootPages kernelEnd mmap with
    | nil => simp [released] at listed
    | cons page rest =>
        have small := frameNumber_lt page
        rw [(bootPmm_cached ram released).1]
        refine ⟨?_, small⟩
        rw [bootPmm, foldl_clearFrame_bit _ _ (by omega), released]
        exact Or.inr List.mem_cons_self
  · obtain ⟨page, _, rfl⟩ :=
      List.mem_map.mp ((bootPmm_free_iff ram kernelEnd mmap k).mp free).2
    exact frameNumber_lt page

/-- The invariant holds in every state reached, because both calls keep it while frames are
free.
-/
theorem FrameSession.Counted.of_run
    (run
      : frameMachine.Reaches RequestsWhileFree ⟨bootPmm ram kernelEnd mmap, []⟩ s)
    : s.Counted (bootPmm ram kernelEnd mmap) := by
  refine run.invariant (.setup ram kernelEnd mmap) ?_
  intro s s' call counted enabled guarded returned
  cases call with
  | getPage =>
      obtain rfl := Option.some.inj returned
      exact counted.getPage guarded
  | freePage physaddr =>
      obtain rfl := Option.some.inj returned
      exact counted.freePage enabled

/-- The clear bits after setup, each counted once. -/
theorem bootPmm_card (ram : Memory) (kernelEnd : Addr) (mmap : List MmapEntry)
    : (bootPmm ram kernelEnd mmap).freeFrames.card + countedInVain kernelEnd mmap
        = (bootPages kernelEnd mmap).length
      ∧ (bootPmm ram kernelEnd mmap).freeFrames.card ≤ 2 ^ 20 := by
  have frames
      : (bootPmm ram kernelEnd mmap).freeFrames
        = (((bootPages kernelEnd mmap).map frameNumber).filter
            (fun k => k < 8 * (bootBitmapSize mmap).toNat)).toFinset := by
    ext k
    rw [Pmm.mem_freeFrames, bootPmm_free_iff, List.mem_toFinset, List.mem_filter,
      decide_eq_true_eq, and_comm]
  have few : (bootPmm ram kernelEnd mmap).freeFrames ⊆ Finset.range (2 ^ 20) := by
    intro k member
    exact Finset.mem_range.mpr
      ((FrameSession.Counted.setup ram kernelEnd mmap).addressable k
        (Pmm.mem_freeFrames.mp member))
  have fewer := (List.dedup_sublist _).length_le.trans (List.length_filter_le
    (fun k => k < 8 * (bootBitmapSize mmap).toNat) ((bootPages kernelEnd mmap).map frameNumber))
  rw [List.length_map] at fewer
  refine ⟨?_, (Finset.card_le_card few).trans_eq (Finset.card_range _)⟩
  rw [countedInVain, frames, List.card_toFinset]
  omega

/-- On a map of whole pages below 4 GiB the frames counted in vain can be read off the map: those
that the bitmap has no bit for, and the repetitions among the others.
-/
theorem PagedMap.countedInVain_eq (map : PagedMap mmap) (image : KernelImage kernelEnd)
    : countedInVain kernelEnd mmap
      = (releasedFrames kernelEnd mmap).length
        - ((releasedFrames kernelEnd mmap).filter
            (fun k => k < 8 * bitmapBytes mmap)).dedup.length := by
  rw [countedInVain, map.bootBitmapSize, ← map.bootPages_frames image, List.length_map]

/-- The counter is exact in a reached state exactly if no frame was counted in vain and none
is handed out, modulo the width of the counter.
-/
theorem frameRun_freeCount_iff
    (installed : initFrameAllocator ram kernelEnd magic mbh = .installed pmm)
    (run : frameMachine.Reaches RequestsWhileFree ⟨pmm, []⟩ s)
    : s.pmm.freePages.toNat = s.pmm.freeFrames.card
      ↔ (countedInVain kernelEnd mbh.mmap + s.handedOut) % 2 ^ 32 = 0 := by
  obtain rfl := eq_bootPmm installed
  have counted := FrameSession.Counted.of_run run
  have left := counted.card
  obtain ⟨all, few⟩ := bootPmm_card ram kernelEnd mbh.mmap
  rw [counted.freePages, bootPmm_freePages, BitVec.toNat_ofNat]
  omega

/-- Eight pages: four for the kernel, one for the bitmap, and three free ones. -/
def eightPages : List MmapEntry :=
  [⟨0x100000, 0x8000, 1⟩]

/-- Setup installs a bitmap of one byte behind the four pages of the kernel. -/
theorem installed_eightPages
    : initFrameAllocator (fun _ => 0) 0x104000 multibootMagic ⟨0x40, eightPages⟩
      = .installed (bootPmm (fun _ => 0) 0x104000 eightPages) :=
  initFrameAllocator_installed _ (e := ⟨0x100000, 0x8000, 1⟩) (by decide) (by decide) (by decide)

/-- The first request is given frame `0x105`, right behind the bitmap. -/
theorem run_eightPages
    : frameMachine.Reaches RequestsWhileFree
        ⟨bootPmm (fun _ => 0) 0x104000 eightPages, []⟩
        ⟨(getPage (bootPmm (fun _ => 0) 0x104000 eightPages)).2, [0x105000]⟩ :=
  .step .getPage .refl trivial ⟨0x105, by decide +kernel⟩ (by
    have page : (getPage (bootPmm (fun _ => 0) 0x104000 eightPages)).1 = 0x105000 := by
      decide +kernel
    rw [← page]
    rfl)

/-- Nothing was counted in vain, so the counter is exact whenever no frame is out. Witness: one
request of a map with eight pages behind 1 MiB, and the return of its frame.
-/
theorem frameRun_freeCount_returned
    : (freePage (getPage (bootPmm (fun _ => 0) 0x104000 eightPages)).2 0x105000).freePages.toNat
      = (freePage (getPage (bootPmm (fun _ => 0) 0x104000 eightPages)).2
          0x105000).freeFrames.card :=
  (frameRun_freeCount_iff installed_eightPages
    (.step (.freePage 0x105000) run_eightPages List.mem_cons_self trivial rfl)).mpr
      (by decide +kernel)

/-- A request does not lower the counter. Counterexample: while the first frame of a map with
eight pages is handed out, the counter is larger by one than the number of clear bits.
-/
theorem not_freeCount_handedOut
    : ¬∀ (ram : Memory) (kernelEnd : Addr) (magic : Word) (mbh : MultibootInfo) (pmm : Pmm)
          (s : FrameSession),
        initFrameAllocator ram kernelEnd magic mbh = .installed pmm
        → frameMachine.Reaches RequestsWhileFree ⟨pmm, []⟩ s
        → s.pmm.freePages.toNat = s.pmm.freeFrames.card := by
  intro claim
  have exact := claim _ _ _ _ _ _ installed_eightPages run_eightPages
  exact absurd exact (by decide +kernel)

end SimpleKernel
