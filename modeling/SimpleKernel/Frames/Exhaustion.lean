import SimpleKernel.Frames.Ownership

/-! Running out of frames.
When the last clear bit is taken the rescan falls off the end and caches an index one past
the bitmap; the next request trusts that cache. Requests made while the cached frame lies
inside the bitmap are safe, from any allocator state.
-/

namespace SimpleKernel

open ByteMemory Runs

/-- A request from this session touches bitmap bytes only, and returns a managed frame
that nobody holds.
-/
structure FrameSession.RequestSafe (s : FrameSession) : Prop where
  accesses : ∀ index ∈ getPageAccesses s.pmm, index.toNat < s.pmm.size.toNat
  managed : frameNumber (getPage s.pmm).1 < 8 * s.pmm.size.toNat
  unheld : (getPage s.pmm).1 ∉ s.held

/-- The cached position is one of the bitmap's, and its frame has a 32-bit address. -/
structure Pmm.CacheInside (pmm : Pmm) : Prop where
  offset : pmm.nextOffset.toNat < 8
  index : pmm.nextIndex.toNat < pmm.size.toNat
  addressable : pmm.cached < 2 ^ 20

def RequestsInside (s : FrameSession) : FrameCall → Prop
  | .getPage => s.pmm.CacheInside
  | .freePage _ => True

def Unrestricted (_ : FrameSession) (_ : FrameCall) : Prop :=
  True

/-- Held frames have set bits, and a cache inside the bitmap names a frame nobody holds.
Nothing is assumed about the frame cached before the first request.
-/
structure FrameSession.Tracked (s : FrameSession) : Prop where
  aligned : ∀ page ∈ s.held, page.toNat % 4096 = 0
  taken : ∀ page ∈ s.held, s.pmm.bit (frameNumber page) = true
  unique : s.held.Nodup
  cache : s.held = [] ∨ s.pmm.bit s.pmm.cached = false ∨ s.pmm.nextIndex = s.pmm.size

/-- The cached frame is not handed out while it is inside the bitmap, because its bit is clear
and those of the frames handed out are set.
-/
theorem FrameSession.Tracked.unheld {s : FrameSession} (tracked : s.Tracked)
    (inside : s.pmm.CacheInside)
    : (SimpleKernel.getPage s.pmm).1 ∉ s.held := by
  intro member
  have set := tracked.taken _ member
  rw [getPage_frameNumber inside.addressable] at set
  rcases tracked.cache with empty | clear | past
  · simp [empty] at member
  · rw [clear] at set
    exact Bool.noConfusion set
  · have index := inside.index
    rw [past] at index
    exact absurd index (Nat.lt_irrefl _)

/-- A request inside the bitmap keeps the frames handed out apart, and sets the bit of the new
one.
-/
theorem FrameSession.Tracked.getPage {s : FrameSession} (tracked : s.Tracked)
    (inside : s.pmm.CacheInside)
    : FrameSession.Tracked
        ⟨(SimpleKernel.getPage s.pmm).2, (SimpleKernel.getPage s.pmm).1 :: s.held⟩ := by
  have bit (page : Addr) := getPage_bit inside.offset
    (Nat.lt_trans (frameNumber_lt page) (by decide))
  refine {
    aligned := ?_
    taken := ?_
    unique := List.nodup_cons.mpr ⟨tracked.unheld inside, tracked.unique⟩
    cache := ?_
  }
  · intro page member
    rcases List.mem_cons.mp member with rfl | member
    · exact getPage_aligned s.pmm
    · exact tracked.aligned page member
  · intro page member
    rw [bit]
    rcases List.mem_cons.mp member with rfl | member
    · simp [getPage_frameNumber inside.addressable]
    · simp [tracked.taken page member]
  · rcases getPage_cache s.pmm with cache | ⟨past, _, _⟩
    · exact Or.inr (Or.inl cache.free.2)
    · exact Or.inr (Or.inr past)

/-- A returned frame is inside the bitmap, as it was handed out from there, and its bit is
clear again.
-/
theorem FrameSession.Tracked.freePage {s : FrameSession} (tracked : s.Tracked)
    {physaddr : Addr} (held : physaddr ∈ s.held)
    : FrameSession.Tracked
        ⟨SimpleKernel.freePage s.pmm physaddr, s.held.erase physaddr⟩ := by
  have bit (page : Addr) := freePage_bit s.pmm physaddr
    (Nat.lt_trans (frameNumber_lt page) (by decide))
  refine {
    aligned := fun page member => tracked.aligned page (List.mem_of_mem_erase member)
    taken := ?_
    unique := tracked.unique.erase physaddr
    cache := ?_
  }
  · intro page member
    obtain ⟨ne, member⟩ := tracked.unique.mem_erase_iff.mp member
    have other : frameNumber page ≠ frameNumber physaddr := by
      intro same
      exact ne (address_eq_of_frameNumber (tracked.aligned page member)
        (tracked.aligned physaddr held) same)
    simp [bit, tracked.taken page member, other]
  · refine Or.inr (Or.inl ?_)
    rw [freePage_cached, bit]
    simp

/-- In every run whose requests find the cached frame inside the bitmap the invariant holds, by
its two step lemmas.
-/
theorem FrameSession.Tracked.of_run {pmm : Pmm} {s : FrameSession}
    (run : frameMachine.Reaches RequestsInside ⟨pmm, []⟩ s)
    : s.Tracked := by
  refine run.invariant ⟨by simp, by simp, List.nodup_nil, Or.inl rfl⟩ ?_
  intro s s' call tracked enabled guarded returned
  cases call with
  | getPage =>
      obtain rfl := Option.some.inj returned
      exact tracked.getPage guarded
  | freePage physaddr =>
      obtain rfl := Option.some.inj returned
      exact tracked.freePage enabled

/-- Every index of a request from a cache inside the bitmap is a bitmap index. -/
theorem getPageAccesses_inside {pmm : Pmm} (inside : pmm.CacheInside)
    : ∀ index ∈ getPageAccesses pmm, index.toNat < pmm.size.toNat := by
  intro index member
  rcases List.mem_cons.mp member with rfl | later
  · exact inside.index
  · have bound := scanReads_bound _ _ 0 (by have small := pmm.size.isLt; simpa using small)
      index later
    simpa using bound

/-- In a run whose requests all find the cached frame inside the bitmap, every request is
safe, whatever allocator state the run started from.
-/
theorem frameRun_requestSafe {pmm : Pmm} {s : FrameSession}
    (run : frameMachine.Reaches RequestsInside ⟨pmm, []⟩ s)
    (inside : RequestsInside s .getPage)
    : s.RequestSafe where
  accesses := getPageAccesses_inside inside
  managed := by
    rw [getPage_frameNumber inside.addressable]
    have offset := inside.offset
    have index := inside.index
    simp only [Pmm.cached]
    omega
  unheld := (FrameSession.Tracked.of_run run).unheld inside

/-- A request behind another is safe. Witness: the second of four frames. -/
theorem frameRun_requestSafe_fourFrames
    : FrameSession.RequestSafe
        ⟨(getPage fourFrames).2, [(getPage fourFrames).1]⟩ :=
  frameRun_requestSafe
    (.step .getPage .refl trivial ⟨by decide, by decide, by decide⟩ rfl)
    ⟨by decide, by decide, by decide⟩

/-- While ownership holds the cached frame lies inside the bitmap exactly as long as some
frame is free.
-/
theorem FrameSession.Owned.cacheInside_iff {initial : Pmm} {s : FrameSession}
    (owned : s.Owned initial)
    : s.pmm.CacheInside ↔ s.pmm.HasFree := by
  constructor
  · intro inside
    rcases owned.cache with cache | ⟨past, _⟩
    · exact ⟨_, cache.free⟩
    · have index := inside.index
      rw [past] at index
      exact absurd index (Nat.lt_irrefl _)
  · intro free
    have cache := owned.cacheFree free
    have bound := cache.free.1
    refine ⟨cache.offset, ?_, owned.addressable _ cache.free⟩
    simp only [Pmm.cached] at bound
    omega

/-- From a cached free frame, requesting while the cache lies inside the bitmap is
requesting while a frame is free.
-/
theorem reaches_requestsInside_iff {pmm : Pmm} {s : FrameSession} (cache : pmm.CacheFree)
    (addressable : pmm.Addressable)
    : frameMachine.Reaches RequestsInside ⟨pmm, []⟩ s
      ↔ frameMachine.Reaches RequestsWhileFree ⟨pmm, []⟩ s := by
  constructor
  · intro run
    induction run with
    | refl => exact .refl
    | step call _ enabled guarded returned ih =>
        have owned := FrameSession.Owned.of_run cache addressable ih
        refine .step call ih enabled ?_ returned
        cases call with
        | getPage => exact owned.cacheInside_iff.mp guarded
        | freePage physaddr => trivial
  · intro run
    induction run with
    | refl => exact .refl
    | step call earlier enabled guarded returned ih =>
        have owned := FrameSession.Owned.of_run cache addressable earlier
        refine .step call ih enabled ?_ returned
        cases call with
        | getPage => exact owned.cacheInside_iff.mpr guarded
        | freePage physaddr => trivial

/-- One free frame, the last of a one-byte bitmap. -/
def lastFrame : Pmm where
  bitmap := 0xC0010000
  size := 1
  nextIndex := 0
  nextOffset := 7
  freePages := 1
  setUp := true
  bytes := fun _ => 0x7F

/-- The search for the next frame has no bound. Counterexample: an allocator whose last frame
was taken, where the next request reads and writes past the bitmap.
-/
theorem request_unsafe_lastFrame
    : ¬∀ (pmm : Pmm) (s : FrameSession),
        frameMachine.Reaches Unrestricted ⟨pmm, []⟩ s → s.RequestSafe := by
  intro safe
  have exhausted := safe lastFrame ⟨(getPage lastFrame).2, [(getPage lastFrame).1]⟩
    (.step .getPage .refl trivial trivial rfl)
  have past := exhausted.accesses 1 (by decide)
  exact absurd past (by decide)

end SimpleKernel
