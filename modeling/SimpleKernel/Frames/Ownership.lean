import SimpleKernel.Frames.Bitmap
import SimpleKernel.Library.Runs

/-! Frame ownership over runs of the physical frame allocator.
A session pairs the allocator with the frames its clients hold. The set bits are the
initially set ones plus the held frames, and the cached frame is free while any frame is.
-/

namespace SimpleKernel

open ByteMemory Runs

inductive FrameCall
  | getPage
  | freePage (physaddr : Addr)

structure FrameSession where
  pmm : Pmm
  held : List Addr

def FrameSession.exec (s : FrameSession) : FrameCall → Option FrameSession
  | .getPage =>
      let (page, pmm) := SimpleKernel.getPage s.pmm
      some ⟨pmm, page :: s.held⟩
  | .freePage physaddr =>
      some ⟨SimpleKernel.freePage s.pmm physaddr, s.held.erase physaddr⟩

/-- Clients return only frames they hold. -/
def frameMachine : Machine FrameSession FrameCall where
  enabled s
    | .getPage => True
    | .freePage physaddr => physaddr ∈ s.held
  exec := FrameSession.exec

/-- Frames are requested only while one is free. -/
def RequestsWhileFree (s : FrameSession) : FrameCall → Prop
  | .getPage => s.pmm.HasFree
  | .freePage _ => True

/-- The frames with a clear bit. -/
def Pmm.freeFrames (pmm : Pmm) : Finset Nat :=
  (Finset.range (8 * pmm.size.toNat)).filter (fun k => pmm.bit k = false)

/-- `count` consecutive calls of `get_page`. -/
def takePages : Nat → Pmm → List Addr × Pmm
  | 0, pmm => ([], pmm)
  | count + 1, pmm =>
      let (page, pmm) := getPage pmm
      let (pages, pmm) := takePages count pmm
      (page :: pages, pmm)

-----------------------------------------------------------------------------------------
-- One call
-----------------------------------------------------------------------------------------

theorem Pmm.mem_freeFrames {pmm : Pmm} {k : Nat} : k ∈ pmm.freeFrames ↔ pmm.Free k := by
  simp [Pmm.freeFrames, Pmm.Free]

/-- Free frames have a bit, and a bitmap has at most 2^32 bytes. -/
theorem Pmm.Free.lt {pmm : Pmm} {k : Nat} (free : pmm.Free k) : k < 2 ^ 35 := by
  have inside := free.1
  omega

/-- A cached frame that 32 bits can name is the frame `get_page` returns. -/
theorem getPage_frameNumber {pmm : Pmm} (small : pmm.cached < 2 ^ 20)
    : frameNumber (getPage pmm).1 = pmm.cached := by
  rw [getPage_page, offsetsToPhysaddr_frameNumber]
  exact Nat.mod_eq_of_lt small

/-- Frames are handed out by the addresses of their first bytes. -/
theorem getPage_aligned (pmm : Pmm) : (getPage pmm).1.toNat % 4096 = 0 :=
  offsetsToPhysaddr_aligned _ _

/-- `get_page` takes the cached frame and leaves every other frame as it was. -/
theorem getPage_free {pmm : Pmm} (cache : pmm.CacheFree) {k : Nat}
    : (getPage pmm).2.Free k ↔ pmm.Free k ∧ k ≠ pmm.cached := by
  constructor
  · intro free
    have bits := getPage_bit cache.offset free.lt
    rw [free.2] at bits
    simp only [Bool.false_eq, Bool.or_eq_false_iff, decide_eq_false_iff_not] at bits
    exact ⟨⟨free.1, bits.1⟩, bits.2⟩
  · rintro ⟨free, other⟩
    refine ⟨free.1, ?_⟩
    rw [getPage_bit cache.offset free.lt, free.2]
    simpa using other

/-- A request takes exactly the cached frame from the free ones. -/
theorem getPage_freeFrames {pmm : Pmm} (cache : pmm.CacheFree)
    : (getPage pmm).2.freeFrames = pmm.freeFrames.erase pmm.cached := by
  ext k
  rw [Finset.mem_erase, Pmm.mem_freeFrames, Pmm.mem_freeFrames, getPage_free cache]
  exact and_comm

/-- It makes no frame free, so that all free ones still have an address. -/
theorem getPage_addressable {pmm : Pmm} (addressable : pmm.Addressable)
    (cache : pmm.CacheFree)
    : (getPage pmm).2.Addressable :=
  fun k free => addressable k ((getPage_free cache).mp free).1

/-- A call of `get_page` leaves a cache that names a free frame unless none is left. -/
theorem getPage_cacheFree (pmm : Pmm) (free : (getPage pmm).2.HasFree)
    : (getPage pmm).2.CacheFree := by
  rcases getPage_cache pmm with cache | ⟨_, _, full⟩
  · exact cache
  · exact absurd free full

/-- A page-aligned address is determined by its frame number. -/
theorem address_eq_of_frameNumber {a b : Addr} (alignedA : a.toNat % 4096 = 0)
    (alignedB : b.toNat % 4096 = 0) (same : frameNumber a = frameNumber b)
    : a = b := by
  apply BitVec.eq_of_toNat_eq
  simp only [frameNumber] at same
  omega

/-- As many calls as there are free frames return exactly these frames, each once.
By induction on the number of calls: each takes the cached frame out of the free ones.
-/
theorem takePages_exact (count : Nat) (pmm : Pmm) (enough : pmm.freeFrames.card = count)
    (cache : pmm.HasFree → pmm.CacheFree) (addressable : pmm.Addressable)
    : (takePages count pmm).1.Nodup
      ∧ ∀ page,
          page ∈ (takePages count pmm).1
          ↔ page.toNat % 4096 = 0 ∧ pmm.Free (frameNumber page) := by
  induction count generalizing pmm with
  | zero =>
      refine ⟨List.nodup_nil, fun page => ?_⟩
      have empty := Finset.card_eq_zero.mp enough
      simp [takePages, ← Pmm.mem_freeFrames, empty]
  | succ count ih =>
      obtain ⟨k, member⟩ : pmm.freeFrames.Nonempty := by
        rw [← Finset.card_pos]
        omega
      have named := cache ⟨k, Pmm.mem_freeFrames.mp member⟩
      have frame := getPage_frameNumber (addressable _ named.free)
      have fewer : (getPage pmm).2.freeFrames.card = count := by
        rw [getPage_freeFrames named,
          Finset.card_erase_of_mem (Pmm.mem_freeFrames.mpr named.free)]
        omega
      obtain ⟨unique, members⟩ := ih (getPage pmm).2 fewer (getPage_cacheFree pmm)
        (getPage_addressable addressable named)
      constructor
      · refine List.nodup_cons.mpr ⟨fun again => ?_, unique⟩
        have taken : (getPage pmm).2.Free (frameNumber (getPage pmm).1) :=
          ((members _).mp again).2
        rw [frame] at taken
        exact ((getPage_free named).mp taken).2 rfl
      · intro page
        simp only [takePages, List.mem_cons, members, getPage_free named]
        constructor
        · rintro (rfl | ⟨aligned, free, _⟩)
          · exact ⟨getPage_aligned pmm, by rw [frame]; exact named.free⟩
          · exact ⟨aligned, free⟩
        · rintro ⟨aligned, free⟩
          by_cases same : frameNumber page = pmm.cached
          · exact Or.inl (address_eq_of_frameNumber aligned (getPage_aligned pmm)
              (same.trans frame.symm))
          · exact Or.inr ⟨aligned, free, same⟩

/-- The set bits are the initially set ones and those of the frames held. -/
def Pmm.Marks (initial pmm : Pmm) (held : List Addr) : Prop :=
  ∀ k < 2 ^ 35,
    pmm.bit k = true ↔ initial.bit k = true ∨ ∃ page ∈ held, frameNumber page = k

section Marks

variable {initial pmm : Pmm} {held : List Addr}

/-- The bits set are those of the frames handed out and those set initially; the new frame
joins both.
-/
theorem Pmm.Marks.getPage (marks : Pmm.Marks initial pmm held)
    (offset : pmm.nextOffset.toNat < 8)
    (frame : frameNumber (SimpleKernel.getPage pmm).1 = pmm.cached)
    : Pmm.Marks initial (SimpleKernel.getPage pmm).2 ((SimpleKernel.getPage pmm).1 :: held) := by
  intro k bounded
  have symm : k = pmm.cached ↔ pmm.cached = k := eq_comm
  rw [getPage_bit offset bounded]
  simp only [Bool.or_eq_true, decide_eq_true_eq, marks k bounded, List.exists_mem_cons_iff,
    frame, symm]
  rw [or_assoc]
  exact or_congr_right or_comm

/-- The frame returned was initially clear, and no other held frame has its number. -/
theorem Pmm.Marks.freePage (marks : Pmm.Marks initial pmm held) {physaddr : Addr}
    (clear : initial.bit (frameNumber physaddr) = false) (unique : held.Nodup)
    (distinct : ∀ page ∈ held, page ≠ physaddr → frameNumber page ≠ frameNumber physaddr)
    : Pmm.Marks initial (SimpleKernel.freePage pmm physaddr) (held.erase physaddr) := by
  intro k bounded
  rw [freePage_bit _ _ bounded, Bool.and_eq_true, marks k bounded]
  by_cases same : k = frameNumber physaddr
  · subst same
    simp only [decide_true, Bool.not_true, Bool.false_eq_true, and_false, false_iff, not_or]
    refine ⟨by simp [clear], ?_⟩
    rintro ⟨page, member, frame⟩
    obtain ⟨ne, member⟩ := unique.mem_erase_iff.mp member
    exact distinct page member ne frame
  · simp only [same, decide_false, Bool.not_false, and_true]
    refine or_congr Iff.rfl (exists_congr fun page => and_congr_left fun frame => ?_)
    rw [unique.mem_erase_iff]
    refine ⟨fun member => ⟨?_, member⟩, fun member => member.2⟩
    rintro rfl
    exact same frame.symm

end Marks

-----------------------------------------------------------------------------------------
-- The ownership invariant
-----------------------------------------------------------------------------------------

/-- Ownership relative to the allocator state `initial` a run started from. -/
structure FrameSession.Owned (initial : Pmm) (s : FrameSession) : Prop where
  size : s.pmm.size = initial.size
  addressable : s.pmm.Addressable
  cache : s.pmm.CacheFree ∨ s.pmm.nextIndex = s.pmm.size ∧ ¬s.pmm.HasFree
  bits
    : ∀ k < 2 ^ 35,
        s.pmm.bit k = true
        ↔ initial.bit k = true ∨ ∃ page ∈ s.held, frameNumber page = k
  heldAligned : ∀ page ∈ s.held, page.toNat % 4096 = 0
  heldFree : ∀ page ∈ s.held, initial.Free (frameNumber page)
  heldUnique : s.held.Nodup

/-- Before the first call no frame is handed out. -/
theorem FrameSession.Owned.initial {pmm : Pmm} (cache : pmm.CacheFree)
    (addressable : pmm.Addressable)
    : FrameSession.Owned pmm ⟨pmm, []⟩ where
  size := rfl
  addressable := addressable
  cache := Or.inl cache
  bits := by simp
  heldAligned := by simp
  heldFree := by simp
  heldUnique := List.nodup_nil

/-- The cached frame is free as long as any frame is. -/
theorem FrameSession.Owned.cacheFree {initial : Pmm} {s : FrameSession}
    (owned : s.Owned initial) (free : s.pmm.HasFree)
    : s.pmm.CacheFree :=
  owned.cache.resolve_right (fun exhausted => exhausted.2 free)

/-- A free frame is held by nobody. -/
theorem FrameSession.Owned.free_not_held {initial : Pmm} {s : FrameSession}
    (owned : s.Owned initial) {k : Nat} (free : s.pmm.Free k)
    : initial.Free k ∧ ∀ page ∈ s.held, frameNumber page ≠ k := by
  have bits := owned.bits k free.lt
  rw [free.2] at bits
  simp only [Bool.false_eq_true, false_iff, not_or, Bool.not_eq_true] at bits
  refine ⟨⟨by rw [← owned.size]; exact free.1, bits.1⟩, ?_⟩
  intro page member same
  exact bits.2 ⟨page, member, same⟩

/-- A request while a frame is free keeps ownership. -/
theorem FrameSession.Owned.getPage {initial : Pmm} {s : FrameSession}
    (owned : s.Owned initial) (free : s.pmm.HasFree)
    : FrameSession.Owned initial
        ⟨(SimpleKernel.getPage s.pmm).2, (SimpleKernel.getPage s.pmm).1 :: s.held⟩ := by
  have cache := owned.cacheFree free
  have frame := getPage_frameNumber (owned.addressable _ cache.free)
  obtain ⟨initiallyFree, unheld⟩ := owned.free_not_held cache.free
  refine {
    size := owned.size
    addressable := getPage_addressable owned.addressable cache
    cache := (getPage_cache s.pmm).imp_right (fun ⟨past, _, full⟩ => ⟨past, full⟩)
    bits := Pmm.Marks.getPage owned.bits cache.offset frame
    heldAligned := ?_
    heldFree := ?_
    heldUnique := ?_
  }
  · intro page member
    rcases List.mem_cons.mp member with rfl | member
    · exact getPage_aligned s.pmm
    · exact owned.heldAligned page member
  · intro page member
    rcases List.mem_cons.mp member with rfl | member
    · rwa [frame]
    · exact owned.heldFree page member
  · refine List.nodup_cons.mpr ⟨fun member => ?_, owned.heldUnique⟩
    exact unheld _ member frame

/-- Returning a held frame keeps ownership. -/
theorem FrameSession.Owned.freePage {initial : Pmm} {s : FrameSession}
    (owned : s.Owned initial) {physaddr : Addr} (held : physaddr ∈ s.held)
    : FrameSession.Owned initial
        ⟨SimpleKernel.freePage s.pmm physaddr, s.held.erase physaddr⟩ := by
  have wasFree := owned.heldFree physaddr held
  have inside : frameNumber physaddr < 8 * s.pmm.size.toNat := by
    rw [owned.size]
    exact wasFree.1
  have distinct {page} (member : page ∈ s.held) (ne : page ≠ physaddr)
      : frameNumber page ≠ frameNumber physaddr := by
    intro same
    exact ne (address_eq_of_frameNumber (owned.heldAligned page member)
      (owned.heldAligned physaddr held) same)
  refine {
    size := owned.size
    addressable := ?_
    cache := ?_
    bits :=
      Pmm.Marks.freePage owned.bits wasFree.2 owned.heldUnique
        (fun page member ne => distinct member ne)
    heldAligned := fun page member => owned.heldAligned page (List.mem_of_mem_erase member)
    heldFree := fun page member => owned.heldFree page (List.mem_of_mem_erase member)
    heldUnique := owned.heldUnique.erase physaddr
  }
  · intro k free
    have bits := freePage_bit s.pmm physaddr free.lt
    rw [free.2] at bits
    by_cases same : k = frameNumber physaddr
    · have small := physaddr.isLt
      simp only [same, frameNumber]
      omega
    · have clear : s.pmm.bit k = false := by simpa [same] using bits.symm
      exact owned.addressable k ⟨free.1, clear⟩
  · refine Or.inl ⟨?_, ?_⟩
    · rw [freePage_nextOffset]
      exact Nat.mod_lt _ (by decide)
    · rw [freePage_cached]
      refine ⟨inside, ?_⟩
      rw [freePage_bit _ _ wasFree.lt]
      simp

/-- Ownership holds in every state of a run that requests only while a frame is free. -/
theorem FrameSession.Owned.of_run {pmm : Pmm} {s : FrameSession} (cache : pmm.CacheFree)
    (addressable : pmm.Addressable)
    (run : frameMachine.Reaches RequestsWhileFree ⟨pmm, []⟩ s)
    : s.Owned pmm := by
  refine run.invariant (.initial cache addressable) ?_
  intro s s' call owned enabled guarded returned
  cases call with
  | getPage =>
      obtain rfl := Option.some.inj returned
      exact owned.getPage guarded
  | freePage physaddr =>
      obtain rfl := Option.some.inj returned
      exact owned.freePage enabled

/-- Frame ownership is exact in every state of a run: a request takes a frame that was
clear and unheld, the set bits are the initial ones and the held frames, and as many
requests as there are clear bits return exactly the clear frames.
-/
theorem frameRun_ownership {pmm : Pmm} {s : FrameSession} (cache : pmm.CacheFree)
    (addressable : pmm.Addressable)
    (run : frameMachine.Reaches RequestsWhileFree ⟨pmm, []⟩ s)
    : (s.pmm.HasFree
        → (getPage s.pmm).1.toNat % 4096 = 0
          ∧ frameNumber (getPage s.pmm).1 < 8 * s.pmm.size.toNat
          ∧ getPageState s.pmm (getPage s.pmm).1 = false
          ∧ getPageState pmm (getPage s.pmm).1 = false
          ∧ (getPage s.pmm).1 ∉ s.held)
      ∧ (∀ physaddr,
          getPageState s.pmm physaddr = true
          ↔ getPageState pmm physaddr = true
            ∨ ∃ page ∈ s.held, frameNumber page = frameNumber physaddr)
      ∧ (takePages s.pmm.freeFrames.card s.pmm).1.Nodup
      ∧ ∀ page,
          page ∈ (takePages s.pmm.freeFrames.card s.pmm).1
          ↔ page.toNat % 4096 = 0
            ∧ frameNumber page < 8 * s.pmm.size.toNat
            ∧ getPageState s.pmm page = false := by
  have owned := FrameSession.Owned.of_run cache addressable run
  have taken := takePages_exact _ s.pmm rfl owned.cacheFree owned.addressable
  refine ⟨fun free => ?_, fun physaddr => ?_, taken.1, fun page => ?_⟩
  · have named := owned.cacheFree free
    have frame := getPage_frameNumber (owned.addressable _ named.free)
    obtain ⟨initially, unheld⟩ := owned.free_not_held named.free
    refine ⟨getPage_aligned s.pmm, ?_, ?_, ?_, fun member => unheld _ member frame⟩
    · rw [frame]
      exact named.free.1
    · rw [getPageState_eq, frame]
      exact named.free.2
    · rw [getPageState_eq, frame]
      exact initially.2
  · rw [getPageState_eq, getPageState_eq]
    exact owned.bits _ (by simp only [frameNumber]; omega)
  · rw [taken.2 page, getPageState_eq, Pmm.Free]

/-- Four free frames behind a one-byte bitmap. -/
def fourFrames : Pmm where
  bitmap := 0xC0010000
  size := 1
  nextIndex := 0
  nextOffset := 4
  freePages := 4
  setUp := true
  bytes := fun _ => 0x0F

/-- The frames left behind a request are handed out without a repetition. Witness: three of
four frames.
-/
theorem frameRun_ownership_fourFrames
    : (takePages (getPage fourFrames).2.freeFrames.card (getPage fourFrames).2).1.Nodup := by
  have free : fourFrames.Free 4 := by decide
  have small : fourFrames.Addressable := fun k free => by
    have inside : k < 8 * 1 := free.1
    omega
  have run : frameMachine.Reaches RequestsWhileFree ⟨fourFrames, []⟩
      ⟨(getPage fourFrames).2, [(getPage fourFrames).1]⟩ :=
    .step .getPage .refl trivial ⟨4, free⟩ rfl
  exact (frameRun_ownership ⟨by decide, free⟩ small run).2.2.1

/-- A bitmap that covers more than 4 GiB and whose only clear bit lies beyond it. -/
def highFrame : Pmm where
  bitmap := 0xC0010000
  size := 0x20001
  nextIndex := 0x20000
  nextOffset := 0
  freePages := 1
  setUp := true
  bytes := fun i => if i = 0x20000 then 0xFE else 0xFF

/-- The address of a frame has 32 bits. Counterexample: the address of a frame beyond 4 GiB
wraps, and names one whose bit was set.
-/
theorem getPage_not_clear_highFrame
    : ¬∀ pmm : Pmm, pmm.CacheFree → getPageState pmm (getPage pmm).1 = false := by
  intro clear
  have cache : highFrame.CacheFree := ⟨by decide, by decide⟩
  have wrapped : getPageState highFrame (getPage highFrame).1 = true := by
    rw [getPage_page]
    decide
  rw [clear highFrame cache] at wrapped
  exact Bool.noConfusion wrapped

end SimpleKernel
