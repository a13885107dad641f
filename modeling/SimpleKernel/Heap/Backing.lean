import SimpleKernel.Heap.HeapPages
import SimpleKernel.Heap.LiveBlocks
import SimpleKernel.Heap.Requests

/-! Every byte handed out is backed.
A split maps the pages up to the new header, so everything up to the last header before
`heap_end` is mapped. A block taken up to `heap_end` without a split is backed only if its
pages had been mapped before.
-/

namespace SimpleKernel

open ByteMemory Runs

variable {s s' : HeapSession} {k k' : Kernel} {live : List LiveBlock} {call : HeapCall}
  {areas areas' : List Addr} {a q ptr va : Addr} {b : LiveBlock} {need : Nat}

/-- All pages up to the last header and that of `heap_end` are mapped, and so is every
live block.
-/
structure HeapSession.Backed (s : HeapSession) (areas : List Addr) : Prop where
  backs : s.kernel.paging.BacksHeap
  heads
    : ∀ a ∈ areas,
        ∀ va : Addr,
          0xE0000000 ≤ va.toNat → va.toNat ≤ a.toNat → s.kernel.paging.Mapped va
  sentinel : s.kernel.paging.Mapped heapEnd
  blocks
    : ∀ b ∈ s.live,
        ∀ va : Addr,
          b.header.toNat ≤ va.toNat → va.toNat < b.stop.toNat → s.kernel.paging.Mapped va

/-- A sound session whose blocks are backed as long as frames are left. -/
structure HeapSession.Supplied (s : HeapSession) (areas : List Addr) : Prop where
  sound : s.Sound areas
  ready : s.kernel.paging.pmm.Ready
  backed : s.kernel.paging.pmm.HasFree → s.Backed areas

/-- A call that takes the area before `heap_end` up to its end finds its pages mapped. -/
def TailBacked (s : HeapSession) (call : HeapCall) : Prop :=
  ∀ a ∈ s.whole call,
    getNextAddress s.kernel.mem a = heapEnd
    → ∀ va : Addr, a ≤ va → va < heapEnd → s.kernel.paging.Mapped va

/-- What keeps every block backed. -/
def BackingSafe (s : HeapSession) (call : HeapCall) : Prop :=
  Releases ChainSafe s call ∧ TailBacked s call

/-- An allocation draws frames for the pages it maps, and returns none. -/
theorem Granted.draws (granted : Granted k k' areas areas' a q need)
    (ready : k.paging.pmm.Ready)
    : k.paging.pmm.Draws k'.paging.pmm := by
  rcases granted.backs with ⟨_, same⟩ | ⟨flags, startPage, endPage, mapped, _⟩
  · rw [same]
    exact ready.refl
  · exact mapMissingPages_draws ready mapped

/-- The block of an allocation is mapped up to and including the header behind it. Without
a split that header was there before, or the block reaches `heap_end`.
-/
theorem Granted.reached (granted : Granted k k' areas areas' a q need)
    (wf : WellFormed k.mem areas) (backed : HeapSession.Backed ⟨k, live⟩ areas)
    (left : k'.paging.pmm.HasFree)
    (tail
      : getNextAddress k'.mem q = getNextAddress k.mem a
        → getNextAddress k.mem a = heapEnd
        → ∀ va : Addr, a ≤ va → va < heapEnd → k.paging.Mapped va)
    : k.paging.Grows k'.paging
      ∧ ∀ va : Addr,
          0xE0000000 ≤ va.toNat
          → va.toNat ≤ (getNextAddress k'.mem q).toNat
          → k'.paging.Mapped va := by
  have bounds := wf.bounds granted.source
  rcases granted.backs
    with ⟨next, same⟩ | ⟨flags, startPage, endPage, mapped, aligned, low, start, stopPage, top⟩
  · rw [same]
    refine ⟨backed.backs.refl, fun va inside below => ?_⟩
    rw [next] at below
    rcases wf.next_mem granted.source with listed | sentinel
    · exact backed.heads _ listed va inside below
    · rw [sentinel] at below
      rcases Nat.lt_or_ge va.toNat a.toNat with before | behind
      · exact backed.heads a granted.source va inside before.le
      · rcases Nat.lt_or_ge va.toNat heapEnd.toNat with short | last
        · exact tail next sentinel va behind short
        · rw [show va = heapEnd from BitVec.eq_of_toNat_eq (le_antisymm below last)]
          exact backed.sentinel
  · obtain ⟨grows, reached⟩ :=
      mapMissingPages_grows top aligned low backed.backs mapped left
    refine ⟨grows, fun va inside below => ?_⟩
    have insideHeap : InHeap va := ⟨inside, by omega⟩
    by_cases before : va.toNat < startPage.toNat
    · -- pages up to that of the old head were mapped already
      have insideHead : InHeap a := ⟨bounds.1, by omega⟩
      have head := grows.kept a insideHead (backed.heads a granted.source a bounds.1 le_rfl)
      rcases Nat.lt_or_ge a.toNat va.toNat with above | below
      · exact grows.backs.samePage insideHead (by omega) head
      · exact grows.kept va insideHeap (backed.heads a granted.source va inside below)
    · have page := Nat.mul_le_mul_right 4096 (Nat.div_le_div_right (c := 4096) below)
      exact reached va (Nat.not_lt.mp before) (page.trans stopPage)

/-- The pages of a new block are mapped: those of a split by the mapping loop, those of a whole
area because they were before, the last area by the condition on it.
-/
theorem HeapSession.Backed.granted (backed : HeapSession.Backed ⟨k, live⟩ areas)
    (sound : HeapSession.Sound ⟨k, live⟩ areas)
    (granted : Granted k k' areas areas' a q need) (left : k'.paging.pmm.HasFree)
    (tail
      : getNextAddress k'.mem q = getNextAddress k.mem a
        → getNextAddress k.mem a = heapEnd
        → ∀ va : Addr, a ≤ va → va < heapEnd → k.paging.Mapped va)
    : HeapSession.Backed
        ⟨k', ⟨q + headerSize, getNextAddress k'.mem q⟩ :: live⟩ areas' := by
  obtain ⟨grows, reached⟩ := granted.reached sound.wf backed left tail
  have block := granted.carved.wf.bounds granted.carved.head
  refine {
    backs := grows.backs
    heads := fun x listed va inside below => ?_
    sentinel := grows.kept heapEnd ⟨by decide, by decide⟩ backed.sentinel
    blocks := fun b member va low high => ?_
  }
  · have bounds := granted.carved.wf.bounds listed
    rcases granted.carved.heads x listed with old | rfl | rfl
    · exact grows.kept va ⟨inside, by omega⟩ (backed.heads x old va inside below)
    · exact reached va inside (by omega)
    · exact reached va inside below
  · rcases List.mem_cons.mp member with rfl | old
    · simp only [LiveBlock.header, BitVec.add_sub_cancel] at low
      exact reached va (by omega) high.le
    · have bounds := sound.wf.bounds (sound.listed b old)
      rw [sound.stop b old] at bounds
      exact grows.kept va ⟨by omega, by omega⟩ (backed.blocks b old va low high)

-----------------------------------------------------------------------------------------
-- Runs
-----------------------------------------------------------------------------------------

/-- Fewer headers and fewer live blocks need no more pages. -/
theorem HeapSession.Backed.shrink (backed : s.Backed areas)
    (fewerAreas : ∀ a ∈ areas', a ∈ areas) (fewer : ∀ b ∈ live, b ∈ s.live) (mem : Memory)
    : HeapSession.Backed ⟨{ s.kernel with mem := mem }, live⟩ areas' where
  backs := backed.backs
  heads a listed := backed.heads a (fewerAreas a listed)
  sentinel := backed.sentinel
  blocks b member := backed.blocks b (fewer b member)

/-- A release only takes headers off the chain. -/
theorem HeapSession.Supplied.release (supplied : HeapSession.Supplied ⟨k, live⟩ areas)
    (member : b ∈ live) (safe : ChainSafe k.mem b.header)
    : ∃ areas',
        HeapSession.Supplied
          ⟨{ k with mem := kfree k.mem b.ptr }, live.filter (fun c => c.ptr ≠ b.ptr)⟩
          areas' := by
  have sound := supplied.sound
  obtain ⟨areas', sound'⟩ := sound.release member safe
  obtain ⟨chain, wf', members⟩ := (sound.kfree_released member).exists_wellFormed sound.wf
    (sound.listed b member) safe.1 safe.2
  obtain rfl : chain = areas' := wf'.chainAreas_eq.symm.trans sound'.wf.chainAreas_eq
  refine ⟨chain, sound', supplied.ready, fun left => ?_⟩
  exact (supplied.backed left).shrink (fun x listed => ((members x).mp listed).1)
    (fun c inside => (List.mem_filter.mp inside).1) _

/-- The same in a session, where the condition is about the area that the call takes whole. -/
theorem HeapSession.Supplied.granted (supplied : s.Supplied areas)
    (granted : Granted s.kernel k' areas areas' a q need)
    (takes : getNextAddress k'.mem q = getNextAddress s.kernel.mem a → s.whole call = some a)
    (tail : TailBacked s call)
    : HeapSession.Supplied ⟨k', ⟨q + headerSize, getNextAddress k'.mem q⟩ :: s.live⟩ areas' := by
  have draws := granted.draws supplied.ready
  have sound := supplied.sound.granted granted
  rw [HeapSession.grant, if_neg (granted.carved.wf.ptr_ne_null granted.carved.head),
    BitVec.add_sub_cancel] at sound
  refine ⟨sound, draws.ready, fun left => ?_⟩
  exact (supplied.backed (draws.hasFree left)).granted supplied.sound granted left
    (fun next => tail a (takes next))

/-- Every safe call keeps the session supplied. -/
theorem HeapSession.Supplied.step (supplied : s.Supplied areas)
    (enabled : heapMachine.enabled s call) (safe : BackingSafe s call)
    (returned : heapMachine.exec s call = some s')
    : ∃ areas', s'.Supplied areas' := by
  have sound := supplied.sound
  cases sound.step_cases enabled returned with
  | unchanged same =>
      rw [same]
      exact ⟨areas, supplied⟩
  | granted granted takes same =>
      rw [same, HeapSession.grant,
        if_neg (granted.carved.wf.ptr_ne_null granted.carved.head), BitVec.add_sub_cancel]
      exact ⟨_, supplied.granted granted takes safe.2⟩
  | released member release same =>
      rw [same]
      exact supplied.release member (safe.1.of_release release)
  | moved member granted takes release same =>
      have chainSafe := safe.1.of_release release
      rw [same, sound.moved_eq member granted chainSafe]
      exact (supplied.granted granted takes safe.2).release
        (List.mem_cons_of_mem _ member) chainSafe
  | wrote member low high _ same =>
      rw [same]
      refine ⟨areas, sound.payload member (sound.payloadOnly member low high _),
        supplied.ready, fun left => ?_⟩
      exact (supplied.backed left).shrink (fun _ listed => listed) (fun _ inside => inside) _

/-- `init_heap` maps the pages of its two headers. -/
theorem HeapSession.Supplied.initial (fresh : k.heapRan = false) (backs : k.paging.BacksHeap)
    : HeapSession.Supplied ⟨initHeap k, []⟩ [heapStart] := by
  let first := mapFreshPage k.paging heapStart 0x3
  have tables : (initHeap k).paging = mapFreshPage first 0xFFBFF000 0x3 := by
    rw [initHeap, fresh]
    rfl
  have draws := mapFreshPage_draws k.paging heapStart 0x3 backs.sound.ready
  have drawsLast := mapFreshPage_draws first 0xFFBFF000 0x3 draws.ready
  rw [← tables] at drawsLast
  refine ⟨.initial fresh, drawsLast.ready, fun left => ?_⟩
  have insideStart : InHeap heapStart := ⟨by decide, by decide⟩
  have insideLast : InHeap 0xFFBFF000 := ⟨by decide, by decide⟩
  obtain ⟨grows, start⟩ := backs.mapFreshPage rfl insideStart 0x3 (drawsLast.hasFree left)
  obtain ⟨growsLast, stop⟩ := grows.backs.mapFreshPage rfl insideLast 0x3 (by rwa [← tables])
  rw [← tables] at growsLast stop
  refine {
    backs := growsLast.backs
    heads := fun a listed va inside below => ?_
    sentinel := growsLast.backs.samePage insideLast rfl stop
    blocks := fun b member => by simp at member
  }
  obtain rfl := List.mem_singleton.mp listed
  rw [show va = heapStart from BitVec.eq_of_toNat_eq (le_antisymm below inside)]
  exact growsLast.kept heapStart insideStart start

/-- The invariant holds in every state of a run whose steps all meet the condition. -/
theorem HeapSession.Supplied.of_run (fresh : k.heapRan = false) (backs : k.paging.BacksHeap)
    (run : heapMachine.Reaches BackingSafe ⟨initHeap k, []⟩ s)
    : ∃ areas, s.Supplied areas := by
  refine run.invariant ⟨_, .initial fresh backs⟩ ?_
  intro s s' call earlier enabled guarded returned
  obtain ⟨areas, supplied⟩ := earlier
  exact supplied.step enabled guarded returned

-----------------------------------------------------------------------------------------
-- Requested ranges
-----------------------------------------------------------------------------------------

/-- What an allocating call returns. -/
def HeapSession.reply (s : HeapSession) : HeapCall → Option (Addr × Kernel)
  | .kmalloc size => SimpleKernel.kmalloc s.kernel size
  | .kcalloc nmemb size => SimpleKernel.kcalloc s.kernel nmemb size
  | .krealloc ptr size => SimpleKernel.krealloc s.kernel ptr size
  | .kpagealloc n => SimpleKernel.kpagealloc s.kernel n
  | .kfree _ => none
  | .write _ _ => none

/-- The bytes a call asks for. -/
def HeapCall.requested : HeapCall → Nat
  | .kmalloc size => size.toNat
  | .kcalloc nmemb size => nmemb.toNat * size.toNat
  | .krealloc _ size => size.toNat
  | .kpagealloc n => n.toNat * 4096
  | .kfree _ => 0
  | .write _ _ => 0

/-- A pointer that is not NULL belongs to a live block from then on. -/
theorem HeapSession.grant_live (notNull : ptr ≠ null)
    : (HeapSession.grant live (ptr, k')).kernel = k'
      ∧ ∃ b ∈ (HeapSession.grant live (ptr, k')).live, b.ptr = ptr := by
  rw [HeapSession.grant, if_neg notNull]
  exact ⟨rfl, _, List.mem_cons_self, rfl⟩

/-- The pointer returned is that of a live block afterwards. -/
theorem HeapSession.reply_live (enabled : heapMachine.enabled s call)
    (returned : heapMachine.exec s call = some s') (reply : s.reply call = some (ptr, k'))
    (notNull : ptr ≠ null)
    : s'.kernel = k' ∧ ∃ b ∈ s'.live, b.ptr = ptr := by
  have granted {result : Option (Addr × Kernel)} (called : result = some (ptr, k'))
      (mapped : result.map (HeapSession.grant s.live) = some s')
      : s'.kernel = k' ∧ ∃ b ∈ s'.live, b.ptr = ptr := by
    rw [called] at mapped
    obtain rfl := Option.some.inj mapped
    exact HeapSession.grant_live notNull
  cases call with
  | kmalloc size => exact granted reply returned
  | kcalloc nmemb size => exact granted reply returned
  | krealloc old size =>
      simp only [HeapSession.reply] at reply
      simp only [heapMachine, HeapSession.exec, reply, notNull, false_or] at returned
      split at returned
      · next same =>
        obtain rfl := Option.some.inj returned
        obtain ⟨b, member, header⟩ := enabled.1.resolve_left (same ▸ notNull)
        exact ⟨rfl, b, member, header.trans same.symm⟩
      · obtain rfl := Option.some.inj returned
        exact HeapSession.grant_live notNull
  | kpagealloc n => exact granted reply returned
  | kfree old => simp [HeapSession.reply] at reply
  | write address value => simp [HeapSession.reply] at reply

/-- A pointer that a client holds may be reallocated: it is NULL or lies behind a header on the
chain.
-/
theorem HeapSession.Sound.reallocatable (sound : s.Sound areas) (holds : s.Holds ptr)
    : Reallocatable s.kernel areas ptr := by
  rcases holds with rfl | ⟨b, member, rfl⟩
  · exact Or.inl rfl
  · exact Or.inr ⟨sound.listed b member, sound.used b member⟩

/-- The block behind a returned pointer is as large as requested. -/
theorem HeapSession.Sound.reply_holdsRequest (sound : s.Sound areas)
    (enabled : heapMachine.enabled s call)
    : HoldsRequest (s.reply call) call.requested := by
  have wf := sound.wf
  cases call with
  | kmalloc size =>
      have small : size.toNat ≤ 2 ^ 29 := enabled
      exact (wf.kmalloc_holdsRequest_iff size).mpr (Or.inl (by omega))
  | kcalloc nmemb size =>
      have small : nmemb.toNat * size.toNat ≤ 2 ^ 29 := enabled
      exact (wf.kcalloc_holdsRequest_iff nmemb size).mpr (Or.inr (Or.inl (by omega)))
  | krealloc old size =>
      have small : size.toNat ≤ 2 ^ 29 := enabled.2
      exact (wf.krealloc_holdsRequest_iff (sound.reallocatable enabled.1) size).mpr
        (Or.inl (by omega))
  | kpagealloc n =>
      have small : n.toNat ≤ 2 ^ 17 := enabled
      exact (wf.kpagealloc_holdsRequest_iff n).mpr (Or.inl (by omega))
  | kfree old => simp [HeapSession.reply, HoldsRequest]
  | write address value => simp [HeapSession.reply, HoldsRequest]

/-- Every byte of the requested range lies on a mapped page. -/
def RequestMapped (s : HeapSession) (call : HeapCall) : Prop :=
  ∀ ptr k',
    s.reply call = some (ptr, k')
    → ptr ≠ null
    → ∀ va : Addr,
        ptr.toNat ≤ va.toNat
        → va.toNat < ptr.toNat + call.requested
        → k'.paging.PageMapped va

/-- Every byte of every header on the chain, that of `heap_end` included, lies on a mapped
page.
-/
def HeadersMapped (k : Kernel) : Prop :=
  ∀ a,
    a ∈ chainAreas k.mem ∨ a = heapEnd
    → ∀ va : Addr, a.toNat ≤ va.toNat → va.toNat < a.toNat + 8 → k.paging.PageMapped va

/-- The header of each area lies on a page that is mapped, since it was written when the area
was made.
-/
theorem HeapSession.Supplied.headersMapped (supplied : s.Supplied areas)
    (left : s.kernel.paging.pmm.HasFree)
    : HeadersMapped s.kernel := by
  have backed := supplied.backed left
  have wf := supplied.sound.wf
  -- headers are 8-byte aligned and do not straddle a page
  have page {a va other : Addr} (aligned : Aligned a) (low : a.toNat ≤ va.toNat)
      (high : va.toNat < a.toNat + 8) (same : other.toNat / 4096 = va.toNat / 4096)
      : other.toNat / 4096 = a.toNat / 4096 := by
    rw [Aligned] at aligned
    omega
  rintro a (listed | rfl) va low high other same
  · rw [wf.chainAreas_eq] at listed
    have bounds := wf.bounds listed
    exact backed.backs.samePage ⟨bounds.1, by omega⟩ (page (wf.aligned listed) low high same)
      (backed.heads a listed a bounds.1 le_rfl)
  · exact backed.backs.samePage ⟨by decide, by decide⟩
      (page aligned_heapEnd low high same) backed.sentinel

/-- A further call that meets the condition finds its request mapped. -/
theorem HeapSession.Supplied.requestMapped (supplied : s.Supplied areas)
    (enabled : heapMachine.enabled s call) (safe : BackingSafe s call)
    (returned : heapMachine.exec s call = some s') (left : s'.kernel.paging.pmm.HasFree)
    : RequestMapped s call := by
  intro ptr k' reply notNull va low high other same
  obtain ⟨areas', supplied'⟩ := supplied.step enabled safe returned
  obtain ⟨rfl, b, member, rfl⟩ := HeapSession.reply_live enabled returned reply notNull
  have room := supplied.sound.reply_holdsRequest enabled _ _ reply notNull
  have sound := supplied'.sound
  have bounds := sound.wf.bounds (sound.listed b member)
  have stop := sound.stop b member
  rw [payload, ← LiveBlock.header, stop] at room
  rw [stop] at bounds
  have header : b.header.toNat + 8 = b.ptr.toNat := by
    simp only [LiveBlock.header] at bounds ⊢
    bv_omega
  have mapped := (supplied'.backed left).blocks b member va (by omega) (by omega)
  exact (supplied'.backed left).backs.samePage ⟨by omega, by omega⟩ same mapped

/-- In a run whose releases are safe and whose allocations never reach `heap_end` over
unmapped pages, all headers and all requested ranges are mapped as long as frames are left.
-/
theorem heapRun_backed (fresh : k.heapRan = false) (backs : k.paging.BacksHeap)
    (run : heapMachine.Reaches BackingSafe ⟨initHeap k, []⟩ s)
    : (s.kernel.paging.pmm.HasFree → HeadersMapped s.kernel)
      ∧ ∀ call s',
          heapMachine.enabled s call
          → BackingSafe s call
          → heapMachine.exec s call = some s'
          → s'.kernel.paging.pmm.HasFree
          → RequestMapped s call := by
  obtain ⟨areas, supplied⟩ := HeapSession.Supplied.of_run fresh backs run
  exact ⟨supplied.headersMapped,
    fun _ _ enabled safe returned left => supplied.requestMapped enabled safe returned left⟩

/-- The tables of `bareKernel` map nothing below the window. -/
theorem bareKernel_directoryEntry (below : va.toNat < 0xFFC00000)
    : bareKernel.paging.directoryEntry va = 0 := by
  have aligned : bareKernel.paging.directory.toNat % 4096 = 0 := rfl
  have slot := Paging.directorySlot_toNat aligned va
  have ne : bareKernel.paging.directorySlot va ≠ 0x105FFC := by
    intro same
    rw [same, show BitVec.toNat (0x105FFC : Addr) = 0x105FFC from rfl,
      show bareKernel.paging.directory.toNat = 0x105000 from rfl] at slot
    omega
  have zero := Memory.load32_store32_of_ne (fun _ => 0) 0x105003 rfl
    (Paging.directorySlot_frame aligned va).2 ne
  exact zero.trans (by simp [Memory.load32])

/-- So they map no heap page to a frame that is free. -/
theorem bareKernel_backsHeap : bareKernel.paging.BacksHeap := by
  have absent {va : Addr} (below : va.toNat < 0xFFC00000)
      : ¬IsPresent (bareKernel.paging.directoryEntry va) := by
    rw [bareKernel_directoryEntry below]
    decide
  refine {
    sound := {
      recursive := ⟨rfl, by decide +kernel, by decide +kernel⟩
      ready := ⟨by decide, ?_, fun _ => ⟨by decide, by decide +kernel⟩⟩
      zero := by decide +kernel
      directory := by decide +kernel
      tables := fun va below isPresent => absurd isPresent (absent below)
    }
    frames := fun va entry inside found =>
      absurd (Paging.entry_eq_some.mp found).1 (absent inside.2)
  }
  intro k free
  have bound : k < 8 * bareKernel.paging.pmm.size.toNat := free.1
  rw [show bareKernel.paging.pmm.size.toNat = 0x100 from rfl] at bound
  omega

/-- Safe releases, and no allocation that takes the area before `heap_end` up to its end. -/
def SplitSafe (s : HeapSession) (call : HeapCall) : Prop :=
  Releases ChainSafe s call
  ∧ (s.whole call).all (fun a => getNextAddress s.kernel.mem a ≠ heapEnd) = true

instance (s : HeapSession) (call : HeapCall) : Decidable (SplitSafe s call) :=
  inferInstanceAs (Decidable (_ ∧ _))

/-- A call that splits the area it takes meets the condition. -/
theorem SplitSafe.backingSafe (safe : SplitSafe s call) : BackingSafe s call := by
  refine ⟨safe.1, fun a taken last => ?_⟩
  have splits := safe.2
  rw [Option.mem_def.mp taken] at splits
  exact absurd last (of_decide_eq_true splits)

/-- Every header and every page of a request is mapped while frames are left. Witness: a block
over three pages, requested behind a release and a reallocation.
-/
theorem heapRun_backed_threePages
    : ∃ s : HeapSession,
        s.live.length = 3
        ∧ HeadersMapped s.kernel
        ∧ RequestMapped s (.kmalloc 0x3000) := by
  have replayed
      : (heapMachine.replay SplitSafe reuseCalls ⟨initHeap bareKernel, []⟩).map
          (fun s =>
            (s.live.length,
              decide (s.kernel.paging.pmm.Free 0x700),
              decide (SplitSafe s (.kmalloc 0x3000)),
              (heapMachine.exec s (.kmalloc 0x3000)).map
                (fun s' => decide (s'.kernel.paging.pmm.Free 0x700))))
        = some (3, true, true, some true) := by
    decide +kernel
  obtain ⟨s, reached, facts⟩ := Option.map_eq_some_iff.mp replayed
  obtain ⟨count, facts⟩ := Prod.mk.inj facts
  obtain ⟨free, facts⟩ := Prod.mk.inj facts
  obtain ⟨safe, outcome⟩ := Prod.mk.inj facts
  obtain ⟨s', returned, left⟩ := Option.map_eq_some_iff.mp outcome
  have run : heapMachine.Reaches SplitSafe ⟨initHeap bareKernel, []⟩ s :=
    Machine.Reaches.refl.replay reached
  have backed := heapRun_backed rfl bareKernel_backsHeap
    (run.weaken (fun _ _ _ guarded => guarded.backingSafe))
  have safe := (of_decide_eq_true safe).backingSafe
  have left : s'.kernel.paging.pmm.HasFree := ⟨0x700, of_decide_eq_true left⟩
  have small : heapMachine.enabled s (.kmalloc 0x3000) :=
    show (0x3000 : Word).toNat ≤ 2 ^ 29 by decide
  exact ⟨s, count, backed.1 ⟨0x700, of_decide_eq_true free⟩,
    backed.2 (.kmalloc 0x3000) s' small safe returned left⟩

/-- A first block as large as the heap is returned with only its first and last page
mapped.
-/
theorem not_backed_wholeHeap
    : ¬∀ (k : Kernel) (s s' : HeapSession) (call : HeapCall),
        k.heapRan = false
        → k.paging.BacksHeap
        → heapMachine.Reaches AnyCall ⟨initHeap k, []⟩ s
        → heapMachine.enabled s call
        → heapMachine.exec s call = some s'
        → s'.kernel.paging.pmm.HasFree
        → RequestMapped s call := by
  intro claim
  have called
      : (kmalloc (initHeap bareKernel) 0x1FBFFFE0).map
          (fun result =>
            (result.1,
              getPhysaddr result.2.paging 0xE0001000,
              decide (result.2.paging.pmm.Free 0x700)))
        = some (0xE0000008, null, true) := by
    decide +kernel
  obtain ⟨⟨ptr, k'⟩, returned, facts⟩ := Option.map_eq_some_iff.mp called
  obtain ⟨rfl, facts⟩ := Prod.mk.inj facts
  obtain ⟨unmapped, free⟩ := Prod.mk.inj facts
  have executed
      : heapMachine.exec ⟨initHeap bareKernel, []⟩ (.kmalloc 0x1FBFFFE0)
        = some (HeapSession.grant [] (0xE0000008, k')) :=
    congrArg (Option.map (HeapSession.grant [])) returned
  have mapped := claim bareKernel _ _ (.kmalloc 0x1FBFFFE0) rfl bareKernel_backsHeap .refl
    (show (0x1FBFFFE0 : Word).toNat ≤ 2 ^ 29 by decide) executed
    ⟨0x700, of_decide_eq_true free⟩ 0xE0000008 k' returned (by decide) 0xE0001000 (by decide)
    (by decide) 0xE0001000 rfl
  exact mapped unmapped

end SimpleKernel
