import SimpleKernel.Heap.BackLinks
import SimpleKernel.Heap.Requests
import SimpleKernel.Heap.BestFitSplitting

/-! What the allocating calls leave in the payloads of blocks.
A block is live as long as the loop over areas reaches its header and finds it used. That
also makes sense after a release next to `heap_end`, which cuts the end of the chain off.
-/

namespace SimpleKernel

open ByteMemory Segments AreaLists

variable {m m' m'' : Memory} {k k' : Kernel} {areas areas' : List Addr} {a q x : Addr}
  {size : Word} {need : Nat}

/-- The loop over areas comes to the header at `x` through ascending headers, and the area
there is used.
-/
def Live (m : Memory) (x : Addr) : Prop :=
  ∃ path,
    AreaSegment m heapStart path x
    ∧ (∀ a ∈ path, getAreaEpsilon m a = false)
    ∧ getAreaEpsilon m x = false
    ∧ getAreaUsed m x = true

/-- The payload at `x` has the same extent and the same bytes. -/
structure PayloadKept (m m' : Memory) (x : Addr) : Prop where
  next : getNextAddress m' x = getNextAddress m x
  bytes
    : ∀ y : Addr,
        x.toNat + 8 ≤ y.toNat → y.toNat < (getNextAddress m x).toNat → m' y = m y

theorem PayloadKept.refl (m : Memory) (x : Addr) : PayloadKept m m x :=
  ⟨rfl, fun _ _ _ => rfl⟩

theorem PayloadKept.trans (first : PayloadKept m m' x) (second : PayloadKept m' m'' x)
    : PayloadKept m m'' x where
  next := second.next.trans first.next
  bytes y low high := by
    rw [second.bytes y low (by rwa [first.next]), first.bytes y low high]

/-- A payload that is kept has the size it had. -/
theorem PayloadKept.payload_eq (kept : PayloadKept m m' x) : payload m' x = payload m x := by
  rw [payload, kept.next, payload]

/-- On a well-formed chain the live headers are the used ones listed. -/
theorem WellFormed.live_iff (wf : WellFormed m areas)
    : Live m x ↔ x ∈ areas ∧ getAreaUsed m x = true := by
  constructor
  · rintro ⟨path, reached, plain, epsilon, used⟩
    have open' : heapEnd ∉ path := fun listed => by
      have plainEnd := plain heapEnd listed
      rw [wf.sentinel] at plainEnd
      exact Bool.noConfusion plainEnd
    rcases reached.passes wf.chain open' with listed | rfl
    · exact ⟨listed, used⟩
    · rw [wf.sentinel] at epsilon
      exact Bool.noConfusion epsilon
  · rintro ⟨listed, used⟩
    obtain ⟨before, after, rfl⟩ := List.append_of_mem listed
    refine ⟨before, (segment_middle.mp wf.chain).1, fun a early => ?_, ?_, used⟩
    · exact wf.plain a (by simp [early])
    · exact wf.plain x listed

/-- An allocation keeps every live block, and the payloads of them all. -/
theorem Granted.keepsLive (granted : Granted k k' areas areas' a q need)
    (wf : WellFormed k.mem areas) (live : Live k.mem x)
    : Live k'.mem x ∧ PayloadKept k.mem k'.mem x := by
  obtain ⟨listed, used⟩ := wf.live_iff.mp live
  obtain ⟨kept, stillUsed, next, bytes⟩ :=
    granted.carved.keeps wf granted.source granted.free listed used
  exact ⟨granted.carved.wf.live_iff.mpr ⟨kept, stillUsed⟩, ⟨next, bytes⟩⟩

/-- The block granted is live. -/
theorem Granted.live (granted : Granted k k' areas areas' a q need) : Live k'.mem q :=
  granted.carved.wf.live_iff.mpr
    ⟨granted.carved.head, (granted.carved.used q granted.carved.head).mpr (Or.inl ⟨rfl, rfl⟩)⟩

/-- Bytes stored in a payload do not change what is listed of the areas. -/
theorem PayloadOnly.areaList_eq (only : PayloadOnly m m' q) (wf : WellFormed m areas)
    (member : q ∈ areas)
    : areaList m' areas = areaList m areas :=
  List.map_congr_left (fun _ listed =>
    areaAt_congr (only.next wf member (Or.inl listed)) (only.used wf member (Or.inl listed)))

-----------------------------------------------------------------------------------------
-- kcalloc
-----------------------------------------------------------------------------------------

/-- `kcalloc` returns NULL for an empty or overflowing product and then changes nothing.
Otherwise it leaves the chain `kmalloc` would, with the block cleared and every live block's
payload as it was.
-/
theorem WellFormed.kcalloc_zeroed (wf : WellFormed k.mem areas) (nmemb size : Word)
    : (nmemb = 0 ∨ size = 0 ∨ 2 ^ 32 ≤ nmemb.toNat * size.toNat
        → kcalloc k nmemb size = some (null, k))
      ∧ ∀ total : Word,
          total.toNat = nmemb.toNat * size.toNat
          → 1 ≤ total.toNat
          → total.toNat ≤ 2 ^ 32 - 16
          → ∃ ptr k₁ k₂ areas',
              kmalloc k total = some (ptr, k₁)
              ∧ kcalloc k nmemb size = some (ptr, k₂)
              ∧ WellFormed k₁.mem areas'
              ∧ WellFormed k₂.mem areas'
              ∧ areaList k₂.mem areas' = areaList k₁.mem areas'
              ∧ (ptr = null → k₂ = k)
              ∧ (ptr ≠ null
                → (∀ i : Word, i < total → k₂.mem (ptr + i) = 0)
                  ∧ ∀ x, Live k.mem x → Live k₂.mem x ∧ PayloadKept k.mem k₂.mem x) := by
  constructor
  · rintro (rfl | rfl | overflows)
    · exact kcalloc_null (fun _ => by simp [kmalloc])
    · exact kcalloc_null (fun _ => by simp [kmalloc])
    · exact kcalloc_null (fun exact => absurd exact (Nat.not_lt.mpr overflows))
  · intro total product positive bounded
    obtain rfl : total = nmemb * size :=
      BitVec.eq_of_toNat_eq (product.trans (BitVec.toNat_mul_of_lt (by omega)).symm)
    rcases wf.kmalloc_granted (show (nmemb * size).toNat + 15 < 2 ^ 32 by omega)
      with returned | ⟨k₁, areas', a, returned, _, _, granted, _⟩
    · exact ⟨null, k, k, areas, returned, kcalloc_null (fun _ => returned), wf, wf, rfl,
        fun _ => rfl, fun notNull => absurd rfl notNull⟩
    · have notNull := granted.carved.wf.ptr_ne_null granted.carved.head
      have called := kcalloc_returns (by omega) (by omega) returned notNull
      have only := granted.memset_payloadOnly 0 le_rfl
      have wf' := only.wellFormed granted.carved.wf granted.carved.head
      refine ⟨_, k₁, _, areas', returned, called, granted.carved.wf, wf',
        only.areaList_eq granted.carved.wf granted.carved.head,
        fun zero => absurd zero notNull, fun _ => ⟨fun i inside => ?_, fun x live => ?_⟩⟩
      · rw [memset_eq_fill]
        exact Memory.fill_of_inside _ _ (by bv_omega)
      · exact (granted.fill only).keepsLive wf live

-----------------------------------------------------------------------------------------
-- krealloc
-----------------------------------------------------------------------------------------

/-- `kmalloc` writes no back link of an old header, and the sentinel not at all. -/
theorem WellFormed.kmallocCarve_back (wf : WellFormed m areas) (member : a ∈ areas)
    (aligned : Aligned size) (positive : 8 ≤ size.toNat) (fit : size.toNat < payload m a)
    : (∀ x ∈ areas,
        getPrevAddress (kmallocCarve m (getAreaSize m a) size a) x = getPrevAddress m x)
      ∧ getNextAddress (kmallocCarve m (getAreaSize m a) size a) heapEnd
        = getNextAddress m heapEnd := by
  have alignedA := wf.aligned member
  have splits := wf.kmallocSplits_iff member fit
  simp only [kmallocCarve]
  split
  · next split =>
    obtain ⟨inserted, alignedNew, sum, behind⟩ :=
      wf.remainder_inserted member aligned positive (splits.mp split)
    have low : a.toNat + 8 ≤ (a + size).toNat := by omega
    have fresh := inserted.not_mem wf member alignedNew low behind
    have bounds := wf.bounds member
    constructor
    · intro x listed
      have ne : x ≠ a + size := fun same => fresh (same ▸ listed)
      rw [getPrevAddress_setAreaUsed alignedA (wf.aligned listed)]
      by_cases next : x = getNextAddress m a
      · rw [next]
        exact insertArea_prev_next alignedA alignedNew (by rwa [← next])
      · exact inserted.prevOther x (wf.aligned listed) ne next
    · have ne : heapEnd ≠ a + size := fun same => by
        rw [← same, heapEnd_toNat] at behind
        omega
      rw [getNextAddress_setAreaUsed alignedA aligned_heapEnd]
      exact inserted.nextOther heapEnd aligned_heapEnd (wf.ne_heapEnd member).symm ne
  · constructor
    · exact fun x listed => getPrevAddress_setAreaUsed alignedA (wf.aligned listed) true
    · exact getNextAddress_setAreaUsed alignedA aligned_heapEnd true

section Release

variable (wf : WellFormed m areas) (listed : a ∈ areas) (safe : BackLinkSafe m a)
  (node : mergeNode m a ∈ areas)
include wf listed safe node

omit listed in
/-- The area whose link a release moves is not behind any used area before it. -/
theorem WellFormed.used_before_node (member : x ∈ areas) (used : getAreaUsed m x = true)
    (before : x.toNat < a.toNat)
    : x.toNat < (mergeNode m a).toNat := by
  rw [mergeNode] at node ⊢
  split
  · next onRoot =>
    rw [if_pos onRoot] at node
    by_contra behind
    have ne : (getPrevAddress m a).toNat ≠ x.toNat := fun same => by
      have free := onRoot.2
      rw [BitVec.eq_of_toNat_eq same, used] at free
      exact Bool.noConfusion free
    have free := (safe (by rwa [wf.chainAreas_eq]) onRoot.2).2 x (by rwa [wf.chainAreas_eq])
      (by rw [BitVec.lt_def]; omega) (by rw [BitVec.lt_def]; exact before)
    rw [used] at free
    exact Bool.noConfusion free
  · exact before

/-- A release keeps every other live block, also when it swallows the sentinel: only the
links of headers behind all live ones change then.
-/
theorem Released.keepsLive (released : Released m m' a)
    (sentinelNext : getNextAddress m heapEnd = null) (live : Live m x) (ne : x ≠ a)
    : Live m' x ∧ PayloadKept m m' x := by
  obtain ⟨member, used⟩ := wf.live_iff.mp live
  have neNode : x ≠ mergeNode m a := by
    rintro rfl
    rw [mergeNode] at used ne
    split at used
    · next onRoot =>
      rw [onRoot.2] at used
      exact Bool.noConfusion used
    · next off => exact ne (if_neg off)
  have next : getNextAddress m' x = getNextAddress m x := by
    rw [released.next x (wf.aligned member), if_neg neNode]
  refine ⟨?_, next, fun y low high => ?_⟩
  · by_cases last : getNextAddress m a = heapEnd
    · -- every other area lies before the released one
      have before : x.toNat < a.toNat := by
        have bounds := wf.bounds member
        have apart := wf.apart member listed ne
        rw [last, heapEnd_toNat] at apart
        omega
      have below := wf.used_before_node safe node member used before
      obtain ⟨path, rest, split⟩ := List.append_of_mem member
      obtain ⟨reached, _, _⟩ := segment_middle.mp (split ▸ wf.chain)
      have onPath (y) (inside : y ∈ path) : y ∈ areas ∧ y ≠ mergeNode m a := by
        refine ⟨by simp [split, inside], fun same => ?_⟩
        have bounds := reached.bounds inside
        rw [same] at bounds
        omega
      refine ⟨path, reached.congr (fun y inside => ?_), fun y inside => ?_, ?_, ?_⟩
      · rw [released.next y (wf.aligned (onPath y inside).1), if_neg (onPath y inside).2]
      · rw [released.epsilon y (wf.aligned (onPath y inside).1), wf.plain y (onPath y inside).1]
      · rw [released.epsilon x (wf.aligned member), wf.plain x member]
      · rw [released.used x (wf.aligned member), if_neg ne, used]
    · obtain ⟨areas', wf', members⟩ := released.exists_wellFormed wf listed last safe
      have kept := released.kept wf listed last safe member used ne members
      refine wf'.live_iff.mpr ⟨kept.1, ?_⟩
      rw [released.used x (wf.aligned member), if_neg ne, used]
  · have bounds := wf.bounds member
    have outside {z : Addr} (header : z ∈ areas ∨ z = heapEnd) : OutsideHeader y z :=
      wf.payload_outside member header low high
    refine released.bytes y (outside (Or.inl listed)) (outside (Or.inl node))
      (outside (wf.next_mem listed)) ?_
    rw [mergeTarget]
    split
    · rcases wf.next_mem listed with inside | last
      · exact outside (wf.next_mem inside)
      · rw [last, sentinelNext, OutsideHeader]
        bv_omega
    · exact outside (wf.next_mem listed)

end Release

/-- `kfree` of a live block ends it and keeps the others. -/
theorem WellFormed.kfree_keepsLive (wf : WellFormed m areas) (live : Live m a)
    (safe : BackLinkSafe m a) (node : mergeNode m a ∈ areas)
    (sentinelNext : getNextAddress m heapEnd = null)
    : ¬Live (kfree m (a + headerSize)) a
      ∧ ∀ x,
          Live m x → x ≠ a
          → Live (kfree m (a + headerSize)) x
            ∧ PayloadKept m (kfree m (a + headerSize)) x := by
  obtain ⟨listed, used⟩ := wf.live_iff.mp live
  have released := wf.kfree_released listed (BitVec.add_sub_cancel a headerSize) used
  constructor
  · rintro ⟨_, _, _, _, still⟩
    rw [released.used a (wf.aligned listed), if_pos rfl] at still
    exact Bool.noConfusion still
  · exact fun x other ne => released.keepsLive wf listed safe node sentinelNext other ne

/-- The payload of one area copied to the start of another that has room for it. -/
theorem WellFormed.memcpy_between (wf : WellFormed m areas) (source : a ∈ areas)
    (target : q ∈ areas) (ne : a ≠ q) {count : Word} (all : count.toNat = payload m a)
    (room : payload m a ≤ payload m q) {i : Word} (inside : i.toNat < payload m a)
    : memcpy m (q + headerSize) (a + headerSize) count (q + headerSize + i)
      = m (a + headerSize + i) := by
  have endsA := wf.payload_le source
  have endsQ := wf.payload_le target
  have boundsA := wf.bounds source
  have boundsQ := wf.bounds target
  have offset : q + headerSize + i - (q + headerSize) = i := by bv_omega
  have behind : (a + headerSize - (q + headerSize)).toNat + count.toNat ≤ 2 ^ 32 := by
    rcases wf.apart source target ne with apart | apart <;> bv_omega
  rw [memcpy_eq_copy m behind, Memory.copy_of_inside _ (by rwa [offset, all]), offset]

/-- The state in which `krealloc` has copied the payload at `a` to a new block at `q` and
not yet released the old one.
-/
structure Copied (k k' : Kernel) (areas areas' : List Addr) (a q : Addr) (size : Nat)
    : Prop where
  granted : Granted k k' areas areas' q q size
  data
    : ∀ i : Word,
        i.toNat < payload k.mem a
        → k'.mem (q + headerSize + i) = k.mem (a + headerSize + i)
  back : getPrevAddress k'.mem a = getPrevAddress k.mem a
  sentinel : getNextAddress k'.mem heapEnd = getNextAddress k.mem heapEnd

/-- Where a block has to grow `krealloc` finds no room, or a new block that begins with the old
payload.
-/
theorem WellFormed.kreallocCopy_copied (wf : WellFormed k.mem areas) (live : Live k.mem a)
    (smaller : payload k.mem a < size.toNat) (bounded : size.toNat + 15 < 2 ^ 32)
    : kreallocCopy k (a + headerSize) size = some (null, k)
      ∨ ∃ k' areas' q,
          kreallocCopy k (a + headerSize) size = some (q + headerSize, k')
          ∧ Copied k k' areas areas' a q size.toNat := by
  obtain ⟨listed, used⟩ := wf.live_iff.mp live
  have all := wf.areaSize listed
  have rounded := kmallocSize_toNat bounded
  rw [kreallocCopy, BitVec.add_sub_cancel]
  rcases wf.kmalloc_granted bounded
    with returned | ⟨k₁, areas', q, returned, carving, fit, granted, _⟩
  · simp [returned]
  · have carved := granted.carved
    have kept := carved.kept a listed
    have fresh := carved.fresh wf granted.source granted.free listed used
    obtain ⟨_, payloadKept⟩ := granted.keepsLive wf live
    have extent := payloadKept.payload_eq
    have room := granted.room
    obtain ⟨back, sentinel⟩ := wf.kmallocCarve_back granted.source
      (aligned_kmallocSize size) (by omega) fit
    rw [← carving] at back sentinel
    have only := granted.memcpy_payloadOnly (a + headerSize)
      (show (getAreaSize k.mem a).toNat ≤ size.toNat by omega)
    simp only [returned, carved.wf.ptr_ne_null carved.head, if_false]
    refine Or.inr ⟨_, areas', q, rfl, {
      granted := granted.fill only
      data := fun i inside => ?_
      back := (only.prev carved.wf carved.head (Or.inl kept)).trans (back a listed)
      sentinel := (only.next carved.wf carved.head (Or.inr rfl)).trans sentinel
    }⟩
    have ends := wf.payload_le listed
    have bounds := wf.bounds listed
    calc
      memcpy k₁.mem (q + headerSize) (a + headerSize) (getAreaSize k.mem a)
          (q + headerSize + i)
      _ = k₁.mem (a + headerSize + i) :=
        carved.wf.memcpy_between kept carved.head fresh (by omega) (by omega) (by omega)
      _ = k.mem (a + headerSize + i) :=
        payloadKept.bytes _ (by bv_omega) (by bv_omega)

/-- The release at the end of a moving `krealloc` finds a back link it can trust: the area
before the old block is the same as ever, or the new block itself.
-/
theorem Linked.copied_safe {areas' : List Addr} (linked : Linked k.mem areas)
    (listed : a ∈ areas) (copied : Copied k k' areas areas' a q need)
    : BackLinkSafe k'.mem a ∧ mergeNode k'.mem a ∈ areas' := by
  have carved := copied.granted.carved
  have back := copied.back
  have predecessor (notNull : getPrevAddress k.mem a ≠ null)
      := linked.prev_lt listed notNull
  constructor
  · refine carved.wf.backLinkSafe (fun old free => ?_)
    have notNull := carved.wf.ne_null old
    rw [back] at old free notNull ⊢
    obtain ⟨before, link, _⟩ := predecessor notNull
    rw [carved.nextOther _ before, link]
    intro same
    have taken := (carved.used q carved.head).mpr (Or.inl ⟨rfl, rfl⟩)
    rw [same, taken] at free
    exact Bool.noConfusion free
  · rw [mergeNode]
    split
    · next onRoot =>
      rw [mergesTowardsRoot, back] at onRoot
      rw [back]
      exact carved.kept _ (predecessor onRoot.1).1
    · exact carved.kept a listed

/-- What a returning `krealloc` has done to the block at `a`: the block returned holds the
old data, and every other live block is as it was.
-/
structure Reallocated (m m' : Memory) (a new : Addr) (size : Nat) : Prop where
  live : Live m' (new - headerSize)
  room : size ≤ payload m' (new - headerSize)
  data
    : ∀ i : Word,
        i.toNat < min (payload m a) size → m' (new + i) = m (a + headerSize + i)
  gone : new ≠ a + headerSize → ¬Live m' a
  others : ∀ x, Live m x → x ≠ a → Live m' x ∧ PayloadKept m m' x

/-- Releasing the old block completes the move. -/
theorem Linked.copied_reallocated (linked : Linked k.mem areas) (live : Live k.mem a)
    (copied : Copied k k' areas areas' a q need) (smaller : payload k.mem a < need)
    : Reallocated k.mem (kfree k'.mem (a + headerSize)) a (q + headerSize) need := by
  have granted := copied.granted
  have wf' := granted.carved.wf
  obtain ⟨listed, used⟩ := linked.wf.live_iff.mp live
  obtain ⟨safe, node⟩ := linked.copied_safe listed copied
  obtain ⟨gone, keeps⟩ := wf'.kfree_keepsLive (granted.keepsLive linked.wf live).1 safe node
    (copied.sentinel.trans linked.sentinelNext)
  have fresh := granted.carved.fresh linked.wf granted.source granted.free listed used
  obtain ⟨liveQ, keptQ⟩ := keeps q granted.live (Ne.symm fresh)
  have room := granted.room
  constructor
  · rwa [BitVec.add_sub_cancel]
  · rw [BitVec.add_sub_cancel, keptQ.payload_eq]
    exact room
  · intro i inside
    have ends := wf'.payload_le granted.carved.head
    have bounds := wf'.bounds granted.carved.head
    rw [keptQ.bytes _ (by bv_omega) (by bv_omega), copied.data i (by omega)]
  · exact fun _ => gone
  · intro x other ne
    obtain ⟨between, first⟩ := granted.keepsLive linked.wf other
    obtain ⟨after, second⟩ := keeps x between ne
    exact ⟨after, first.trans second⟩

/-- `krealloc` of a live block keeps the data up to the smaller of the two sizes and every
other live block; when it returns NULL nothing has changed.
-/
theorem Linked.krealloc_keepsData (linked : Linked k.mem areas) {ptr : Addr}
    (live : Live k.mem (ptr - headerSize)) (positive : 1 ≤ size.toNat)
    (bounded : size.toNat ≤ 2 ^ 32 - 16)
    : ∃ new k',
        krealloc k ptr size = some (new, k')
        ∧ (new ≠ null → Reallocated k.mem k'.mem (ptr - headerSize) new size.toNat)
        ∧ (new = null → k'.mem = k.mem ∧ Live k'.mem (ptr - headerSize)) := by
  have wf := linked.wf
  obtain ⟨a, rfl⟩ : ∃ a, ptr = a + headerSize := ⟨ptr - headerSize, by bv_omega⟩
  rw [BitVec.add_sub_cancel] at live ⊢
  have listed := (wf.live_iff.mp live).1
  have notNull := wf.ptr_ne_null listed
  have notZero : size ≠ 0 := by
    rintro rfl
    cases positive
  have areaSize := wf.areaSize listed
  rw [krealloc, if_neg notZero, if_neg notNull, BitVec.add_sub_cancel]
  by_cases enough : getAreaSize k.mem a ≥ size
  · rw [if_pos enough]
    refine ⟨_, k, rfl, fun _ => ?_, fun zero => absurd zero notNull⟩
    constructor
    · rwa [BitVec.add_sub_cancel]
    · rw [BitVec.add_sub_cancel]
      bv_omega
    · exact fun _ _ => rfl
    · exact fun moved => absurd rfl moved
    · exact fun x other _ => ⟨other, PayloadKept.refl _ x⟩
  · have smaller : payload k.mem a < size.toNat := by bv_omega
    rw [if_neg enough]
    rcases wf.kreallocCopy_copied live smaller (by omega)
      with returned | ⟨k', areas', q, returned, copied⟩
    · simp only [returned, if_true]
      exact ⟨_, _, rfl, fun granted => absurd rfl granted, fun _ => ⟨rfl, live⟩⟩
    · have carved := copied.granted.carved
      have newNotNull := carved.wf.ptr_ne_null carved.head
      simp only [returned, newNotNull, if_false]
      exact ⟨_, _, rfl, fun _ => linked.copied_reallocated live copied smaller,
        fun zero => absurd zero newNotNull⟩

/-- The old contents are in the new block, or the old block is as it was. Witness: the first of
three blocks grows to where the two behind it were released.
-/
theorem krealloc_keepsData_moved
    : ∃ (k : Kernel) (new : Addr) (k' : Kernel),
        krealloc k 0xE0000008 40 = some (new, k')
        ∧ (new ≠ null → Reallocated k.mem k'.mem (0xE0000008 - headerSize) new 40)
        ∧ (new = null → k'.mem = k.mem ∧ Live k'.mem (0xE0000008 - headerSize)) := by
  have replayed
      : (heapMachine.replay (Releases ChainSafe)
            [.kmalloc 8, .kmalloc 8, .kmalloc 8, .kfree 0xE0000018, .kfree 0xE0000028]
            ⟨initHeap bareKernel, []⟩).map
          (fun s =>
            (
              decide (LinksMirrored s.kernel.mem),
              getAreaUsed s.kernel.mem heapStart,
              (krealloc s.kernel 0xE0000008 40).map Prod.fst
            ))
        = some (true, true, some 0xE0000018) := by
    decide +kernel
  obtain ⟨s, reached, checked⟩ := Option.map_eq_some_iff.mp replayed
  simp only [Prod.mk.injEq, decide_eq_true_eq] at checked
  obtain ⟨mirrored, used, _⟩ := checked
  have linked := Linked.of_replay reached mirrored
  have live := linked.wf.live_iff.mpr ⟨linked.wf.start_mem, used⟩
  exact ⟨s.kernel, linked.krealloc_keepsData live (by decide) (by decide)⟩

end SimpleKernel
