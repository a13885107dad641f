import SimpleKernel.Heap.Sessions

/-! Live blocks neither overlap nor change under the allocator.
Both hold as long as `kfree` follows trustworthy back links: `kmalloc`'s split leaves the
back link of the area behind as it was, so it can name a header that a merge has absorbed.
-/

namespace SimpleKernel

open ByteMemory Runs

variable {s s' : HeapSession} {k : Kernel} {areas : List Addr} {m m' : Memory} {a x : Addr}
  {b : LiveBlock} {call : HeapCall}

/-- The extents of the live blocks, headers included, lie in the heap and do not overlap. -/
def HeapSession.BlocksDisjoint (s : HeapSession) : Prop :=
  s.live.Pairwise
      (fun b c => b.stop.toNat ≤ c.header.toNat ∨ c.stop.toNat ≤ b.header.toNat)
  ∧ ∀ b ∈ s.live,
      0xE0000000 ≤ b.header.toNat
      ∧ b.header.toNat + 8 ≤ b.stop.toNat
      ∧ b.stop.toNat ≤ 0xFFBFFFF8

/-- Live blocks are different areas of one chain, which ascends. -/
theorem HeapSession.Sound.blocksDisjoint (sound : s.Sound areas) : s.BlocksDisjoint := by
  constructor
  · refine sound.distinct.imp_of_mem (fun {b c} left right ne => ?_)
    have apart := sound.wf.apart (sound.listed b left) (sound.listed c right)
      (fun same => ne (LiveBlock.header_eq_iff.mp same))
    rwa [sound.stop b left, sound.stop c right] at apart
  · intro b member
    have bounds := sound.wf.bounds (sound.listed b member)
    rwa [sound.stop b member] at bounds

/-- In a run whose releases keep the chain, live blocks never overlap and lie in the heap: each
of them has an area of its own, and the areas of a chain are disjoint.
-/
theorem heapRun_blocksDisjoint (fresh : k.heapRan = false)
    (run : heapMachine.Reaches (Releases ChainSafe) ⟨initHeap k, []⟩ s)
    : s.BlocksDisjoint := by
  obtain ⟨areas, sound⟩ := HeapSession.Sound.of_run fresh run
  exact sound.blocksDisjoint

/-- Three blocks of which the middle one is released and its space reused. -/
def reuseCalls : List HeapCall :=
  [
    .kmalloc 40, .kmalloc 8, .kpagealloc 1, .write 0xE0000008 7, .kfree 0xE0000038,
    .kmalloc 8, .krealloc 0xE0000008 100
  ]

/-- Live blocks do not overlap. Witness: three of them, behind a release and a reallocation. -/
theorem heapRun_blocksDisjoint_reuse
    : ∃ s, s.live.length = 3 ∧ HeapSession.BlocksDisjoint s := by
  have replayed
      : (heapMachine.replay (Releases ChainSafe) reuseCalls ⟨initHeap bareKernel, []⟩).map
          (fun s => s.live.length)
        = some 3 := by
    decide +kernel
  obtain ⟨s, reached, count⟩ := Option.map_eq_some_iff.mp replayed
  have run : heapMachine.Reaches (Releases ChainSafe) ⟨initHeap bareKernel, []⟩ s :=
    Machine.Reaches.refl.replay reached
  exact ⟨s, count, heapRun_blocksDisjoint rfl run⟩

/-- The last release merges into a header that still names its old area, across a live
block. The request that follows covers the live block at `0xE0000018`.
-/
def overlapCalls : List HeapCall :=
  [
    .kmalloc 40, .kmalloc 8, .kfree 0xE0000008, .kmalloc 8, .kmalloc 8, .kfree 0xE0000008,
    .kfree 0xE0000038, .kmalloc 40
  ]

/-- Live blocks overlap behind releases that do not meet the condition. Witness: a sequence of
calls after which two of them share a byte.
-/
theorem blocks_overlap_overlapCalls
    : ¬∀ (k : Kernel) (s : HeapSession),
        k.heapRan = false
        → heapMachine.Reaches AnyCall ⟨initHeap k, []⟩ s
        → s.BlocksDisjoint := by
  intro claim
  have replayed
      : (heapMachine.replay AnyCall overlapCalls ⟨initHeap bareKernel, []⟩).map
          (fun s => s.live)
        = some [⟨0xE0000008, 0xE0000030⟩, ⟨0xE0000018, 0xE0000030⟩] := by
    decide +kernel
  obtain ⟨s, reached, live⟩ := Option.map_eq_some_iff.mp replayed
  have disjoint := (claim bareKernel s rfl (Machine.Reaches.refl.replay reached)).1
  rw [live] at disjoint
  exact absurd disjoint (by decide)

-----------------------------------------------------------------------------------------
-- Payloads
-----------------------------------------------------------------------------------------

/-- A back link that a release merges with lies in no used area. -/
def BackLinkOutside (m : Memory) (a : Addr) : Prop :=
  mergesTowardsRoot m a
  → ∀ x ∈ chainAreas m,
      getAreaUsed m x = true
      → ¬(x < getPrevAddress m a ∧ getPrevAddress m a < getNextAddress m x)

instance (m : Memory) (a : Addr) : Decidable (BackLinkOutside m a) :=
  inferInstanceAs (Decidable (_ → _))

def PayloadSafe (m : Memory) (a : Addr) : Prop :=
  ChainSafe m a ∧ BackLinkOutside m a

instance (m : Memory) (a : Addr) : Decidable (PayloadSafe m a) :=
  inferInstanceAs (Decidable (_ ∧ _))

/-- The condition on payloads is more than what keeps the chain. -/
theorem Releases.chainSafe (safe : Releases PayloadSafe s call) : Releases ChainSafe s call :=
  fun release member => (safe release member).1

/-- The header a release writes through its back link is none of a used area's payload. -/
theorem WellFormed.mergeNode_outside (wf : WellFormed m areas) (listed : a ∈ areas)
    (outside : BackLinkOutside m a) (member : x ∈ areas) (used : getAreaUsed m x = true)
    {byte : Addr} (low : x.toNat + 8 ≤ byte.toNat)
    (high : byte.toNat < (getNextAddress m x).toNat)
    : OutsideHeader byte (mergeNode m a) := by
  rw [mergeNode]
  split
  · next onRoot =>
    have clear := outside onRoot x (by rwa [wf.chainAreas_eq]) used
    have ne : getPrevAddress m a ≠ x := by
      rintro rfl
      rw [onRoot.2] at used
      exact Bool.noConfusion used
    have aligned := wf.aligned member
    have alignedPrev := aligned_getPrevAddress m a
    have alignedNext := aligned_getNextAddress m x
    simp only [Aligned] at aligned alignedPrev alignedNext
    rw [OutsideHeader]
    bv_omega
  · exact wf.payload_outside member (Or.inl listed) low high

/-- A release leaves the payload of every other used area alone. -/
theorem Released.payload_kept (released : Released m m' a) (wf : WellFormed m areas)
    (listed : a ∈ areas) (safe : PayloadSafe m a) (member : x ∈ areas)
    (used : getAreaUsed m x = true) {byte : Addr} (low : x.toNat + 8 ≤ byte.toNat)
    (high : byte.toNat < (getNextAddress m x).toNat)
    : m' byte = m byte :=
  released.bytes byte
    (wf.payload_outside member (Or.inl listed) low high)
    (wf.mergeNode_outside listed safe.2 member used low high)
    (wf.payload_outside member (wf.next_mem listed) low high)
    (wf.payload_outside member (wf.mergeTarget_mem listed safe.1.1) low high)

/-- The payload bytes of a live block, by position. -/
theorem HeapSession.Sound.payload_bounds (sound : s.Sound areas) (member : b ∈ s.live)
    {byte : Addr} (low : b.ptr ≤ byte) (high : byte < b.stop)
    : b.header.toNat + 8 ≤ byte.toNat
      ∧ byte.toNat < (getNextAddress s.kernel.mem b.header).toNat := by
  have bounds := sound.wf.bounds (sound.listed b member)
  rw [sound.stop b member] at bounds ⊢
  simp only [LiveBlock.header] at bounds ⊢
  bv_omega

/-- An allocation leaves the payload of a live block alone. -/
theorem HeapSession.Sound.granted_payload (sound : s.Sound areas) {k' : Kernel}
    {areas' : List Addr} {q : Addr} {need : Nat}
    (granted : Granted s.kernel k' areas areas' a q need) (member : b ∈ s.live)
    {byte : Addr} (low : b.ptr ≤ byte) (high : byte < b.stop)
    : k'.mem byte = s.kernel.mem byte := by
  have keeps := granted.carved.keeps sound.wf granted.source granted.free
    (sound.listed b member) (sound.used b member)
  have inside := sound.payload_bounds member low high
  exact keeps.2.2.2 byte inside.1 inside.2

/-- A safe release leaves the payload of every other live block alone. -/
theorem HeapSession.Sound.release_payload (sound : s.Sound areas) {c : LiveBlock}
    (released : c ∈ s.live) (safe : PayloadSafe s.kernel.mem c.header) (member : b ∈ s.live)
    {byte : Addr} (low : b.ptr ≤ byte) (high : byte < b.stop)
    : kfree s.kernel.mem c.ptr byte = s.kernel.mem byte := by
  have inside := sound.payload_bounds member low high
  exact (sound.kfree_released released).payload_kept sound.wf (sound.listed c released) safe
    (sound.listed b member) (sound.used b member) inside.1 inside.2

/-- In a run whose releases follow back links that are outside live payloads, every call of
the allocator leaves the payload bytes of the blocks live before it as they were, also those of
a block that it releases. By the steps of a session: each writes headers, or the new block.
-/
theorem heapRun_payloads_kept (fresh : k.heapRan = false)
    (run : heapMachine.Reaches (Releases PayloadSafe) ⟨initHeap k, []⟩ s)
    (enabled : heapMachine.enabled s call) (safe : Releases PayloadSafe s call)
    (returned : heapMachine.exec s call = some s')
    (allocator : ∀ address value, call ≠ .write address value) (before : b ∈ s.live)
    {byte : Addr} (low : b.ptr ≤ byte) (high : byte < b.stop)
    : s'.kernel.mem byte = s.kernel.mem byte := by
  obtain ⟨areas, sound⟩ := HeapSession.Sound.of_run fresh
    (run.weaken (fun _ _ _ guarded => guarded.chainSafe))
  cases sound.step_cases enabled returned with
  | unchanged same => rw [same]
  | granted granted _ same =>
      have notNull := granted.carved.wf.ptr_ne_null granted.carved.head
      rw [same, HeapSession.grant, if_neg notNull]
      exact sound.granted_payload granted before low high
  | released member release same =>
      rw [same]
      exact sound.release_payload member (safe.of_release release) before low high
  | @moved c k' _ _ q _ member granted _ release same =>
      have notNull := granted.carved.wf.ptr_ne_null granted.carved.head
      have copied := sound.granted granted
      rw [same, HeapSession.grant, if_neg notNull]
      rw [HeapSession.grant, if_neg notNull] at copied
      have kept := copied.release_payload (List.mem_cons_of_mem _ member)
        (safe.of_release release) (List.mem_cons_of_mem _ before) low high
      rw [← sound.granted_payload granted before low high]
      exact kept
  | wrote _ _ _ write _ => exact absurd write (allocator _ _)

/-- A release leaves the bytes of other blocks alone. Witness: the first byte of the first
block, when the second is released.
-/
theorem heapRun_payloads_kept_reuse
    : ∃ s s' : HeapSession,
        heapMachine.exec s (.kfree 0xE0000038) = some s'
        ∧ s'.kernel.mem 0xE0000008 = s.kernel.mem 0xE0000008 := by
  have replayed
      : (heapMachine.replay (Releases PayloadSafe) [.kmalloc 40, .kmalloc 8]
            ⟨initHeap bareKernel, []⟩).map
          (fun s => (s.live, decide (Releases PayloadSafe s (.kfree 0xE0000038))))
        = some ([⟨0xE0000038, 0xE0000040⟩, ⟨0xE0000008, 0xE0000030⟩], true) := by
    decide +kernel
  obtain ⟨s, reached, seen⟩ := Option.map_eq_some_iff.mp replayed
  obtain ⟨live, safe⟩ := Prod.mk.inj seen
  have run : heapMachine.Reaches (Releases PayloadSafe) ⟨initHeap bareKernel, []⟩ s :=
    Machine.Reaches.refl.replay reached
  have enabled : heapMachine.enabled s (.kfree 0xE0000038) :=
    Or.inr ⟨⟨0xE0000038, 0xE0000040⟩, by simp [live], rfl⟩
  have before : ⟨0xE0000008, 0xE0000030⟩ ∈ s.live := by simp [live]
  exact ⟨s, _, rfl, heapRun_payloads_kept rfl run enabled (of_decide_eq_true safe) rfl
    (by simp) before (by decide) (by decide)⟩

/-- A header absorbed by a merge is payload of the block at `0xE0000008`, and the back link
of the block at `0xE0000028` still names it.
-/
def absorbedCalls : List HeapCall :=
  [
    .kmalloc 8, .kmalloc 8, .kmalloc 8, .kfree 0xE0000018, .kfree 0xE0000008, .kmalloc 8
  ]

/-- A release that does not meet the condition changes a byte of a live block. Witness: the
merge writes into a block that lies where a header was.
-/
theorem payload_changed_absorbedCalls
    : ¬∀ (k : Kernel) (s s' : HeapSession) (ptr : Addr) (b : LiveBlock) (byte : Addr),
        k.heapRan = false
        → heapMachine.Reaches AnyCall ⟨initHeap k, []⟩ s
        → heapMachine.enabled s (.kfree ptr)
        → heapMachine.exec s (.kfree ptr) = some s'
        → b ∈ s.live
        → b ∈ s'.live
        → b.ptr ≤ byte
        → byte < b.stop
        → s'.kernel.mem byte = s.kernel.mem byte := by
  intro claim
  have replayed
      : (heapMachine.replay AnyCall absorbedCalls ⟨initHeap bareKernel, []⟩).map
          (fun s =>
            (s.live, s.kernel.mem 0xE0000010, kfree s.kernel.mem 0xE0000028 0xE0000010))
        = some ([⟨0xE0000008, 0xE0000020⟩, ⟨0xE0000028, 0xE0000030⟩], 0x20, 0xF8) := by
    decide +kernel
  obtain ⟨s, reached, seen⟩ := Option.map_eq_some_iff.mp replayed
  simp only [Prod.mk.injEq] at seen
  obtain ⟨live, before, after⟩ := seen
  have held : s.Holds 0xE0000028 := Or.inr ⟨⟨0xE0000028, 0xE0000030⟩, by simp [live], rfl⟩
  have kept : kfree s.kernel.mem 0xE0000028 0xE0000010 = s.kernel.mem 0xE0000010 :=
    claim bareKernel s _ 0xE0000028 ⟨0xE0000008, 0xE0000020⟩ 0xE0000010 rfl
      (Machine.Reaches.refl.replay reached) held rfl (by simp [live])
      (by simp [HeapSession.without, live]) (by decide) (by decide)
  rw [before, after] at kept
  exact absurd kept (by decide)

end SimpleKernel
