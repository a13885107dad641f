import SimpleKernel.Heap.LiveBlocks

/-! The chain stays walkable.
It does as long as no block that ends at `heap_end` is released: the sentinel's used bit is
clear, so `merge_free_areas` absorbs it and stores its NULL next address.
-/

namespace SimpleKernel

open ByteMemory Runs

variable {s : HeapSession} {k : Kernel} {m : Memory} {areas : List Addr}

/-- Following next addresses from `heap_start` visits ascending aligned headers up to
`heap_end`, never NULL, and the scans of both allocators end there for every request.
-/
structure Walkable (m : Memory) (areas : List Addr) : Prop where
  wf : WellFormed m areas
  aligned : ∀ a ∈ areas, Aligned a
  ascending : areas.Pairwise (fun a b => a.toNat < b.toNat)
  inside : ∀ a ∈ areas, 0xE0000000 ≤ a.toNat ∧ a.toNat + 8 ≤ 0xFFBFFFF8
  linked : ∀ a ∈ areas, getNextAddress m a ≠ null
  kmallocEnds : ∀ size, (kmallocScan m size).isSome = true
  kpageallocEnds : ∀ size, (kpageallocScan m size).isSome = true

/-- A chain that is well formed can be walked from `heap_start` to its only epsilon header. -/
theorem WellFormed.walkable (wf : WellFormed m areas) : Walkable m areas where
  wf := wf
  aligned _ member := wf.aligned member
  ascending := by
    refine wf.chain.pairwise.imp_of_mem (fun left _ behind => ?_)
    have bounds := wf.bounds left
    omega
  inside a member := by
    have bounds := wf.bounds member
    omega
  linked _ member := wf.next_ne_null member
  kmallocEnds size := by rw [wf.kmallocScan_eq, Option.isSome_some]
  kpageallocEnds size := by rw [wf.kpageallocScan_eq, Option.isSome_some]

/-- In a run whose releases border no sentinel and follow sound back links, the chain is
walkable in every state.
-/
theorem heapRun_walkable (fresh : k.heapRan = false)
    (run : heapMachine.Reaches (Releases ChainSafe) ⟨initHeap k, []⟩ s)
    : ∃ areas, Walkable s.kernel.mem areas := by
  obtain ⟨areas, sound⟩ := HeapSession.Sound.of_run fresh run
  exact ⟨areas, sound.wf.walkable⟩

/-- The chain can be walked behind a run. Witness: three live blocks in the places of two. -/
theorem heapRun_walkable_reuse
    : ∃ s : HeapSession, s.live.length = 3 ∧ ∃ areas, Walkable s.kernel.mem areas := by
  have replayed
      : (heapMachine.replay (Releases ChainSafe) reuseCalls ⟨initHeap bareKernel, []⟩).map
          (fun s => s.live.length)
        = some 3 := by
    decide +kernel
  obtain ⟨s, reached, count⟩ := Option.map_eq_some_iff.mp replayed
  have run : heapMachine.Reaches (Releases ChainSafe) ⟨initHeap bareKernel, []⟩ s :=
    Machine.Reaches.refl.replay reached
  exact ⟨s, count, heapRun_walkable rfl run⟩

/-- Releasing a block that takes the whole heap leaves a NULL next address in the first
header.
-/
theorem not_walkable_wholeHeap
    : ¬∀ (k : Kernel) (s : HeapSession),
        k.heapRan = false
        → heapMachine.Reaches AnyCall ⟨initHeap k, []⟩ s
        → ∃ areas, Walkable s.kernel.mem areas := by
  intro claim
  have replayed
      : (heapMachine.replay AnyCall [.kmalloc 0x1FBFFFE0, .kfree 0xE0000008]
            ⟨initHeap bareKernel, []⟩).map
          (fun s => getNextAddress s.kernel.mem heapStart)
        = some null := by
    decide +kernel
  obtain ⟨s, reached, broken⟩ := Option.map_eq_some_iff.mp replayed
  obtain ⟨areas, walkable⟩ := claim bareKernel s rfl (Machine.Reaches.refl.replay reached)
  exact walkable.linked heapStart walkable.wf.start_mem broken

end SimpleKernel
