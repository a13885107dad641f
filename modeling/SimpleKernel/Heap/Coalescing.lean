import SimpleKernel.Heap.LiveBlocks

/-! Free areas are coalesced.
Merging looks at the stored neighbours only, so it misses a free predecessor that the back
link does not name.
-/

namespace SimpleKernel

open ByteMemory Runs

variable {s s' : HeapSession} {k : Kernel} {m m' : Memory} {areas areas' : List Addr}
  {a x q : Addr} {call : HeapCall}

/-- No two consecutive areas before `heap_end` are both free. -/
def Coalesced (m : Memory) : Prop :=
  ∀ a ∈ chainAreas m,
    getNextAddress m a ∈ chainAreas m
    → getAreaUsed m a = true ∨ getAreaUsed m (getNextAddress m a) = true

instance (m : Memory) : Decidable (Coalesced m) :=
  inferInstanceAs (Decidable (∀ a ∈ chainAreas m, _ → _))

/-- The area at `a` does not border `heap_end`, and its back link names the area before it
whenever that one is free or the link names a free area.
-/
def CoalesceSafe (m : Memory) (a : Addr) : Prop :=
  getNextAddress m a ≠ heapEnd
  ∧ (∀ x ∈ chainAreas m,
      getNextAddress m x = a → getAreaUsed m x = false → getPrevAddress m a = x)
  ∧ (mergesTowardsRoot m a
    → getPrevAddress m a ∈ chainAreas m ∧ getNextAddress m (getPrevAddress m a) = a)

instance (m : Memory) (a : Addr) : Decidable (CoalesceSafe m a) :=
  inferInstanceAs (Decidable (_ ∧ (∀ x ∈ chainAreas m, _ → _ → _) ∧ (_ → _)))

/-- The condition is more than what keeps the chain. -/
theorem CoalesceSafe.chainSafe (safe : CoalesceSafe m a) (wf : WellFormed m areas)
    : ChainSafe m a :=
  ⟨safe.1, wf.backLinkSafe (fun listed free => (safe.2.2 ⟨wf.ne_null listed, free⟩).2)⟩

/-- After an allocation the block is used, and what is left behind it is free but followed
by an area that was already used, since the area it came from was free.
-/
theorem Carved.coalesced (carved : Carved m m' areas areas' a q true) (wf : WellFormed m areas)
    (member : a ∈ areas) (free : getAreaUsed m a = false) (coalesced : Coalesced m)
    : Coalesced m' := by
  rw [Coalesced, wf.chainAreas_eq] at coalesced
  rw [Coalesced, carved.wf.chainAreas_eq]
  have block : getAreaUsed m' q = true := (carved.used q carved.head).mpr (Or.inl ⟨rfl, rfl⟩)
  have kept {x} (listed : x ∈ areas) (used : getAreaUsed m x = true)
      : getAreaUsed m' x = true :=
    (carved.used x (carved.kept x listed)).mpr (Or.inr ⟨listed, used⟩)
  have old {x} (listed : x ∈ areas) (inside : getNextAddress m x ∈ areas')
      : getNextAddress m x ∈ areas :=
    (wf.next_mem listed).resolve_right (carved.wf.ne_heapEnd inside)
  intro x listed inside
  by_cases earlier : x ∈ areas
  · by_cases source : x = a
    · subst source
      by_cases start : x = q
      · exact Or.inl (by rw [start]; exact block)
      · exact Or.inr (by rw [carved.nextStart start]; exact block)
    · rw [carved.nextOther x earlier source] at inside ⊢
      have next := old earlier inside
      exact (coalesced x earlier next).imp (kept earlier) (kept next)
  · rcases carved.heads x listed with inAreas | rfl | rfl
    · exact absurd inAreas earlier
    · exact Or.inl block
    · rcases carved.nextBlock with whole | ⟨_, behind⟩
      · rw [whole] at listed earlier
        exact absurd (old member listed) earlier
      · rw [behind] at inside ⊢
        have next := old member inside
        have used := (coalesced a member next).resolve_left (by simp [free])
        exact Or.inr (kept next used)

/-- The area that the release merges into is on the chain, because the back link names it. -/
theorem CoalesceSafe.node_mem (safe : CoalesceSafe m a) (wf : WellFormed m areas)
    (listed : a ∈ areas)
    : mergeNode m a ∈ areas := by
  rw [CoalesceSafe, wf.chainAreas_eq] at safe
  rw [mergeNode]
  split
  · next onRoot => exact (safe.2.2 onRoot).1
  · exact listed

/-- The area before a released one is the merge node or is used: a free one is named by the
back link.
-/
theorem CoalesceSafe.used_before (safe : CoalesceSafe m a) (wf : WellFormed m areas)
    (listed : x ∈ areas) (into : getNextAddress m x = a) (other : x ≠ mergeNode m a)
    : getAreaUsed m x = true := by
  rw [CoalesceSafe, wf.chainAreas_eq] at safe
  by_contra unused
  have free : getAreaUsed m x = false := by simpa using unused
  have back := safe.2.1 x listed into free
  have onRoot : mergesTowardsRoot m a := by
    rw [mergesTowardsRoot, back]
    exact ⟨wf.ne_null listed, free⟩
  refine other ?_
  rw [mergeNode, if_pos onRoot, back]

/-- What a release leaves behind the merged area is used: either the area behind the released
one, or the one behind that, which follows a free area.
-/
theorem Coalesced.target_used (coalesced : Coalesced m) (wf : WellFormed m areas)
    (listed : a ∈ areas) (notLast : getNextAddress m a ≠ heapEnd)
    (target : mergeTarget m a ∈ areas)
    : getAreaUsed m (mergeTarget m a) = true := by
  rw [Coalesced, wf.chainAreas_eq] at coalesced
  have behind := (wf.next_mem listed).resolve_right notLast
  rw [mergeTarget] at target ⊢
  split at target
  · next onTail =>
    rw [if_pos onTail]
    exact (coalesced _ behind target).resolve_left (by simp [onTail.2])
  · next offTail =>
    rw [if_neg offTail]
    by_contra free
    exact offTail ⟨wf.ne_null behind, by simpa using free⟩

/-- A release merges with the area before it if that is free, and with the one behind if
that is; what follows the merged area was used already.
-/
theorem Released.coalesced (released : Released m m' a) (wf : WellFormed m areas)
    (listed : a ∈ areas) (safe : CoalesceSafe m a) (coalesced : Coalesced m)
    : Coalesced m' := by
  have chainSafe := safe.chainSafe wf
  obtain ⟨areas', wf', members⟩ := released.exists_wellFormed wf listed safe.1 chainSafe.2
  rw [Coalesced, wf'.chainAreas_eq]
  have node := safe.node_mem wf listed
  have bounds := wf.bounds listed
  have low := wf.mergeNode_le chainSafe.2 node
  have ahead := wf.mergeTarget_ahead listed safe.1
  have still {x} (inside : x ∈ areas) (ne : x ≠ a)
      : getAreaUsed m' x = getAreaUsed m x := by
    rw [released.used x (wf.aligned inside), if_neg ne]
  intro x member inside
  obtain ⟨old, position⟩ := (members x).mp member
  have next := ((members _).mp inside).1
  by_cases merged : x = mergeNode m a
  · -- the merged area is followed by the target of the merge
    rw [released.next x (wf.aligned old), if_pos merged] at next ⊢
    have ne : mergeTarget m a ≠ a := by
      intro same
      rw [same] at ahead
      omega
    refine Or.inr ?_
    rw [still next ne]
    exact coalesced.target_used wf listed safe.1 next
  · rw [released.next x (wf.aligned old), if_neg merged] at next ⊢
    by_cases into : getNextAddress m x = a
    · have ne : x ≠ a := by
        rintro rfl
        exact wf.next_ne_self old into
      refine Or.inl ?_
      rw [still old ne]
      exact safe.used_before wf old into merged
    · have ne : x ≠ a := by
        rintro rfl
        have self : x.toNat ≠ (mergeNode m x).toNat :=
          fun same => merged (BitVec.eq_of_toNat_eq same)
        rcases position node with beyond | beyond
        · omega
        · omega
      rw [still old ne, still next into]
      rw [Coalesced, wf.chainAreas_eq] at coalesced
      exact coalesced x old next

/-- Bytes stored in a payload make no area free. -/
theorem PayloadOnly.coalesced (only : PayloadOnly m m' q) (wf : WellFormed m areas)
    (listed : q ∈ areas) (coalesced : Coalesced m)
    : Coalesced m' := by
  rw [Coalesced, wf.chainAreas_eq] at coalesced
  rw [Coalesced, (only.wellFormed wf listed).chainAreas_eq]
  intro x member inside
  rw [only.next wf listed (Or.inl member)] at inside ⊢
  rw [only.used wf listed (Or.inl member), only.used wf listed (Or.inl inside)]
  exact coalesced x member inside

/-- Sound sessions whose free areas are coalesced. -/
def HeapSession.SoundCoalesced (s : HeapSession) : Prop :=
  (∃ areas, s.Sound areas) ∧ Coalesced s.kernel.mem

/-- Every call keeps the heap coalesced. By the steps of a session, a release by its own lemma.
-/
theorem HeapSession.SoundCoalesced.step (earlier : s.SoundCoalesced)
    (enabled : heapMachine.enabled s call) (safe : Releases CoalesceSafe s call)
    (returned : heapMachine.exec s call = some s')
    : s'.SoundCoalesced := by
  obtain ⟨⟨areas, sound⟩, coalesced⟩ := earlier
  cases sound.step_cases enabled returned with
  | unchanged same =>
      rw [same]
      exact ⟨⟨areas, sound⟩, coalesced⟩
  | granted granted _ same =>
      have notNull := granted.carved.wf.ptr_ne_null granted.carved.head
      rw [same]
      refine ⟨⟨_, sound.granted granted⟩, ?_⟩
      rw [HeapSession.grant, if_neg notNull]
      exact granted.carved.coalesced sound.wf granted.source granted.free coalesced
  | released member release same =>
      have safeHere := safe.of_release release
      rw [same]
      exact ⟨sound.release member (safeHere.chainSafe sound.wf),
        (sound.kfree_released member).coalesced sound.wf (sound.listed _ member)
          safeHere coalesced⟩
  | @moved b k' areas' a q need member granted _ release same =>
      have notNull := granted.carved.wf.ptr_ne_null granted.carved.head
      have safeHere := safe.of_release release
      have copied := sound.granted granted
      have filled :=
        granted.carved.coalesced sound.wf granted.source granted.free coalesced
      rw [same]
      refine ⟨sound.moved member granted (safeHere.chainSafe granted.carved.wf), ?_⟩
      rw [HeapSession.grant, if_neg notNull] at copied ⊢
      have inside := List.mem_cons_of_mem
        ⟨q + headerSize, getNextAddress k'.mem (q + headerSize - headerSize)⟩ member
      exact (copied.kfree_released inside).coalesced copied.wf (copied.listed b inside)
        safeHere filled
  | @wrote b address value member low high _ same =>
      have only := sound.payloadOnly member low high value
      rw [same]
      exact ⟨⟨areas, sound.payload member only⟩,
        only.coalesced sound.wf (sound.listed _ member) coalesced⟩

/-- In a run whose releases find the area before them by their back link, no two
consecutive areas are ever both free.
-/
theorem heapRun_coalesced (fresh : k.heapRan = false)
    (run : heapMachine.Reaches (Releases CoalesceSafe) ⟨initHeap k, []⟩ s)
    : Coalesced s.kernel.mem := by
  have initial := initHeap_wellFormed fresh
  have both : s.SoundCoalesced := by
    refine run.invariant ?_ ?_
    · refine ⟨⟨_, .initial fresh⟩, ?_⟩
      rw [Coalesced, initial.chainAreas_eq]
      intro a member inside
      obtain rfl := List.mem_singleton.mp member
      have next : getNextAddress (initHeap k).mem heapStart = heapEnd := initial.chain.2.2
      rw [next] at inside
      exact absurd inside (by decide)
    · exact fun earlier enabled guarded returned => earlier.step enabled guarded returned
  exact both.2

/-- No two free areas are neighbours. Witness: a run that releases a block and uses it again.
-/
theorem heapRun_coalesced_reuse
    : ∃ s : HeapSession, s.live.length = 3 ∧ Coalesced s.kernel.mem := by
  have replayed
      : (heapMachine.replay (Releases CoalesceSafe) reuseCalls ⟨initHeap bareKernel, []⟩).map
          (fun s => s.live.length)
        = some 3 := by
    decide +kernel
  obtain ⟨s, reached, count⟩ := Option.map_eq_some_iff.mp replayed
  have run : heapMachine.Reaches (Releases CoalesceSafe) ⟨initHeap bareKernel, []⟩ s :=
    Machine.Reaches.refl.replay reached
  exact ⟨s, count, heapRun_coalesced rfl run⟩

/-- A merge towards the tail alone leaves the back link of the area behind it stale.
Counterexample: three neighbours released in the order second, first, third, where the last
merges into a header off the chain.
-/
theorem not_coalesced_neighbours
    : ¬∀ (k : Kernel) (s : HeapSession),
        k.heapRan = false
        → heapMachine.Reaches AnyCall ⟨initHeap k, []⟩ s
        → Coalesced s.kernel.mem := by
  intro claim
  have replayed
      : (heapMachine.replay AnyCall
            [
              .kmalloc 8, .kmalloc 8, .kmalloc 8, .kfree 0xE0000018, .kfree 0xE0000008,
              .kfree 0xE0000028
            ]
            ⟨initHeap bareKernel, []⟩).map
          (fun s => decide (Coalesced s.kernel.mem))
        = some false := by
    decide +kernel
  obtain ⟨s, reached, apart⟩ := Option.map_eq_some_iff.mp replayed
  have coalesced := claim bareKernel s rfl (Machine.Reaches.refl.replay reached)
  exact of_decide_eq_false apart coalesced

end SimpleKernel
