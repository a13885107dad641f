import SimpleKernel.Heap.Sessions

/-! Back links that mirror the chain.
`kpagealloc`'s first head repairs the back link of the area behind it; the split that both
allocators share does not, nor does a merge towards the tail alone.
-/

namespace SimpleKernel

open ByteMemory Segments Runs

variable {m m' : Memory} {k k' : Kernel} {areas areas' : List Addr} {a q new x ptr : Addr}

/-- A well-formed chain whose back links name the area before, with the ends as `init_heap`
leaves them.
-/
structure Linked (m : Memory) (areas : List Addr) : Prop where
  wf : WellFormed m areas
  sentinelNext : getNextAddress m heapEnd = null
  start : getPrevAddress m heapStart = null
  back : ∀ a ∈ areas, getPrevAddress m (getNextAddress m a) = a

/-- The links of `Linked`, by one pass over the chain. -/
def LinksMirrored (m : Memory) : Prop :=
  getNextAddress m heapEnd = null
  ∧ getPrevAddress m heapStart = null
  ∧ ∀ a ∈ chainAreas m, getPrevAddress m (getNextAddress m a) = a

instance (m : Memory) : Decidable (LinksMirrored m) :=
  inferInstanceAs (Decidable (_ ∧ _ ∧ ∀ a ∈ chainAreas m, _))

/-- Mirrored links on a chain that is well formed. -/
theorem WellFormed.linked (wf : WellFormed m areas) (mirrored : LinksMirrored m)
    : Linked m areas where
  wf := wf
  sentinelNext := mirrored.1
  start := mirrored.2.1
  back := by
    have back := mirrored.2.2
    rwa [wf.chainAreas_eq] at back

/-- The chain after a run on the bare machine, when its links turn out mirrored. -/
theorem Linked.of_replay {calls : List HeapCall} {s : HeapSession}
    (reached : heapMachine.replay (Releases ChainSafe) calls ⟨initHeap bareKernel, []⟩ = some s)
    (mirrored : LinksMirrored s.kernel.mem)
    : Linked s.kernel.mem (chainAreas s.kernel.mem) := by
  obtain ⟨areas, sound⟩ := HeapSession.Sound.of_run rfl (Machine.Reaches.refl.replay reached)
  rw [sound.wf.chainAreas_eq]
  exact sound.wf.linked mirrored

/-- Different areas have different successors. -/
theorem WellFormed.next_ne (wf : WellFormed m areas) (left : x ∈ areas) (right : a ∈ areas)
    (ne : x ≠ a)
    : getNextAddress m x ≠ getNextAddress m a := by
  intro same
  have boundsX := wf.bounds left
  have boundsA := wf.bounds right
  rw [same] at boundsX
  have apart := wf.apart left right ne
  rw [same] at apart
  omega

-----------------------------------------------------------------------------------------
-- Allocation
-----------------------------------------------------------------------------------------

/-- Marking an area moves no link. -/
theorem Linked.setAreaUsed (linked : Linked m areas) (member : a ∈ areas) (used : Bool)
    : Linked (SimpleKernel.setAreaUsed m a used) areas := by
  have alignedA := linked.wf.aligned member
  have next (x) (aligned : Aligned x)
      : getNextAddress (SimpleKernel.setAreaUsed m a used) x = getNextAddress m x := by
    simp [alignedA, aligned]
  refine {
    wf := linked.wf.congr (fun x inside => next x (linked.wf.aligned inside))
      (fun x inside => by simp [alignedA, linked.wf.aligned inside]) (by simp [alignedA])
    sentinelNext := by rw [next heapEnd aligned_heapEnd, linked.sentinelNext]
    start := ?_
    back := fun x inside => ?_
  }
  · rw [getPrevAddress_setAreaUsed alignedA aligned_heapStart, linked.start]
  · rw [next x (linked.wf.aligned inside),
      getPrevAddress_setAreaUsed alignedA (aligned_getNextAddress _ _), linked.back x inside]

section Insert

variable (linked : Linked m areas) (member : a ∈ areas) (aligned : Aligned new)
  (low : a.toNat + 8 ≤ new.toNat) (high : new.toNat + 8 ≤ (getNextAddress m a).toNat)
include linked member aligned low high

/-- A head that repairs the link behind it keeps every back link right. -/
theorem HeaderInserted.keepsLinked (inserted : HeaderInserted m m' a new)
    (repaired : getPrevAddress m' (getNextAddress m a) = new)
    : ∃ areas', Linked m' areas' ∧ new ∈ areas' := by
  have wf := linked.wf
  have bounds := wf.bounds member
  have fresh := inserted.not_mem wf member aligned low high
  have top := heapEnd_toNat
  obtain ⟨areas', wf', listed⟩ := inserted.exists_wellFormed wf member aligned low high
  have ne {x} (inside : x ∈ areas) : x ≠ new := by
    rintro rfl
    exact fresh inside
  refine ⟨areas', {
    wf := wf'
    sentinelNext := ?_
    start := ?_
    back := fun x inside => ?_
  }, (listed new).mpr (Or.inr rfl)⟩
  · rw [inserted.nextOther heapEnd aligned_heapEnd (wf.ne_heapEnd member).symm
      (by rintro rfl; omega), linked.sentinelNext]
  · rw [inserted.prevOther heapStart aligned_heapStart (ne wf.start_mem), linked.start]
    intro same
    rw [← same, heapStart_toNat] at bounds
    omega
  · rcases (listed x).mp inside with old | rfl
    · by_cases source : x = a
      · rw [source, inserted.nextOld, inserted.prevNew]
      · have neNext : getNextAddress m x ≠ new := by
          rcases wf.next_mem old with next | sentinel
          · exact ne next
          · rw [sentinel]
            rintro rfl
            omega
        rw [inserted.nextOther x (wf.aligned old) source (ne old),
          inserted.prevOther _ (aligned_getNextAddress _ _) neNext
            (wf.next_ne old member source),
          linked.back x old]
    · rw [inserted.nextNew, repaired]

/-- The shared split leaves the back link behind the new head naming the old one. -/
theorem insertArea_not_linked
    : ¬∃ areas', Linked (SimpleKernel.setAreaUsed (insertArea m a new) a true) areas' := by
  rintro ⟨areas', broken⟩
  have wf := linked.wf
  have alignedA := wf.aligned member
  have ne : a ≠ new := by
    rintro rfl
    omega
  have neNext : getNextAddress m a ≠ new := by
    rintro rfl
    omega
  have inserted := insertArea_inserted (m := m) alignedA aligned ne
  obtain ⟨list, wf', listed⟩ := inserted.exists_wellFormed wf member aligned low high
  have wfUsed : WellFormed (SimpleKernel.setAreaUsed (insertArea m a new) a true) list :=
    wf'.congr (fun x inside => by simp [alignedA, wf'.aligned inside])
      (fun x inside => by simp [alignedA, wf'.aligned inside]) (by simp [alignedA])
  have inside : new ∈ areas' := by
    rw [broken.wf.unique wfUsed]
    exact (listed new).mpr (Or.inr rfl)
  have back := broken.back new inside
  rw [getNextAddress_setAreaUsed alignedA aligned, inserted.nextNew,
    getPrevAddress_setAreaUsed alignedA (aligned_getNextAddress _ _),
    insertArea_prev_next alignedA aligned neNext, linked.back a member] at back
  exact ne back

end Insert

/-- Every result of an allocating call is again linked. -/
def KeepsLinks (result : Option (Addr × Kernel)) : Prop :=
  ∀ ptr k', result = some (ptr, k') → ∃ areas', Linked k'.mem areas'

/-- A call that returns keeps the links if the chain behind it has them. -/
theorem keepsLinks_iff : KeepsLinks (some (ptr, k')) ↔ ∃ areas', Linked k'.mem areas' := by
  constructor
  · exact fun keeps => keeps ptr k' rfl
  · rintro linked _ _ returned
    obtain ⟨_, rfl⟩ := Prod.mk.inj (Option.some.inj returned)
    exact linked

/-- `kmalloc` keeps the back links right exactly when it does not split. -/
theorem Linked.kmalloc_iff (linked : Linked k.mem areas) {size : Word}
    (bounded : size.toNat + 15 < 2 ^ 32)
    : KeepsLinks (kmalloc k size)
      ↔ size = 0
        ∨ ∀ a ∈ kmallocBest k.mem areas ((size.toNat + 15) / 8 * 8),
            payload k.mem a ≤ (size.toNat + 15) / 8 * 8 + 16 := by
  have wf := linked.wf
  have rounded := kmallocSize_toNat bounded
  by_cases positive : size = 0
  · rw [kmalloc, if_pos positive, keepsLinks_iff]
    exact ⟨fun _ => Or.inl positive, fun _ => ⟨areas, linked⟩⟩
  · rcases wf.kmalloc_cases positive
      with ⟨none, returned⟩ | ⟨a, vm, best, member, fits, _, returned⟩
    · rw [returned, keepsLinks_iff]
      rw [rounded] at none
      simp only [none, Option.not_mem_none, false_imp_iff, implies_true, or_true, iff_true]
      exact ⟨areas, linked⟩
    · have fit := (kmallocFits_iff.mp fits).2
      have splits := wf.kmallocSplits_iff member fit
      have alignedSize := aligned_kmallocSize size
      rw [returned, keepsLinks_iff]
      rw [rounded] at best splits fit
      simp only [positive, best, Option.mem_some_iff, forall_eq', false_or, kmallocCarve]
      cases split : kmallocSplits (getAreaSize k.mem a) (kmallocSize size) with
      | false =>
          have small : ¬(size.toNat + 15) / 8 * 8 + 16 < payload k.mem a := by
            rw [← splits, split]
            exact Bool.false_ne_true
          simp only [Bool.false_eq_true, if_false]
          exact ⟨fun _ => Nat.not_lt.mp small, fun _ => ⟨areas, linked.setAreaUsed member true⟩⟩
      | true =>
          have large := splits.mp split
          obtain ⟨_, aligned, sum, behind⟩ := wf.remainder_inserted member
            alignedSize (by omega) (by rwa [rounded])
          simp only [if_true]
          refine ⟨fun kept => absurd kept ?_, fun small => absurd large (Nat.not_lt.mpr small)⟩
          exact insertArea_not_linked linked member aligned (by omega) behind

/-- `kpagealloc`'s first head repairs the back link behind it. -/
theorem Linked.pageHead (linked : Linked m areas) (member : a ∈ areas) {size : Nat}
    (fits : kpageallocFits m size a = true) {mid : Memory}
    (opened
      : (if nextPage a - headerSize ≠ a then insertPageHead m a (nextPage a - headerSize)
          else m)
        = mid)
    : getNextAddress mid (nextPage a - headerSize) = getNextAddress m a
      ∧ ∃ areas', Linked mid areas' ∧ nextPage a - headerSize ∈ areas' := by
  have wf := linked.wf
  have aligned := wf.aligned_pageHead member
  rcases wf.pageHead_inserted member fits with same | ⟨inserted, ne, ahead, behind⟩
  · rw [if_neg (not_not.mpr same)] at opened
    rw [same, ← opened]
    exact ⟨rfl, areas, linked, member⟩
  · rw [if_pos ne] at opened
    have repaired := insertPageHead_prev_next (m := m) (wf.aligned member) aligned
    rw [opened] at inserted repaired
    exact ⟨inserted.nextNew, inserted.keepsLinked linked member aligned ahead behind repaired⟩

/-- `kpagealloc` keeps the back links right exactly when it does not split behind its pages.
-/
theorem Linked.kpagealloc_iff (linked : Linked k.mem areas) {n : Word}
    (bounded : n.toNat * 4096 < 2 ^ 32)
    : KeepsLinks (kpagealloc k n)
      ↔ n = 0
        ∨ ∀ a ∈ kpageallocBest k.mem areas (n.toNat * 4096),
            payload k.mem a ≤ pageNeed (n.toNat * 4096) a + 16 := by
  have wf := linked.wf
  have size := pages_toNat bounded
  by_cases positive : n = 0
  · rw [kpagealloc, if_pos positive, keepsLinks_iff]
    exact ⟨fun _ => Or.inl positive, fun _ => ⟨areas, linked⟩⟩
  · rcases wf.kpagealloc_cases positive
      with ⟨none, returned⟩ | ⟨a, vm, best, member, fits, _, returned⟩
    · rw [returned, keepsLinks_iff]
      rw [size] at none
      simp only [none, Option.not_mem_none, false_imp_iff, implies_true, or_true, iff_true]
      exact ⟨areas, linked⟩
    · have splits := wf.kpageallocSplits_iff member fits
      have bounds := wf.bounds member
      have ends := wf.payload_le member
      have ret := wf.pageHead_toNat member
      have page := wf.nextPage_toNat member
      rw [returned, keepsLinks_iff]
      rw [size] at best splits
      simp only [positive, best, Option.mem_some_iff, forall_eq', false_or, kpageallocCarve]
      generalize opened : (if nextPage a - headerSize ≠ a
        then insertPageHead k.mem a (nextPage a - headerSize) else k.mem) = mid
      obtain ⟨whole, areas', headed, listed⟩ := linked.pageHead member fits opened
      cases split : kpageallocSplits (getAreaSize k.mem a) (n * pageSize) a with
      | false =>
          have small : ¬pageNeed (n.toNat * 4096) a + 16 < payload k.mem a := by
            rw [← splits, split]
            exact Bool.false_ne_true
          simp only [Bool.false_eq_true, if_false]
          exact ⟨fun _ => Nat.not_lt.mp small, fun _ => ⟨areas', headed.setAreaUsed listed true⟩⟩
      | true =>
          have large := splits.mp split
          have alignedRet := headed.wf.aligned listed
          simp only [pageNeed] at large
          have sum : (nextPage a - headerSize + n * pageSize + headerSize).toNat
              = (nextPage a - headerSize).toNat + n.toNat * 4096 + 8 := by
            rw [← size]
            bv_omega
          have alignedNew : Aligned (nextPage a - headerSize + n * pageSize + headerSize) := by
            simp only [Aligned] at alignedRet ⊢
            omega
          simp only [if_true]
          refine ⟨fun kept => absurd kept ?_, fun small => ?_⟩
          · exact insertArea_not_linked headed listed alignedNew (by omega)
              (by rw [whole]; omega)
          · simp only [pageNeed] at small
            omega

-----------------------------------------------------------------------------------------
-- Release
-----------------------------------------------------------------------------------------

/-- The back link that a release sets: that of the area behind the merged one, except after
a merge towards the tail alone, which sets the absorbed head's.
-/
theorem mergeFreeAreas_prev (alignedA : Aligned a) (alignedX : Aligned x)
    (ahead : getNextAddress m a ≠ a) (behind : getPrevAddress m a ≠ a)
    : getPrevAddress (mergeFreeAreas (setAreaUsed m a false) a) x
      = if mergesTowardsTail m a ∧ ¬mergesTowardsRoot m a then
          if x = getNextAddress m a then a else getPrevAddress m x
        else if mergesTowardsRoot m a then
          if x = mergeTarget m a then getPrevAddress m a else getPrevAddress m x
        else getPrevAddress m x := by
  have alignedPrev := aligned_getPrevAddress m a
  have alignedNext := aligned_getNextAddress m a
  have alignedBehind := aligned_getNextAddress m (getNextAddress m a)
  have root : (getPrevAddress m a ≠ null
        ∧ getAreaUsed (setAreaUsed m a false) (getPrevAddress m a) = false)
      ↔ mergesTowardsRoot m a :=
    (rootTest_iff alignedA).trans (or_iff_left (fun self => behind self.2))
  simp only [mergeFreeAreas, getPrevAddress_setAreaUsed alignedA alignedA,
    getNextAddress_setAreaUsed alignedA alignedA,
    getNextAddress_setAreaUsed alignedA alignedNext, root, tailTest_iff alignedA ahead]
  by_cases onRoot : mergesTowardsRoot m a <;> by_cases onTail : mergesTowardsTail m a
  · simp [onRoot, onTail, mergeTarget, alignedA, alignedX, alignedPrev, alignedBehind]
  · simp [onRoot, onTail, mergeTarget, alignedA, alignedX, alignedPrev, alignedNext]
  · simp [onRoot, onTail, alignedA, alignedX, alignedNext]
  · simp [onRoot, onTail, alignedA, alignedX]

section Release

variable (linked : Linked m areas) (member : a ∈ areas)
include linked member

/-- The back link of an area is NULL at the start of the heap, else the area before it. -/
theorem Linked.predecessor
    : a = heapStart ∧ getPrevAddress m a = null
      ∨ getPrevAddress m a ∈ areas ∧ getNextAddress m (getPrevAddress m a) = a := by
  rcases linked.wf.chain.predecessor member with rfl | ⟨y, listed, rfl⟩
  · exact Or.inl ⟨rfl, linked.start⟩
  · rw [linked.back y listed]
    exact Or.inr ⟨listed, rfl⟩

/-- The area that a back link names lies before its own, on the chain. -/
theorem Linked.prev_lt (notNull : getPrevAddress m a ≠ null)
    : getPrevAddress m a ∈ areas
      ∧ getNextAddress m (getPrevAddress m a) = a
      ∧ (getPrevAddress m a).toNat + 8 ≤ a.toNat := by
  obtain ⟨listed, link⟩ :=
    (linked.predecessor member).resolve_left (fun start => notNull start.2)
  have bounds := (linked.wf.bounds listed).2.1
  rw [link] at bounds
  exact ⟨listed, link, bounds⟩

/-- Such a link can be followed. -/
theorem Linked.backLinkSafe : BackLinkSafe m a :=
  linked.wf.backLinkSafe
    (fun listed _ => (linked.prev_lt member (linked.wf.ne_null listed)).2.1)

/-- The area that a release merges into is on the chain and no later than the one released. -/
theorem Linked.mergeNode_mem
    : mergeNode m a ∈ areas ∧ (mergeNode m a).toNat ≤ a.toNat := by
  rw [mergeNode]
  split
  · next onRoot =>
    obtain ⟨listed, _, before⟩ := linked.prev_lt member onRoot.1
    exact ⟨listed, by omega⟩
  · exact ⟨member, le_rfl⟩

/-- A release under mirrored links does what `merge_free_areas` is meant to do. -/
theorem Linked.released
    : Released m (mergeFreeAreas (SimpleKernel.setAreaUsed m a false) a) a :=
  mergeFreeAreas_released (linked.wf.aligned member) (linked.wf.next_ne_self member)

theorem Linked.prev_ne : getPrevAddress m a ≠ a := by
  intro same
  have notNull : getPrevAddress m a ≠ null := by
    rw [same]
    exact linked.wf.ne_null member
  have before := (linked.prev_lt member notNull).2.2
  rw [same] at before
  omega

/-- A release that does not merge towards the tail alone sets the back link of the area
behind the merged one.
-/
theorem Linked.release_prev (merge : ¬(mergesTowardsTail m a ∧ ¬mergesTowardsRoot m a))
    (alignedX : Aligned x)
    : getPrevAddress (mergeFreeAreas (SimpleKernel.setAreaUsed m a false) a) x
      = if x = mergeTarget m a then mergeNode m a else getPrevAddress m x := by
  rw [mergeFreeAreas_prev (linked.wf.aligned member) alignedX (linked.wf.next_ne_self member)
    (linked.prev_ne member), if_neg merge]
  by_cases onRoot : mergesTowardsRoot m a
  · rw [if_pos onRoot, mergeNode, if_pos onRoot]
  · have offTail : ¬mergesTowardsTail m a := fun onTail => merge ⟨onTail, onRoot⟩
    rw [if_neg onRoot, mergeNode, if_neg onRoot, mergeTarget, if_neg offTail]
    split
    · next same => rw [same, linked.back a member]
    · rfl

/-- A release that merges with no area behind, or with both neighbours, keeps every back
link right.
-/
theorem Linked.release_linked
    (merge
      : ¬mergesTowardsTail m a
        ∨ getNextAddress m a ≠ heapEnd ∧ mergesTowardsRoot m a)
    : ∃ areas', Linked (mergeFreeAreas (SimpleKernel.setAreaUsed m a false) a) areas' := by
  have wf := linked.wf
  have bounds := wf.bounds member
  have target : (mergeTarget m a ∈ areas ∨ mergeTarget m a = heapEnd)
      ∧ (getNextAddress m a).toNat ≤ (mergeTarget m a).toNat := by
    rcases merge with offTail | ⟨notLast, _⟩
    · rw [mergeTarget, if_neg offTail]
      exact ⟨wf.next_mem member, le_rfl⟩
    · exact ⟨wf.mergeTarget_mem member notLast, wf.mergeTarget_ahead member notLast⟩
  obtain ⟨reached, ahead⟩ := target
  have released := linked.released member
  obtain ⟨areas', wf', members⟩ := released.exists_wellFormed_of_target wf member reached
    (by omega) (linked.backLinkSafe member)
  obtain ⟨node, low⟩ := linked.mergeNode_mem member
  have prev (x) (aligned : Aligned x) := linked.release_prev member
    (fun both => merge.elim (fun off => off both.1) (fun on => both.2 on.2)) aligned
  refine ⟨areas', {
    wf := wf'
    sentinelNext := ?_
    start := ?_
    back := fun x inside => ?_
  }⟩
  · rw [released.next heapEnd aligned_heapEnd, if_neg (wf.ne_heapEnd node).symm,
      linked.sentinelNext]
  · rw [prev heapStart aligned_heapStart, if_neg, linked.start]
    intro same
    rw [← same, heapStart_toNat] at ahead
    omega
  · obtain ⟨old, position⟩ := (members x).mp inside
    by_cases merged : x = mergeNode m a
    · rw [released.next x (wf.aligned old), if_pos merged, prev _ ?_, if_pos rfl, merged]
      rcases reached with listed | sentinel
      · exact wf.aligned listed
      · rw [sentinel]
        exact aligned_heapEnd
    · rw [released.next x (wf.aligned old), if_neg merged,
        prev _ (aligned_getNextAddress _ _), if_neg, linked.back x old]
      intro same
      have apart := wf.apart old node merged
      have boundsX := wf.bounds old
      have boundsN := wf.bounds node
      have side := position node
      rw [same] at apart boundsX
      omega

/-- A merge towards the tail alone leaves the area behind the absorbed one without a right
back link.
-/
theorem Linked.release_not_linked (onTail : mergesTowardsTail m a)
    (alone : ¬mergesTowardsRoot m a) (notLast : getNextAddress m a ≠ heapEnd)
    : ¬∃ areas', Linked (mergeFreeAreas (SimpleKernel.setAreaUsed m a false) a) areas' := by
  rintro ⟨areas', broken⟩
  have wf := linked.wf
  have bounds := wf.bounds member
  have next := (wf.next_mem member).resolve_right notLast
  have released := linked.released member
  obtain ⟨list, wf', members⟩ :=
    released.exists_wellFormed wf member notLast (linked.backLinkSafe member)
  have node : mergeNode m a = a := if_neg alone
  have target : mergeTarget m a = getNextAddress m (getNextAddress m a) := if_pos onTail
  have inside : a ∈ areas' := by
    rw [broken.wf.unique wf', members, node]
    exact ⟨member, fun _ => Or.inl le_rfl⟩
  have back := broken.back a inside
  rw [released.next a (wf.aligned member), node, if_pos rfl, target,
    mergeFreeAreas_prev (wf.aligned member) (aligned_getNextAddress _ _)
      (wf.next_ne_self member) (linked.prev_ne member),
    if_pos ⟨onTail, alone⟩, if_neg (wf.next_ne_self next), linked.back _ next] at back
  rw [back] at bounds
  omega

/-- A release next to the sentinel cuts the chain. -/
theorem Linked.release_cuts (onTail : mergesTowardsTail m a)
    (last : getNextAddress m a = heapEnd)
    : ¬∃ areas', Linked (mergeFreeAreas (SimpleKernel.setAreaUsed m a false) a) areas' := by
  rintro ⟨areas', broken⟩
  have wf := linked.wf
  have released := linked.released member
  obtain ⟨node, _⟩ := linked.mergeNode_mem member
  have notEnd := wf.ne_heapEnd node
  have cut : getNextAddress (mergeFreeAreas (SimpleKernel.setAreaUsed m a false) a)
      (mergeNode m a) = null := by
    rw [released.next _ (wf.aligned node), if_pos rfl, mergeTarget, if_pos onTail, last,
      linked.sentinelNext]
  have sentinel := wf.chain.end_not_mem (by decide)
  obtain ⟨before, after, split⟩ := List.append_of_mem node
  rw [split] at sentinel
  have chain := wf.chain
  rw [split] at chain
  obtain ⟨left, _, _⟩ := segment_middle.mp chain
  have left' : AreaSegment (mergeFreeAreas (SimpleKernel.setAreaUsed m a false) a) heapStart
      before (mergeNode m a) := by
    refine left.congr (fun x inside => ?_)
    have listed : x ∈ areas := by
      rw [split]
      simp [inside]
    rw [released.next x (wf.aligned listed),
      if_neg (chain.ne_middle (by decide) (Or.inl inside))]
  have reached := left'.passes broken.wf.chain (fun inside => sentinel (by simp [inside]))
  exact broken.wf.next_ne_null (reached.resolve_right notEnd) cut

/-- `kfree` keeps the back links right exactly when the area behind is used or it merges
with both neighbours.
-/
theorem Linked.kfree_iff (used : getAreaUsed m a = true)
    : (∃ areas', Linked (kfree m (a + headerSize)) areas')
      ↔ getAreaUsed m (getNextAddress m a) = true
        ∨ getNextAddress m a ≠ heapEnd
          ∧ getPrevAddress m a ≠ null
          ∧ getAreaUsed m (getPrevAddress m a) = false := by
  have wf := linked.wf
  have next := wf.next_ne_null member
  rw [wf.kfree_eq member (BitVec.add_sub_cancel a headerSize) used]
  cases behind : getAreaUsed m (getNextAddress m a) with
  | true =>
      have offTail : ¬mergesTowardsTail m a := fun onTail => by
        rw [onTail.2] at behind
        exact Bool.noConfusion behind
      simp only [true_or, iff_true]
      exact linked.release_linked member (Or.inl offTail)
  | false =>
      have onTail : mergesTowardsTail m a := ⟨next, behind⟩
      simp only [Bool.false_eq_true, false_or]
      constructor
      · intro kept
        have notLast : getNextAddress m a ≠ heapEnd :=
          fun last => linked.release_cuts member onTail last kept
        refine ⟨notLast, ?_⟩
        by_contra alone
        exact linked.release_not_linked member onTail alone notLast kept
      · exact fun both => linked.release_linked member (Or.inr both)

end Release

/-- Every operation re-establishes the mirrored back links exactly when `kmalloc` and
`kpagealloc` split nothing, and `kfree` merges with both neighbours or with none behind.
-/
theorem operations_linked_iff (linked : Linked k.mem areas)
    : (∀ size : Word,
        size.toNat + 15 < 2 ^ 32
        → (KeepsLinks (kmalloc k size)
          ↔ size = 0
            ∨ ∀ a ∈ kmallocBest k.mem areas ((size.toNat + 15) / 8 * 8),
                payload k.mem a ≤ (size.toNat + 15) / 8 * 8 + 16))
      ∧ (∀ n : Word,
        n.toNat * 4096 < 2 ^ 32
        → (KeepsLinks (kpagealloc k n)
          ↔ n = 0
            ∨ ∀ a ∈ kpageallocBest k.mem areas (n.toNat * 4096),
                payload k.mem a ≤ pageNeed (n.toNat * 4096) a + 16))
      ∧ ∀ a ∈ areas,
        getAreaUsed k.mem a = true
        → ((∃ areas', Linked (kfree k.mem (a + headerSize)) areas')
          ↔ getAreaUsed k.mem (getNextAddress k.mem a) = true
            ∨ getNextAddress k.mem a ≠ heapEnd
              ∧ getPrevAddress k.mem a ≠ null
              ∧ getAreaUsed k.mem (getPrevAddress k.mem a) = false) :=
  ⟨fun _ bounded => linked.kmalloc_iff bounded, fun _ bounded => linked.kpagealloc_iff bounded,
    fun _ member used => linked.kfree_iff member used⟩

/-- `init_heap` leaves right back links. -/
theorem initHeap_linked (fresh : k.heapRan = false) : Linked (initHeap k).mem [heapStart] := by
  have wf := initHeap_wellFormed fresh
  -- `heap_start` as the simplifier writes it
  have start : Aligned 0xE0000000#32 := rfl
  have ne : 0xE0000000#32 ≠ heapEnd := by decide
  have next : getNextAddress (initHeap k).mem heapStart = heapEnd := wf.chain.2.2
  refine {
    wf := wf
    sentinelNext := by simp [initHeap, fresh]
    start := by simp [initHeap, fresh, start, ne]
    back := fun a member => ?_
  }
  obtain rfl := List.mem_singleton.mp member
  rw [next]
  simp [initHeap, fresh, start]

/-- A whole area keeps its links when it is taken. Witness: the only area of the fresh heap,
which no header is inserted into.
-/
theorem operations_linked_wholeHeap
    : KeepsLinks (kmalloc (initHeap bareKernel) 0x1FBFFFE0) := by
  have linked : Linked (initHeap bareKernel).mem [heapStart] := initHeap_linked rfl
  have room
      : (kmallocBest (initHeap bareKernel).mem [heapStart] 0x1FBFFFE8).map
          (payload (initHeap bareKernel).mem)
        = some 0x1FBFFFF0 := by
    decide +kernel
  refine ((operations_linked_iff linked).1 0x1FBFFFE0 (by decide)).mpr (Or.inr ?_)
  intro a best
  have size : (BitVec.toNat (0x1FBFFFE0 : Word) + 15) / 8 * 8 = 0x1FBFFFE8 := rfl
  rw [size] at best ⊢
  rw [Option.mem_def.mp best] at room
  rw [Option.some.inj room]
  decide

/-- A split does not look at the head behind the area it divides. Counterexample: the first
split leaves the sentinel's back link at the start of the heap.
-/
theorem not_linked_firstSplit
    : ¬∀ (k : Kernel) (areas : List Addr) (size : Word),
        Linked k.mem areas → size.toNat + 15 < 2 ^ 32 → KeepsLinks (kmalloc k size) := by
  intro claim
  have called
      : (kmalloc (initHeap bareKernel) 8).map
          (fun result =>
            (
              getNextAddress result.2.mem heapStart,
              getNextAddress result.2.mem 0xE0000010,
              getPrevAddress result.2.mem heapEnd
            ))
        = some (0xE0000010, heapEnd, heapStart) := by
    decide +kernel
  obtain ⟨⟨ptr, k'⟩, returned, links⟩ := Option.map_eq_some_iff.mp called
  simp only [Prod.mk.injEq] at links
  obtain ⟨first, second, stale⟩ := links
  obtain ⟨areas', linked⟩ := claim (initHeap bareKernel) [heapStart] 8 (initHeap_linked rfl)
    (by decide) ptr k' returned
  have listed := linked.wf.next_mem linked.wf.start_mem
  rw [first] at listed
  have back := linked.back _ (listed.resolve_right (by decide))
  rw [second, stale] at back
  exact absurd back (by decide)

end SimpleKernel
