import SimpleKernel.Heap.BackLinks
import SimpleKernel.Heap.BestFitSplitting
import SimpleKernel.Heap.Coalescing
import SimpleKernel.Library.AreaMerging

/-! Releases in either order.
A release whose back link can be trusted sets its area free and merges the group it joins.
A merge towards the tail alone leaves the area behind the merged one with a back link into
it, and the next release of that area merges into a header that is off the chain.
-/

namespace SimpleKernel

open ByteMemory Segments AreaLists

variable {m m' : Memory} {areas : List Addr} {a p q x : Addr}

/-- Areas that follow one another make one area up to where they end. -/
theorem areaList_absorbAll {b c : Addr} {group : List Addr} {area : Area}
    (segment : AreaSegment m b group c)
    (ends : area.address + 8 + area.payload = b.toNat)
    : (areaList m group).foldl (Area.absorb 8) area
      = { area with payload := c.toNat - (area.address + 8) } := by
  induction group generalizing b area with
  | nil =>
      obtain rfl : b = c := segment
      have payload : area.payload = b.toNat - (area.address + 8) := by omega
      rw [← payload]
      rfl
  | cons y rest ih =>
      obtain ⟨rfl, ahead, tail⟩ := segment
      have grown : area.address + 8 + (area.absorb 8 (areaAt m y)).payload
          = (getNextAddress m y).toNat := by
        simp only [Area.absorb, areaAt, payload]
        omega
      exact ih tail grown

/-- When the link of a free area is moved past the free areas behind it, the same list is
left after a merge.
-/
theorem WellFormed.coalesce_skipped {target : Addr} (wf : WellFormed m areas)
    (listed : x ∈ areas) (reached : target ∈ areas ∨ target = heapEnd)
    (ahead : x.toNat < target.toNat) (free : getAreaUsed m x = false)
    (between
      : ∀ z ∈ areas, x.toNat < z.toNat → z.toNat < target.toNat → getAreaUsed m z = false)
    (next : getNextAddress m' x = target)
    (others : ∀ z ∈ areas, z ≠ x → getNextAddress m' z = getNextAddress m z)
    (used : ∀ z ∈ areas, getAreaUsed m' z = getAreaUsed m z)
    (epsilon : ∀ z, Aligned z → getAreaEpsilon m' z = getAreaEpsilon m z)
    : ∃ areas',
        WellFormed m' areas'
        ∧ coalesce 8 (areaList m' areas') = coalesce 8 (areaList m areas) := by
  obtain ⟨before, after, rfl⟩ := List.append_of_mem listed
  obtain ⟨left, room, right⟩ := segment_middle.mp wf.chain
  have ne {z} (member : z ∈ before ∨ z ∈ after) : z ≠ x :=
    wf.chain.ne_middle (by decide) member
  have behind : target ∈ after ∨ target = heapEnd := by
    refine reached.imp_left (fun member => ?_)
    rcases List.mem_append.mp member with early | late
    · have bounds := left.bounds early
      omega
    · refine (List.mem_cons.mp late).resolve_left ?_
      rintro rfl
      omega
  obtain ⟨skipped, rest, rfl, middle, tail⟩ := right.reach behind
  have old {z} (member : z ∈ before ∨ z ∈ rest) : z ∈ before ++ x :: (skipped ++ rest) := by
    rcases member with early | late
    · simp [early]
    · simp [late]
  have kept {z} (member : z ∈ before ∨ z ∈ rest) : getNextAddress m' z = getNextAddress m z :=
    others z (old member) (ne (member.imp_right (fun inside => by simp [inside])))
  have same {z} (member : z ∈ before ∨ z ∈ rest) : areaAt m' z = areaAt m z :=
    areaAt_congr (kept member) (used z (old member))
  have chain : AreaSegment m' heapStart (before ++ x :: rest) heapEnd :=
    left.bypass room middle tail next (fun z member => kept member)
  have freeGroup : ∀ other ∈ areaList m skipped, other.used = false := by
    intro other member
    obtain ⟨z, inside, rfl⟩ := List.mem_map.mp member
    have position := middle.bounds inside
    exact between z (by simp [inside]) (by omega) (by omega)
  have merged : areaAt m' x = (areaList m skipped).foldl (Area.absorb 8) (areaAt m x) := by
    rw [areaList_absorbAll middle (wf.payload_le listed)]
    simp only [areaAt, payload, next, used x listed]
  refine ⟨before ++ x :: rest, ⟨chain, fun z member => ?_, ?_⟩, ?_⟩
  · have aligned := segment_aligned chain aligned_heapStart z member
    rw [epsilon z aligned]
    rcases List.mem_append.mp member with early | late
    · exact wf.plain z (old (Or.inl early))
    · rcases List.mem_cons.mp late with rfl | late
      · exact wf.plain z listed
      · exact wf.plain z (old (Or.inr late))
  · rw [epsilon heapEnd aligned_heapEnd, wf.sentinel]
  · have lists : areaList m' (before ++ x :: rest)
        = areaList m before ++ areaAt m' x :: areaList m rest := by
      simp only [areaList, List.map_append, List.map_cons]
      rw [List.map_congr_left (fun z member => same (Or.inl member)),
        List.map_congr_left (fun z member => same (Or.inr member))]
    rw [lists, merged, coalesce_absorbAll free freeGroup]
    simp [areaList]

/-- Clearing the mark of an area clears it in the list. -/
theorem areaList_released (wf : WellFormed m areas) (aligned : Aligned a)
    : areaList (setAreaUsed m a false) areas = releaseAt a.toNat (areaList m areas) := by
  simp only [areaList, releaseAt, List.map_map]
  refine List.map_congr_left (fun x member => ?_)
  rw [areaAt_setAreaUsed aligned (wf.aligned member), Function.comp, Area.release]
  by_cases same : x = a
  · simp [same, areaAt]
  · have ne : (areaAt m x).address ≠ a.toNat := fun equal => same (BitVec.eq_of_toNat_eq equal)
    rw [if_neg same, if_neg ne]

/-- A coalesced heap is a list without free neighbours. -/
theorem WellFormed.coalesced_iff (wf : WellFormed m areas)
    : Coalesced m ↔ Apart (areaList m areas) := by
  have neighbours :=
    wf.chain.isChain_iff (R := fun a b => getAreaUsed m a = true ∨ getAreaUsed m b = true)
      (by decide)
  rw [Coalesced, wf.chainAreas_eq, ← neighbours, Apart, areaList, List.isChain_map]
  rfl

/-- With a right back link nothing lies between the head of the merged group and the
released area.
-/
theorem WellFormed.mergeNode_near (wf : WellFormed m areas) (listed : a ∈ areas)
    (back
      : mergesTowardsRoot m a
        → getPrevAddress m a ∈ areas ∧ getNextAddress m (getPrevAddress m a) = a)
    : mergeNode m a ∈ areas
      ∧ (mergeNode m a = a ∨ getAreaUsed m (mergeNode m a) = false)
      ∧ (mergeNode m a).toNat ≤ a.toNat
      ∧ ∀ z ∈ areas, (mergeNode m a).toNat < z.toNat → a.toNat ≤ z.toNat := by
  rw [mergeNode]
  split
  · next onRoot =>
    obtain ⟨root, link⟩ := back onRoot
    have bounds := wf.bounds root
    rw [link] at bounds
    refine ⟨root, Or.inr onRoot.2, by omega, fun z member above => ?_⟩
    have after := wf.next_le root member above
    rw [link] at after
    exact after
  · exact ⟨listed, Or.inl rfl, le_rfl, fun z _ above => Nat.le_of_lt above⟩

/-- A release whose back link can be trusted drops the headers of the free areas around its
own.
-/
theorem Released.coalesce_eq (released : Released m m' a) (wf : WellFormed m areas)
    (listed : a ∈ areas) (notLast : getNextAddress m a ≠ heapEnd)
    (back
      : mergesTowardsRoot m a
        → getPrevAddress m a ∈ areas ∧ getNextAddress m (getPrevAddress m a) = a)
    : ∃ areas',
        WellFormed m' areas'
        ∧ coalesce 8 (areaList m' areas')
          = coalesce 8 (releaseAt a.toNat (areaList m areas)) := by
  have alignedA := wf.aligned listed
  have marked := wf.marked listed false
  rw [← areaList_released wf alignedA]
  generalize free : setAreaUsed m a false = m₁ at marked ⊢
  have next (z) (member : z ∈ areas) : getNextAddress m₁ z = getNextAddress m z := by
    rw [← free, getNextAddress_setAreaUsed alignedA (wf.aligned member)]
  have freeAt (z) (member : z ∈ areas) (unused : z = a ∨ getAreaUsed m z = false)
      : getAreaUsed m₁ z = false := by
    rw [← free, getAreaUsed_setAreaUsed alignedA (wf.aligned member)]
    split
    · rfl
    · next ne => exact unused.resolve_left ne
  have ahead := wf.mergeTarget_ahead listed notLast
  have bounds := wf.bounds listed
  obtain ⟨node, unused, low, near⟩ := wf.mergeNode_near listed back
  refine marked.coalesce_skipped node (wf.mergeTarget_mem listed notLast) (by omega)
    (freeAt _ node unused) (fun z member above below => ?_) ?_ (fun z member ne => ?_)
    (fun z member => ?_) (fun z aligned => ?_)
  · by_cases here : z = a
    · exact freeAt z member (Or.inl here)
    · have further : a.toNat < z.toNat :=
        Nat.lt_of_le_of_ne (near z member above)
          (fun same => here (BitVec.eq_of_toNat_eq same.symm))
      exact freeAt z member (Or.inr (wf.merged_free listed notLast member further below).2)
  · rw [released.next _ (wf.aligned node), if_pos rfl]
  · rw [released.next z (wf.aligned member), if_neg ne, next z member]
  · rw [released.used z (wf.aligned member), ← free,
      getAreaUsed_setAreaUsed alignedA (wf.aligned member)]
  · rw [released.epsilon z aligned, ← free, getAreaEpsilon_setAreaUsed alignedA aligned]

/-- A release sets its area free and merges every group of free areas. -/
theorem Released.areaList_eq (released : Released m m' a) (wf : WellFormed m areas)
    (listed : a ∈ areas) (safe : CoalesceSafe m a) (coalesced : Coalesced m)
    : ∃ areas',
        WellFormed m' areas'
        ∧ areaList m' areas' = coalesce 8 (releaseAt a.toNat (areaList m areas)) := by
  have back (onRoot : mergesTowardsRoot m a) := safe.2.2 onRoot
  rw [wf.chainAreas_eq] at back
  obtain ⟨areas', wf', merged⟩ := released.coalesce_eq wf listed safe.1 back
  have apart := wf'.coalesced_iff.mp (released.coalesced wf listed safe coalesced)
  exact ⟨areas', wf', by rw [← merged, coalesce_eq_self apart]⟩

/-- A release of `p` merges towards the tail alone, and `q` follows the area it absorbs. -/
def CutsBackLink (m : Memory) (p q : Addr) : Prop :=
  mergesTowardsTail m p
  ∧ ¬mergesTowardsRoot m p
  ∧ getNextAddress m (getNextAddress m p) = q

instance (m : Memory) (p q : Addr) : Decidable (CutsBackLink m p q) :=
  inferInstanceAs (Decidable (_ ∧ _ ∧ _))

/-- Under mirrored links the condition of a release is that its area does not border
`heap_end`.
-/
theorem Linked.coalesceSafe (linked : Linked m areas) (listed : a ∈ areas)
    (notLast : getNextAddress m a ≠ heapEnd)
    : CoalesceSafe m a := by
  rw [CoalesceSafe, linked.wf.chainAreas_eq]
  refine ⟨notLast, fun x member next _ => ?_, fun onRoot => ?_⟩
  · rw [← next, linked.back x member]
  · obtain ⟨root, link, _⟩ := linked.prev_lt listed onRoot.1
    exact ⟨root, link⟩

-----------------------------------------------------------------------------------------
-- The second release
-----------------------------------------------------------------------------------------

section Second

variable (linked : Linked m areas) (listedP : p ∈ areas) (listedQ : q ∈ areas)
  (usedP : getAreaUsed m p = true) (usedQ : getAreaUsed m q = true) (ne : q ≠ p)
  (notLastP : getNextAddress m p ≠ heapEnd) (notLastQ : getNextAddress m q ≠ heapEnd)
include linked listedP listedQ usedP usedQ ne notLastP

/-- The chain between the two releases. -/
theorem Linked.kfree_first
    : ∃ areas',
        WellFormed (kfree m (p + headerSize)) areas'
        ∧ (∀ x,
          x ∈ areas'
          ↔ x ∈ areas
            ∧ (x.toNat ≤ (mergeNode m p).toNat ∨ (mergeTarget m p).toNat ≤ x.toNat))
        ∧ q ∈ areas'
        ∧ getNextAddress (kfree m (p + headerSize)) q = getNextAddress m q
        ∧ getAreaUsed (kfree m (p + headerSize)) q = true := by
  have wf := linked.wf
  have safe := linked.backLinkSafe listedP
  have released := wf.kfree_released listedP (BitVec.add_sub_cancel p headerSize) usedP
  obtain ⟨areas', wf', members⟩ := released.exists_wellFormed wf listedP notLastP safe
  have kept := released.kept wf listedP notLastP safe listedQ usedQ ne members
  refine ⟨areas', wf', ?_, kept.1, kept.2, ?_⟩
  · simpa [(linked.mergeNode_mem listedP).1] using members
  · rw [released.used q (wf.aligned listedQ), if_neg ne, usedQ]

omit ne notLastP in
/-- A merge towards the tail alone sets no back link of a used area. -/
theorem Linked.prev_kfree_alone (alone : mergesTowardsTail m p ∧ ¬mergesTowardsRoot m p)
    : q ≠ getNextAddress m p
      ∧ getPrevAddress (kfree m (p + headerSize)) q = getPrevAddress m q := by
  have neBehind : q ≠ getNextAddress m p := by
    rintro rfl
    rw [alone.1.2] at usedQ
    cases usedQ
  rw [linked.wf.kfree_eq listedP (BitVec.add_sub_cancel p headerSize) usedP,
    mergeFreeAreas_prev (linked.wf.aligned listedP) (linked.wf.aligned listedQ)
      (linked.wf.next_ne_self listedP) (linked.prev_ne listedP), if_pos alone,
    if_neg neBehind]
  exact ⟨neBehind, rfl⟩

include notLastQ

/-- After the first release the second finds the area before its own by its back link,
unless the first cut that off.
-/
theorem Linked.coalesceSafe_release (whole : ¬CutsBackLink m p q)
    : CoalesceSafe (kfree m (p + headerSize)) q := by
  have wf := linked.wf
  have header : p + headerSize - headerSize = p := BitVec.add_sub_cancel p headerSize
  have released := wf.kfree_released listedP header usedP
  obtain ⟨areas', wf', members, listed, next, _⟩ :=
    linked.kfree_first listedP listedQ usedP usedQ ne notLastP
  by_cases alone : mergesTowardsTail m p ∧ ¬mergesTowardsRoot m p
  · have node : mergeNode m p = p := if_neg alone.2
    have target : mergeTarget m p = getNextAddress m (getNextAddress m p) := if_pos alone.1
    obtain ⟨neBehind, prev⟩ := linked.prev_kfree_alone listedP listedQ usedP usedQ alone
    -- the area before `q` stays on the chain, since only the one behind `p` leaves it
    have before {x} (member : x ∈ areas) (link : getNextAddress m x = q) : x ∈ areas' := by
      refine (members x).mpr ⟨member, ?_⟩
      by_contra between
      rw [node] at between
      have absorbed := (wf.merged_free listedP notLastP member (by omega) (by omega)).1
      rw [absorbed] at link
      exact whole ⟨alone.1, alone.2, link⟩
    have moved {x} (member : x ∈ areas)
        : getNextAddress (kfree m (p + headerSize)) x = q ↔ getNextAddress m x = q := by
      rw [released.next x (wf.aligned member), node]
      split
      · next same =>
        rw [same, target]
        refine ⟨fun cut => absurd ⟨alone.1, alone.2, cut⟩ whole, fun link => ?_⟩
        exact absurd link.symm neBehind
      · rfl
    rw [CoalesceSafe, wf'.chainAreas_eq, prev]
    refine ⟨by rwa [next], fun x member link _ => ?_, fun onRoot => ?_⟩
    · have old := ((members x).mp member).1
      rw [← (moved old).mp link, linked.back x old]
    · have notNull : getPrevAddress m q ≠ null := by
        rw [← prev]
        exact onRoot.1
      obtain ⟨root, link, _⟩ := linked.prev_lt listedQ notNull
      exact ⟨before root link, (moved root).mpr link⟩
  · have both : ¬mergesTowardsTail m p
        ∨ getNextAddress m p ≠ heapEnd ∧ mergesTowardsRoot m p := by
      by_cases onTail : mergesTowardsTail m p
      · exact Or.inr ⟨notLastP, not_not.mp (fun off => alone ⟨onTail, off⟩)⟩
      · exact Or.inl onTail
    obtain ⟨list, linked'⟩ := linked.release_linked listedP both
    rw [← wf.kfree_eq listedP header usedP] at linked'
    refine linked'.coalesceSafe ?_ (by rwa [next])
    rw [linked'.wf.unique wf']
    exact listed

/-- Two releases set their areas free and merge every group of free areas. -/
theorem Linked.kfree_kfree (coalesced : Coalesced m) (whole : ¬CutsBackLink m p q)
    : ∃ areas',
        WellFormed (kfree (kfree m (p + headerSize)) (q + headerSize)) areas'
        ∧ areaList (kfree (kfree m (p + headerSize)) (q + headerSize)) areas'
          = coalesce 8 (releaseAt q.toNat (releaseAt p.toNat (areaList m areas))) := by
  have wf := linked.wf
  have safeP := linked.coalesceSafe listedP notLastP
  have safeQ :=
    linked.coalesceSafe_release listedP listedQ usedP usedQ ne notLastP notLastQ whole
  obtain ⟨areas', wf', _, listed, _, used⟩ :=
    linked.kfree_first listedP listedQ usedP usedQ ne notLastP
  have released := wf.kfree_released listedP (BitVec.add_sub_cancel p headerSize) usedP
  have again := wf'.kfree_released listed (BitVec.add_sub_cancel q headerSize) used
  have between := released.coalesced wf listedP safeP coalesced
  obtain ⟨list, wfList, first⟩ := released.areaList_eq wf listedP safeP coalesced
  obtain ⟨areas₂, wf₂, second⟩ := again.areaList_eq wf' listed safeQ between
  rw [← wf'.unique wfList] at first
  refine ⟨areas₂, wf₂, ?_⟩
  rw [second, first]
  refine coalesce_releaseAt_coalesce (fun other member same => ?_)
  obtain ⟨area, inside, rfl⟩ := List.mem_map.mp member
  obtain ⟨x, _, rfl⟩ := List.mem_map.mp inside
  rw [Area.release_address] at same
  obtain rfl : x = q := BitVec.eq_of_toNat_eq same
  have apart : (areaAt m x).address ≠ p.toNat := fun equal => ne (BitVec.eq_of_toNat_eq equal)
  rw [Area.release_of_ne apart]
  exact usedQ

/-- A cut back link sends the second merge to a header off the chain, and both areas stay
as they are, free and adjacent.
-/
theorem Linked.kfree_kfree_apart (cut : CutsBackLink m p q)
    : ¬∃ areas',
        WellFormed (kfree (kfree m (p + headerSize)) (q + headerSize)) areas'
        ∧ Apart (areaList (kfree (kfree m (p + headerSize)) (q + headerSize)) areas') := by
  rintro ⟨list, wfList, apart⟩
  obtain ⟨onTail, alone, next⟩ := cut
  have wf := linked.wf
  have behind := (wf.next_mem listedP).resolve_right notLastP
  have bounds := wf.bounds listedP
  have boundsBehind := wf.bounds behind
  have neBehind := wf.next_ne_self listedP
  have node : mergeNode m p = p := if_neg alone
  have target : mergeTarget m p = q := by rw [mergeTarget, if_pos onTail, next]
  have released := wf.kfree_released listedP (BitVec.add_sub_cancel p headerSize) usedP
  obtain ⟨areas', wf', members, listed, nextQ, used⟩ :=
    linked.kfree_first listedP listedQ usedP usedQ ne notLastP
  rw [node, target, ← next] at members
  have here : p ∈ areas' := (members p).mpr ⟨listedP, Or.inl le_rfl⟩
  have absorbed : getNextAddress m p ∉ areas' := by
    intro member
    have position := ((members _).mp member).2
    omega
  have nextP : getNextAddress (kfree m (p + headerSize)) p = q := by
    rw [released.next p (wf.aligned listedP), if_pos node.symm, target]
  have prev : getPrevAddress (kfree m (p + headerSize)) q = getNextAddress m p := by
    rw [(linked.prev_kfree_alone listedP listedQ usedP usedQ ⟨onTail, alone⟩).2, ← next,
      linked.back _ behind]
  have astray : mergeNode (kfree m (p + headerSize)) q = getNextAddress m p := by
    rw [mergeNode, if_pos, prev]
    rw [mergesTowardsRoot, prev, released.used _ (wf.aligned behind), if_neg neBehind]
    exact onTail
  have again := wf'.kfree_released listed (BitVec.add_sub_cancel q headerSize) used
  obtain ⟨areas₂, wf₂, members₂⟩ := again.exists_wellFormed wf' listed (by rwa [nextQ])
    (fun root => absurd root (by rwa [wf'.chainAreas_eq, prev]))
  have still {x} (member : x ∈ areas') : x ∈ areas₂ :=
    (members₂ x).mpr ⟨member, fun root => absurd root (by rwa [astray])⟩
  have nextP₂ : getNextAddress (kfree (kfree m (p + headerSize)) (q + headerSize)) p = q := by
    rw [again.next p (wf.aligned listedP), astray, if_neg neBehind.symm, nextP]
  have pair := wfList.coalesced_iff.mpr apart
  rw [Coalesced, wf₂.chainAreas_eq] at pair
  have both := pair p (still here)
  rw [nextP₂, again.used p (wf.aligned listedP), if_neg ne.symm,
    released.used p (wf.aligned listedP), if_pos rfl, again.used q (wf.aligned listedQ),
    if_pos rfl] at both
  simpa using both (still listed)

end Second

/-- Both orders leave one chain, the old one with both areas free and every group of free
areas merged, exactly when neither release cuts the back link that the other needs.
-/
theorem Linked.kfree_comm_iff (linked : Linked m areas) (coalesced : Coalesced m)
    (listedP : p ∈ areas) (listedQ : q ∈ areas) (usedP : getAreaUsed m p = true)
    (usedQ : getAreaUsed m q = true) (ne : p ≠ q) (notLastP : getNextAddress m p ≠ heapEnd)
    (notLastQ : getNextAddress m q ≠ heapEnd)
    : (∃ areas₁ areas₂,
        WellFormed (kfree (kfree m (p + headerSize)) (q + headerSize)) areas₁
        ∧ WellFormed (kfree (kfree m (q + headerSize)) (p + headerSize)) areas₂
        ∧ areaList (kfree (kfree m (p + headerSize)) (q + headerSize)) areas₁
          = areaList (kfree (kfree m (q + headerSize)) (p + headerSize)) areas₂
        ∧ areaList (kfree (kfree m (p + headerSize)) (q + headerSize)) areas₁
          = coalesce 8 (releaseAt q.toNat (releaseAt p.toNat (areaList m areas))))
      ↔ ¬CutsBackLink m p q ∧ ¬CutsBackLink m q p := by
  constructor
  · rintro ⟨areas₁, areas₂, wf₁, wf₂, same, merged⟩
    have apart : Apart (coalesce 8 (releaseAt q.toNat (releaseAt p.toNat (areaList m areas)))) :=
      coalesce_apart
    constructor
    · intro cut
      refine linked.kfree_kfree_apart listedP listedQ usedP usedQ ne.symm notLastP notLastQ cut
        ⟨areas₁, wf₁, ?_⟩
      rwa [merged]
    · intro cut
      refine linked.kfree_kfree_apart listedQ listedP usedQ usedP ne notLastQ notLastP cut
        ⟨areas₂, wf₂, ?_⟩
      rwa [← same, merged]
  · rintro ⟨wholeP, wholeQ⟩
    obtain ⟨areas₁, wf₁, first⟩ := linked.kfree_kfree listedP listedQ usedP usedQ ne.symm
      notLastP notLastQ coalesced wholeP
    obtain ⟨areas₂, wf₂, second⟩ := linked.kfree_kfree listedQ listedP usedQ usedP ne
      notLastQ notLastP coalesced wholeQ
    rw [releaseAt_comm] at second
    exact ⟨areas₁, areas₂, wf₁, wf₂, first.trans second.symm, first⟩

/-- Two blocks of a heap as the statement above needs them, by passes over its chain. -/
def ReleasablePair (m : Memory) (p q : Addr) : Prop :=
  LinksMirrored m
  ∧ Coalesced m
  ∧ p ∈ chainAreas m
  ∧ q ∈ chainAreas m
  ∧ getAreaUsed m p = true
  ∧ getAreaUsed m q = true
  ∧ getNextAddress m p ≠ heapEnd
  ∧ getNextAddress m q ≠ heapEnd

instance (m : Memory) (p q : Addr) : Decidable (ReleasablePair m p q) :=
  inferInstanceAs (Decidable (_ ∧ _ ∧ _ ∧ _ ∧ _ ∧ _ ∧ _ ∧ _))

/-- Two releases in either order leave the same heap, the coalesced one. Witness: the first two
of four areas, the last of them free.
-/
theorem kfree_comm_neighbours
    : ∃ m areas areas₁ areas₂,
        WellFormed (kfree (kfree m 0xE0000008) 0xE0000018) areas₁
        ∧ WellFormed (kfree (kfree m 0xE0000018) 0xE0000008) areas₂
        ∧ areaList (kfree (kfree m 0xE0000008) 0xE0000018) areas₁
          = areaList (kfree (kfree m 0xE0000018) 0xE0000008) areas₂
        ∧ areaList (kfree (kfree m 0xE0000008) 0xE0000018) areas₁
          = coalesce 8 (releaseAt 0xE0000010 (releaseAt 0xE0000000 (areaList m areas))) := by
  have replayed
      : (heapMachine.replay (Releases ChainSafe)
            [
              .kmalloc 8, .kmalloc 8, .kmalloc 8, .kmalloc 8, .kmalloc 8, .kfree 0xE0000038,
              .kfree 0xE0000048
            ]
            ⟨initHeap bareKernel, []⟩).map
          (fun s =>
            decide (ReleasablePair s.kernel.mem 0xE0000000 0xE0000010
              ∧ ¬CutsBackLink s.kernel.mem 0xE0000000 0xE0000010
              ∧ ¬CutsBackLink s.kernel.mem 0xE0000010 0xE0000000))
        = some true := by
    decide +kernel
  obtain ⟨s, reached, checked⟩ := Option.map_eq_some_iff.mp replayed
  obtain ⟨pair, whole⟩ := of_decide_eq_true checked
  obtain ⟨mirrored, coalesced, listedP, listedQ, usedP, usedQ, lastP, lastQ⟩ := pair
  have linked := Linked.of_replay reached mirrored
  exact ⟨s.kernel.mem, chainAreas s.kernel.mem, (linked.kfree_comm_iff coalesced listedP listedQ
    usedP usedQ (by decide) lastP lastQ).mpr whole⟩

/-- A merge that leaves the area behind it with a stale back link makes the order visible.
Counterexample: the two areas around a free one, released in address order, stay apart.
-/
theorem not_kfree_comm_aroundFree
    : ¬∀ (m : Memory) (areas : List Addr) (p q : Addr),
        Linked m areas
        → Coalesced m
        → p ∈ areas
        → q ∈ areas
        → getAreaUsed m p = true
        → getAreaUsed m q = true
        → p ≠ q
        → getNextAddress m p ≠ heapEnd
        → getNextAddress m q ≠ heapEnd
        → ∃ areas₁ areas₂,
            WellFormed (kfree (kfree m (p + headerSize)) (q + headerSize)) areas₁
            ∧ WellFormed (kfree (kfree m (q + headerSize)) (p + headerSize)) areas₂
            ∧ areaList (kfree (kfree m (p + headerSize)) (q + headerSize)) areas₁
              = areaList (kfree (kfree m (q + headerSize)) (p + headerSize)) areas₂
            ∧ areaList (kfree (kfree m (p + headerSize)) (q + headerSize)) areas₁
              = coalesce 8 (releaseAt q.toNat (releaseAt p.toNat (areaList m areas))) := by
  intro claim
  have replayed
      : (heapMachine.replay (Releases ChainSafe)
            [
              .kmalloc 8, .kmalloc 8, .kmalloc 8, .kmalloc 8, .kmalloc 8, .kfree 0xE0000038,
              .kfree 0xE0000048, .kfree 0xE0000018
            ]
            ⟨initHeap bareKernel, []⟩).map
          (fun s =>
            decide (ReleasablePair s.kernel.mem 0xE0000000 0xE0000020
              ∧ CutsBackLink s.kernel.mem 0xE0000000 0xE0000020))
        = some true := by
    decide +kernel
  obtain ⟨s, reached, checked⟩ := Option.map_eq_some_iff.mp replayed
  obtain ⟨pair, cut⟩ := of_decide_eq_true checked
  obtain ⟨mirrored, coalesced, listedP, listedQ, usedP, usedQ, lastP, lastQ⟩ := pair
  have linked := Linked.of_replay reached mirrored
  obtain ⟨areas₁, areas₂, wf₁, _, _, merged⟩ := claim _ _ 0xE0000000 0xE0000020 linked coalesced
    listedP listedQ usedP usedQ (by decide) lastP lastQ
  refine linked.kfree_kfree_apart listedP listedQ usedP usedQ (by decide) lastP lastQ cut
    ⟨areas₁, wf₁, ?_⟩
  rw [merged]
  exact coalesce_apart

end SimpleKernel
