import SimpleKernel.Heap.Chain

/-! What `kfree` does to the chain.
Each merge moves one next address ahead: that of the area named by the stored back link if
it is free, otherwise that of the released area itself. The chain survives as long as the
back link can be trusted and the area behind is not the sentinel.
-/

namespace SimpleKernel

open ByteMemory Segments

variable {m m' : Memory} {areas areas' : List Addr} {a x : Addr}

/-- The headers the loop over areas visits from `a` on. -/
def walkAreas (m : Memory) : Nat → Addr → List Addr
  | 0, _ => []
  | rounds + 1, a =>
      if getAreaEpsilon m a then [] else a :: walkAreas m rounds (getNextAddress m a)

/-- The headers on the chain. -/
def chainAreas (m : Memory) : List Addr :=
  walkAreas m areaRounds heapStart

/-- A walk over a chain that ends at the sentinel lists its headers, by induction on them. -/
theorem walkAreas_segment {l : List Addr} (chain : AreaSegment m a l heapEnd)
    (plain : ∀ x ∈ l, getAreaEpsilon m x = false)
    (sentinel : getAreaEpsilon m heapEnd = true) (rounds : Nat)
    (enough : l.length < rounds)
    : walkAreas m rounds a = l := by
  induction l generalizing a rounds with
  | nil =>
      obtain rfl : a = heapEnd := chain
      obtain ⟨rounds, rfl⟩ := Nat.exists_eq_succ_of_ne_zero (Nat.ne_of_gt enough)
      simp [walkAreas, sentinel]
  | cons x rest ih =>
      obtain ⟨rfl, _, tail⟩ := chain
      obtain ⟨rounds, rfl⟩ := Nat.exists_eq_succ_of_ne_zero
        (Nat.ne_of_gt (Nat.lt_of_le_of_lt (Nat.zero_le _) enough))
      simp only [walkAreas, plain x (by simp), Bool.false_eq_true, if_false]
      rw [ih tail (fun y member => plain y (by simp [member])) rounds (by simpa using enough)]

/-- So the areas can be read off memory. -/
theorem WellFormed.chainAreas_eq (wf : WellFormed m areas) : chainAreas m = areas :=
  walkAreas_segment wf.chain wf.plain wf.sentinel areaRounds wf.length_lt

/-- Decides by one pass over the chain. -/
instance decidableChain (m : Memory) (p : Addr → Prop) [DecidablePred p]
    : Decidable (∀ a ∈ chainAreas m, p a) :=
  decidable_of_iff ((chainAreas m).all (fun a => decide (p a)) = true) (by simp)

/-- The back link of the area at `a` names a free area, so `kfree` merges towards the root.
-/
def mergesTowardsRoot (m : Memory) (a : Addr) : Prop :=
  getPrevAddress m a ≠ null ∧ getAreaUsed m (getPrevAddress m a) = false

/-- The area behind the one at `a` is free, so `kfree` merges towards the tail. -/
def mergesTowardsTail (m : Memory) (a : Addr) : Prop :=
  getNextAddress m a ≠ null ∧ getAreaUsed m (getNextAddress m a) = false

instance (m : Memory) (a : Addr) : Decidable (mergesTowardsRoot m a) :=
  inferInstanceAs (Decidable (_ ∧ _))

instance (m : Memory) (a : Addr) : Decidable (mergesTowardsTail m a) :=
  inferInstanceAs (Decidable (_ ∧ _))

/-- The area whose next address a release of `a` sets. -/
def mergeNode (m : Memory) (a : Addr) : Addr :=
  if mergesTowardsRoot m a then getPrevAddress m a else a

/-- What a release of `a` sets it to. -/
def mergeTarget (m : Memory) (a : Addr) : Addr :=
  if mergesTowardsTail m a then getNextAddress m (getNextAddress m a)
  else getNextAddress m a

/-- Links, flags and bytes after a release of the area at `a`. -/
structure Released (m m' : Memory) (a : Addr) : Prop where
  next
    : ∀ x,
        Aligned x
        → getNextAddress m' x
          = if x = mergeNode m a then mergeTarget m a else getNextAddress m x
  used : ∀ x, Aligned x → getAreaUsed m' x = if x = a then false else getAreaUsed m x
  epsilon : ∀ x, Aligned x → getAreaEpsilon m' x = getAreaEpsilon m x
  bytes
    : ∀ x,
        OutsideHeader x a
        → OutsideHeader x (mergeNode m a)
        → OutsideHeader x (getNextAddress m a)
        → OutsideHeader x (mergeTarget m a)
        → m' x = m x

theorem aligned_mergeNode (aligned : Aligned a) : Aligned (mergeNode m a) := by
  rw [mergeNode]
  split
  · exact aligned_getPrevAddress m a
  · exact aligned

/-- The root test of the merge runs after the used bit is cleared, so it also passes for a
back link that names the released area itself.
-/
theorem rootTest_iff (aligned : Aligned a)
    : (getPrevAddress m a ≠ null
        ∧ getAreaUsed (setAreaUsed m a false) (getPrevAddress m a) = false)
      ↔ mergesTowardsRoot m a ∨ getPrevAddress m a ≠ null ∧ getPrevAddress m a = a := by
  rw [getAreaUsed_setAreaUsed aligned (aligned_getPrevAddress m a), mergesTowardsRoot]
  split <;> simp_all

/-- `merge_free_areas` looks towards the tail if the next area is free. -/
theorem tailTest_iff (aligned : Aligned a) (ahead : getNextAddress m a ≠ a)
    : (getNextAddress m a ≠ null
        ∧ getAreaUsed (setAreaUsed m a false) (getNextAddress m a) = false)
      ↔ mergesTowardsTail m a := by
  rw [getAreaUsed_setAreaUsed aligned (aligned_getNextAddress m a), if_neg ahead,
    mergesTowardsTail]

/-- A back link that names the released area itself makes no difference to the merge node. -/
theorem mergeNode_eq (m : Memory) (a : Addr)
    : mergeNode m a
      = if mergesTowardsRoot m a ∨ getPrevAddress m a ≠ null ∧ getPrevAddress m a = a
        then getPrevAddress m a
        else a := by
  rw [mergeNode]
  split
  · next onRoot => simp [onRoot]
  · next off =>
    split
    · next self => exact (self.resolve_left off).2.symm
    · rfl

/-- A back link that names the released area itself changes nothing: its used bit was
cleared before the merge, so the root branch stores what the other would.
-/
theorem mergeFreeAreas_released (aligned : Aligned a) (ahead : getNextAddress m a ≠ a)
    : Released m (mergeFreeAreas (setAreaUsed m a false) a) a := by
  have alignedPrev := aligned_getPrevAddress m a
  have alignedNext := aligned_getNextAddress m a
  have alignedBehind := aligned_getNextAddress m (getNextAddress m a)
  simp only [mergeFreeAreas, getPrevAddress_setAreaUsed aligned aligned,
    getNextAddress_setAreaUsed aligned aligned, getNextAddress_setAreaUsed aligned alignedNext,
    rootTest_iff aligned, tailTest_iff aligned ahead]
  have node := mergeNode_eq m a
  split
  · next both =>
    rw [if_pos both.1] at node
    constructor
    · intro x alignedX
      simp [alignedPrev, alignedBehind, alignedX, aligned, node, mergeTarget, both.2]
    · intro x alignedX
      simp [alignedPrev, alignedBehind, alignedX, aligned]
    · intro x alignedX
      simp [alignedPrev, alignedBehind, alignedX, aligned]
    · intro x outsideA outsideNode outsideNext outsideTarget
      rw [node] at outsideNode
      rw [mergeTarget, if_pos both.2] at outsideTarget
      simp [outsideA, outsideNode, outsideTarget]
  · next notBoth =>
    split
    · next onTail =>
      rw [if_neg (fun on => notBoth ⟨on, onTail⟩)] at node
      constructor
      · intro x alignedX
        simp [alignedNext, alignedX, aligned, node, mergeTarget, onTail]
      · intro x alignedX
        simp [alignedNext, alignedX, aligned]
      · intro x alignedX
        simp [alignedNext, alignedX, aligned]
      · intro x outsideA outsideNode outsideNext outsideTarget
        simp [outsideA, outsideNext]
    · next offTail =>
      split
      · next on =>
        rw [if_pos on] at node
        constructor
        · intro x alignedX
          simp [alignedPrev, alignedNext, alignedX, aligned, node, mergeTarget, offTail]
        · intro x alignedX
          simp [alignedPrev, alignedNext, alignedX, aligned]
        · intro x alignedX
          simp [alignedPrev, alignedNext, alignedX, aligned]
        · intro x outsideA outsideNode outsideNext outsideTarget
          rw [node] at outsideNode
          simp [outsideA, outsideNode, outsideNext]
      · next off =>
        rw [if_neg off] at node
        constructor
        · intro x alignedX
          simp only [getNextAddress_setAreaUsed aligned alignedX, node, mergeTarget, offTail,
            if_false]
          split
          · next same => rw [same]
          · rfl
        · intro x alignedX
          simp [alignedX, aligned]
        · intro x alignedX
          simp [alignedX, aligned]
        · intro x outsideA outsideNode outsideNext outsideTarget
          simp [outsideA]

-----------------------------------------------------------------------------------------
-- The chain after a release
-----------------------------------------------------------------------------------------

/-- If the stored back link of the area at `a` names a free area of the chain, that area
lies before `a` and no used area lies between.
-/
def BackLinkSafe (m : Memory) (a : Addr) : Prop :=
  getPrevAddress m a ∈ chainAreas m
  → getAreaUsed m (getPrevAddress m a) = false
  → getPrevAddress m a < a
    ∧ ∀ x ∈ chainAreas m, getPrevAddress m a < x → x < a → getAreaUsed m x = false

instance (m : Memory) (a : Addr) : Decidable (BackLinkSafe m a) :=
  inferInstanceAs (Decidable (_ → _ → _ ∧ _))

/-- A back link that names the area before names one with nothing in between. -/
theorem WellFormed.backLinkSafe (wf : WellFormed m areas)
    (link
      : getPrevAddress m a ∈ areas
        → getAreaUsed m (getPrevAddress m a) = false
        → getNextAddress m (getPrevAddress m a) = a)
    : BackLinkSafe m a := by
  intro listed free
  rw [wf.chainAreas_eq] at listed ⊢
  have behind := link listed free
  have bounds := wf.bounds listed
  rw [behind] at bounds
  refine ⟨by rw [BitVec.lt_def]; omega, fun x member low high => ?_⟩
  rw [BitVec.lt_def] at low high
  have after := wf.next_le listed member low
  rw [behind] at after
  omega

section Chain

variable (wf : WellFormed m areas) (member : a ∈ areas)
include wf member

/-- `kfree` of a used area on the chain reaches the merge. -/
theorem WellFormed.kfree_eq {ptr : Addr} (header : ptr - headerSize = a)
    (used : getAreaUsed m a = true)
    : kfree m ptr = mergeFreeAreas (setAreaUsed m a false) a := by
  have bounds := wf.bounds member
  have notNull : ptr ≠ null := by
    rintro rfl
    bv_omega
  rw [kfree, if_neg notNull, header, if_neg (ne_of_eq_of_ne used (by decide))]

/-- A release of a used area whose back link can be followed marks it free and joins it with
its neighbours.
-/
theorem WellFormed.kfree_released {ptr : Addr} (header : ptr - headerSize = a)
    (used : getAreaUsed m a = true)
    : Released m (kfree m ptr) a := by
  rw [wf.kfree_eq member header used]
  exact mergeFreeAreas_released (wf.aligned member) (wf.next_ne_self member)

/-- What the merged area is linked to is on the chain, or is the sentinel. -/
theorem WellFormed.mergeTarget_mem (notLast : getNextAddress m a ≠ heapEnd)
    : mergeTarget m a ∈ areas ∨ mergeTarget m a = heapEnd := by
  have next := (wf.next_mem member).resolve_right notLast
  rw [mergeTarget]
  split
  · exact wf.next_mem next
  · exact Or.inl next

/-- It lies no earlier than the next area. -/
theorem WellFormed.mergeTarget_ahead (notLast : getNextAddress m a ≠ heapEnd)
    : (getNextAddress m a).toNat ≤ (mergeTarget m a).toNat := by
  have next := (wf.next_mem member).resolve_right notLast
  rw [mergeTarget]
  split
  · have bounds := wf.bounds next
    omega
  · exact le_rfl

/-- An area between a released one and the target of the merge is the free one behind it. -/
theorem WellFormed.merged_free (notLast : getNextAddress m a ≠ heapEnd) (listed : x ∈ areas)
    (above : a.toNat < x.toNat) (below : x.toNat < (mergeTarget m a).toNat)
    : x = getNextAddress m a ∧ getAreaUsed m x = false := by
  have next := (wf.next_mem member).resolve_right notLast
  have behind := wf.next_le member listed above
  rw [mergeTarget] at below
  split at below
  · next onTail =>
    have same : x = getNextAddress m a := by
      by_contra ne
      have start : (getNextAddress m a).toNat < x.toNat :=
        lt_of_le_of_ne behind fun eq => ne (BitVec.eq_of_toNat_eq eq.symm)
      have after := wf.next_le next listed start
      omega
    exact ⟨same, by rw [same]; exact onTail.2⟩
  · omega

omit member in
/-- The area merged into does not lie behind the one released. -/
theorem WellFormed.mergeNode_le (safe : BackLinkSafe m a) (listed : mergeNode m a ∈ areas)
    : (mergeNode m a).toNat ≤ a.toNat := by
  rw [mergeNode] at listed ⊢
  split at listed
  · next onRoot =>
    rw [if_pos onRoot]
    have before := (safe (by rwa [wf.chainAreas_eq]) onRoot.2).1
    exact Nat.le_of_lt before
  · next off => rw [if_neg off]

/-- The chain after a release whose target lies behind the released area. -/
theorem Released.exists_wellFormed_of_target (released : Released m m' a)
    (reached : mergeTarget m a ∈ areas ∨ mergeTarget m a = heapEnd)
    (ahead : a.toNat < (mergeTarget m a).toNat) (safe : BackLinkSafe m a)
    : ∃ areas',
        WellFormed m' areas'
        ∧ ∀ x,
            x ∈ areas'
            ↔ x ∈ areas
              ∧ (mergeNode m a ∈ areas
                → x.toNat ≤ (mergeNode m a).toNat ∨ (mergeTarget m a).toNat ≤ x.toNat) := by
  have alignedA := wf.aligned member
  have sentinel := released.epsilon heapEnd aligned_heapEnd
  by_cases listed : mergeNode m a ∈ areas
  · have low := wf.mergeNode_le safe listed
    have moved : getNextAddress m' (mergeNode m a) = mergeTarget m a := by
      rw [released.next _ (aligned_mergeNode alignedA), if_pos rfl]
    have others (x) (inside : x ∈ areas) (ne : x ≠ mergeNode m a)
        : getNextAddress m' x = getNextAddress m x := by
      rw [released.next x (wf.aligned inside), if_neg ne]
    obtain ⟨areas', chain, members⟩ := wf.chain.skip (by decide) listed reached (by omega)
      moved others
    refine ⟨areas', ⟨chain, fun x inside => ?_, by rw [sentinel, wf.sentinel]⟩, ?_⟩
    · have old := ((members x).mp inside).1
      rw [released.epsilon x (wf.aligned old), wf.plain x old]
    · simpa [listed] using members
  · refine ⟨areas, wf.congr (fun x inside => ?_) (fun x inside => ?_) sentinel, by simp [listed]⟩
    · rw [released.next x (wf.aligned inside), if_neg]
      rintro rfl
      exact listed inside
    · exact released.epsilon x (wf.aligned inside)

/-- A release keeps the chain: what it drops are the headers between the area merged into and
the one it is linked to.
-/
theorem Released.exists_wellFormed (released : Released m m' a)
    (notLast : getNextAddress m a ≠ heapEnd) (safe : BackLinkSafe m a)
    : ∃ areas',
        WellFormed m' areas'
        ∧ ∀ x,
            x ∈ areas'
            ↔ x ∈ areas
              ∧ (mergeNode m a ∈ areas
                → x.toNat ≤ (mergeNode m a).toNat ∨ (mergeTarget m a).toNat ≤ x.toNat) := by
  have bounds := wf.bounds member
  have ahead := wf.mergeTarget_ahead member notLast
  exact released.exists_wellFormed_of_target wf member (wf.mergeTarget_mem member notLast)
    (by omega) safe

/-- A used area other than the released one stays on the chain, with its next address. -/
theorem Released.kept {areas' : List Addr} (released : Released m m' a)
    (notLast : getNextAddress m a ≠ heapEnd) (safe : BackLinkSafe m a) (listed : x ∈ areas)
    (usedX : getAreaUsed m x = true) (ne : x ≠ a)
    (members
      : ∀ x,
          x ∈ areas'
          ↔ x ∈ areas
            ∧ (mergeNode m a ∈ areas
              → x.toNat ≤ (mergeNode m a).toNat ∨ (mergeTarget m a).toNat ≤ x.toNat))
    : x ∈ areas' ∧ getNextAddress m' x = getNextAddress m x := by
  refine ⟨(members x).mpr ⟨listed, fun node => ?_⟩, ?_⟩
  · by_contra between
    rcases Nat.lt_trichotomy x.toNat a.toNat with before | same | behind
    · rw [mergeNode] at node between
      split at node
      · next onRoot =>
        rw [if_pos onRoot] at between
        have free := (safe (by rwa [wf.chainAreas_eq]) onRoot.2).2 x
          (by rwa [wf.chainAreas_eq]) (by simp only [BitVec.lt_def]; omega) before
        rw [free] at usedX
        exact Bool.noConfusion usedX
      · next off =>
        rw [if_neg off] at between
        omega
    · exact ne (BitVec.eq_of_toNat_eq same)
    · have free := (wf.merged_free member notLast listed behind (by omega)).2
      rw [free] at usedX
      exact Bool.noConfusion usedX
  · rw [released.next x (wf.aligned listed), if_neg]
    rintro rfl
    rw [mergeNode] at usedX ne
    split at usedX
    · next onRoot =>
      rw [onRoot.2] at usedX
      exact Bool.noConfusion usedX
    · next off => exact ne (if_neg off)

end Chain

-----------------------------------------------------------------------------------------
-- A repeated release
-----------------------------------------------------------------------------------------

/-- Merging writes links only, wherever the links it follows lead. -/
theorem getAreaUsed_mergeFreeAreas (alignedA : Aligned a) (alignedX : Aligned x)
    : getAreaUsed (mergeFreeAreas m a) x = getAreaUsed m x := by
  have alignedPrev := aligned_getPrevAddress m a
  have alignedNext := aligned_getNextAddress m a
  have alignedBehind := aligned_getNextAddress m (getNextAddress m a)
  simp only [mergeFreeAreas]
  split
  · simp [alignedPrev, alignedBehind, alignedX]
  · split
    · simp [alignedA, alignedNext, alignedX]
    · split
      · simp [alignedPrev, alignedNext, alignedX]
      · rfl

theorem aligned_header {ptr : Addr} (aligned : Aligned ptr) : Aligned (ptr - headerSize) := by
  simp only [Aligned] at aligned ⊢
  bv_omega

/-- No release sets a used bit, whatever the memory holds. -/
theorem kfree_keeps_free {ptr : Addr} (alignedPtr : Aligned ptr) (alignedX : Aligned x)
    (free : getAreaUsed m x = false)
    : getAreaUsed (kfree m ptr) x = false := by
  have alignedA := aligned_header alignedPtr
  simp only [kfree]
  split
  · exact free
  · split
    · exact free
    · rw [getAreaUsed_mergeFreeAreas alignedA alignedX, getAreaUsed_setAreaUsed alignedA alignedX]
      split
      · rfl
      · exact free

/-- A release leaves the header of its pointer free. -/
theorem kfree_frees {ptr : Addr} (aligned : Aligned ptr) (notNull : ptr ≠ null)
    : getAreaUsed (kfree m ptr) (ptr - headerSize) = false := by
  have alignedA := aligned_header aligned
  simp only [kfree, if_neg notNull]
  split
  · next free => exact free
  · rw [getAreaUsed_mergeFreeAreas alignedA alignedA, getAreaUsed_setAreaUsed alignedA alignedA,
      if_pos rfl]

/-- A header that is free stays free through any releases, by induction on them. -/
theorem kfrees_keep_free (frees : List Addr) (aligned : ∀ ptr ∈ frees, Aligned ptr)
    (alignedX : Aligned x) (free : getAreaUsed m x = false)
    : getAreaUsed (frees.foldl kfree m) x = false := by
  induction frees generalizing m with
  | nil => exact free
  | cons ptr rest ih =>
      refine ih (fun p member => aligned p (by simp [member])) ?_
      exact kfree_keeps_free (aligned ptr (by simp)) alignedX free

/-- A second release of a pointer changes nothing, whatever was released in between and
whatever the memory holds.
-/
theorem kfree_repeated (m : Memory) {p : Addr} (alignedP : Aligned p) (notNull : p ≠ null)
    {frees : List Addr} (aligned : ∀ ptr ∈ frees, Aligned ptr)
    : kfree (frees.foldl kfree (kfree m p)) p = frees.foldl kfree (kfree m p) := by
  have free := kfrees_keep_free frees aligned (aligned_header alignedP)
    (kfree_frees (m := m) alignedP notNull)
  rw [kfree, if_neg notNull, if_pos free]

/-- Releasing a block again changes nothing, in any memory. Witness: one where every header is
used and names the same area as both its neighbours, with a release of that area in between.
-/
theorem kfree_repeated_allNines
    : kfree ([0x09090910].foldl kfree (kfree (fun _ => 9) 0x1008)) 0x1008
      = [0x09090910].foldl kfree (kfree (fun _ => 9) 0x1008) :=
  kfree_repeated (fun _ => 9) (show Aligned 0x1008 from rfl) (by decide) (by
    intro ptr member
    obtain rfl := List.mem_singleton.mp member
    rfl)

end SimpleKernel
