import SimpleKernel.Heap.Sessions
import SimpleKernel.Library.AreaLists

/-! `kmalloc` as best-fit splitting of a list of areas.
The chain of headers in memory is read as a list of areas, and one call of `kmalloc` is one
step of the splitting rule on that list. Back links play no part in it.
-/

namespace SimpleKernel

open ByteMemory Segments AreaLists

variable {m m' : Memory} {areas before after : List Addr} {a b new x : Addr} {size : Word}

/-- The area whose header is at `a`. -/
def areaAt (m : Memory) (a : Addr) : Area where
  address := a.toNat
  payload := payload m a
  used := getAreaUsed m a

/-- The areas of a chain, in its order. -/
def areaList (m : Memory) (areas : List Addr) : List Area :=
  areas.map (areaAt m)

/-- The pointer a call returns, with NULL for none. -/
def returned (ptr : Addr) : Option Nat :=
  if ptr = null then none else some ptr.toNat

theorem returned_eq_none_iff {ptr : Addr} : returned ptr = none ↔ ptr = null := by
  simp [returned]

/-- The test of the scan is that of the abstract list. -/
theorem fits_areaAt_iff {request : Nat}
    : (areaAt m a).Fits request ↔ kmallocFits m request a = true :=
  kmallocFits_iff.symm

/-- A scan for the first minimum among the headers that fit chooses the best area. -/
theorem WellFormed.best_areaAt (wf : WellFormed m areas) {fits : Addr → Bool}
    {Fits : Area → Prop} (agree : ∀ b ∈ areas, Fits (areaAt m b) ↔ fits b = true)
    (best : (areas.filter fits).argmin (payload m) = some a)
    : (areaAt m a).Best Fits (areaList m areas) := by
  obtain ⟨chosen, fitsA⟩ := BestFit.mem_of_best best
  refine ⟨(agree a chosen).mpr fitsA, ?_, ?_⟩
  · intro other member fitsOther
    obtain ⟨b, listed, rfl⟩ := List.mem_map.mp member
    exact BestFit.best_le best listed ((agree b listed).mp fitsOther)
  · intro other member fitsOther same
    obtain ⟨b, listed, rfl⟩ := List.mem_map.mp member
    rcases BestFit.best_first wf.chain.pairwise best listed ((agree b listed).mp fitsOther)
        same with rfl | behind
    · exact le_rfl
    · have bounds := wf.bounds chosen
      simp only [areaAt]
      omega

/-- A scan that chooses nothing has refused every area. -/
theorem not_fits_of_none {fits : Addr → Bool} {Fits : Area → Prop}
    (agree : ∀ b ∈ areas, Fits (areaAt m b) ↔ fits b = true)
    (nothing : (areas.filter fits).argmin (payload m) = none)
    : ∀ area ∈ areaList m areas, ¬Fits area := by
  intro area member fitsArea
  obtain ⟨b, listed, rfl⟩ := List.mem_map.mp member
  have refused := BestFit.none_fits nothing listed
  rw [agree b listed, refused] at fitsArea
  cases fitsArea

/-- The scan of `kmalloc` chooses the best fit of the listed areas. -/
theorem WellFormed.bestFit_areaAt (wf : WellFormed m areas) {request : Nat}
    (best : kmallocBest m areas request = some a)
    : (areaAt m a).Best (Area.Fits request) (areaList m areas) :=
  wf.best_areaAt (fun _ _ => fits_areaAt_iff) best

theorem areaList_congr (same : ∀ x ∈ areas, areaAt m' x = areaAt m x)
    : areaList m' areas = areaList m areas :=
  List.map_congr_left same

/-- What is listed of an area depends on its link and its mark. -/
theorem areaAt_congr (next : getNextAddress m' x = getNextAddress m x)
    (used : getAreaUsed m' x = getAreaUsed m x)
    : areaAt m' x = areaAt m x := by
  simp only [areaAt, payload, next, used]

/-- Setting the used bit of one header changes its own area only. -/
theorem areaAt_setAreaUsed (alignedA : Aligned a) (alignedX : Aligned x) (used : Bool)
    : areaAt (setAreaUsed m a used) x
      = if x = a then { areaAt m x with used := used } else areaAt m x := by
  split
  · next same => simp [areaAt, payload, alignedA, same]
  · next ne => simp [areaAt, payload, alignedA, alignedX, ne]

/-- Marking an area keeps the chain, as the mark shares no bit with the link. -/
theorem WellFormed.marked (wf : WellFormed m areas) (member : a ∈ areas) (used : Bool)
    : WellFormed (setAreaUsed m a used) areas := by
  have aligned := wf.aligned member
  refine wf.congr (fun x inside => ?_) (fun x inside => ?_) (by simp [aligned])
  · simp [aligned, wf.aligned inside]
  · simp [aligned, wf.aligned inside]

/-- What changes one area of a chain leaves the areas before and behind it. -/
theorem WellFormed.areaList_around (wf : WellFormed m (before ++ a :: after))
    (same : ∀ x ∈ before ++ a :: after, x ≠ a → areaAt m' x = areaAt m x)
    : areaList m' before = areaList m before ∧ areaList m' after = areaList m after := by
  have ne {x} (member : x ∈ before ∨ x ∈ after) : x ≠ a :=
    wf.chain.ne_middle (by decide) member
  constructor
  · exact areaList_congr (fun x member => same x (by simp [member]) (ne (Or.inl member)))
  · exact areaList_congr (fun x member => same x (by simp [member]) (ne (Or.inr member)))

/-- It changes the mark of that area in the list, and nothing else. -/
theorem WellFormed.areaList_marked (wf : WellFormed m (before ++ a :: after)) (used : Bool)
    : areaList (setAreaUsed m a used) (before ++ a :: after)
      = areaList m before ++ { areaAt m a with used := used } :: areaList m after := by
  have alignedA : Aligned a := wf.aligned (by simp)
  have marked := areaAt_setAreaUsed (m := m) alignedA alignedA used
  rw [if_pos rfl] at marked
  have same (x) (listed : x ∈ before ++ a :: after) (ne : x ≠ a)
      : areaAt (setAreaUsed m a used) x = areaAt m x := by
    rw [areaAt_setAreaUsed alignedA (wf.aligned listed), if_neg ne]
  have around := wf.areaList_around same
  simp only [areaList, List.map_append, List.map_cons] at around ⊢
  rw [around.1, around.2, marked]

/-- A header inserted into an area divides it in two and keeps the others. -/
theorem HeaderInserted.areaList_divided (inserted : HeaderInserted m m' a new)
    (wf : WellFormed m (before ++ a :: after)) (alignedNew : Aligned new)
    (low : a.toNat + 8 ≤ new.toNat) (high : new.toNat + 8 ≤ (getNextAddress m a).toNat)
    : areaList m' before = areaList m before
      ∧ areaAt m' a = ⟨a.toNat, new.toNat - (a.toNat + 8), getAreaUsed m a⟩
      ∧ areaAt m' new = ⟨new.toNat, (getNextAddress m a).toNat - (new.toNat + 8), false⟩
      ∧ areaList m' after = areaList m after := by
  have ne {b} (member : b ∈ before ++ a :: after) : b ≠ new :=
    inserted.ne_new wf alignedNew low high member
  have same (x) (listed : x ∈ before ++ a :: after) (neA : x ≠ a)
      : areaAt m' x = areaAt m x :=
    areaAt_congr (inserted.nextOther x (wf.aligned listed) neA (ne listed))
      (inserted.usedOther x (wf.aligned listed) (ne listed))
  have around := wf.areaList_around same
  refine ⟨around.1, ?_, ?_, around.2⟩
  · simp only [areaAt, payload, inserted.nextOld,
      inserted.usedOther a (wf.aligned (by simp)) (ne (by simp))]
  · simp only [areaAt, payload, inserted.nextNew, inserted.usedNew]

-----------------------------------------------------------------------------------------
-- The carving and the call
-----------------------------------------------------------------------------------------

/-- A block with a new header behind it. -/
theorem WellFormed.areaList_carved (wf : WellFormed m (before ++ a :: after))
    (alignedNew : Aligned new) (low : a.toNat + 8 ≤ new.toNat)
    (high : new.toNat + 8 ≤ (getNextAddress m a).toNat)
    : WellFormed (setAreaUsed (insertArea m a new) a true) (before ++ a :: new :: after)
      ∧ areaList (setAreaUsed (insertArea m a new) a true) (before ++ a :: new :: after)
        = areaList m before
          ++ [
            ⟨a.toNat, new.toNat - (a.toNat + 8), true⟩,
            ⟨new.toNat, (getNextAddress m a).toNat - (new.toNat + 8), false⟩
          ]
          ++ areaList m after := by
  have member : a ∈ before ++ a :: after := by simp
  have ne : a ≠ new := by
    rintro rfl
    omega
  have inserted := insertArea_inserted (m := m) (wf.aligned member) alignedNew ne
  have wf' := inserted.wellFormed wf alignedNew low high
  obtain ⟨left, first, second, right⟩ := inserted.areaList_divided wf alignedNew low high
  refine ⟨wf'.marked (by simp) true, ?_⟩
  rw [wf'.areaList_marked, left, first]
  simp only [areaList, List.map_cons] at right ⊢
  rw [right, second]
  simp

/-- Carving a block out of a free area replaces that area by its split. -/
theorem WellFormed.kmallocCarve_areaList (wf : WellFormed m (before ++ a :: after))
    (aligned : Aligned size) (positive : 8 ≤ size.toNat) (fit : size.toNat < payload m a)
    : ∃ areas',
        WellFormed (kmallocCarve m (getAreaSize m a) size a) areas'
        ∧ areaList (kmallocCarve m (getAreaSize m a) size a) areas'
          = areaList m before ++ (areaAt m a).split 8 size.toNat ++ areaList m after := by
  have member : a ∈ before ++ a :: after := by simp
  have ends := wf.payload_le member
  have splits := wf.kmallocSplits_iff member fit
  rw [Area.split]
  simp only [kmallocCarve, splits]
  by_cases room : size.toNat + 16 < payload m a
  · obtain ⟨_, alignedNew, sum, high⟩ := wf.remainder_inserted member aligned positive room
    obtain ⟨wf', carved⟩ := wf.areaList_carved alignedNew (by omega) high
    have kept : (a + size).toNat - (a.toNat + 8) = size.toNat - 8 := by omega
    have rest
        : (getNextAddress m a).toNat - ((a + size).toNat + 8)
          = payload m a - size.toNat := by
      omega
    rw [kept, rest, sum] at carved
    rw [if_pos room, if_pos (by simp only [areaAt]; omega)]
    exact ⟨_, wf', carved⟩
  · rw [if_neg room, if_neg (by simp only [areaAt]; omega)]
    refine ⟨_, wf.marked member true, ?_⟩
    rw [wf.areaList_marked]
    simp

/-- `kmalloc` performs one best-fit split of the areas of the heap. It returns NULL exactly
when no free area is larger than the rounded request, and then nothing has changed.
-/
theorem WellFormed.kmalloc_bestFitSplit {k : Kernel} (wf : WellFormed k.mem areas)
    (positive : 1 ≤ size.toNat) (bounded : size.toNat ≤ 2 ^ 32 - 16)
    : ∃ ptr k' areas',
        kmalloc k size = some (ptr, k')
        ∧ WellFormed k'.mem areas'
        ∧ BestFitSplit 8 (8 * ((size.toNat + 8) ⌈/⌉ 8)) (areaList k.mem areas)
          (returned ptr) (areaList k'.mem areas')
        ∧ (ptr = null
          ↔ ∀ area ∈ areaList k.mem areas, ¬area.Fits (8 * ((size.toNat + 8) ⌈/⌉ 8)))
        ∧ (ptr = null → k' = k) := by
  have notZero : size ≠ 0 := by
    rintro rfl
    cases positive
  have rounded : (kmallocSize size).toNat = (size.toNat + 15) / 8 * 8 :=
    kmallocSize_toNat (by omega)
  have need : (kmallocSize size).toNat = 8 * ((size.toNat + 8) ⌈/⌉ 8) := by
    rw [rounded, Nat.ceilDiv_eq_add_pred_div]
    omega
  rw [← need]
  rcases wf.kmalloc_cases notZero with
    ⟨nothing, called⟩ | ⟨a, vm, best, member, fits, _, called⟩
  · have step : BestFitSplit 8 (kmallocSize size).toNat (areaList k.mem areas) (returned null)
        (areaList k.mem areas) :=
      .full (not_fits_of_none (fun _ _ => fits_areaAt_iff) nothing)
    exact ⟨null, k, areas, called, wf, step, returned_eq_none_iff.symm.trans step.eq_none_iff,
      fun _ => rfl⟩
  · have chosen := wf.bestFit_areaAt best
    have fit := (kmallocFits_iff.mp fits).2
    obtain ⟨before, after, rfl⟩ := List.append_of_mem member
    have bounds := wf.bounds member
    have payloadStart : (a + headerSize).toNat = a.toNat + 8 := by bv_omega
    have notNull : a + headerSize ≠ null := fun zero => by
      rw [zero] at payloadStart
      cases payloadStart
    obtain ⟨areas', wf', carved⟩ :=
      wf.kmallocCarve_areaList (aligned_kmallocSize size) (by omega) fit
    have step
        : BestFitSplit 8 (kmallocSize size).toNat (areaList k.mem (before ++ a :: after))
            (returned (a + headerSize))
            (areaList (kmallocCarve k.mem (getAreaSize k.mem a) (kmallocSize size) a)
              areas') := by
      rw [carved, returned, if_neg notNull, payloadStart]
      simp only [areaList, List.map_append, List.map_cons] at chosen ⊢
      exact .taken chosen
    exact ⟨_, _, areas', called, wf', step, returned_eq_none_iff.symm.trans step.eq_none_iff,
      fun zero => absurd zero notNull⟩

/-- A request is served by the best fit and split off it. Witness: 40 bytes of the fresh heap,
which grow to 48 with the header.
-/
theorem kmalloc_bestFitSplit_wholeHeap
    : ∃ ptr k' areas',
        kmalloc (initHeap bareKernel) 40 = some (ptr, k')
        ∧ WellFormed k'.mem areas'
        ∧ BestFitSplit 8 (8 * ((40 + 8) ⌈/⌉ 8))
          (areaList (initHeap bareKernel).mem [heapStart]) (returned ptr)
          (areaList k'.mem areas')
        ∧ (ptr = null
          ↔ ∀ area ∈ areaList (initHeap bareKernel).mem [heapStart],
              ¬area.Fits (8 * ((40 + 8) ⌈/⌉ 8)))
        ∧ (ptr = null → k' = initHeap bareKernel) :=
  WellFormed.kmalloc_bestFitSplit (initHeap_wellFormed (k := bareKernel) rfl)
    (show 1 ≤ BitVec.toNat (40 : Word) by decide) (by decide)

end SimpleKernel
