import SimpleKernel.Heap.BestFitSplitting

/-! `kpagealloc` as page-aligned best-fit splitting of a list of areas.
The carving writes up to two headers: one that ends at the page boundary above the chosen
area, unless its own does, and one behind the pages if enough is left there.
-/

namespace SimpleKernel

open ByteMemory Segments AreaLists

variable {m m' mid : Memory} {areas before after : List Addr} {a : Addr} {size n : Word}

/-- The page above an area is the one that `kpagealloc` computes. -/
theorem WellFormed.pageAbove_areaAt (wf : WellFormed m areas) (member : a ∈ areas)
    : (areaAt m a).pageAbove 4096 = (nextPage a).toNat :=
  (wf.nextPage_toNat member).symm

/-- So is the space that a request needs there. -/
theorem WellFormed.pageNeed_areaAt (wf : WellFormed m areas) (member : a ∈ areas)
    (count : Nat)
    : (areaAt m a).pageNeed 8 4096 count = pageNeed (count * 4096) a := by
  rw [Area.pageNeed, wf.pageAbove_areaAt member]
  rfl

/-- The header of an area ends at the page boundary. -/
theorem WellFormed.pageHead_iff (wf : WellFormed m areas) (member : a ∈ areas)
    : nextPage a - headerSize = a
      ↔ (areaAt m a).address + 8 = (areaAt m a).pageAbove 4096 := by
  have bounds := wf.bounds member
  have page := wf.nextPage_toNat member
  rw [wf.pageAbove_areaAt member]
  simp only [areaAt]
  bv_omega

/-- The nested tests of the scan amount to one condition on the listed area. -/
theorem WellFormed.fitsPages_areaAt_iff (wf : WellFormed m areas) (member : a ∈ areas)
    (count : Nat)
    : (areaAt m a).FitsPages 8 4096 count ↔ kpageallocFits m (count * 4096) a = true := by
  rw [kpageallocFits_iff, Area.FitsPages, wf.pageNeed_areaAt member]
  simp only [wf.pageHead_iff member]
  rfl

/-- The list after the first head: what lies before it, and the head of the block. -/
theorem WellFormed.pageHead_areaList (wf : WellFormed m (before ++ a :: after))
    (fits : kpageallocFits m size.toNat a = true)
    (opened
      : (if nextPage a - headerSize ≠ a then insertPageHead m a (nextPage a - headerSize)
          else m)
        = mid)
    : ∃ front,
        WellFormed mid (front ++ (nextPage a - headerSize) :: after)
        ∧ areaList mid front
          = areaList m before
            ++ (if (areaAt m a).address + 8 = (areaAt m a).pageAbove 4096 then []
              else
                [⟨a.toNat, (areaAt m a).pageAbove 4096 - 2 * 8 - a.toNat, false⟩])
        ∧ getNextAddress mid (nextPage a - headerSize) = getNextAddress m a
        ∧ areaList mid after = areaList m after := by
  have member : a ∈ before ++ a :: after := by simp
  have aligned := wf.aligned_pageHead member
  have ret := wf.pageHead_toNat member
  have page := wf.nextPage_toNat member
  have free := (kpageallocFits_iff.mp fits).1
  rcases wf.pageHead_inserted member fits with same | ⟨inserted, ne, low, high⟩
  · rw [if_neg (not_not.mpr same)] at opened
    rw [if_pos ((wf.pageHead_iff member).mp same), same, ← opened]
    exact ⟨before, wf, by simp, rfl, rfl⟩
  · rw [if_pos ne] at opened
    rw [if_neg (fun same => ne ((wf.pageHead_iff member).mpr same))]
    rw [opened] at inserted
    obtain ⟨left, first, _, right⟩ := inserted.areaList_divided wf aligned low high
    have wf' := inserted.wellFormed wf aligned low high
    refine ⟨before ++ [a], by simpa using wf', ?_, inserted.nextNew, right⟩
    have gap : (nextPage a - headerSize).toNat - (a.toNat + 8)
        = (areaAt m a).pageAbove 4096 - 2 * 8 - a.toNat := by
      rw [wf.pageAbove_areaAt member]
      omega
    simp only [areaList, List.map_append, List.map_cons, List.map_nil] at left ⊢
    rw [left, first, gap, free]

/-- Carving pages out of a free area replaces that area by its page split. -/
theorem WellFormed.kpageallocCarve_areaList (wf : WellFormed m (before ++ a :: after))
    (bounded : n.toNat * 4096 < 2 ^ 32)
    (fits : kpageallocFits m (n * pageSize).toNat a = true)
    : ∃ areas',
        WellFormed (kpageallocCarve m (getAreaSize m a) (n * pageSize) a) areas'
        ∧ areaList (kpageallocCarve m (getAreaSize m a) (n * pageSize) a) areas'
          = areaList m before ++ (areaAt m a).splitPages 8 4096 n.toNat
            ++ areaList m after := by
  have member : a ∈ before ++ a :: after := by simp
  have total := pages_toNat bounded
  have ends := wf.payload_le member
  have bounds := wf.bounds member
  have page := wf.nextPage_toNat member
  have ret := wf.pageHead_toNat member
  have alignedRet := wf.aligned_pageHead member
  have splits := wf.kpageallocSplits_iff member fits
  have room := (kpageallocFits_iff.mp fits).2
  simp only [kpageallocCarve]
  generalize opened : (if nextPage a - headerSize ≠ a
    then insertPageHead m a (nextPage a - headerSize) else m) = mid
  obtain ⟨front, wf', left, whole, right⟩ := wf.pageHead_areaList fits opened
  rw [total] at splits room
  have full : pageNeed (n.toNat * 4096) a
      = n.toNat * 4096 + ((nextPage a).toNat - a.toNat) + 8 := rfl
  have above := wf.pageAbove_areaAt member
  have need := wf.pageNeed_areaAt member n.toNat
  have start : (areaAt m a).address = a.toNat := rfl
  have extent : (areaAt m a).payload = payload m a := rfl
  rw [Area.splitPages, need, start, extent]
  rw [start] at left
  have head : (areaAt m a).pageAbove 4096 - 8 = (nextPage a - headerSize).toNat := by omega
  by_cases large : pageNeed (n.toNat * 4096) a + 16 < payload m a
  · have behind : (nextPage a - headerSize + n * pageSize + headerSize).toNat
        = (nextPage a - headerSize).toNat + n.toNat * 4096 + 8 := by
      rw [← total]
      bv_omega
    have alignedNew : Aligned (nextPage a - headerSize + n * pageSize + headerSize) := by
      simp only [Aligned] at alignedRet ⊢
      omega
    obtain ⟨wf'', carved⟩ := wf'.areaList_carved alignedNew (by omega) (by rw [whole]; omega)
    have block : (nextPage a - headerSize + n * pageSize + headerSize).toNat
          - ((nextPage a - headerSize).toNat + 8)
        = n.toNat * 4096 := by
      omega
    have position : (nextPage a - headerSize + n * pageSize + headerSize).toNat
        = (areaAt m a).pageAbove 4096 + n.toNat * 4096 := by
      omega
    rw [whole, block, position, left, right, ← ends, ← head] at carved
    have leaves : 2 * 8 < payload m a - pageNeed (n.toNat * 4096) a := by omega
    rw [if_pos (splits.mpr large), if_pos leaves]
    refine ⟨_, wf'', ?_⟩
    simp only [carved, List.append_assoc]
  · have ends' : ¬2 * 8 < payload m a - pageNeed (n.toNat * 4096) a := by omega
    rw [if_neg (mt splits.mp large), if_neg ends']
    refine ⟨_, wf'.marked (by simp) true, ?_⟩
    have address : (areaAt mid (nextPage a - headerSize)).address
        = (areaAt m a).pageAbove 4096 - 8 :=
      head.symm
    have block : (areaAt mid (nextPage a - headerSize)).payload
        = a.toNat + 8 + payload m a - (areaAt m a).pageAbove 4096 := by
      change payload mid (nextPage a - headerSize) = _
      rw [payload, whole]
      omega
    rw [wf'.areaList_marked, left, right]
    simp only [address, block, List.append_assoc, List.singleton_append]

/-- `kpagealloc` performs one page-aligned best-fit split of the areas of the heap. It
returns NULL exactly when no free area has room for the pages and their headers, and then
nothing has changed.
-/
theorem WellFormed.kpagealloc_pageSplit {k : Kernel} (wf : WellFormed k.mem areas)
    (positive : 1 ≤ n.toNat) (bounded : n.toNat < 2 ^ 20)
    : ∃ ptr k' areas',
        kpagealloc k n = some (ptr, k')
        ∧ WellFormed k'.mem areas'
        ∧ PageSplit 8 4096 n.toNat (areaList k.mem areas) (returned ptr)
          (areaList k'.mem areas')
        ∧ (ptr = null ↔ ∀ area ∈ areaList k.mem areas, ¬area.FitsPages 8 4096 n.toNat)
        ∧ (ptr = null → k' = k)
        ∧ 4096 ∣ ptr.toNat
        ∧ (ptr ≠ null
          → ∃ room,
              n.toNat * 4096 ≤ room ∧ ⟨ptr.toNat - 8, room, true⟩ ∈ areaList k'.mem areas') := by
  have notZero : n ≠ 0 := by
    rintro rfl
    cases positive
  have total := pages_toNat (show n.toNat * 4096 < 2 ^ 32 by omega)
  have agree (b) (listed : b ∈ areas) := wf.fitsPages_areaAt_iff listed n.toNat
  rw [← total] at agree
  rcases wf.kpagealloc_cases notZero
    with ⟨nothing, called⟩ | ⟨a, vm, best, member, fits, _, called⟩
  · have step : PageSplit 8 4096 n.toNat (areaList k.mem areas) (returned null)
        (areaList k.mem areas) :=
      .full (not_fits_of_none agree nothing)
    exact ⟨null, k, areas, called, wf, step, returned_eq_none_iff.symm.trans step.eq_none_iff,
      fun _ => rfl, Nat.dvd_zero _, fun notNull => absurd rfl notNull⟩
  · have chosen := wf.best_areaAt agree best
    have above := wf.pageAbove_areaAt member
    have page := wf.nextPage_toNat member
    have bounds := wf.bounds member
    obtain ⟨before, after, rfl⟩ := List.append_of_mem member
    have start : nextPage a - headerSize + headerSize = nextPage a := by bv_omega
    have notNull : nextPage a ≠ null := by bv_omega
    obtain ⟨areas', wf', carved⟩ := wf.kpageallocCarve_areaList (by omega) fits
    rw [start] at called
    have step
        : PageSplit 8 4096 n.toNat (areaList k.mem (before ++ a :: after))
            (returned (nextPage a))
            (areaList (kpageallocCarve k.mem (getAreaSize k.mem a) (n * pageSize) a)
              areas') := by
      rw [carved, returned, if_neg notNull, ← above]
      simp only [areaList, List.map_append, List.map_cons] at chosen ⊢
      exact .taken chosen
    have result : (nextPage a).toNat ∈ returned (nextPage a) := by
      rw [returned, if_neg notNull]
      rfl
    exact ⟨_, _, areas', called, wf', step, returned_eq_none_iff.symm.trans step.eq_none_iff,
      fun zero => absurd zero notNull, step.aligned _ result, fun _ => step.block _ result⟩

/-- Pages are served from the best fit, behind a header of their own. Witness: three pages of
the fresh heap.
-/
theorem kpagealloc_pageSplit_wholeHeap
    : ∃ ptr k' areas',
        kpagealloc (initHeap bareKernel) 3 = some (ptr, k')
        ∧ WellFormed k'.mem areas'
        ∧ PageSplit 8 4096 3 (areaList (initHeap bareKernel).mem [heapStart]) (returned ptr)
          (areaList k'.mem areas')
        ∧ (ptr = null
          ↔ ∀ area ∈ areaList (initHeap bareKernel).mem [heapStart],
              ¬area.FitsPages 8 4096 3)
        ∧ (ptr = null → k' = initHeap bareKernel)
        ∧ 4096 ∣ ptr.toNat
        ∧ (ptr ≠ null
          → ∃ room, 3 * 4096 ≤ room ∧ ⟨ptr.toNat - 8, room, true⟩ ∈ areaList k'.mem areas') :=
  WellFormed.kpagealloc_pageSplit (initHeap_wellFormed (k := bareKernel) rfl)
    (show 1 ≤ BitVec.toNat (3 : Word) by decide) (by decide)

end SimpleKernel
