import SimpleKernel.Heap.Carving

/-! The allocating calls on a well-formed chain.
Each returns: its scan ends at the sentinel and its mapping loop at a page below it. The
result is NULL when no free area fits, and otherwise the block carved out of the best one.
-/

namespace SimpleKernel

open ByteMemory Segments

variable {m : Memory} {areas : List Addr} {a : Addr}

/-- The loop passes its end before the page pointer wraps, by induction on the rounds. -/
theorem mapMissingPages_returns (flags : BitVec 16) {endPage : Addr}
    (below : endPage.toNat + 4096 < 2 ^ 32) (rounds : Nat) (p : Addr) (vm : Paging)
    (enough : endPage.toNat < p.toNat + 4096 * rounds)
    : ∃ vm', mapMissingPages flags endPage (rounds + 1) p vm = some vm' := by
  induction rounds generalizing p vm with
  | zero =>
      have past : ¬p ≤ endPage := by bv_omega
      exact ⟨vm, by simp [mapMissingPages, past]⟩
  | succ rounds ih =>
      rw [mapMissingPages]
      split
      · next inside =>
        refine ih (p + pageSize) _ ?_
        have step : (p + pageSize).toNat = p.toNat + 4096 := by bv_omega
        omega
      · exact ⟨vm, rfl⟩

/-- The mapping loop ends for every range below the last page of the address space, which it
reaches within the rounds there are.
-/
theorem mapMissingPages_pageRounds (flags : BitVec 16) {endPage : Addr}
    (below : endPage.toNat + 4096 < 2 ^ 32) (p : Addr) (vm : Paging)
    : ∃ vm', mapMissingPages flags endPage pageRounds p vm = some vm' :=
  mapMissingPages_returns flags below (2 ^ 20) p vm (by have small := endPage.isLt; omega)

-----------------------------------------------------------------------------------------
-- kmalloc
-----------------------------------------------------------------------------------------

/-- A request grows by the header and is rounded up to a multiple of eight, unless that
overflows.
-/
theorem kmallocSize_toNat {size : Word} (bounded : size.toNat + 15 < 2 ^ 32)
    : (kmallocSize size).toNat = (size.toNat + 15) / 8 * 8 := by
  have sum : (size + headerSize).toNat = size.toNat + 8 := by bv_omega
  have rounded := divCeil_toNat (a := size + headerSize) (b := 8) (by decide)
    (by rw [sum]; exact bounded)
  rw [sum, eight_toNat] at rounded
  rw [kmallocSize, BitVec.toNat_mul, rounded, eight_toNat]
  omega

/-- A multiple of eight stays one modulo the word size. -/
theorem aligned_kmallocSize (size : Word) : Aligned (kmallocSize size) := by
  rw [Aligned, kmallocSize, BitVec.toNat_mul, eight_toNat]
  omega

/-- The area is split if more than two headers are left of it. The subtraction does not wrap,
because the area fits.
-/
theorem WellFormed.kmallocSplits_iff (wf : WellFormed m areas) (member : a ∈ areas)
    {size : Word} (fit : size.toNat < payload m a)
    : kmallocSplits (getAreaSize m a) size = true ↔ size.toNat + 16 < payload m a := by
  have areaSize := wf.areaSize member
  simp only [kmallocSplits, decide_eq_true_eq]
  bv_omega

/-- The header that `kmalloc` inserts behind its block lies inside the area. -/
theorem WellFormed.remainder_inserted (wf : WellFormed m areas) (member : a ∈ areas)
    {size : Word} (aligned : Aligned size) (positive : 8 ≤ size.toNat)
    (room : size.toNat + 16 < payload m a)
    : HeaderInserted m (insertArea m a (a + size)) a (a + size)
      ∧ Aligned (a + size)
      ∧ (a + size).toNat = a.toNat + size.toNat
      ∧ (a + size).toNat + 8 ≤ (getNextAddress m a).toNat := by
  have alignedA := wf.aligned member
  have ends := wf.payload_le member
  have sum : (a + size).toNat = a.toNat + size.toNat := by bv_omega
  have alignedNew : Aligned (a + size) := by
    simp only [Aligned] at alignedA aligned ⊢
    omega
  have ne : a ≠ a + size := fun same => by
    have equal := congrArg BitVec.toNat same
    omega
  exact ⟨insertArea_inserted alignedA alignedNew ne, alignedNew, sum, by omega⟩

/-- Where the block of `kmalloc` ends: the request's end if the area is split, else the
area's.
-/
theorem WellFormed.kmallocCarve_carved (wf : WellFormed m areas) (member : a ∈ areas)
    {size : Word} (aligned : Aligned size) (positive : 8 ≤ size.toNat)
    (fit : size.toNat < payload m a)
    : ∃ areas',
        Carved m (kmallocCarve m (getAreaSize m a) size a) areas areas' a a true
        ∧ getNextAddress (kmallocCarve m (getAreaSize m a) size a) a
          = if kmallocSplits (getAreaSize m a) size then a + size
            else getNextAddress m a := by
  have alignedA := wf.aligned member
  have whole := Carved.refl wf member
  simp only [kmallocCarve]
  split
  · next splits =>
    have room := (wf.kmallocSplits_iff member fit).mp splits
    obtain ⟨inserted, alignedNew, sum, behind⟩ :=
      wf.remainder_inserted member aligned positive room
    obtain ⟨areas', carved⟩ := whole.remainder wf member rfl inserted alignedNew
      (by omega) behind
    refine ⟨areas', carved.mark wf member, ?_⟩
    rw [getNextAddress_setAreaUsed alignedA alignedA, inserted.nextOld]
  · refine ⟨areas, whole.mark wf member, ?_⟩
    rw [getNextAddress_setAreaUsed alignedA alignedA]

/-- `kmalloc` on a well-formed chain: NULL when nothing fits, else a block at the best fit.
-/
theorem WellFormed.kmalloc_cases {k : Kernel} (wf : WellFormed k.mem areas) {size : Word}
    (positive : size ≠ 0)
    : kmallocBest k.mem areas (kmallocSize size).toNat = none
        ∧ kmalloc k size = some (null, k)
      ∨ ∃ a vm,
          kmallocBest k.mem areas (kmallocSize size).toNat = some a
          ∧ a ∈ areas
          ∧ kmallocFits k.mem (kmallocSize size).toNat a = true
          ∧ kmallocMap k.paging (getAreaSize k.mem a) (kmallocSize size) a = some vm
          ∧ kmalloc k size
            = some
              (a + headerSize,
                {
                  k with
                  mem := kmallocCarve k.mem (getAreaSize k.mem a) (kmallocSize size) a
                  paging := vm
                }) := by
  have scan := wf.kmallocScan_eq (kmallocSize size)
  cases best : kmallocBest k.mem areas (kmallocSize size).toNat with
  | none =>
      refine Or.inl ⟨rfl, ?_⟩
      rw [kmalloc, if_neg positive]
      simp only [scan, best, encodeBest, if_true]
  | some a =>
      obtain ⟨member, fits⟩ := BestFit.mem_of_best best
      have notNull := wf.ne_null member
      have returns : ∃ vm,
          kmallocMap k.paging (getAreaSize k.mem a) (kmallocSize size) a = some vm := by
        rw [kmallocMap]
        split
        · refine mapMissingPages_pageRounds _ ?_ _ _
          have fit := (kmallocFits_iff.mp fits).2
          have bounds := wf.bounds member
          have ends := wf.payload_le member
          have page := toNat_and_not_FFF (a + kmallocSize size)
          bv_omega
        · exact ⟨_, rfl⟩
      obtain ⟨vm, mapped⟩ := returns
      refine Or.inr ⟨a, vm, rfl, member, fits, mapped, ?_⟩
      rw [kmalloc, if_neg positive]
      simp only [scan, best, encodeBest, notNull, if_false, mapped]

-----------------------------------------------------------------------------------------
-- kpagealloc
-----------------------------------------------------------------------------------------

theorem aligned_pages (n : Word) : Aligned (n * pageSize) := by
  rw [Aligned, BitVec.toNat_mul, pageSize_toNat]
  omega

theorem pages_toNat {n : Word} (bounded : n.toNat * 4096 < 2 ^ 32)
    : (n * pageSize).toNat = n.toNat * 4096 := by
  rw [BitVec.toNat_mul, pageSize_toNat, Nat.mod_eq_of_lt bounded]

/-- The head of a page allocation lies in the last eight bytes of the area's first page. -/
theorem WellFormed.pageHead_toNat (wf : WellFormed m areas) (member : a ∈ areas)
    : (nextPage a - headerSize).toNat = a.toNat / 4096 * 4096 + 4088 := by
  have bounds := wf.bounds member
  have page := wf.nextPage_toNat member
  bv_omega

/-- The header in front of a page is aligned. -/
theorem WellFormed.aligned_pageHead (wf : WellFormed m areas) (member : a ∈ areas)
    : Aligned (nextPage a - headerSize) := by
  rw [Aligned, wf.pageHead_toNat member]
  omega

/-- The page head is the head of the area itself, or a new one inside the area. -/
theorem WellFormed.pageHead_inserted (wf : WellFormed m areas) (member : a ∈ areas)
    {size : Nat} (fits : kpageallocFits m size a = true)
    : nextPage a - headerSize = a
      ∨ HeaderInserted m (insertPageHead m a (nextPage a - headerSize)) a
          (nextPage a - headerSize)
        ∧ nextPage a - headerSize ≠ a
        ∧ a.toNat + 8 ≤ (nextPage a - headerSize).toNat
        ∧ (nextPage a - headerSize).toNat + 8 ≤ (getNextAddress m a).toNat := by
  have alignedA := wf.aligned member
  have alignedRet := wf.aligned_pageHead member
  have bounds := wf.bounds member
  have ends := wf.payload_le member
  have ret := wf.pageHead_toNat member
  have page := wf.nextPage_toNat member
  have room := (kpageallocFits_iff.mp fits).2
  simp only [pageNeed] at room
  by_cases same : nextPage a - headerSize = a
  · exact Or.inl same
  · have other : (nextPage a - headerSize).toNat ≠ a.toNat :=
      fun equal => same (BitVec.eq_of_toNat_eq equal)
    have neNext : getNextAddress m a ≠ nextPage a - headerSize := fun equal => by
      have position := congrArg BitVec.toNat equal
      omega
    have inserted := insertPageHead_inserted (m := m) alignedA alignedRet (Ne.symm same) neNext
    simp only [Aligned] at alignedA
    exact Or.inr ⟨inserted, same, by omega, by omega⟩

/-- The same for `kpagealloc`, with the space in front of the page counted in. -/
theorem WellFormed.kpageallocSplits_iff (wf : WellFormed m areas) (member : a ∈ areas)
    {size : Word} (fits : kpageallocFits m size.toNat a = true)
    : kpageallocSplits (getAreaSize m a) size a = true
      ↔ pageNeed size.toNat a + 16 < payload m a := by
  have areaSize := wf.areaSize member
  have bounds := wf.bounds member
  have page := wf.nextPage_toNat member
  have room := (kpageallocFits_iff.mp fits).2
  simp only [kpageallocSplits, decide_eq_true_eq]
  simp only [pageNeed] at room ⊢
  bv_omega

/-- Where the block of `kpagealloc` lies: it starts at the page head, and ends behind the
last page if the area is split there, else with the area.
-/
theorem WellFormed.kpageallocCarve_carved (wf : WellFormed m areas) (member : a ∈ areas)
    {size : Word} (aligned : Aligned size) (fits : kpageallocFits m size.toNat a = true)
    : ∃ areas',
        Carved m (kpageallocCarve m (getAreaSize m a) size a) areas areas' a
            (nextPage a - headerSize) true
        ∧ getNextAddress (kpageallocCarve m (getAreaSize m a) size a)
            (nextPage a - headerSize)
          = if kpageallocSplits (getAreaSize m a) size a then nextPage a + size
            else getNextAddress m a := by
  have bounds := wf.bounds member
  have ends := wf.payload_le member
  have ret := wf.pageHead_toNat member
  have room := (kpageallocFits_iff.mp fits).2
  have page := wf.nextPage_toNat member
  simp only [pageNeed] at room
  have alignedRet := wf.aligned_pageHead member
  have opened : ∃ areas',
      Carved m
          (if nextPage a - headerSize ≠ a then insertPageHead m a (nextPage a - headerSize)
            else m)
          areas areas' a (nextPage a - headerSize) false
        ∧ getNextAddress
            (if nextPage a - headerSize ≠ a
              then insertPageHead m a (nextPage a - headerSize)
              else m)
            (nextPage a - headerSize)
          = getNextAddress m a := by
    rcases wf.pageHead_inserted member fits with same | ⟨inserted, ne, ahead, behind⟩
    · simp only [same, ne_eq, not_true_eq_false, if_false]
      exact ⟨areas, Carved.refl wf member, trivial⟩
    · simp only [ne, ne_eq, not_false_eq_true, if_true]
      obtain ⟨areas', carved⟩ := Carved.pageHead inserted wf member alignedRet ahead behind
      exact ⟨areas', carved, inserted.nextNew⟩
  obtain ⟨areas', carved, whole⟩ := opened
  simp only [kpageallocCarve]
  generalize (if nextPage a - headerSize ≠ a
    then insertPageHead m a (nextPage a - headerSize) else m) = mid at carved whole ⊢
  split
  · next splits =>
    have split := (wf.kpageallocSplits_iff member fits).mp splits
    simp only [pageNeed] at split
    have sum : nextPage a - headerSize + size + headerSize = nextPage a + size := by
      bv_omega
    have position : (nextPage a + size).toNat = (nextPage a).toNat + size.toNat := by
      bv_omega
    rw [sum]
    have alignedNew : Aligned (nextPage a + size) := by
      simp only [Aligned] at aligned ⊢
      omega
    have ne : nextPage a - headerSize ≠ nextPage a + size := fun same => by
      have equal := congrArg BitVec.toNat same
      omega
    have inserted := insertArea_inserted (m := mid) alignedRet alignedNew ne
    obtain ⟨areas'', carved'⟩ := carved.remainder wf member whole inserted alignedNew
      (by omega) (by omega)
    refine ⟨areas'', carved'.mark wf member, ?_⟩
    rw [getNextAddress_setAreaUsed alignedRet alignedRet, inserted.nextOld]
  · refine ⟨areas', carved.mark wf member, ?_⟩
    rw [getNextAddress_setAreaUsed alignedRet alignedRet, whole]

/-- `kpagealloc` on a well-formed chain: NULL when nothing fits, else a block whose payload
starts at the page boundary above the best fit.
-/
theorem WellFormed.kpagealloc_cases {k : Kernel} (wf : WellFormed k.mem areas) {n : Word}
    (positive : n ≠ 0)
    : kpageallocBest k.mem areas (n * pageSize).toNat = none
        ∧ kpagealloc k n = some (null, k)
      ∨ ∃ a vm,
          kpageallocBest k.mem areas (n * pageSize).toNat = some a
          ∧ a ∈ areas
          ∧ kpageallocFits k.mem (n * pageSize).toNat a = true
          ∧ kpageallocMap k.paging (getAreaSize k.mem a) (n * pageSize) a = some vm
          ∧ kpagealloc k n
            = some
              (nextPage a - headerSize + headerSize,
                {
                  k with
                  mem := kpageallocCarve k.mem (getAreaSize k.mem a) (n * pageSize) a
                  paging := vm
                }) := by
  have scan := wf.kpageallocScan_eq (n * pageSize)
  cases best : kpageallocBest k.mem areas (n * pageSize).toNat with
  | none =>
      refine Or.inl ⟨rfl, ?_⟩
      rw [kpagealloc, if_neg positive]
      simp only [scan, best, encodeBest, if_true]
  | some a =>
      obtain ⟨member, fits⟩ := BestFit.mem_of_best best
      have notNull := wf.ne_null member
      have returns : ∃ vm,
          kpageallocMap k.paging (getAreaSize k.mem a) (n * pageSize) a = some vm := by
        rw [kpageallocMap]
        split
        · refine mapMissingPages_pageRounds _ ?_ _ _
          have room := (kpageallocFits_iff.mp fits).2
          have bounds := wf.bounds member
          have ends := wf.payload_le member
          simp only [pageNeed] at room
          bv_omega
        · exact ⟨_, rfl⟩
      obtain ⟨vm, mapped⟩ := returns
      refine Or.inr ⟨a, vm, rfl, member, fits, mapped, ?_⟩
      rw [kpagealloc, if_neg positive]
      simp only [scan, best, encodeBest, notNull, if_false, mapped]

end SimpleKernel
