import SimpleKernel.Heap.Contents
import SimpleKernel.Paging.Translation

/-! `kcalloc` where the stores of `memset` go through the page tables.
`kmalloc` maps pages for a new area head only. A block taken up to `heap_end` without a split
may then lie on pages that nothing has mapped, and clearing it ends in a page fault, from which
`page_fault_handler` never returns.
-/

namespace SimpleKernel

open ByteMemory

-----------------------------------------------------------------------------------------
-- Stores that may fault
-----------------------------------------------------------------------------------------

/-- A store of the kernel to `va` reaches memory. `boot.S` sets the write-protect bit, so both
levels have to be present and writable in ring 0 as well.
-/
def Paging.Writable (vm : Paging) (va : Addr) : Prop :=
  IsPresent (vm.directoryEntry va)
  ∧ IsPresent (vm.tableEntry va)
  ∧ (vm.directoryEntry va).getLsbD 1 = true
  ∧ (vm.tableEntry va).getLsbD 1 = true

instance (vm : Paging) (va : Addr) : Decidable (vm.Writable va) :=
  inferInstanceAs (Decidable (_ ∧ _ ∧ _ ∧ _))

/-- `memset` from index `i` on, with `rounds` bytes left; `none` at the first store that
faults.
-/
def memsetPagedFrom (vm : Paging) (buf : Addr) (value : Byte)
    : Nat → Word → Memory → Option Memory
  | 0, _, m => some m
  | rounds + 1, i, m =>
      if vm.Writable (buf + i) then
        memsetPagedFrom vm buf value rounds (i + 1) (m.store8 (buf + i) value)
      else none

def memsetPaged (vm : Paging) (m : Memory) (bufptr : Addr) (value size : Word)
    : Option Memory :=
  memsetPagedFrom vm bufptr (value.setWidth 8) size.toNat 0 m

/-- `kcalloc` under paging; `none` when it never returns, be it after a page fault. -/
def kcallocPaged (k : Kernel) (nmemb size : Word) : Option (Addr × Kernel) :=
  let total := nmemb * size
  if nmemb = 0 ∨ size = 0 then some (null, k)
  else if size ≠ total / nmemb then some (null, k)
  else
    match kmalloc k total with
    | none => none
    | some (km, k) =>
        if km = null then some (km, k)
        else (memsetPaged k.paging k.mem km 0 total).map (fun m => (km, { k with mem := m }))

variable {vm : Paging} {m : Memory} {k k' : Kernel} {areas : List Addr} {buf ptr va : Addr}
  {value : Byte} {nmemb size total i : Word} {rounds : Nat}

/-- Addresses of one page are writable alike, because they share both entries. -/
theorem Paging.Writable.samePage {other : Addr} (writable : vm.Writable va)
    (same : other.toNat / 4096 = va.toNat / 4096)
    : vm.Writable other := by
  have index : other.toNat / 4194304 = va.toNat / 4194304 := by omega
  have directory : vm.directoryEntry other = vm.directoryEntry va := by
    rw [Paging.directoryEntry, vm.directorySlot_congr index, Paging.directoryEntry]
  have slot : vm.tableSlot other = vm.tableSlot va := by
    apply BitVec.eq_of_toNat_eq
    rw [Paging.tableSlot_toNat, Paging.tableSlot_toNat, directory, same]
  rwa [Paging.Writable, directory, Paging.tableEntry, slot]

/-- The loop that meets writable bytes only is that of `memset`, by induction on the rounds. -/
theorem memsetPagedFrom_of_writable (bounded : i.toNat + rounds ≤ 2 ^ 32)
    (writable : ∀ j : Word, i ≤ j → j.toNat < i.toNat + rounds → vm.Writable (buf + j))
    : memsetPagedFrom vm buf value rounds i m = some (memsetFrom buf value rounds i m) := by
  induction rounds generalizing i m with
  | zero => rfl
  | succ rounds ih =>
      rw [memsetPagedFrom, if_pos (writable i (BitVec.le_refl i) (by omega)), memsetFrom]
      rcases Nat.eq_zero_or_pos rounds with rfl | more
      · rfl
      · have next : (i + 1).toNat = i.toNat + 1 := by bv_omega
        refine ih (by omega) (fun j low high => writable j ?_ (by omega))
        bv_omega

/-- A byte that is not writable stops the loop at the latest, by induction on the rounds in
front of it.
-/
theorem memsetPagedFrom_faults {j : Word} (low : i ≤ j) (high : j.toNat < i.toNat + rounds)
    (faults : ¬vm.Writable (buf + j))
    : memsetPagedFrom vm buf value rounds i m = none := by
  induction rounds generalizing i m with
  | zero => bv_omega
  | succ rounds ih =>
      rw [memsetPagedFrom]
      split
      · next here =>
        have behind : i ≠ j := by
          rintro rfl
          exact faults here
        exact ih (by bv_omega) (by bv_omega)
      · rfl

/-- `memset` clears what is writable. -/
theorem memsetPaged_of_writable {value : Word}
    (writable : ∀ j : Word, j < size → vm.Writable (buf + j))
    : memsetPaged vm m buf value size = some (memset m buf value size) := by
  have small := size.isLt
  refine memsetPagedFrom_of_writable (by simpa using small.le) (fun j _ high => writable j ?_)
  simpa [BitVec.lt_def] using high

/-- It faults if one byte of the block is not writable, wherever that is. -/
theorem memsetPaged_faults {value j : Word} (inside : j < size)
    (faults : ¬vm.Writable (buf + j))
    : memsetPaged vm m buf value size = none :=
  memsetPagedFrom_faults (by simp [BitVec.le_def]) (by simpa [BitVec.lt_def] using inside) faults

-----------------------------------------------------------------------------------------
-- kcalloc
-----------------------------------------------------------------------------------------

/-- `kcalloc` does what it does in flat memory if the block that it clears is writable. -/
theorem kcallocPaged_of_writable
    (writable
      : ∀ ptr k',
          kmalloc k (nmemb * size) = some (ptr, k')
          → ptr ≠ null
          → ∀ j : Word, j < nmemb * size → k'.paging.Writable (ptr + j))
    : kcallocPaged k nmemb size = kcalloc k nmemb size := by
  rw [kcallocPaged, kcalloc]
  split
  · rfl
  · split
    · rfl
    · cases called : kmalloc k (nmemb * size) with
      | none => rfl
      | some result =>
          obtain ⟨ptr, k'⟩ := result
          simp only
          split
          · rfl
          · next notNull =>
            rw [memsetPaged_of_writable (writable ptr k' called notNull), Option.map_some]

/-- It does not return if a byte of its block is not writable. -/
theorem kcallocPaged_faults (positive : nmemb.toNat * size.toNat ≠ 0)
    (bounded : nmemb.toNat * size.toNat < 2 ^ 32)
    (called : kmalloc k (nmemb * size) = some (ptr, k')) (notNull : ptr ≠ null) {j : Word}
    (inside : j < nmemb * size) (faults : ¬k'.paging.Writable (ptr + j))
    : kcallocPaged k nmemb size = none := by
  obtain ⟨factors, passed⟩ := kcalloc_passes positive bounded
  rw [kcallocPaged, if_neg factors, if_neg passed, called]
  simp only [if_neg notNull, memsetPaged_faults inside faults, Option.map_none]

/-- A product that is empty or overflows, or for which nothing fits, leaves all as it is. -/
theorem kcallocPaged_null
    (rejected
      : nmemb.toNat * size.toNat < 2 ^ 32 → kmalloc k (nmemb * size) = some (null, k))
    : kcallocPaged k nmemb size = some (null, k) := by
  rw [kcallocPaged]
  split
  · rfl
  · split
    · rfl
    · next passed =>
      rw [rejected (kcalloc_product (not_not.mp passed))]
      simp only [if_true]

/-- What it returns, it returns in flat memory as well: paging adds faults and nothing else. -/
theorem kcalloc_of_kcallocPaged {result : Addr × Kernel}
    (returned : kcallocPaged k nmemb size = some result)
    : kcalloc k nmemb size = some result := by
  rw [← returned, eq_comm]
  rw [kcallocPaged] at returned
  split at returned
  · next zero => rw [kcallocPaged, kcalloc, if_pos zero, if_pos zero]
  · next factors =>
    split at returned
    · next overflows =>
      rw [kcallocPaged, kcalloc, if_neg factors, if_neg factors, if_pos overflows,
        if_pos overflows]
    · refine kcallocPaged_of_writable (fun ptr k' called notNull j inside => ?_)
      by_contra faults
      rw [called] at returned
      simp only [if_neg notNull, memsetPaged_faults inside faults, Option.map_none,
        reduceCtorEq] at returned

/-- What `kcalloc` promises: NULL for an empty or overflowing product, and otherwise the
pointer and the chain of `kmalloc`, the block cleared and the payload of every live block as it
was.
-/
def KcallocClears (k : Kernel) (nmemb size : Word) : Prop :=
  (nmemb = 0 ∨ size = 0 ∨ 2 ^ 32 ≤ nmemb.toNat * size.toNat
    → kcallocPaged k nmemb size = some (null, k))
  ∧ ∀ total : Word,
      total.toNat = nmemb.toNat * size.toNat
      → 1 ≤ total.toNat
      → total.toNat ≤ 2 ^ 32 - 16
      → ∃ ptr k₁ k₂ areas',
          kmalloc k total = some (ptr, k₁)
          ∧ kcallocPaged k nmemb size = some (ptr, k₂)
          ∧ WellFormed k₁.mem areas'
          ∧ WellFormed k₂.mem areas'
          ∧ areaList k₂.mem areas' = areaList k₁.mem areas'
          ∧ (ptr = null → k₂ = k)
          ∧ (ptr ≠ null
            → (∀ i : Word, i < total → k₂.mem (ptr + i) = 0)
              ∧ ∀ x, Live k.mem x → Live k₂.mem x ∧ PayloadKept k.mem k₂.mem x)

/-- The first `total` payload bytes of the area that fits best are writable, once `kmalloc`
has mapped the pages of its split. It maps none if it takes the area whole.
-/
def BestFitWritable (k : Kernel) (areas : List Addr) (total : Word) : Prop :=
  ∀ a vm,
    kmallocBest k.mem areas (kmallocSize total).toNat = some a
    → kmallocMap k.paging (getAreaSize k.mem a) (kmallocSize total) a = some vm
    → ∀ i : Word, i < total → vm.Writable (a + headerSize + i)

/-- `kcalloc` keeps its promise exactly when the request is rejected or too large for it, when
nothing fits, or when the block is writable. The first three do not reach `memset`, and a block
that is not writable stops it with a page fault.
-/
theorem WellFormed.kcallocPaged_clears_iff (wf : WellFormed k.mem areas) (nmemb size : Word)
    : KcallocClears k nmemb size
      ↔ nmemb.toNat * size.toNat = 0
        ∨ 2 ^ 32 - 16 < nmemb.toNat * size.toNat
        ∨ NothingFits k areas (nmemb * size)
        ∨ BestFitWritable k areas (nmemb * size) := by
  constructor
  · intro clears
    by_contra fails
    simp only [not_or, BestFitWritable, not_forall] at fails
    obtain ⟨positive, bounded, _, a, vm, best, mapped, i, inside, faults⟩ := fails
    have total : (nmemb * size).toNat = nmemb.toNat * size.toNat :=
      BitVec.toNat_mul_of_lt (by omega)
    have nonzero : nmemb * size ≠ 0 := kcalloc_total_ne_zero positive (by omega)
    obtain ⟨_, _, _, _, called, cleared, _⟩ :=
      clears.2 (nmemb * size) total (by omega) (by omega)
    rcases wf.kmalloc_cases nonzero with ⟨none, _⟩ | ⟨a', vm', best', member, _, mapped', granted⟩
    · rw [best] at none
      cases none
    · obtain rfl := Option.some.inj (best.symm.trans best')
      obtain rfl := Option.some.inj (mapped.symm.trans mapped')
      rw [kcallocPaged_faults positive (by omega) granted (wf.ptr_ne_null member) inside faults]
        at cleared
      cases cleared
  · intro holds
    refine ⟨fun rejected => ?_, fun total product positive bounded => ?_⟩
    · rcases rejected with rfl | rfl | overflows
      · exact kcallocPaged_null (fun _ => by simp [kmalloc])
      · exact kcallocPaged_null (fun _ => by simp [kmalloc])
      · exact kcallocPaged_null (fun exact => absurd exact (Nat.not_lt.mpr overflows))
    · obtain rfl : total = nmemb * size :=
        BitVec.eq_of_toNat_eq (product.trans (BitVec.toNat_mul_of_lt (by omega)).symm)
      rw [kcallocPaged_of_writable (fun ptr k' called notNull j inside => ?_)]
      · exact (wf.kcalloc_zeroed nmemb size).2 (nmemb * size) product positive bounded
      · have nonzero : nmemb * size ≠ 0 := kcalloc_total_ne_zero (by omega) (by omega)
        rcases wf.kmalloc_cases nonzero with
          ⟨_, null⟩ | ⟨a, vm, best, member, fits, mapped, granted⟩
        · rw [called] at null
          exact absurd (Prod.mk.inj (Option.some.inj null)).1 notNull
        · rw [called] at granted
          obtain ⟨rfl, rfl⟩ := Prod.mk.inj (Option.some.inj granted)
          rcases holds with zero | large | nothing | writable
          · omega
          · omega
          · rw [nothing a member] at fits
            cases fits
          · exact writable a vm best mapped j inside

/-- The bytes handed out are zero, and the call returns. Witness: three elements of five bytes
in the whole heap, split off in its first page.
-/
theorem kcallocPaged_clears_fifteen : KcallocClears (initHeap bareKernel) 3 5 := by
  have evaluated
      : kmallocBest (initHeap bareKernel).mem [heapStart] 24 = some heapStart
        ∧ (kmallocMap (initHeap bareKernel).paging (getAreaSize (initHeap bareKernel).mem heapStart)
            24 heapStart).map (fun vm => decide (vm.Writable heapStart))
          = some true := by
    decide +kernel
  obtain ⟨chosen, paged⟩ := evaluated
  refine (WellFormed.kcallocPaged_clears_iff (initHeap_wellFormed rfl) 3 5).mpr
    (.inr (.inr (.inr (fun a vm best mapped i inside => ?_))))
  obtain rfl := Option.some.inj (chosen.symm.trans best)
  obtain ⟨vm', mapped', first⟩ := Option.map_eq_some_iff.mp paged
  obtain rfl := Option.some.inj (mapped'.symm.trans mapped)
  refine (of_decide_eq_true first).samePage ?_
  rw [show (3 * 5 : Word) = 15 from rfl] at inside
  bv_omega

/-- A block that is not split off gets no pages. Counterexample: a request for the whole heap,
whose second page is not mapped when memset reaches it.
-/
theorem kcallocPaged_not_clears_wholeHeap
    : WellFormed (initHeap bareKernel).mem [heapStart]
      ∧ (initHeap bareKernel).paging.pmm.HasFree
      ∧ ¬KcallocClears (initHeap bareKernel) 1 0x1FBFFFE0 := by
  have called
      : (kmalloc (initHeap bareKernel) 0x1FBFFFE0).map
          (fun result => (result.1, decide (result.2.paging.Writable 0xE0001000)))
        = some (0xE0000008, false) := by
    decide +kernel
  obtain ⟨⟨ptr, k'⟩, returned, block⟩ := Option.map_eq_some_iff.mp called
  obtain ⟨rfl, unmapped⟩ := Prod.mk.inj block
  refine ⟨initHeap_wellFormed rfl, ⟨0x110, by decide +kernel⟩, fun clears => ?_⟩
  obtain ⟨_, _, _, _, _, cleared, _⟩ :=
    clears.2 0x1FBFFFE0 (by decide) (by decide) (by decide)
  have stopped : kcallocPaged (initHeap bareKernel) 1 0x1FBFFFE0 = none :=
    kcallocPaged_faults (j := 0xFF8) (by decide) (by decide) returned (by decide) (by decide)
      (of_decide_eq_false unmapped)
  rw [stopped] at cleared
  cases cleared

end SimpleKernel
