import SimpleKernel.Heap.Sessions

/-! Blocks are as large as requested, up to the sizes whose rounding wraps.
`kmalloc` rounds `size + 15` down to a multiple of eight modulo 2^32, and `kpagealloc`
multiplies by the page size modulo 2^32. A wrapped request looks small and is granted
whenever some free area is larger than what is left of it.
-/

namespace SimpleKernel

open ByteMemory

variable {k k' : Kernel} {areas : List Addr} {result : Option (Addr × Kernel)}
  {need : Nat} {ptr : Addr}

/-- A non-NULL result has a payload of at least `size` bytes, up to the next header. -/
def HoldsRequest (result : Option (Addr × Kernel)) (size : Nat) : Prop :=
  ∀ ptr k',
    result = some (ptr, k') → ptr ≠ null → size ≤ payload k'.mem (ptr - headerSize)

/-- No free area is larger than the rounded request. -/
def NothingFits (k : Kernel) (areas : List Addr) (size : Word) : Prop :=
  ∀ a ∈ areas, kmallocFits k.mem (kmallocSize size).toNat a = false

/-- A live block or NULL. -/
def Reallocatable (k : Kernel) (areas : List Addr) (ptr : Addr) : Prop :=
  ptr = null ∨ ptr - headerSize ∈ areas ∧ getAreaUsed k.mem (ptr - headerSize) = true

/-- NULL holds any request. -/
theorem holdsRequest_null : HoldsRequest (some (null, k)) need := by
  intro ptr k' returned notNull
  exact absurd (Prod.mk.inj (Option.some.inj returned)).1.symm notNull

/-- A block that is allocated for a request holds it. -/
theorem Allocates.holdsRequest {whole : Option Addr}
    (allocates : Allocates k areas need whole result)
    : HoldsRequest result need := by
  rcases allocates with unchanged | ⟨k', areas', a, q, returned, granted, _⟩
  · rw [unchanged]
    exact holdsRequest_null
  · intro ptr k'' same _
    rw [returned] at same
    obtain ⟨rfl, rfl⟩ := Prod.mk.inj (Option.some.inj same)
    rw [BitVec.add_sub_cancel]
    exact granted.room

/-- No payload of the heap reaches the sizes that wrap. -/
theorem not_holdsRequest (returned : result = some (ptr, k')) (low : 0xE0000000 ≤ ptr.toNat)
    (large : 2 ^ 29 ≤ need)
    : ¬HoldsRequest result need := by
  intro holds
  have notNull : ptr ≠ null := by
    rintro rfl
    exact absurd low (by decide)
  have room := holds ptr k' returned notNull
  simp only [payload] at room
  bv_omega

section Calls

variable (wf : WellFormed k.mem areas)
include wf

omit wf in
/-- A request that overflows is not the empty one. -/
theorem ne_zero_of_wraps {size : Word} (large : ¬size.toNat + 15 < 2 ^ 32) : size ≠ 0 := by
  rintro rfl
  exact large (by decide)

/-- A `kmalloc` that finds a fit returns a pointer into the heap, whatever the size. -/
theorem WellFormed.kmalloc_returns {size : Word} (positive : size ≠ 0)
    (fits : ¬NothingFits k areas size)
    : ∃ ptr k', kmalloc k size = some (ptr, k') ∧ 0xE0000000 ≤ ptr.toNat := by
  rcases wf.kmalloc_cases positive with ⟨none, _⟩ | ⟨a, vm, _, member, _, _, returned⟩
  · exact absurd (fun a member => BestFit.none_fits none member) fits
  · have bounds := wf.bounds member
    exact ⟨_, _, returned, by bv_omega⟩

/-- `kmalloc` is NULL and changes nothing if no area fits. -/
theorem WellFormed.kmalloc_null {size : Word} (nothing : NothingFits k areas size)
    : kmalloc k size = some (null, k) := by
  by_cases positive : size = 0
  · rw [kmalloc, if_pos positive]
  · rcases wf.kmalloc_cases positive with ⟨_, returned⟩ | ⟨a, vm, _, member, fits, _⟩
    · exact returned
    · rw [nothing a member] at fits
      exact Bool.noConfusion fits

/-- `kmalloc` serves what was asked for exactly if the sum with the header does not wrap, or
nothing fits the wrapped one either.
-/
theorem WellFormed.kmalloc_holdsRequest_iff (size : Word)
    : HoldsRequest (kmalloc k size) size.toNat
      ↔ size.toNat + 15 < 2 ^ 32 ∨ NothingFits k areas size := by
  constructor
  · intro holds
    by_contra wraps
    obtain ⟨large, fits⟩ := not_or.mp wraps
    have positive := ne_zero_of_wraps large
    obtain ⟨ptr, k', returned, low⟩ := wf.kmalloc_returns positive fits
    exact not_holdsRequest returned low (by omega) holds
  · rintro (bounded | nothing)
    · exact (wf.kmalloc_allocates bounded).holdsRequest
    · rw [wf.kmalloc_null nothing]
      exact holdsRequest_null

/-- The same for `kpagealloc`, whose product wraps from 2^20 pages on. -/
theorem WellFormed.kpagealloc_holdsRequest_iff (n : Word)
    : HoldsRequest (kpagealloc k n) (n.toNat * 4096)
      ↔ n.toNat < 2 ^ 20
        ∨ ∀ a ∈ areas, kpageallocFits k.mem (n * pageSize).toNat a = false := by
  constructor
  · intro holds
    by_contra wraps
    obtain ⟨large, fits⟩ := not_or.mp wraps
    have positive : n ≠ 0 := by
      rintro rfl
      exact large (by decide)
    rcases wf.kpagealloc_cases positive with ⟨none, _⟩ | ⟨a, vm, _, member, _, _, returned⟩
    · exact fits (fun a member => BestFit.none_fits none member)
    · have bounds := wf.bounds member
      have page := wf.nextPage_toNat member
      exact not_holdsRequest returned (by bv_omega) (by omega) holds
  · rintro (bounded | nothing)
    · exact (wf.kpagealloc_allocates (by omega)).holdsRequest
    · by_cases positive : n = 0
      · rw [kpagealloc, if_pos positive]
        exact holdsRequest_null
      · rcases wf.kpagealloc_cases positive with ⟨_, returned⟩ | ⟨a, vm, _, member, fits, _⟩
        · rw [returned]
          exact holdsRequest_null
        · rw [nothing a member] at fits
          exact Bool.noConfusion fits

end Calls

-----------------------------------------------------------------------------------------
-- kcalloc and krealloc
-----------------------------------------------------------------------------------------

/-- A product that passes the overflow check is exact. -/
theorem kcalloc_product {nmemb size : Word} (passed : size = nmemb * size / nmemb)
    : nmemb.toNat * size.toNat < 2 ^ 32 := by
  have quotient : size.toNat = (nmemb * size).toNat / nmemb.toNat := by
    rw [← BitVec.toNat_udiv, ← passed]
  have below : nmemb.toNat * size.toNat ≤ (nmemb * size).toNat := by
    rw [quotient]
    exact Nat.mul_div_le _ _
  omega

/-- `kcalloc` is NULL for an empty or overflowing product, and if `kmalloc` is. -/
theorem kcalloc_null {nmemb size : Word}
    (rejected
      : nmemb.toNat * size.toNat < 2 ^ 32 → kmalloc k (nmemb * size) = some (null, k))
    : kcalloc k nmemb size = some (null, k) := by
  rw [kcalloc]
  split
  · rfl
  · split
    · rfl
    · next passed =>
      rw [rejected (kcalloc_product (not_not.mp passed))]
      simp only [if_true]

/-- A product that is exact and not zero passes both checks. -/
theorem kcalloc_passes {nmemb size : Word} (positive : nmemb.toNat * size.toNat ≠ 0)
    (bounded : nmemb.toNat * size.toNat < 2 ^ 32)
    : ¬(nmemb = 0 ∨ size = 0) ∧ ¬size ≠ nmemb * size / nmemb := by
  constructor
  · rintro (rfl | rfl) <;> simp at positive
  · refine not_not.mpr (BitVec.eq_of_toNat_eq ?_)
    rw [BitVec.toNat_udiv, BitVec.toNat_mul_of_lt bounded, Nat.mul_div_cancel_left]
    exact Nat.pos_of_ne_zero (fun zero => positive (by simp [zero]))

/-- Such a product is a request of at least one byte. -/
theorem kcalloc_total_ne_zero {nmemb size : Word} (positive : nmemb.toNat * size.toNat ≠ 0)
    (bounded : nmemb.toNat * size.toNat < 2 ^ 32)
    : nmemb * size ≠ 0 := by
  intro zero
  have total := BitVec.toNat_mul_of_lt bounded
  rw [zero] at total
  exact positive total.symm

/-- An exact product is handed to `kmalloc`, whose block is returned cleared. -/
theorem kcalloc_returns {nmemb size : Word} (positive : nmemb.toNat * size.toNat ≠ 0)
    (bounded : nmemb.toNat * size.toNat < 2 ^ 32)
    (returned : kmalloc k (nmemb * size) = some (ptr, k')) (notNull : ptr ≠ null)
    : kcalloc k nmemb size
      = some (ptr, { k' with mem := memset k'.mem ptr 0 (nmemb * size) }) := by
  obtain ⟨factors, passed⟩ := kcalloc_passes positive bounded
  rw [kcalloc, if_neg factors, if_neg passed, returned]
  simp only [if_neg notNull]

/-- `kcalloc` rejects products that wrap, and passes on the others. -/
theorem WellFormed.kcalloc_holdsRequest_iff (wf : WellFormed k.mem areas) (nmemb size : Word)
    : HoldsRequest (kcalloc k nmemb size) (nmemb.toNat * size.toNat)
      ↔ 2 ^ 32 ≤ nmemb.toNat * size.toNat
        ∨ nmemb.toNat * size.toNat + 15 < 2 ^ 32
        ∨ NothingFits k areas (nmemb * size) := by
  constructor
  · intro holds
    by_contra wraps
    obtain ⟨exact, wraps⟩ := not_or.mp wraps
    obtain ⟨large, fits⟩ := not_or.mp wraps
    have total : (nmemb * size).toNat = nmemb.toNat * size.toNat :=
      BitVec.toNat_mul_of_lt (by omega)
    have positive : nmemb * size ≠ 0 := kcalloc_total_ne_zero (by omega) (by omega)
    obtain ⟨ptr, k', returned, low⟩ := wf.kmalloc_returns positive fits
    have notNull : ptr ≠ null := by
      rintro rfl
      exact absurd low (by decide)
    exact not_holdsRequest (kcalloc_returns (by omega) (by omega) returned notNull) low
      (by omega) holds
  · rintro (overflows | bounded | nothing)
    · rw [kcalloc_null (fun exact => absurd exact (Nat.not_lt.mpr overflows))]
      exact holdsRequest_null
    · exact (wf.kcalloc_allocates bounded).holdsRequest
    · rw [kcalloc_null (fun _ => wf.kmalloc_null nothing)]
      exact holdsRequest_null

/-- The release of the old block leaves the header of the new one as it is. -/
theorem Granted.released_next {areas' : List Addr} {a q : Addr}
    (granted : Granted k k' areas areas' a q need) (wf : WellFormed k.mem areas)
    (listed : ptr - headerSize ∈ areas)
    (used : getAreaUsed k.mem (ptr - headerSize) = true)
    : getNextAddress (kfree k'.mem ptr) q = getNextAddress k'.mem q := by
  have carved := granted.carved
  obtain ⟨kept, stillUsed, _, _⟩ := carved.keeps wf granted.source granted.free listed used
  have fresh := carved.fresh wf granted.source granted.free listed used
  have released := carved.wf.kfree_released kept rfl stillUsed
  rw [released.next q (carved.wf.aligned carved.head), if_neg]
  rintro rfl
  have block := (carved.used _ carved.head).mpr (Or.inl ⟨rfl, rfl⟩)
  rw [mergeNode] at block fresh
  split at block
  · next onRoot =>
    rw [onRoot.2] at block
    exact Bool.noConfusion block
  · next off =>
    rw [if_neg off] at fresh
    exact fresh rfl

/-- Once `kmalloc` has returned a block for a larger size, `krealloc` returns it. -/
theorem krealloc_moves {size : Word} (notNull : ptr ≠ null) (positive : size ≠ 0)
    (smaller : ¬getAreaSize k.mem (ptr - headerSize) ≥ size) {new : Addr}
    (returned : kmalloc k size = some (new, k')) (granted : new ≠ null)
    : ∃ k'', krealloc k ptr size = some (new, k'') := by
  rw [krealloc, if_neg positive, if_neg notNull, if_neg smaller, kreallocCopy, returned]
  simp only [if_neg granted]
  exact ⟨_, rfl⟩

/-- Enough payload, a block of its own, or the block of `kmalloc` after the old one's
release.
-/
theorem WellFormed.krealloc_holdsRequest_iff (wf : WellFormed k.mem areas)
    (live : Reallocatable k areas ptr) (size : Word)
    : HoldsRequest (krealloc k ptr size) size.toNat
      ↔ size.toNat + 15 < 2 ^ 32 ∨ NothingFits k areas size := by
  constructor
  · intro holds
    by_contra wraps
    obtain ⟨large, fits⟩ := not_or.mp wraps
    have positive := ne_zero_of_wraps large
    obtain ⟨new, k', returned, low⟩ := wf.kmalloc_returns positive fits
    have granted : new ≠ null := by
      rintro rfl
      exact absurd low (by decide)
    rcases live with rfl | ⟨listed, _⟩
    · rw [krealloc, if_neg positive, if_pos rfl] at holds
      exact not_holdsRequest returned low (by omega) holds
    · have notNull := wf.ptr_ne_null listed
      rw [BitVec.sub_add_cancel] at notNull
      have smaller : ¬getAreaSize k.mem (ptr - headerSize) ≥ size := by
        have small := wf.payload_lt listed
        rw [← wf.areaSize listed] at small
        bv_omega
      obtain ⟨k'', moved⟩ := krealloc_moves notNull positive smaller returned granted
      exact not_holdsRequest moved low (by omega) holds
  · intro condition new k' returned granted
    rcases krealloc_cases returned
      with ⟨same, rfl⟩ | ⟨rfl, allocated⟩ | ⟨moves, moved, copied, outcome⟩
    · obtain ⟨rfl, enough⟩ := same.resolve_left granted
      have listed := (live.resolve_left granted).1
      rw [← wf.areaSize listed]
      exact enough
    · have holds := (wf.kmalloc_holdsRequest_iff size).mpr condition
      exact holds new k' allocated granted
    · obtain ⟨_, rfl⟩ := outcome.resolve_left (fun failed => granted failed.1)
      obtain ⟨listed, used⟩ := live.resolve_left (fun none => moves (Or.inr (Or.inl none)))
      have notNull : ptr ≠ null := fun none => moves (Or.inr (Or.inl none))
      rcases condition with bounded | nothing
      · have smaller : (getAreaSize k.mem (ptr - headerSize)).toNat < size.toNat := by
          have left : ¬getAreaSize k.mem (ptr - headerSize) ≥ size :=
            fun enough => moves (Or.inr (Or.inr enough))
          bv_omega
        have copies := wf.kreallocCopy_allocates bounded smaller
        rw [copied] at copies
        rcases copies with unchanged | ⟨_, areas', a, q, same, block, _⟩
        · exact absurd (Prod.mk.inj (Option.some.inj unchanged)).1 granted
        · obtain ⟨rfl, rfl⟩ := Prod.mk.inj (Option.some.inj same)
          rw [BitVec.add_sub_cancel, payload, block.released_next wf listed used]
          exact block.room
      · rw [kreallocCopy, wf.kmalloc_null nothing] at copied
        simp only [if_true] at copied
        exact absurd (Prod.mk.inj (Option.some.inj copied)).1.symm granted

/-- A successful allocation is at least as large as requested exactly when its size does
not wrap or nothing fits what is left of it.
-/
theorem requests_held_iff (wf : WellFormed k.mem areas) (live : Reallocatable k areas ptr)
    (nmemb size n : Word)
    : (HoldsRequest (kmalloc k size) size.toNat
        ↔ size.toNat + 15 < 2 ^ 32 ∨ NothingFits k areas size)
      ∧ (HoldsRequest (kpagealloc k n) (n.toNat * 4096)
        ↔ n.toNat < 2 ^ 20
          ∨ ∀ a ∈ areas, kpageallocFits k.mem (n * pageSize).toNat a = false)
      ∧ (HoldsRequest (kcalloc k nmemb size) (nmemb.toNat * size.toNat)
        ↔ 2 ^ 32 ≤ nmemb.toNat * size.toNat
          ∨ nmemb.toNat * size.toNat + 15 < 2 ^ 32
          ∨ NothingFits k areas (nmemb * size))
      ∧ (HoldsRequest (krealloc k ptr size) size.toNat
        ↔ size.toNat + 15 < 2 ^ 32 ∨ NothingFits k areas size) :=
  ⟨wf.kmalloc_holdsRequest_iff size, wf.kpagealloc_holdsRequest_iff n,
    wf.kcalloc_holdsRequest_iff nmemb size, wf.krealloc_holdsRequest_iff live size⟩

/-- A block holds its request. Witness: 40 bytes of the fresh heap. -/
theorem requests_held_fortyBytes : HoldsRequest (kmalloc (initHeap bareKernel) 40) 40 :=
  (requests_held_iff (initHeap_wellFormed rfl) (Or.inl rfl) 0 40 1).1.mpr
    (Or.inl (by decide))

/-- Rounding a size up has 32 bits. Counterexample: the largest request wraps to a block
without payload, and is granted.
-/
theorem request_not_held_largest
    : ¬∀ (k : Kernel) (areas : List Addr) (size : Word),
        WellFormed k.mem areas → HoldsRequest (kmalloc k size) size.toNat := by
  intro claim
  have holds := claim (initHeap bareKernel) [heapStart] 0xFFFFFFFF (initHeap_wellFormed rfl)
  have called
      : (kmalloc (initHeap bareKernel) 0xFFFFFFFF).map
          (fun result => (result.1, payload result.2.mem (result.1 - headerSize)))
        = some (0xE0000008, 0) := by
    decide +kernel
  obtain ⟨⟨ptr, k'⟩, returned, block⟩ := Option.map_eq_some_iff.mp called
  obtain ⟨rfl, empty⟩ := Prod.mk.inj block
  have room := holds _ _ returned (by decide)
  rw [empty] at room
  exact absurd room (by decide)

end SimpleKernel
