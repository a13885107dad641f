import SimpleKernel.Heap.Allocation
import SimpleKernel.Heap.Release

/-! Blocks and their payloads.
Writes inside a payload change no header, so what an allocation leaves behind also holds
after the caller, `memset` or `memcpy` has filled the new block.
-/

namespace SimpleKernel

open ByteMemory Segments

variable {m m' m'' : Memory} {areas areas' : List Addr} {a q x : Addr}

/-- Only payload bytes of the area at `q` differ. -/
def PayloadOnly (m m' : Memory) (q : Addr) : Prop :=
  ∀ y : Addr,
    y.toNat < q.toNat + 8 ∨ (getNextAddress m q).toNat ≤ y.toNat
    → m' y = m y

section Payload

variable (only : PayloadOnly m m' q) (wf : WellFormed m areas) (member : q ∈ areas)
include only wf member

/-- No header byte of the chain differs. -/
theorem PayloadOnly.header (listed : x ∈ areas ∨ x = heapEnd) {y : Addr}
    (near : (y - x).toNat < 8)
    : m' y = m y := by
  have bounds := wf.bounds member
  refine only y ?_
  rcases listed with listed | rfl
  · have boundsX := wf.bounds listed
    by_cases same : x = q
    · subst same
      bv_omega
    · rcases wf.apart listed member same with apart | apart <;> bv_omega
  · bv_omega

/-- Bytes stored in a payload change no header, because a payload lies outside all of them. -/
theorem PayloadOnly.areaNext (listed : x ∈ areas ∨ x = heapEnd)
    : areaNext m' x = areaNext m x :=
  Memory.load32_congr (fun _ near => only.header wf member listed (by omega))

theorem PayloadOnly.prev (listed : x ∈ areas ∨ x = heapEnd)
    : getPrevAddress m' x = getPrevAddress m x := by
  have same : areaPrev m' x = areaPrev m x :=
    Memory.load32_congr (fun _ near => only.header wf member listed (by bv_omega))
  rw [getPrevAddress, same, getPrevAddress]

theorem PayloadOnly.next (listed : x ∈ areas ∨ x = heapEnd)
    : getNextAddress m' x = getNextAddress m x := by
  rw [getNextAddress, only.areaNext wf member listed, getNextAddress]

theorem PayloadOnly.used (listed : x ∈ areas ∨ x = heapEnd)
    : getAreaUsed m' x = getAreaUsed m x := by
  rw [getAreaUsed, only.areaNext wf member listed, getAreaUsed]

theorem PayloadOnly.epsilon (listed : x ∈ areas ∨ x = heapEnd)
    : getAreaEpsilon m' x = getAreaEpsilon m x := by
  rw [getAreaEpsilon, only.areaNext wf member listed, getAreaEpsilon]

/-- Hence they keep the chain. -/
theorem PayloadOnly.wellFormed : WellFormed m' areas :=
  wf.congr (fun _ listed => only.next wf member (Or.inl listed))
    (fun _ listed => only.epsilon wf member (Or.inl listed))
    (only.epsilon wf member (Or.inr rfl))

end Payload

/-- Filling the new block keeps what the allocation established. -/
theorem Carved.fill (carved : Carved m m' areas areas' a q true) (member : a ∈ areas)
    (only : PayloadOnly m' m'' q)
    : Carved m m'' areas areas' a q true := by
  have next (x) (listed : x ∈ areas') : getNextAddress m'' x = getNextAddress m' x :=
    only.next carved.wf carved.head (Or.inl listed)
  have start := carved.start
  have stop := carved.stop
  refine {
    wf := only.wellFormed carved.wf carved.head
    head := carved.head
    start := start
    stop := by rwa [next q carved.head]
    kept := carved.kept
    used := fun x listed => by
      rw [only.used carved.wf carved.head (Or.inl listed)]
      exact carved.used x listed
    nextOther := fun x listed ne => by
      rw [next x (carved.kept x listed), carved.nextOther x listed ne]
    nextStart := fun ne => by rw [next a (carved.kept a member), carved.nextStart ne]
    nextBlock := ?_
    heads := by
      rw [next q carved.head]
      exact carved.heads
    bytes := fun x beyond outsideNext => by
      rw [only x (by omega), carved.bytes x beyond outsideNext]
  }
  rw [next q carved.head]
  refine carved.nextBlock.imp_right (fun remainder => ⟨remainder.1, ?_⟩)
  rw [next _ remainder.1, remainder.2]

/-- The new block is no old used area. -/
theorem Carved.fresh (carved : Carved m m' areas areas' a q true) (wf : WellFormed m areas)
    (member : a ∈ areas) (free : getAreaUsed m a = false) (listed : x ∈ areas)
    (used : getAreaUsed m x = true)
    : x ≠ q := by
  rintro rfl
  have ne : a ≠ x := by
    rintro rfl
    rw [free] at used
    exact Bool.noConfusion used
  have start := carved.start
  have stop := carved.stop
  have bounds := carved.wf.bounds carved.head
  rw [carved.nextOther x listed (Ne.symm ne)] at stop bounds
  rcases wf.apart member listed ne with apart | apart <;> omega

/-- Every used area survives an allocation with its next address and its payload. -/
theorem Carved.keeps (carved : Carved m m' areas areas' a q true) (wf : WellFormed m areas)
    (member : a ∈ areas) (free : getAreaUsed m a = false) (listed : x ∈ areas)
    (used : getAreaUsed m x = true)
    : x ∈ areas'
      ∧ getAreaUsed m' x = true
      ∧ getNextAddress m' x = getNextAddress m x
      ∧ ∀ y : Addr,
          x.toNat + 8 ≤ y.toNat → y.toNat < (getNextAddress m x).toNat → m' y = m y := by
  have ne : x ≠ a := by
    rintro rfl
    rw [free] at used
    exact Bool.noConfusion used
  have kept := carved.kept x listed
  refine ⟨kept, (carved.used x kept).mpr (Or.inr ⟨listed, used⟩),
    carved.nextOther x listed ne, fun y low high => ?_⟩
  have apart := wf.apart listed member ne
  exact carved.bytes y (by omega) (wf.payload_outside listed (wf.next_mem member) low high)

-----------------------------------------------------------------------------------------
-- Allocating calls
-----------------------------------------------------------------------------------------

/-- The area `kmalloc` takes without splitting it, if it takes one so. -/
def kmallocWhole (m : Memory) (size : Word) : Option Addr :=
  if size = 0 then none
  else
    (kmallocBest m (chainAreas m) (kmallocSize size).toNat).filter
      (fun a => !kmallocSplits (getAreaSize m a) (kmallocSize size))

/-- The area `kpagealloc` takes up to its end, if it takes one so. -/
def kpageallocWhole (m : Memory) (n : Word) : Option Addr :=
  if n = 0 then none
  else
    (kpageallocBest m (chainAreas m) (n * pageSize).toNat).filter
      (fun a => !kpageallocSplits (getAreaSize m a) (n * pageSize) a)

/-- How an allocation backs its block: without a split nothing is mapped, and with one the
pages from the first one behind the old head to that of the new head are.
-/
def BacksBlock (k k' : Kernel) (a q : Addr) : Prop :=
  getNextAddress k'.mem q = getNextAddress k.mem a ∧ k'.paging = k.paging
  ∨ ∃ flags startPage endPage,
      mapMissingPages flags endPage pageRounds startPage k.paging = some k'.paging
      ∧ startPage.toNat % 4096 = 0
      ∧ 0xE0000000 ≤ startPage.toNat
      ∧ startPage.toNat ≤ a.toNat / 4096 * 4096 + 4096
      ∧ (getNextAddress k'.mem q).toNat / 4096 * 4096 ≤ endPage.toNat
      ∧ endPage.toNat < 0xFFC00000

/-- A block of at least `need` bytes, carved out of the free area at `a`. -/
structure Granted (k k' : Kernel) (areas areas' : List Addr) (a q : Addr) (need : Nat)
    : Prop where
  source : a ∈ areas
  free : getAreaUsed k.mem a = false
  carved : Carved k.mem k'.mem areas areas' a q true
  room : need ≤ payload k'.mem q
  backs : BacksBlock k k' a q

theorem Granted.fill_next {k k' : Kernel} {need : Nat}
    (granted : Granted k k' areas areas' a q need) {mem : Memory}
    (only : PayloadOnly k'.mem mem q)
    : getNextAddress mem q = getNextAddress k'.mem q :=
  only.next granted.carved.wf granted.carved.head (Or.inl granted.carved.head)

/-- What is stored in a new block does not undo its allocation. -/
theorem Granted.fill {k k' : Kernel} {need : Nat}
    (granted : Granted k k' areas areas' a q need) {mem : Memory}
    (only : PayloadOnly k'.mem mem q)
    : Granted k { k' with mem := mem } areas areas' a q need := by
  have next := granted.fill_next only
  refine {
    source := granted.source
    free := granted.free
    carved := granted.carved.fill granted.source only
    room := by
      rw [payload, next]
      exact granted.room
    backs := ?_
  }
  have backs := granted.backs
  rw [BacksBlock, ← next] at backs
  exact backs

/-- The pointer of a listed header is not NULL. -/
theorem WellFormed.ptr_ne_null (wf : WellFormed m areas) (member : q ∈ areas)
    : q + headerSize ≠ null := by
  have bounds := wf.bounds member
  bv_omega

/-- The outcome of an allocating call: NULL and no change, or a granted block. `whole` is
the area that the call takes up to its end.
-/
def Allocates (k : Kernel) (areas : List Addr) (need : Nat) (whole : Option Addr)
    (result : Option (Addr × Kernel))
    : Prop :=
  result = some (null, k)
  ∨ ∃ k' areas' a q,
      result = some (q + headerSize, k')
      ∧ Granted k k' areas areas' a q need
      ∧ (getNextAddress k'.mem q = getNextAddress k.mem a → whole = some a)

/-- Clearing what was requested stays inside the payload. -/
theorem Granted.memset_payloadOnly {k k' : Kernel} {need : Nat}
    (granted : Granted k k' areas areas' a q need) (value : Word) {count : Word}
    (fits : count.toNat ≤ need)
    : PayloadOnly k'.mem (memset k'.mem (q + headerSize) value count) q := by
  have room := granted.room
  have ends := granted.carved.wf.payload_le granted.carved.head
  have bounds := granted.carved.wf.bounds granted.carved.head
  exact fun y beyond => memset_outside _ _ (by bv_omega)

/-- Copying no more than was requested stays inside the payload. -/
theorem Granted.memcpy_payloadOnly {k k' : Kernel} {need : Nat}
    (granted : Granted k k' areas areas' a q need) (src : Addr) {count : Word}
    (fits : count.toNat ≤ need)
    : PayloadOnly k'.mem (memcpy k'.mem (q + headerSize) src count) q := by
  have room := granted.room
  have ends := granted.carved.wf.payload_le granted.carved.head
  have bounds := granted.carved.wf.bounds granted.carved.head
  exact fun y beyond => memcpy_outside _ _ (by bv_omega)

/-- Filling the granted block keeps the outcome. -/
theorem Granted.allocates_fill {k k' : Kernel} {need : Nat} {whole : Option Addr}
    (granted : Granted k k' areas areas' a q need)
    (takes : getNextAddress k'.mem q = getNextAddress k.mem a → whole = some a)
    {mem : Memory} (only : PayloadOnly k'.mem mem q)
    : Allocates k areas need whole (some (q + headerSize, { k' with mem := mem })) := by
  refine Or.inr ⟨_, areas', a, q, rfl, granted.fill only, ?_⟩
  rw [granted.fill_next only]
  exact takes

section Calls

variable {k : Kernel} (wf : WellFormed k.mem areas)
include wf

/-- The block of `kmalloc` starts where the area it is carved out of does. It is large
enough because the rounded size has room for a header.
-/
theorem WellFormed.kmalloc_granted {size : Word} (bounded : size.toNat + 15 < 2 ^ 32)
    : kmalloc k size = some (null, k)
      ∨ ∃ k' areas' a,
          kmalloc k size = some (a + headerSize, k')
          ∧ k'.mem = kmallocCarve k.mem (getAreaSize k.mem a) (kmallocSize size) a
          ∧ (kmallocSize size).toNat < payload k.mem a
          ∧ Granted k k' areas areas' a a size.toNat
          ∧ (getNextAddress k'.mem a = getNextAddress k.mem a
            → kmallocWhole k.mem size = some a) := by
  by_cases positive : size = 0
  · exact Or.inl (by rw [kmalloc, if_pos positive])
  · rcases wf.kmalloc_cases positive with
      ⟨_, returned⟩ | ⟨a, vm, best, member, fits, mapped, returned⟩
    · exact Or.inl returned
    · obtain ⟨free, fit⟩ := kmallocFits_iff.mp fits
      have rounded := kmallocSize_toNat bounded
      obtain ⟨areas', carved, behind⟩ :=
        wf.kmallocCarve_carved member (aligned_kmallocSize size) (by omega) fit
      have bounds := wf.bounds member
      have ends := wf.payload_le member
      have sum : (a + kmallocSize size).toNat = a.toNat + (kmallocSize size).toNat := by
        bv_omega
      refine Or.inr ⟨_, areas', a, returned, rfl, fit, ⟨member, free, carved, ?_, ?_⟩, ?_⟩
      · simp only [payload, behind]
        split <;> omega
      · simp only [BacksBlock, behind]
        rw [kmallocMap] at mapped
        split
        · next splits =>
          rw [if_pos splits] at mapped
          have startPage := toNat_and_not_FFF a
          have endPage := toNat_and_not_FFF (a + kmallocSize size)
          exact Or.inr ⟨_, _, _, mapped, by omega, by omega, by omega, by omega, by omega⟩
        · next whole =>
          rw [if_neg whole] at mapped
          exact Or.inl ⟨rfl, (Option.some.inj mapped).symm⟩
      · simp only [behind]
        split
        · next splits =>
          intro same
          rw [← same] at ends
          omega
        · next whole =>
          intro _
          rw [kmallocWhole, if_neg positive, wf.chainAreas_eq, best, Option.filter_some,
            Bool.eq_false_of_not_eq_true whole]
          rfl

/-- `kmalloc` returns NULL or a block that holds the request, if the request does not overflow.
By the cases of the scan.
-/
theorem WellFormed.kmalloc_allocates {size : Word} (bounded : size.toNat + 15 < 2 ^ 32)
    : Allocates k areas size.toNat (kmallocWhole k.mem size) (kmalloc k size) := by
  rcases wf.kmalloc_granted bounded
    with returned | ⟨k', areas', a, returned, _, _, granted, takes⟩
  · exact Or.inl returned
  · exact Or.inr ⟨k', areas', a, a, returned, granted, takes⟩

/-- `kpagealloc` does the same for whole pages. -/
theorem WellFormed.kpagealloc_allocates {n : Word} (bounded : n.toNat * 4096 < 2 ^ 32)
    : Allocates k areas (n.toNat * 4096) (kpageallocWhole k.mem n) (kpagealloc k n) := by
  by_cases positive : n = 0
  · exact Or.inl (by rw [kpagealloc, if_pos positive])
  · rcases wf.kpagealloc_cases positive
      with ⟨_, returned⟩ | ⟨a, vm, best, member, fits, mapped, returned⟩
    · exact Or.inl returned
    · obtain ⟨free, room⟩ := kpageallocFits_iff.mp fits
      have size := pages_toNat bounded
      obtain ⟨areas', carved, behind⟩ := wf.kpageallocCarve_carved member (aligned_pages n) fits
      have bounds := wf.bounds member
      have ends := wf.payload_le member
      have page := wf.nextPage_toNat member
      have ret := wf.pageHead_toNat member
      simp only [pageNeed, size] at room
      have sum : (nextPage a + n * pageSize).toNat = (nextPage a).toNat + n.toNat * 4096 := by
        rw [BitVec.toNat_add, size]
        exact Nat.mod_eq_of_lt (by omega)
      refine Or.inr ⟨_, areas', a, _, returned, ⟨member, free, carved, ?_, ?_⟩, ?_⟩
      · simp only [payload, behind]
        split <;> omega
      · simp only [BacksBlock, behind]
        rw [kpageallocMap] at mapped
        split
        · next splits =>
          have split := (wf.kpageallocSplits_iff member fits).mp splits
          simp only [pageNeed, size] at split
          have new : nextPage a - headerSize + n * pageSize + headerSize
              = nextPage a + n * pageSize := by bv_omega
          rw [if_pos splits] at mapped
          simp only [new] at mapped
          exact Or.inr ⟨_, _, _, mapped, by omega, by omega, by omega, by omega, by omega⟩
        · next whole =>
          rw [if_neg whole] at mapped
          exact Or.inl ⟨rfl, (Option.some.inj mapped).symm⟩
      · simp only [behind]
        split
        · next splits =>
          intro same
          have split := (wf.kpageallocSplits_iff member fits).mp splits
          simp only [pageNeed, size] at split
          rw [← same] at ends
          omega
        · next whole =>
          intro _
          rw [kpageallocWhole, if_neg positive, wf.chainAreas_eq, best, Option.filter_some,
            Bool.eq_false_of_not_eq_true whole]
          rfl

/-- An overflowing product is rejected, and clearing the block stays inside its payload. -/
theorem WellFormed.kcalloc_allocates {nmemb size : Word}
    (bounded : nmemb.toNat * size.toNat + 15 < 2 ^ 32)
    : Allocates k areas (nmemb.toNat * size.toNat) (kmallocWhole k.mem (nmemb * size))
        (kcalloc k nmemb size) := by
  have total : (nmemb * size).toNat = nmemb.toNat * size.toNat :=
    BitVec.toNat_mul_of_lt (by omega)
  rw [kcalloc]
  split
  · exact Or.inl rfl
  · split
    · exact Or.inl rfl
    · have exact : (nmemb * size).toNat + 15 < 2 ^ 32 := by rwa [total]
      rcases wf.kmalloc_allocates exact
        with returned | ⟨k', areas', a, q, returned, granted, takes⟩
      · simp only [returned, if_true]
        exact Or.inl rfl
      · have notNull := granted.carved.wf.ptr_ne_null granted.carved.head
        have only := granted.memset_payloadOnly 0 le_rfl
        rw [total] at granted
        simp only [returned, notNull, if_false]
        exact granted.allocates_fill takes only

/-- The copy of a reallocation stays inside the new payload, as the old one was smaller. -/
theorem WellFormed.kreallocCopy_allocates {ptr size : Word}
    (bounded : size.toNat + 15 < 2 ^ 32)
    (smaller : (getAreaSize k.mem (ptr - headerSize)).toNat < size.toNat)
    : Allocates k areas size.toNat (kmallocWhole k.mem size) (kreallocCopy k ptr size) := by
  rw [kreallocCopy]
  rcases wf.kmalloc_allocates bounded
    with returned | ⟨k', areas', a, q, returned, granted, takes⟩
  · simp only [returned, if_true]
    exact Or.inl rfl
  · have notNull := granted.carved.wf.ptr_ne_null granted.carved.head
    simp only [returned, notNull, if_false]
    exact granted.allocates_fill takes (granted.memcpy_payloadOnly ptr smaller.le)

end Calls

end SimpleKernel
