import SimpleKernel.Heap.Backing
import SimpleKernel.Heap.Contents
import SimpleKernel.Heap.PageSplitting
import SimpleKernel.Heap.ReleaseOrder
import SimpleKernel.Library.AreaHeap

/-! The heap as a function of what is asked of it.
The calls of the allocator, on a list of areas instead of headers in memory. Every run whose
releases find the area before them by their back link follows this function: it grants the
same pointers and leaves the same areas.
-/

namespace SimpleKernel

open ByteMemory Segments AreaLists Runs

-----------------------------------------------------------------------------------------
-- The calls on lists of areas
-----------------------------------------------------------------------------------------

/-- A block of `size` bytes and the header behind it, rounded up to whole headers. -/
def AreaHeap.block (size : Nat) (areas : List Area) : Option Nat × List Area :=
  let need := (size + 15) / 8 * 8
  if size = 0 then (none, areas)
  else serve 8 (Area.Fits need) (Area.split 8 need) areas

def AreaHeap.pages (count : Nat) (areas : List Area) : Option Nat × List Area :=
  if count = 0 then (none, areas)
  else serve 8 (Area.FitsPages 8 4096 count) (Area.splitPages 8 4096 count) areas

/-- The area whose payload starts at `ptr` becomes free and joins its free neighbours. -/
def AreaHeap.release (ptr : Nat) (areas : List Area) : List Area :=
  coalesce 8 (releaseAt (ptr - 8) areas)

/-- A block too small for its new size is copied to a new one and released. -/
def AreaHeap.resize (ptr size : Nat) (areas : List Area) : Option Nat × List Area :=
  if size ≤ payloadAt (ptr - 8) areas then (some ptr, areas)
  else
    match AreaHeap.block size areas with
    | (none, areas) => (none, areas)
    | (some new, areas) => (some new, release ptr areas)

/-- The pointer a call returns, none for NULL, and the areas after it. -/
def AreaHeap.call (areas : List Area) : HeapCall → Option Nat × List Area
  | .kmalloc size => block size.toNat areas
  | .kcalloc nmemb size => block (nmemb.toNat * size.toNat) areas
  | .krealloc ptr size =>
      if size = 0 then (none, areas)
      else if ptr = null then block size.toNat areas
      else resize ptr.toNat size.toNat areas
  | .kpagealloc n => pages n.toNat areas
  | .kfree ptr => (none, if ptr = null then areas else release ptr.toNat areas)
  | .write _ _ => (none, areas)

-----------------------------------------------------------------------------------------
-- The areas in memory
-----------------------------------------------------------------------------------------

/-- The areas that the headers in memory describe. -/
def heapAreas (m : Memory) : List Area :=
  areaList m (chainAreas m)

variable {m m' : Memory} {areas areas' before after : List Addr} {a q : Addr} {k k' : Kernel}
  {ptr : Addr} {size n : Word} {s s' : HeapSession} {call : HeapCall}

/-- The areas in memory are those of the chain. -/
theorem WellFormed.heapAreas_eq (wf : WellFormed m areas) : heapAreas m = areaList m areas := by
  rw [heapAreas, wf.chainAreas_eq]

/-- The choice among the listed areas is that among their headers. -/
theorem argmin_areaList {fits : Addr → Bool} {Fits : Area → Prop} [DecidablePred Fits]
    (agree : ∀ b ∈ areas, Fits (areaAt m b) ↔ fits b = true)
    : ((areaList m areas).filter (fun area => Fits area)).argmin Area.payload
      = ((areas.filter fits).argmin (payload m)).map (areaAt m) := by
  rw [areaList, List.filter_map, argmin_map]
  congr 2
  refine List.filter_congr (fun b member => ?_)
  exact Bool.eq_iff_iff.mpr (decide_eq_true_iff.trans (agree b member))

/-- Other headers describe other areas. -/
theorem WellFormed.areaAt_not_mem (wf : WellFormed m (before ++ a :: after))
    : areaAt m a ∉ areaList m before ∧ areaAt m a ∉ areaList m after := by
  have absent {others : List Addr} (inside : ∀ x ∈ others, x ≠ a)
      : areaAt m a ∉ areaList m others := by
    intro member
    obtain ⟨x, listed, same⟩ := List.mem_map.mp member
    exact inside x listed (BitVec.eq_of_toNat_eq (congrArg Area.address same))
  exact ⟨absent (fun x early => wf.chain.ne_middle (by decide) (.inl early)),
    absent (fun x late => wf.chain.ne_middle (by decide) (.inr late))⟩

/-- A scan that finds nothing grants nothing. -/
theorem WellFormed.serve_nothing (wf : WellFormed m areas) {fits : Addr → Bool}
    {Fits : Area → Prop} [DecidablePred Fits] {pieces : Area → List Area}
    (agree : ∀ b ∈ areas, Fits (areaAt m b) ↔ fits b = true)
    (nothing : (areas.filter fits).argmin (payload m) = none)
    : serve 8 Fits pieces (heapAreas m) = (none, heapAreas m) := by
  rw [wf.heapAreas_eq]
  refine serve_none ?_
  rw [argmin_areaList agree, nothing]
  rfl

/-- Carving the pieces out of the area that the scan finds serves the request. -/
theorem WellFormed.serve_carved (wf : WellFormed m (before ++ a :: after))
    {fits : Addr → Bool} {Fits : Area → Prop} [DecidablePred Fits] {pieces : Area → List Area}
    (agree : ∀ b ∈ before ++ a :: after, Fits (areaAt m b) ↔ fits b = true)
    (best : ((before ++ a :: after).filter fits).argmin (payload m) = some a)
    (carved
      : ∃ areas',
          WellFormed m' areas'
          ∧ areaList m' areas'
            = areaList m before ++ pieces (areaAt m a) ++ areaList m after)
    : serve 8 Fits pieces (heapAreas m)
      = (((pieces (areaAt m a)).find? Area.used).map (fun block => block.address + 8),
        heapAreas m') := by
  obtain ⟨areas', wf', carved⟩ := carved
  obtain ⟨left, right⟩ := wf.areaAt_not_mem
  have chosen := argmin_areaList (m := m) agree
  rw [best] at chosen
  have split
      : areaList m (before ++ a :: after)
        = areaList m before ++ areaAt m a :: areaList m after := by
    simp [areaList]
  rw [split] at chosen
  rw [wf.heapAreas_eq, wf'.heapAreas_eq, carved, split]
  exact serve_some chosen left right

-----------------------------------------------------------------------------------------
-- Each call follows the function
-----------------------------------------------------------------------------------------

/-- A block is returned by the address behind its header. -/
theorem WellFormed.returned_header (wf : WellFormed m areas) (member : a ∈ areas)
    : returned (a + headerSize) = some (a.toNat + 8) := by
  have bounds := wf.bounds member
  have start : (a + headerSize).toNat = a.toNat + 8 := by bv_omega
  rw [returned, if_neg (wf.ptr_ne_null member), start]

/-- `kmalloc` answers and leaves the areas as the abstract heap does. By the scan, whose first
minimum is the abstract choice.
-/
theorem WellFormed.kmalloc_serves (wf : WellFormed k.mem areas)
    (bounded : size.toNat + 15 < 2 ^ 32) (called : kmalloc k size = some (ptr, k'))
    : AreaHeap.block size.toNat (heapAreas k.mem) = (returned ptr, heapAreas k'.mem) := by
  by_cases zero : size = 0
  · rw [kmalloc, if_pos zero] at called
    obtain ⟨rfl, rfl⟩ := Prod.mk.inj (Option.some.inj called)
    rw [zero]
    rfl
  · have notZero : size.toNat ≠ 0 := fun same => zero (BitVec.eq_of_toNat_eq same)
    have rounded := kmallocSize_toNat bounded
    rw [AreaHeap.block, if_neg notZero, ← rounded]
    rcases wf.kmalloc_cases zero with
      ⟨nothing, same⟩ | ⟨a, vm, best, member, fits, _, same⟩
    · obtain ⟨rfl, rfl⟩ := Prod.mk.inj (Option.some.inj (called.symm.trans same))
      exact wf.serve_nothing (fun _ _ => fits_areaAt_iff) nothing
    · obtain ⟨rfl, rfl⟩ := Prod.mk.inj (Option.some.inj (called.symm.trans same))
      have fit := (kmallocFits_iff.mp fits).2
      obtain ⟨before, after, rfl⟩ := List.append_of_mem member
      have carved := wf.kmallocCarve_areaList (aligned_kmallocSize size) (by omega) fit
      rw [wf.serve_carved (fun _ _ => fits_areaAt_iff) best carved, wf.returned_header member,
        Area.split]
      split <;> rfl

/-- The used piece of a page split is the block, whose payload starts at the page. -/
theorem Area.find_splitPages {area : Area} {count : Nat} (positive : 8 ≤ area.pageAbove 4096)
    : ((area.splitPages 8 4096 count).find? Area.used).map (fun block => block.address + 8)
      = some (area.pageAbove 4096) := by
  have start : area.pageAbove 4096 - 8 + 8 = area.pageAbove 4096 := Nat.sub_add_cancel positive
  rw [Area.splitPages]
  split <;> split <;> simp [start]

/-- `kpagealloc` does the same for pages. -/
theorem WellFormed.kpagealloc_serves (wf : WellFormed k.mem areas)
    (bounded : n.toNat * 4096 < 2 ^ 32) (called : kpagealloc k n = some (ptr, k'))
    : AreaHeap.pages n.toNat (heapAreas k.mem) = (returned ptr, heapAreas k'.mem) := by
  by_cases zero : n = 0
  · rw [kpagealloc, if_pos zero] at called
    obtain ⟨rfl, rfl⟩ := Prod.mk.inj (Option.some.inj called)
    rw [zero]
    rfl
  · have notZero : n.toNat ≠ 0 := fun same => zero (BitVec.eq_of_toNat_eq same)
    have size := pages_toNat bounded
    have agree (b) (member : b ∈ areas) := wf.fitsPages_areaAt_iff member n.toNat
    rw [AreaHeap.pages, if_neg notZero]
    rcases wf.kpagealloc_cases zero with
      ⟨nothing, same⟩ | ⟨a, vm, best, member, fits, _, same⟩
    · obtain ⟨rfl, rfl⟩ := Prod.mk.inj (Option.some.inj (called.symm.trans same))
      rw [kpageallocBest, size] at nothing
      exact wf.serve_nothing agree nothing
    · obtain ⟨rfl, rfl⟩ := Prod.mk.inj (Option.some.inj (called.symm.trans same))
      have page := wf.pageAbove_areaAt member
      have bounds := wf.bounds member
      have above := wf.nextPage_toNat member
      obtain ⟨before, after, rfl⟩ := List.append_of_mem member
      have carved := wf.kpageallocCarve_areaList bounded fits
      rw [kpageallocBest, size] at best
      rw [wf.serve_carved agree best carved, Area.find_splitPages (by omega), page,
        BitVec.sub_add_cancel, returned, if_neg]
      intro null
      rw [null] at above
      simp at above

/-- Clearing the block changes no area. -/
theorem WellFormed.kcalloc_serves (wf : WellFormed k.mem areas) {nmemb : Word}
    (bounded : nmemb.toNat * size.toNat + 15 < 2 ^ 32)
    (called : kcalloc k nmemb size = some (ptr, k'))
    : AreaHeap.block (nmemb.toNat * size.toNat) (heapAreas k.mem)
      = (returned ptr, heapAreas k'.mem) := by
  have total : (nmemb * size).toNat = nmemb.toNat * size.toNat :=
    BitVec.toNat_mul_of_lt (by omega)
  rw [kcalloc] at called
  split at called
  · next empty =>
    obtain ⟨rfl, rfl⟩ := Prod.mk.inj (Option.some.inj called)
    have none : nmemb.toNat * size.toNat = 0 := by
      rcases empty with rfl | rfl <;> simp
    rw [AreaHeap.block, if_pos none]
    rfl
  · next positive =>
    obtain ⟨some, _⟩ := not_or.mp positive
    have exact : size = nmemb * size / nmemb := by
      apply BitVec.eq_of_toNat_eq
      rw [BitVec.toNat_udiv, total, Nat.mul_div_cancel_left]
      exact Nat.pos_of_ne_zero (fun zero => some (BitVec.eq_of_toNat_eq zero))
    rw [if_neg (not_not.mpr exact)] at called
    rw [← total] at bounded ⊢
    rcases wf.kmalloc_allocates bounded
      with same | ⟨k₁, areas', a, q, same, granted, _⟩
    · rw [same] at called
      obtain ⟨rfl, rfl⟩ := Prod.mk.inj (Option.some.inj called)
      exact wf.kmalloc_serves bounded same
    · have notNull := granted.carved.wf.ptr_ne_null granted.carved.head
      have only := granted.memset_payloadOnly 0 le_rfl
      simp only [same, if_neg notNull] at called
      obtain ⟨rfl, rfl⟩ := Prod.mk.inj (Option.some.inj called)
      rw [wf.kmalloc_serves bounded same,
        (only.wellFormed granted.carved.wf granted.carved.head).heapAreas_eq,
        only.areaList_eq granted.carved.wf granted.carved.head, granted.carved.wf.heapAreas_eq]

/-- Nor does the copy of a reallocation. -/
theorem WellFormed.kreallocCopy_serves (wf : WellFormed k.mem areas) {new : Addr}
    (bounded : size.toNat + 15 < 2 ^ 32)
    (smaller : (getAreaSize k.mem (ptr - headerSize)).toNat < size.toNat)
    (called : kreallocCopy k ptr size = some (new, k'))
    : AreaHeap.block size.toNat (heapAreas k.mem) = (returned new, heapAreas k'.mem) := by
  rw [kreallocCopy] at called
  rcases wf.kmalloc_allocates bounded
    with same | ⟨k₁, areas', a, q, same, granted, _⟩
  · rw [same] at called
    obtain ⟨rfl, rfl⟩ := Prod.mk.inj (Option.some.inj called)
    exact wf.kmalloc_serves bounded same
  · have notNull := granted.carved.wf.ptr_ne_null granted.carved.head
    have only := granted.memcpy_payloadOnly ptr smaller.le
    simp only [same, if_neg notNull] at called
    obtain ⟨rfl, rfl⟩ := Prod.mk.inj (Option.some.inj called)
    rw [wf.kmalloc_serves bounded same,
      (only.wellFormed granted.carved.wf granted.carved.head).heapAreas_eq,
      only.areaList_eq granted.carved.wf granted.carved.head, granted.carved.wf.heapAreas_eq]

-----------------------------------------------------------------------------------------
-- Sessions
-----------------------------------------------------------------------------------------

section Sessions

variable {b : LiveBlock} (sound : s.Sound areas)
include sound

/-- The header of a live block, as the function finds it from the pointer. -/
theorem HeapSession.Sound.header_toNat (member : b ∈ s.live)
    : b.ptr.toNat - 8 = b.header.toNat := by
  have bounds := sound.wf.bounds (sound.listed b member)
  rw [LiveBlock.header] at bounds ⊢
  bv_omega

/-- The abstract heap finds the size of a live block at its address. -/
theorem HeapSession.Sound.payloadAt_eq (member : b ∈ s.live)
    : payloadAt (b.ptr.toNat - 8) (heapAreas s.kernel.mem)
      = (getAreaSize s.kernel.mem b.header).toNat := by
  have listed := sound.listed b member
  rw [payloadAt, sound.header_toNat member, sound.wf.heapAreas_eq, areaList, List.find?_map,
    sound.wf.areaSize listed]
  cases found : areas.find?
      ((fun area => decide (area.address = b.header.toNat)) ∘ areaAt s.kernel.mem) with
  | none => exact absurd (List.find?_eq_none.mp found b.header listed) (by simp [areaAt])
  | some x =>
      have same := List.find?_some found
      obtain rfl : x = b.header := BitVec.eq_of_toNat_eq (of_decide_eq_true same)
      rfl

/-- A release with a right back link follows the function. -/
theorem HeapSession.Sound.kfree_heapAreas (member : b ∈ s.live)
    (coalesced : Coalesced s.kernel.mem) (safe : CoalesceSafe s.kernel.mem b.header)
    : heapAreas (kfree s.kernel.mem b.ptr)
      = AreaHeap.release b.ptr.toNat (heapAreas s.kernel.mem) := by
  have released := sound.kfree_released member
  obtain ⟨areas', wf', merged⟩ :=
    released.areaList_eq sound.wf (sound.listed b member) safe coalesced
  rw [wf'.heapAreas_eq, merged, AreaHeap.release, sound.header_toNat member,
    sound.wf.heapAreas_eq]

/-- The same after the copy of a reallocation, in which the new block is one of the live ones.
-/
theorem HeapSession.Sound.moved_heapAreas (member : b ∈ s.live)
    (coalesced : Coalesced s.kernel.mem) {need : Nat}
    (granted : Granted s.kernel k' areas areas' a q need) (safe : CoalesceSafe k'.mem b.header)
    : heapAreas (kfree k'.mem b.ptr) = AreaHeap.release b.ptr.toNat (heapAreas k'.mem) := by
  have filled := granted.carved.coalesced sound.wf granted.source granted.free coalesced
  have copied := sound.granted granted
  rw [HeapSession.grant, if_neg (granted.carved.wf.ptr_ne_null granted.carved.head)] at copied
  exact copied.kfree_heapAreas (List.mem_cons_of_mem _ member) filled safe

/-- `krealloc` replies as the function does, and leaves its areas if the release is safe. -/
theorem HeapSession.Sound.krealloc_serves (coalesced : Coalesced s.kernel.mem) {new : Addr}
    (holds : s.Holds ptr) (small : size.toNat ≤ 2 ^ 29)
    (called : krealloc s.kernel ptr size = some (new, k'))
    : returned new = (AreaHeap.call (heapAreas s.kernel.mem) (.krealloc ptr size)).1
      ∧ (Releases CoalesceSafe s (.krealloc ptr size)
        → heapAreas k'.mem
          = (AreaHeap.call (heapAreas s.kernel.mem) (.krealloc ptr size)).2) := by
  rw [AreaHeap.call]
  by_cases zero : size = 0
  · rw [krealloc, if_pos zero] at called
    obtain ⟨rfl, rfl⟩ := Prod.mk.inj (Option.some.inj called)
    rw [if_pos zero]
    exact ⟨rfl, fun _ => rfl⟩
  · rw [if_neg zero]
    by_cases fresh : ptr = null
    · rw [krealloc, if_neg zero, if_pos fresh] at called
      rw [if_pos fresh, sound.wf.kmalloc_serves (by omega) called]
      exact ⟨rfl, fun _ => rfl⟩
    · obtain ⟨b, member, rfl⟩ := holds.resolve_left fresh
      have header : b.ptr - headerSize = b.header := rfl
      have compare
          : getAreaSize s.kernel.mem b.header ≥ size
            ↔ size.toNat ≤ (getAreaSize s.kernel.mem b.header).toNat :=
        Iff.rfl
      rw [if_neg fresh, AreaHeap.resize, sound.payloadAt_eq member]
      by_cases enough : size.toNat ≤ (getAreaSize s.kernel.mem b.header).toNat
      · rw [krealloc, if_neg zero, if_neg fresh, header, if_pos (compare.mpr enough)] at called
        obtain ⟨rfl, rfl⟩ := Prod.mk.inj (Option.some.inj called)
        rw [if_pos enough, returned, if_neg fresh]
        exact ⟨rfl, fun _ => rfl⟩
      · have smaller := Nat.not_le.mp enough
        have moves : ¬(size = 0 ∨ b.ptr = null ∨ getAreaSize s.kernel.mem b.header ≥ size) := by
          rw [compare]
          exact not_or.mpr ⟨zero, not_or.mpr ⟨fresh, enough⟩⟩
        rw [krealloc, if_neg zero, if_neg fresh, header, if_neg (mt compare.mp enough)] at called
        rw [if_neg enough]
        split at called
        · simp at called
        · next copy k₁ copied =>
          rw [sound.wf.kreallocCopy_serves (by omega) smaller copied]
          split at called
          · next failed =>
            obtain ⟨rfl, rfl⟩ := Prod.mk.inj (Option.some.inj called)
            rw [failed]
            exact ⟨rfl, fun _ => rfl⟩
          · next notNull =>
            obtain ⟨rfl, rfl⟩ := Prod.mk.inj (Option.some.inj called)
            rw [returned, if_neg notNull]
            refine ⟨rfl, fun safe => ?_⟩
            have copies := sound.wf.kreallocCopy_allocates (by omega) smaller
            rw [copied] at copies
            rcases copies with unchanged | ⟨_, areas', a, q, same, granted, _⟩
            · exact absurd (Prod.mk.inj (Option.some.inj unchanged)).1 notNull
            · obtain ⟨rfl, rfl⟩ := Prod.mk.inj (Option.some.inj same)
              exact sound.moved_heapAreas member coalesced granted
                (safe.of_release (s.release_krealloc moves copied notNull))

/-- Every call of a coalesced session whose releases are safe follows the function. -/
theorem HeapSession.Sound.exec_heapAreas (coalesced : Coalesced s.kernel.mem)
    (enabled : heapMachine.enabled s call) (safe : Releases CoalesceSafe s call)
    (executed : heapMachine.exec s call = some s')
    : heapAreas s'.kernel.mem = (AreaHeap.call (heapAreas s.kernel.mem) call).2 := by
  cases call with
  | kmalloc size =>
      obtain ⟨⟨ptr, k'⟩, called, rfl⟩ := Option.map_eq_some_iff.mp executed
      have small : size.toNat ≤ 2 ^ 29 := enabled
      rw [HeapSession.grant_kernel, AreaHeap.call, sound.wf.kmalloc_serves (by omega) called]
  | kcalloc nmemb size =>
      obtain ⟨⟨ptr, k'⟩, called, rfl⟩ := Option.map_eq_some_iff.mp executed
      have small : nmemb.toNat * size.toNat ≤ 2 ^ 29 := enabled
      rw [HeapSession.grant_kernel, AreaHeap.call, sound.wf.kcalloc_serves (by omega) called]
  | krealloc ptr size =>
      simp only [heapMachine, HeapSession.exec] at executed
      split at executed
      · simp at executed
      · next new k' called =>
        have follows := (sound.krealloc_serves coalesced enabled.1 enabled.2 called).2 safe
        split at executed
        · obtain rfl := Option.some.inj executed
          exact follows
        · obtain rfl := Option.some.inj executed
          rw [HeapSession.grant_kernel]
          exact follows
  | kpagealloc n =>
      obtain ⟨⟨ptr, k'⟩, called, rfl⟩ := Option.map_eq_some_iff.mp executed
      have small : n.toNat ≤ 2 ^ 17 := enabled
      rw [HeapSession.grant_kernel, AreaHeap.call, sound.wf.kpagealloc_serves (by omega) called]
  | kfree ptr =>
      obtain rfl := Option.some.inj executed
      rw [AreaHeap.call]
      rcases enabled with rfl | ⟨b, member, rfl⟩
      · rw [kfree, if_pos rfl]
        rfl
      · have notNull := sound.ptr_ne_null member
        have release : s.release (.kfree b.ptr) = some (s.kernel.mem, b.ptr) := by
          simp only [HeapSession.release, if_neg notNull]
        rw [if_neg notNull]
        exact sound.kfree_heapAreas member coalesced (safe.of_release release)
  | write address value =>
      obtain ⟨b, member, low, high⟩ := enabled
      obtain rfl := Option.some.inj executed
      have only := sound.payloadOnly member low high value
      have listed := sound.listed b member
      rw [(only.wellFormed sound.wf listed).heapAreas_eq, only.areaList_eq sound.wf listed,
        AreaHeap.call, sound.wf.heapAreas_eq]

/-- Every call answers what the abstract heap answers, by cases on the calls. -/
theorem HeapSession.Sound.reply_eq (coalesced : Coalesced s.kernel.mem)
    (enabled : heapMachine.enabled s call) (reply : s.reply call = some (ptr, k'))
    : returned ptr = (AreaHeap.call (heapAreas s.kernel.mem) call).1 := by
  cases call with
  | kmalloc size =>
      have small : size.toNat ≤ 2 ^ 29 := enabled
      rw [AreaHeap.call, sound.wf.kmalloc_serves (by omega) reply]
  | kcalloc nmemb size =>
      have small : nmemb.toNat * size.toNat ≤ 2 ^ 29 := enabled
      rw [AreaHeap.call, sound.wf.kcalloc_serves (by omega) reply]
  | krealloc _ _ => exact (sound.krealloc_serves coalesced enabled.1 enabled.2 reply).1
  | kpagealloc n =>
      have small : n.toNat ≤ 2 ^ 17 := enabled
      rw [AreaHeap.call, sound.wf.kpagealloc_serves (by omega) reply]
  | kfree _ => cases reply
  | write _ _ => cases reply

end Sessions

/-- The heap behind `init_heap`: one free area. -/
def initialAreas : List Area :=
  [⟨0xE0000000, 0x1FBFFFF0, false⟩]

/-- The area that `init_heap` sets up is free. -/
theorem getAreaUsed_initHeap (fresh : k.heapRan = false)
    : getAreaUsed (initHeap k).mem heapStart = false := by
  -- `heap_start` as the simplifier writes it
  have start : Aligned 0xE0000000#32 := rfl
  simp [initHeap, fresh, start]

/-- `init_heap` leaves one area, the whole heap. -/
theorem heapAreas_initHeap (fresh : k.heapRan = false)
    : heapAreas (initHeap k).mem = initialAreas := by
  have wf := initHeap_wellFormed fresh
  have next : getNextAddress (initHeap k).mem heapStart = heapEnd := wf.chain.2.2
  rw [wf.heapAreas_eq, areaList, List.map_singleton, areaAt, payload, next,
    getAreaUsed_initHeap fresh]
  rfl

theorem HeapSession.SoundCoalesced.initial (fresh : k.heapRan = false)
    : HeapSession.SoundCoalesced ⟨initHeap k, []⟩ := by
  have wf := initHeap_wellFormed fresh
  refine ⟨⟨_, .initial fresh⟩, wf.coalesced_iff.mpr ?_⟩
  exact List.isChain_singleton _

/-- A coalesced session in which the headers describe the areas. -/
def HeapSession.Follows (s : HeapSession) (areas : List Area) : Prop :=
  s.SoundCoalesced ∧ heapAreas s.kernel.mem = areas

/-- A step of the allocator is a step of the abstract heap. -/
theorem HeapSession.Follows.step {areas : List Area} (follows : s.Follows areas)
    (enabled : heapMachine.enabled s call) (safe : Releases CoalesceSafe s call)
    (executed : heapMachine.exec s call = some s')
    : s'.Follows (AreaHeap.call areas call).2 := by
  obtain ⟨earlier, rfl⟩ := follows
  obtain ⟨⟨areas, sound⟩, coalesced⟩ := id earlier
  exact ⟨earlier.step enabled safe executed,
    sound.exec_heapAreas coalesced enabled safe executed⟩

/-- The first block grew and moved behind the second. -/
example
    : reuseCalls.foldl (fun areas call => (AreaHeap.call areas call).2) initialAreas
      = [
        ⟨0xE0000000, 40, false⟩, ⟨0xE0000030, 8, true⟩, ⟨0xE0000040, 104, true⟩,
        ⟨0xE00000B0, 3904, false⟩, ⟨0xE0000FF8, 4096, true⟩, ⟨0xE0002000, 532668400, false⟩
      ] := by
  decide +kernel

end SimpleKernel
