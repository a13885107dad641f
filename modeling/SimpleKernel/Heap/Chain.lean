import SimpleKernel.Heap.Allocator
import SimpleKernel.Library.Segments

/-! Well-formed chains of heap areas.
Following the next addresses from `heap_start` visits strictly ascending headers inside
the heap and stops at `heap_end`, the only header with the epsilon bit. Nothing is said
about back links here.
-/

namespace SimpleKernel

open ByteMemory Segments

abbrev AreaSegment (m : Memory) : Addr → List Addr → Addr → Prop :=
  Segment 8 BitVec.toNat (getNextAddress m)

structure WellFormed (m : Memory) (areas : List Addr) : Prop where
  chain : AreaSegment m heapStart areas heapEnd
  plain : ∀ a ∈ areas, getAreaEpsilon m a = false
  sentinel : getAreaEpsilon m heapEnd = true

/-- The bytes between a header and the next one. -/
def payload (m : Memory) (a : Addr) : Nat :=
  (getNextAddress m a).toNat - (a.toNat + 8)

variable {m m' : Memory} {areas : List Addr} {a b x y : Addr}

theorem heapStart_toNat : heapStart.toNat = 0xE0000000 := rfl

theorem heapEnd_toNat : heapEnd.toNat = 0xFFBFFFF8 := rfl

/-- Every header of a chain is aligned: the first is `heap_start`, the others are links. -/
theorem segment_aligned {l : List Addr} (chain : AreaSegment m a l b) (start : Aligned a)
    : ∀ x ∈ l, Aligned x := by
  induction l generalizing a with
  | nil => simp
  | cons y rest ih =>
      obtain ⟨rfl, _, tail⟩ := chain
      intro x member
      rcases List.mem_cons.mp member with rfl | later
      · exact start
      · exact ih tail (aligned_getNextAddress _ _) x later

/-- Headers on the chain are aligned, since each is read from a link or is the start. -/
theorem WellFormed.aligned (wf : WellFormed m areas) (member : a ∈ areas) : Aligned a :=
  segment_aligned wf.chain aligned_heapStart a member

/-- Positions of one area: inside the heap, with room for its header. -/
theorem WellFormed.bounds (wf : WellFormed m areas) (member : a ∈ areas)
    : 0xE0000000 ≤ a.toNat
      ∧ a.toNat + 8 ≤ (getNextAddress m a).toNat
      ∧ (getNextAddress m a).toNat ≤ 0xFFBFFFF8 := by
  have bounds := wf.chain.bounds member
  rwa [heapStart_toNat, heapEnd_toNat] at bounds

/-- The sentinel closes the chain and is not on it. -/
theorem WellFormed.ne_heapEnd (wf : WellFormed m areas) (member : a ∈ areas)
    : a ≠ heapEnd := by
  rintro rfl
  exact wf.chain.end_not_mem (by decide) member

theorem WellFormed.ne_null (wf : WellFormed m areas) (member : a ∈ areas) : a ≠ null := by
  rintro rfl
  have low := (wf.bounds member).1
  exact absurd low (by decide)

theorem WellFormed.next_ne_null (wf : WellFormed m areas) (member : a ∈ areas)
    : getNextAddress m a ≠ null := by
  intro zero
  have ahead := (wf.bounds member).2.1
  rw [zero] at ahead
  simp at ahead

/-- No area is its own successor, as the chain ascends. -/
theorem WellFormed.next_ne_self (wf : WellFormed m areas) (member : a ∈ areas)
    : getNextAddress m a ≠ a := by
  intro same
  have ahead := (wf.bounds member).2.1
  rw [same] at ahead
  omega

theorem WellFormed.start_mem (wf : WellFormed m areas) : heapStart ∈ areas := by
  have chain := wf.chain
  cases areas with
  | nil => exact absurd (show heapStart = heapEnd from chain) (by decide)
  | cons first rest => simp [chain.head]

/-- The successor of an area is another area or the sentinel. -/
theorem WellFormed.next_mem (wf : WellFormed m areas) (member : a ∈ areas)
    : getNextAddress m a ∈ areas ∨ getNextAddress m a = heapEnd := by
  obtain ⟨before, after, rfl⟩ := List.append_of_mem member
  obtain ⟨_, _, rest⟩ := segment_middle.mp wf.chain
  cases after with
  | nil => exact Or.inr rest
  | cons next rest' =>
      have head := rest.head
      subst head
      simp

/-- The size of an area is that of its payload: the subtraction does not wrap on an ascending
chain.
-/
theorem WellFormed.areaSize (wf : WellFormed m areas) (member : a ∈ areas)
    : (getAreaSize m a).toNat = payload m a := by
  have bounds := wf.bounds member
  have notNull := wf.next_ne_null member
  simp only [getAreaSize, wf.plain a member, notNull, Bool.false_eq_true, or_self, if_false,
    payload]
  bv_omega

/-- A payload reaches from its header to the next one. -/
theorem WellFormed.payload_le (wf : WellFormed m areas) (member : a ∈ areas)
    : a.toNat + 8 + payload m a = (getNextAddress m a).toNat := by
  have bounds := wf.bounds member
  simp only [payload]
  omega

/-- It is shorter than the heap. -/
theorem WellFormed.payload_lt (wf : WellFormed m areas) (member : a ∈ areas)
    : payload m a < 2 ^ 29 := by
  have bounds := wf.bounds member
  simp only [payload]
  omega

/-- Of two different areas one ends before the other starts. -/
theorem WellFormed.apart (wf : WellFormed m areas) (left : x ∈ areas) (right : y ∈ areas)
    (ne : x ≠ y)
    : (getNextAddress m x).toNat ≤ y.toNat ∨ (getNextAddress m y).toNat ≤ x.toNat :=
  wf.chain.apart left right ne

/-- An area that starts after another one starts no earlier than that one ends. -/
theorem WellFormed.next_le (wf : WellFormed m areas) (left : x ∈ areas) (right : y ∈ areas)
    (above : x.toNat < y.toNat)
    : (getNextAddress m x).toNat ≤ y.toNat := by
  rcases wf.apart left right (by rintro rfl; omega) with apart | apart
  · exact apart
  · have bounds := wf.bounds right
    omega

/-- A payload byte lies in no header of the chain. -/
theorem WellFormed.payload_outside (wf : WellFormed m areas) (listed : x ∈ areas)
    (header : y ∈ areas ∨ y = heapEnd) {byte : Addr} (low : x.toNat + 8 ≤ byte.toNat)
    (high : byte.toNat < (getNextAddress m x).toNat)
    : OutsideHeader byte y := by
  have bounds := wf.bounds listed
  rw [OutsideHeader]
  rcases header with member | rfl
  · have boundsY := wf.bounds member
    by_cases same : y = x
    · rw [same]
      bv_omega
    · rcases wf.apart listed member (Ne.symm same) with apart | apart <;> bv_omega
  · bv_omega

/-- The number of areas is bounded by the size of the heap. -/
theorem WellFormed.length_lt (wf : WellFormed m areas) : areas.length < areaRounds := by
  have bound := wf.chain.length_le
  rw [heapStart_toNat, heapEnd_toNat] at bound
  simp only [areaRounds]
  omega

/-- Two chains of one memory list the same areas. -/
theorem WellFormed.unique {areas' : List Addr} (wf : WellFormed m areas)
    (wf' : WellFormed m areas')
    : areas = areas' :=
  wf.chain.unique (by decide) wf'.chain

/-- A chain moves to a memory that agrees on the links and epsilon bits of its headers. -/
theorem WellFormed.congr (wf : WellFormed m areas)
    (next : ∀ a ∈ areas, getNextAddress m' a = getNextAddress m a)
    (epsilon : ∀ a ∈ areas, getAreaEpsilon m' a = getAreaEpsilon m a)
    (sentinel : getAreaEpsilon m' heapEnd = getAreaEpsilon m heapEnd)
    : WellFormed m' areas where
  chain := wf.chain.congr next
  plain a member := by rw [epsilon a member, wf.plain a member]
  sentinel := by rw [sentinel, wf.sentinel]

end SimpleKernel
