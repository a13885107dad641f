import SimpleKernel.Heap.Insertion
import SimpleKernel.Heap.Search

/-! What a successful allocation does to the chain.
Both allocators take a free area, write at most one head before the block and one behind
it, and set the used bit of the block's head. `Carved` says what this leaves of links, used
bits and bytes, with back links left out.
-/

namespace SimpleKernel

open ByteMemory Segments

variable {m m' : Memory} {areas areas' : List Addr} {a q new x : Addr}

/-- The area at `a` of the chain `areas` has been carved into up to three, the one at `q`
being the block; `taken` is the used bit of `q`.
-/
structure Carved (m m' : Memory) (areas areas' : List Addr) (a q : Addr) (taken : Bool)
    : Prop where
  wf : WellFormed m' areas'
  head : q ∈ areas'
  start : a.toNat ≤ q.toNat
  stop : (getNextAddress m' q).toNat ≤ (getNextAddress m a).toNat
  kept : ∀ x ∈ areas, x ∈ areas'
  used
    : ∀ x ∈ areas',
        getAreaUsed m' x = true
        ↔ x = q ∧ taken = true ∨ x ∈ areas ∧ getAreaUsed m x = true
  nextOther : ∀ x ∈ areas, x ≠ a → getNextAddress m' x = getNextAddress m x
  nextStart : a ≠ q → getNextAddress m' a = q
  nextBlock
    : getNextAddress m' q = getNextAddress m a
      ∨ getNextAddress m' q ∈ areas'
        ∧ getNextAddress m' (getNextAddress m' q) = getNextAddress m a
  heads : ∀ x ∈ areas', x ∈ areas ∨ x = q ∨ x = getNextAddress m' q
  bytes
    : ∀ x,
        x.toNat < a.toNat ∨ (getNextAddress m a).toNat ≤ x.toNat
        → OutsideHeader x (getNextAddress m a)
        → m' x = m x

/-- Before anything is written the block is the whole free area. -/
theorem Carved.refl (wf : WellFormed m areas) (member : a ∈ areas)
    : Carved m m areas areas a a false where
  wf := wf
  head := member
  start := le_rfl
  stop := le_rfl
  kept _ listed := listed
  used x listed := by simp [listed]
  nextOther _ _ _ := rfl
  nextStart ne := absurd rfl ne
  nextBlock := Or.inl rfl
  heads _ listed := Or.inl listed
  bytes _ _ _ := rfl

/-- Bytes beyond an area are no bytes of a header written inside it. -/
theorem outsideHeader_of_beyond {low high : Nat} (inside : low ≤ new.toNat)
    (room : new.toNat + 8 ≤ high) (top : high ≤ 0xFFBFFFF8)
    (beyond : x.toNat < low ∨ high ≤ x.toNat)
    : OutsideHeader x new := by
  rw [OutsideHeader]
  bv_omega

/-- The chain with a new head, described by its members. -/
theorem HeaderInserted.exists_wellFormed (inserted : HeaderInserted m m' a new)
    (wf : WellFormed m areas) (member : a ∈ areas) (aligned : Aligned new)
    (low : a.toNat + 8 ≤ new.toNat) (high : new.toNat + 8 ≤ (getNextAddress m a).toNat)
    : ∃ areas', WellFormed m' areas' ∧ ∀ x, x ∈ areas' ↔ x ∈ areas ∨ x = new := by
  obtain ⟨before, after, rfl⟩ := List.append_of_mem member
  refine ⟨_, inserted.wellFormed wf aligned low high, fun x => ?_⟩
  simp only [List.mem_append, List.mem_cons]
  tauto

/-- A header inserted between an area and its successor is new to the chain, which has no
header there.
-/
theorem HeaderInserted.not_mem (inserted : HeaderInserted m m' a new)
    (wf : WellFormed m areas) (member : a ∈ areas) (aligned : Aligned new)
    (low : a.toNat + 8 ≤ new.toNat) (high : new.toNat + 8 ≤ (getNextAddress m a).toNat)
    : new ∉ areas := by
  obtain ⟨before, after, rfl⟩ := List.append_of_mem member
  exact fun listed => inserted.ne_new wf aligned low high listed rfl

/-- A head at `new` makes the block start there instead of at the start of the area. -/
theorem Carved.pageHead (inserted : HeaderInserted m m' a new) (wf : WellFormed m areas)
    (member : a ∈ areas) (aligned : Aligned new)
    (low : a.toNat + 8 ≤ new.toNat) (high : new.toNat + 8 ≤ (getNextAddress m a).toNat)
    : ∃ areas', Carved m m' areas areas' a new false := by
  obtain ⟨areas', wf', listed⟩ := inserted.exists_wellFormed wf member aligned low high
  have fresh := inserted.not_mem wf member aligned low high
  have ne {x} (inside : x ∈ areas) : x ≠ new := by
    rintro rfl
    exact fresh inside
  have top := (wf.bounds member).2.2
  refine ⟨areas', {
    wf := wf'
    head := (listed new).mpr (Or.inr rfl)
    start := by omega
    stop := by rw [inserted.nextNew]
    kept := fun x inside => (listed x).mpr (Or.inl inside)
    used := ?_
    nextOther := fun x inside neA => inserted.nextOther x (wf.aligned inside) neA (ne inside)
    nextStart := fun _ => inserted.nextOld
    nextBlock := Or.inl inserted.nextNew
    heads := fun x inside => ((listed x).mp inside).imp_right Or.inl
    bytes := ?_
  }⟩
  · intro x inside
    rcases (listed x).mp inside with old | rfl
    · simp [inserted.usedOther x (wf.aligned old) (ne old), old]
    · simp [inserted.usedNew, fresh]
  · intro x beyond outsideNext
    refine inserted.bytes x ?_ ?_ outsideNext
    · exact outsideHeader_of_beyond le_rfl (by omega) top beyond
    · exact outsideHeader_of_beyond (by omega) high top beyond

/-- A head at `new` inside the block returns what lies behind it to the free areas. -/
theorem Carved.remainder {mid : Memory} (carved : Carved m mid areas areas' a q false)
    (wf : WellFormed m areas) (member : a ∈ areas)
    (whole : getNextAddress mid q = getNextAddress m a)
    (inserted : HeaderInserted mid m' q new) (aligned : Aligned new)
    (low : q.toNat + 8 ≤ new.toNat) (high : new.toNat + 8 ≤ (getNextAddress m a).toNat)
    : ∃ areas'', Carved m m' areas areas'' a q false := by
  rw [← whole] at high
  obtain ⟨areas'', wf'', listed⟩ :=
    inserted.exists_wellFormed carved.wf carved.head aligned low high
  have fresh := inserted.not_mem carved.wf carved.head aligned low high
  have ne {x} (inside : x ∈ areas') : x ≠ new := by
    rintro rfl
    exact fresh inside
  have start := carved.start
  have top := (wf.bounds member).2.2
  refine ⟨areas'', {
    wf := wf''
    head := (listed q).mpr (Or.inl carved.head)
    start := start
    stop := by
      rw [inserted.nextOld, ← whole]
      omega
    kept := fun x inside => (listed x).mpr (Or.inl (carved.kept x inside))
    used := ?_
    nextOther := ?_
    nextStart := ?_
    nextBlock := ?_
    heads := ?_
    bytes := ?_
  }⟩
  · intro x inside
    rcases (listed x).mp inside with old | rfl
    · rw [inserted.usedOther x (carved.wf.aligned old) (ne old)]
      exact carved.used x old
    · simp only [inserted.usedNew, Bool.false_eq_true, and_false, false_or, false_iff, not_and]
      exact fun inside => absurd (carved.kept x inside) fresh
  · intro x inside neA
    have old := carved.kept x inside
    have neQ : x ≠ q := by
      rintro rfl
      have apart := wf.apart member inside (Ne.symm neA)
      have bounds := wf.bounds inside
      rw [whole] at high
      omega
    rw [inserted.nextOther x (carved.wf.aligned old) neQ (ne old)]
    exact carved.nextOther x inside neA
  · intro neQ
    have old := carved.kept a member
    rw [inserted.nextOther a (carved.wf.aligned old) neQ (ne old)]
    exact carved.nextStart neQ
  · rw [inserted.nextOld, inserted.nextNew]
    exact Or.inr ⟨(listed new).mpr (Or.inr rfl), whole⟩
  · intro x inside
    rw [inserted.nextOld]
    rcases (listed x).mp inside with old | rfl
    · rcases carved.heads x old with earlier | rfl | rfl
      · exact Or.inl earlier
      · exact Or.inr (Or.inl rfl)
      · rcases wf.next_mem member with next | sentinel
        · exact Or.inl (by rwa [whole])
        · rw [whole] at old
          exact absurd sentinel (carved.wf.ne_heapEnd old)
    · exact Or.inr (Or.inr rfl)
  · intro x beyond outsideNext
    rw [whole] at high
    rw [inserted.bytes x ?_ ?_ (by rwa [whole])]
    · exact carved.bytes x beyond outsideNext
    · exact outsideHeader_of_beyond start (by omega) top beyond
    · exact outsideHeader_of_beyond (by omega) high top beyond

/-- Setting the used bit of the block's head completes the allocation. -/
theorem Carved.mark (carved : Carved m m' areas areas' a q false) (wf : WellFormed m areas)
    (member : a ∈ areas)
    : Carved m (setAreaUsed m' q true) areas areas' a q true := by
  have alignedQ := carved.wf.aligned carved.head
  have next (x) (aligned : Aligned x)
      : getNextAddress (setAreaUsed m' q true) x = getNextAddress m' x := by
    simp [alignedQ, aligned]
  have start := carved.start
  have room := (carved.wf.bounds carved.head).2.1
  have stop := carved.stop
  have top := (wf.bounds member).2.2
  refine {
    wf := carved.wf.congr (fun x inside => next x (carved.wf.aligned inside))
      (fun x inside => by simp [alignedQ, carved.wf.aligned inside]) (by simp [alignedQ])
    head := carved.head
    start := start
    stop := by rwa [next q alignedQ]
    kept := carved.kept
    used := ?_
    nextOther := fun x inside neA => by
      rw [next x (wf.aligned inside), carved.nextOther x inside neA]
    nextStart := fun neQ => by rw [next a (wf.aligned member), carved.nextStart neQ]
    nextBlock := by
      rw [next q alignedQ, next _ (aligned_getNextAddress _ _)]
      exact carved.nextBlock
    heads := by
      rw [next q alignedQ]
      exact carved.heads
    bytes := ?_
  }
  · intro x inside
    have before := carved.used x inside
    by_cases same : x = q
    · simp [alignedQ, same]
    · simpa [alignedQ, carved.wf.aligned inside, same] using before
  · intro x beyond outsideNext
    rw [setAreaUsed_outside m' (outsideHeader_of_beyond start (by omega) top beyond)]
    exact carved.bytes x beyond outsideNext

end SimpleKernel
