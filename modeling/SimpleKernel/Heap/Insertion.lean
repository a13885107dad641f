import SimpleKernel.Heap.Chain

/-! Inserting an area head into a chain.
Both allocators split an area by writing a new header inside it. They differ in one word:
`kpagealloc`'s first head also repairs the back link of the area behind it.
-/

namespace SimpleKernel

open ByteMemory Segments

variable {m m' : Memory} {before after : List Addr} {a b new x : Addr}

/-- What inserting a head at `new` into the area at `a` does to headers and bytes. The back
link of the area behind is left open.
-/
structure HeaderInserted (m m' : Memory) (a new : Addr) : Prop where
  nextNew : getNextAddress m' new = getNextAddress m a
  nextOld : getNextAddress m' a = new
  nextOther
    : ∀ b, Aligned b → b ≠ a → b ≠ new → getNextAddress m' b = getNextAddress m b
  usedNew : getAreaUsed m' new = false
  usedOther : ∀ b, Aligned b → b ≠ new → getAreaUsed m' b = getAreaUsed m b
  epsilonNew : getAreaEpsilon m' new = false
  epsilonOther : ∀ b, Aligned b → b ≠ new → getAreaEpsilon m' b = getAreaEpsilon m b
  prevNew : getPrevAddress m' new = a
  prevOther
    : ∀ b, Aligned b → b ≠ new → b ≠ getNextAddress m a
        → getPrevAddress m' b = getPrevAddress m b
  bytes
    : ∀ x,
        OutsideHeader x a
        → OutsideHeader x new
        → OutsideHeader x (getNextAddress m a)
        → m' x = m x

/-- `insert_area` puts a header between an area and its successor. -/
theorem insertArea_inserted (alignedA : Aligned a) (alignedNew : Aligned new) (ne : a ≠ new)
    : HeaderInserted m (insertArea m a new) a new := by
  constructor
  · simp [insertArea, alignedA, alignedNew, ne, ne.symm]
  · simp [insertArea, alignedA, alignedNew]
  · intro b aligned neA neNew
    simp [insertArea, alignedA, alignedNew, aligned, neA, neNew]
  · simp [insertArea, alignedA, alignedNew]
  · intro b aligned neNew
    simp [insertArea, alignedA, alignedNew, aligned, neNew]
  · simp [insertArea, alignedA, alignedNew]
  · intro b aligned neNew
    simp [insertArea, alignedA, alignedNew, aligned, neNew]
  · simp [insertArea, alignedA, alignedNew]
  · intro b aligned neNew _
    simp [insertArea, alignedA, alignedNew, aligned, neNew]
  · intro x outsideA outsideNew _
    simp [insertArea, outsideA, outsideNew]

/-- The split of `kmalloc` leaves the back link of the area behind as it was. -/
theorem insertArea_prev_next (alignedA : Aligned a) (alignedNew : Aligned new)
    (neNext : getNextAddress m a ≠ new)
    : getPrevAddress (insertArea m a new) (getNextAddress m a)
      = getPrevAddress m (getNextAddress m a) := by
  simp [insertArea, alignedA, alignedNew, neNext]

/-- So does the insertion of a header in front of a page. -/
theorem insertPageHead_inserted (alignedA : Aligned a) (alignedNew : Aligned new)
    (ne : a ≠ new) (neNext : getNextAddress m a ≠ new)
    : HeaderInserted m (insertPageHead m a new) a new := by
  constructor
  · simp [insertPageHead, alignedA, alignedNew, ne.symm]
  · simp [insertPageHead, alignedA, alignedNew]
  · intro b aligned neA neNew
    simp [insertPageHead, alignedA, alignedNew, aligned, neA, neNew]
  · simp [insertPageHead, alignedA, alignedNew]
  · intro b aligned neNew
    simp [insertPageHead, alignedA, alignedNew, aligned, neNew]
  · simp [insertPageHead, alignedA, alignedNew]
  · intro b aligned neNew
    simp [insertPageHead, alignedA, alignedNew, aligned, neNew]
  · simp [insertPageHead, alignedA, alignedNew, neNext.symm]
  · intro b aligned neNew neB
    simp [insertPageHead, alignedA, alignedNew, aligned, neNew, neB]
  · intro x outsideA outsideNew outsideNext
    simp [insertPageHead, outsideA, outsideNew, outsideNext]

/-- The page head repairs the back link of the area behind. -/
theorem insertPageHead_prev_next (alignedA : Aligned a) (alignedNew : Aligned new)
    : getPrevAddress (insertPageHead m a new) (getNextAddress m a) = new := by
  simp [insertPageHead, alignedA, alignedNew]

section Insert

variable (wf : WellFormed m (before ++ a :: after)) (inserted : HeaderInserted m m' a new)
  (alignedNew : Aligned new) (low : a.toNat + 8 ≤ new.toNat)
  (high : new.toNat + 8 ≤ (getNextAddress m a).toNat)
include wf inserted alignedNew low high

/-- No listed header is where the new one goes, since it lies inside the area at `a`. -/
theorem HeaderInserted.ne_new (member : b ∈ before ++ a :: after) : b ≠ new := by
  rintro rfl
  have ahead := (wf.bounds member).2.1
  rcases wf.apart (show a ∈ before ++ a :: after by simp) member
    (by rintro rfl; omega) with apart | apart <;> omega

/-- An inserted header joins the chain between its neighbours. -/
theorem HeaderInserted.wellFormed : WellFormed m' (before ++ a :: new :: after) := by
  have memberA : a ∈ before ++ a :: after := by simp
  have ne {b} (member : b ∈ before ++ a :: after) : b ≠ new :=
    inserted.ne_new wf alignedNew low high member
  have other {b} (member : b ∈ before ∨ b ∈ after) : b ≠ a :=
    wf.chain.ne_middle (by decide) member
  obtain ⟨left, _, right⟩ := segment_middle.mp wf.chain
  refine ⟨segment_middle.mpr ⟨?_, ?_, ?_⟩, ?_, ?_⟩
  · refine left.congr (fun x member => ?_)
    have listed : x ∈ before ++ a :: after := by simp [member]
    exact inserted.nextOther x (wf.aligned listed) (other (Or.inl member)) (ne listed)
  · rwa [inserted.nextOld]
  · rw [inserted.nextOld]
    refine ⟨rfl, by rwa [inserted.nextNew], ?_⟩
    rw [inserted.nextNew]
    refine right.congr (fun x member => ?_)
    have listed : x ∈ before ++ a :: after := by simp [member]
    exact inserted.nextOther x (wf.aligned listed) (other (Or.inr member)) (ne listed)
  · intro x member
    rcases (by simpa using member : x ∈ before ∨ x = a ∨ x = new ∨ x ∈ after)
      with early | rfl | rfl | late
    · rw [inserted.epsilonOther x (wf.aligned (by simp [early])) (ne (by simp [early]))]
      exact wf.plain x (by simp [early])
    · rw [inserted.epsilonOther x (wf.aligned memberA) (ne memberA)]
      exact wf.plain x memberA
    · exact inserted.epsilonNew
    · rw [inserted.epsilonOther x (wf.aligned (by simp [late])) (ne (by simp [late]))]
      exact wf.plain x (by simp [late])
  · have inside := (wf.bounds memberA).2.2
    have other : heapEnd ≠ new := by
      rintro rfl
      rw [heapEnd_toNat] at high
      omega
    rw [inserted.epsilonOther heapEnd aligned_heapEnd other]
    exact wf.sentinel

end Insert

end SimpleKernel
