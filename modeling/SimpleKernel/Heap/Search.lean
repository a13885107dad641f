import SimpleKernel.Heap.Chain
import SimpleKernel.Library.BestFit

/-! The scan loops of `kmalloc` and `kpagealloc` over a well-formed chain.
Both walk the whole chain and keep the first free area of minimal payload among those
large enough; the unsigned differences they compare cannot wrap on a chain.
-/

namespace SimpleKernel

open ByteMemory Segments

variable {m : Memory} {areas : List Addr}

/-- The scan visits the areas of the chain in order and stops at the sentinel, by
induction on the remaining segment.
-/
theorem scanAreas_segment {visit : Addr → Word × Addr → Word × Addr} {a : Addr}
    {l : List Addr} (chain : AreaSegment m a l heapEnd)
    (plain : ∀ x ∈ l, getAreaEpsilon m x = false)
    (sentinel : getAreaEpsilon m heapEnd = true) (best : Word × Addr) (rounds : Nat)
    (enough : l.length < rounds)
    : scanAreas m visit rounds a best = some (l.foldl (fun best x => visit x best) best) := by
  induction l generalizing a best rounds with
  | nil =>
      obtain rfl : a = heapEnd := chain
      obtain ⟨rounds, rfl⟩ := Nat.exists_eq_succ_of_ne_zero (Nat.ne_of_gt enough)
      simp [scanAreas, sentinel]
  | cons x rest ih =>
      obtain ⟨rfl, _, tail⟩ := chain
      obtain ⟨rounds, rfl⟩ := Nat.exists_eq_succ_of_ne_zero
        (Nat.ne_of_gt (Nat.lt_of_le_of_lt (Nat.zero_le _) enough))
      simp only [scanAreas, plain x (by simp), Bool.false_eq_true, if_false]
      rw [ih tail (fun y member => plain y (by simp [member])) (visit x best) rounds
        (by simpa using enough)]
      rfl

/-- The scan visits the areas of the chain in order. -/
theorem WellFormed.scanAreas_eq (wf : WellFormed m areas)
    (visit : Addr → Word × Addr → Word × Addr) (best : Word × Addr)
    : scanAreas m visit areaRounds heapStart best
      = some (areas.foldl (fun best x => visit x best) best) :=
  scanAreas_segment wf.chain wf.plain wf.sentinel best areaRounds wf.length_lt

/-- How the scans represent the area chosen so far: its size and its address, or a size
above every payload.
-/
def encodeBest (m : Memory) : Option Addr → Word × Addr
  | none => (gb, null)
  | some a => (getAreaSize m a, a)

/-- A free area whose payload exceeds the rounded request. -/
def kmallocFits (m : Memory) (size : Nat) (a : Addr) : Bool :=
  !getAreaUsed m a && decide (size < payload m a)

/-- An area fits a request if it is free and larger. -/
theorem kmallocFits_iff {m : Memory} {size : Nat} {a : Addr}
    : kmallocFits m size a = true ↔ getAreaUsed m a = false ∧ size < payload m a := by
  simp [kmallocFits]

/-- The lowest free area of minimal payload among those that fit. -/
def kmallocBest (m : Memory) (areas : List Addr) (size : Nat) : Option Addr :=
  (areas.filter (kmallocFits m size)).argmin (payload m)

/-- One round of the scan keeps the first minimum, in the encoding of the code. A NULL pointer
stands for no choice, as no header lies there.
-/
theorem WellFormed.kmallocVisit_follows (wf : WellFormed m areas) (size : Word)
    {best : Option Addr} {a : Addr} (member : a ∈ areas)
    (chosen : ∀ b ∈ best, b ∈ areas ∧ kmallocFits m size.toNat b = true)
    : kmallocVisit m size a (encodeBest m best)
      = encodeBest m (BestFit.visit (kmallocFits m size.toNat) (payload m) best a) := by
  have areaSize := wf.areaSize member
  have small := wf.payload_lt member
  cases used : getAreaUsed m a with
  | true => cases best <;> simp [kmallocVisit, used, encodeBest, BestFit.visit, kmallocFits]
  | false =>
      cases best with
      | none =>
          by_cases fit : size.toNat < payload m a
          · have taken : getAreaSize m a > size ∧ gb - size > getAreaSize m a - size := by
              constructor <;> bv_omega
            simp [kmallocVisit, used, encodeBest, BestFit.visit, kmallocFits, fit, taken]
          · have left : ¬getAreaSize m a > size := by bv_omega
            simp [kmallocVisit, used, encodeBest, BestFit.visit, kmallocFits, fit, left]
      | some b =>
          obtain ⟨inside, fitB⟩ := chosen b rfl
          have sizeB := wf.areaSize inside
          have roomB := (kmallocFits_iff.mp fitB).2
          by_cases fit : size.toNat < payload m a ∧ payload m a < payload m b
          · have taken : getAreaSize m a > size
                ∧ getAreaSize m b - size > getAreaSize m a - size := by
              constructor <;> bv_omega
            simp [kmallocVisit, used, encodeBest, BestFit.visit, kmallocFits, fit, taken]
          · have left : ¬(getAreaSize m a > size
                ∧ getAreaSize m b - size > getAreaSize m a - size) := by
              rintro ⟨_, _⟩
              bv_omega
            simp [kmallocVisit, used, encodeBest, BestFit.visit, kmallocFits, fit, left]

/-- The scan of `kmalloc` chooses the first area of minimal payload that fits. -/
theorem WellFormed.kmallocScan_eq (wf : WellFormed m areas) (size : Word)
    : kmallocScan m size = some (encodeBest m (kmallocBest m areas size.toNat)) := by
  rw [kmallocScan, wf.scanAreas_eq]
  exact congrArg some (BestFit.foldl_encode (encodeBest m)
    (fun _ _ member chosen => wf.kmallocVisit_follows size member chosen))

-----------------------------------------------------------------------------------------
-- kpagealloc
-----------------------------------------------------------------------------------------

theorem toNat_and_not_FFF (x : Word)
    : (x &&& ~~~0b111111111111#32).toNat = x.toNat / 4096 * 4096 :=
  Masks.toNat_and_high x 12 (by decide)

/-- The page above an address. -/
theorem nextPage_toNat {a : Addr} (low : a.toNat < 0xFFFFF000)
    : (nextPage a).toNat = a.toNat / 4096 * 4096 + 4096 := by
  have page := toNat_and_not_FFF a
  rw [nextPage]
  bv_omega

theorem WellFormed.nextPage_toNat (wf : WellFormed m areas) {a : Addr} (member : a ∈ areas)
    : (nextPage a).toNat = a.toNat / 4096 * 4096 + 4096 := by
  have bounds := wf.bounds member
  exact SimpleKernel.nextPage_toNat (by omega)

/-- Header, alignment gap and pages of a page allocation carved out of the area at `a`. -/
def pageNeed (size : Nat) (a : Addr) : Nat :=
  size + ((nextPage a).toNat - a.toNat) + 8

/-- A free area with room for the pages and for the headers the carving inserts. -/
def kpageallocFits (m : Memory) (size : Nat) (a : Addr) : Bool :=
  !getAreaUsed m a
  && decide (pageNeed size a + (if nextPage a - headerSize = a then 0 else 8) < payload m a)

/-- An area fits whole pages if it is free and larger than what they need there, a second
header included where one is inserted.
-/
theorem kpageallocFits_iff {m : Memory} {size : Nat} {a : Addr}
    : kpageallocFits m size a = true
      ↔ getAreaUsed m a = false
        ∧ pageNeed size a + (if nextPage a - headerSize = a then 0 else 8)
          < payload m a := by
  simp [kpageallocFits]

/-- The lowest free area of minimal payload among those that fit. -/
def kpageallocBest (m : Memory) (areas : List Addr) (size : Nat) : Option Addr :=
  (areas.filter (kpageallocFits m size)).argmin (payload m)

/-- Of the tests for two needs the first compares the areas, once both hold it, and the
second adds that the area is large enough for the other.
-/
theorem nestedTests_iff {area best size full : Word} (small : size.toNat < area.toNat)
    (ahead : size.toNat < best.toNat)
    : (area > size ∧ best - size > area - size) ∧ (area > full ∧ best - full > area - full)
      ↔ full.toNat < area.toNat ∧ area.toNat < best.toNat := by
  have first : best - size > area - size ↔ area.toNat < best.toNat := by bv_omega
  constructor
  · rintro ⟨⟨_, smaller⟩, enough, _⟩
    exact ⟨enough, first.mp smaller⟩
  · rintro ⟨enough, smaller⟩
    exact ⟨⟨small, first.mpr smaller⟩, enough, by bv_omega⟩

/-- The two nested tests of the scan amount to one: the area is large enough for the full
size, and smaller than the best so far.
-/
theorem WellFormed.kpagealloc_taken_iff (wf : WellFormed m areas) {size bestSize : Word}
    {a : Addr} (member : a ∈ areas)
    (ahead : size.toNat < payload m a → size.toNat < bestSize.toNat) {fullSize : Word}
    (full
      : fullSize
        = if nextPage a - headerSize ≠ a
          then size + (nextPage a - a) + headerSize + headerSize
          else size + (nextPage a - a) + headerSize)
    : (getAreaSize m a > size ∧ bestSize - size > getAreaSize m a - size)
        ∧ (getAreaSize m a > fullSize ∧ bestSize - fullSize > getAreaSize m a - fullSize)
      ↔ pageNeed size.toNat a + (if nextPage a - headerSize = a then 0 else 8) < payload m a
        ∧ payload m a < bestSize.toNat := by
  have areaSize := wf.areaSize member
  have small := wf.payload_lt member
  have bounds := wf.bounds member
  have page := wf.nextPage_toNat member
  by_cases fits : size.toNat < payload m a
  · have exact' : fullSize.toNat
        = pageNeed size.toNat a + (if nextPage a - headerSize = a then 0 else 8) := by
      rw [full]
      simp only [pageNeed]
      by_cases start : nextPage a - headerSize = a
      · rw [if_neg (not_not.mpr start), if_pos start]
        bv_omega
      · rw [if_pos start, if_neg start]
        bv_omega
    rw [nestedTests_iff (by omega) (ahead fits), exact', areaSize]
  · simp only [pageNeed]
    constructor
    · rintro ⟨⟨enough, _⟩, _⟩
      bv_omega
    · omega

/-- A visit of a free area, with its nested tests joined. -/
theorem WellFormed.kpageallocVisit_eq (wf : WellFormed m areas) {size bestSize : Word}
    {a bestFit : Addr} (member : a ∈ areas)
    (ahead : size.toNat < payload m a → size.toNat < bestSize.toNat)
    : kpageallocVisit m size a (bestSize, bestFit)
      = if kpageallocFits m size.toNat a && decide (payload m a < bestSize.toNat)
        then (getAreaSize m a, a)
        else (bestSize, bestFit) := by
  have taken := wf.kpagealloc_taken_iff member ahead rfl
  cases used : getAreaUsed m a with
  | true => simp [kpageallocVisit, kpageallocFits, used]
  | false =>
      simp only [kpageallocVisit, kpageallocFits, used, Bool.not_false, Bool.true_and,
        Bool.false_eq_true, if_false, ← ite_and, taken, Bool.and_eq_true, decide_eq_true_eq]

/-- One round of the scan of `kpagealloc`. -/
theorem WellFormed.kpageallocVisit_follows (wf : WellFormed m areas) {size : Word}
    {best : Option Addr} {a : Addr} (member : a ∈ areas)
    (chosen : ∀ b ∈ best, b ∈ areas ∧ kpageallocFits m size.toNat b = true)
    : kpageallocVisit m size a (encodeBest m best)
      = encodeBest m (BestFit.visit (kpageallocFits m size.toNat) (payload m) best a) := by
  have small := wf.payload_lt member
  cases best with
  | none =>
      have room : payload m a < gb.toNat := Nat.lt_trans small (by decide)
      rw [encodeBest, wf.kpageallocVisit_eq member (fun fit => Nat.lt_trans fit room)]
      rw [decide_eq_true room, Bool.and_true]
      cases fit : kpageallocFits m size.toNat a <;> simp [BestFit.visit, fit, encodeBest]
  | some b =>
      obtain ⟨inside, fitB⟩ := chosen b rfl
      have sizeB := wf.areaSize inside
      have ahead : size.toNat < (getAreaSize m b).toNat := by
        have roomB := (kpageallocFits_iff.mp fitB).2
        rw [sizeB]
        simp only [pageNeed] at roomB
        omega
      rw [encodeBest, wf.kpageallocVisit_eq member (fun _ => ahead), sizeB]
      cases fit : kpageallocFits m size.toNat a <;>
        by_cases smaller : payload m a < payload m b <;>
        simp [BestFit.visit, fit, smaller, encodeBest]

/-- It chooses as `kmalloc` does, by its own test. -/
theorem WellFormed.kpageallocScan_eq (wf : WellFormed m areas) (size : Word)
    : kpageallocScan m size = some (encodeBest m (kpageallocBest m areas size.toNat)) := by
  rw [kpageallocScan, wf.scanAreas_eq]
  exact congrArg some (BestFit.foldl_encode (encodeBest m)
    (fun _ _ member chosen => wf.kpageallocVisit_follows member chosen))

end SimpleKernel
