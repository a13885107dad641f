import SimpleKernel.Boot.ClearedFrames
import SimpleKernel.Library.Bounds

/-! The pages that sanitizing leaves in an available entry.
An entry is cut off where the first non-available entry starts behind its own start. One that
starts off a page boundary then gives up to a page of its end, which may be less than what
the rounded start adds, or more than the entry has.
-/

namespace SimpleKernel

open ByteMemory

variable {mmap table : List MmapEntry} {e r : MmapEntry} {a x : Nat}

/-- The end of the entry, or the lowest start of a non-available entry behind its own start,
whichever comes first.
-/
def MmapEntry.stop (mmap : List MmapEntry) (e : MmapEntry) : Nat :=
  ((mmap.filter (fun r => r.type ≠ memAvailable ∧ e.addr < r.addr)).map
    (fun r => r.addr.toNat)).foldr min (e.addr.toNat + e.length.toNat)

/-- The same without empty non-available entries. -/
def MmapEntry.solidStop (mmap : List MmapEntry) (e : MmapEntry) : Nat :=
  ((mmap.filter (fun r => r.type ≠ memAvailable ∧ r.length ≠ 0 ∧ e.addr < r.addr)).map
    (fun r => r.addr.toNat)).foldr min (e.addr.toNat + e.length.toNat)

/-- Where an entry stops is a minimum, so the bounds of its terms are its bounds. -/
theorem MmapEntry.le_stop_iff
    : x ≤ e.stop mmap
      ↔ x ≤ e.addr.toNat + e.length.toNat
        ∧ ∀ r ∈ mmap, r.type ≠ memAvailable → e.addr < r.addr → x ≤ r.addr.toNat := by
  rw [MmapEntry.stop, Bounds.le_foldr_min_iff, List.forall_mem_map]
  simp only [List.mem_filter, decide_eq_true_eq, and_imp]

/-- The same without the empty entries. -/
theorem MmapEntry.le_solidStop_iff
    : x ≤ e.solidStop mmap
      ↔ x ≤ e.addr.toNat + e.length.toNat
        ∧ ∀ r ∈ mmap,
            r.type ≠ memAvailable → r.length ≠ 0 → e.addr < r.addr → x ≤ r.addr.toNat := by
  rw [MmapEntry.solidStop, Bounds.le_foldr_min_iff, List.forall_mem_map]
  simp only [List.mem_filter, decide_eq_true_eq, and_imp]

/-- An entry stops no earlier than it starts, since only entries behind its start count. -/
theorem MmapEntry.addr_le_stop (mmap : List MmapEntry) (e : MmapEntry)
    : e.addr.toNat ≤ e.stop mmap :=
  MmapEntry.le_stop_iff.mpr ⟨Nat.le_add_right _ _, fun _ _ _ behind => Nat.le_of_lt behind⟩

/-- Empty entries cut an entry off as well, so without them it may only stop later. -/
theorem MmapEntry.stop_le_solidStop (mmap : List MmapEntry) (e : MmapEntry)
    : e.stop mmap ≤ e.solidStop mmap := by
  obtain ⟨inside, before⟩ := MmapEntry.le_stop_iff.mp (le_refl (e.stop mmap))
  exact MmapEntry.le_solidStop_iff.mpr
    ⟨inside, fun r member reserved _ behind => before r member reserved behind⟩

/-- The search of `sanitize_available` cuts the entry off there. By induction on the table:
the lowest address found so far is always the current end.
-/
theorem trimReserved_end (lowest : Option (BitVec 64))
    (bounded : e.addr.toNat + e.length.toNat < 2 ^ 64)
    (found : ∀ l ∈ lowest, l.toNat = e.addr.toNat + e.length.toNat)
    : e.addr.toNat + (trimReserved table e lowest).length.toNat
      = ((table.filter (fun r => r.type ≠ memAvailable ∧ e.addr < r.addr)).map
          (fun r => r.addr.toNat)).foldr min (e.addr.toNat + e.length.toNat) := by
  induction table generalizing e lowest with
  | nil => rfl
  | cons cur rest ih =>
      have stop : (e.addr + e.length).toNat = e.addr.toNat + e.length.toNat := by
        rw [BitVec.toNat_add]
        omega
      rw [trimReserved, List.filter_cons]
      by_cases behind : cur.type ≠ memAvailable ∧ e.addr < cur.addr
      · rw [if_pos (decide_eq_true behind), List.map_cons, List.foldr_cons]
        by_cases inside : cur.addr.toNat < e.addr.toNat + e.length.toNat
        · have below : e.addr + e.length > cur.addr := by
            rw [gt_iff_lt, BitVec.lt_def, stop]
            exact inside
          have lower : lowest.all (fun lowest => lowest > cur.addr) = true := by
            cases lowest with
            | none => rfl
            | some l =>
                have last := found l rfl
                refine decide_eq_true ?_
                rw [gt_iff_lt, BitVec.lt_def, last]
                exact inside
          rw [if_pos ⟨behind.1, ⟨behind.2, below⟩, lower⟩]
          have cut : e.addr.toNat + (cur.addr - e.addr).toNat = cur.addr.toNat := by bv_omega
          have trimmed := ih (e := { e with length := cur.addr - e.addr }) (some cur.addr)
            (by simp only [cut]; exact cur.addr.isLt)
            (fun l same => by rw [cut, ← Option.mem_some.mp same])
          simp only [cut] at trimmed
          rw [trimmed, ← Bounds.foldr_min_min, Nat.min_eq_left inside.le]
        · rw [if_neg]
          · rw [ih lowest bounded found, ← Bounds.foldr_min_min,
              Nat.min_eq_right (Nat.not_lt.mp inside)]
          · rintro ⟨_, ⟨_, below⟩, _⟩
            rw [gt_iff_lt, BitVec.lt_def, stop] at below
            exact inside below
      · rw [if_neg (mt of_decide_eq_true behind),
          if_neg (fun inside => behind ⟨inside.1, inside.2.1.1⟩)]
        exact ih lowest bounded found

/-- The walk over the map cuts the entry where it stops. -/
theorem trimReserved_stop (mmap : List MmapEntry)
    (bounded : e.addr.toNat + e.length.toNat < 2 ^ 64)
    : e.addr.toNat + (trimReserved mmap e none).length.toNat = e.stop mmap :=
  trimReserved_end none bounded (by simp)

-----------------------------------------------------------------------------------------
-- What sanitizing leaves
-----------------------------------------------------------------------------------------

def pageCeil (x : Nat) : Nat :=
  (x + 4095) / 4096 * 4096

theorem mod_widePageSize {x : BitVec 64} : (x % widePageSize).toNat = x.toNat % 4096 :=
  BitVec.toNat_umod

section Entry

variable (mmap) (available : e.type = memAvailable)
  (bounded : e.addr.toNat + e.length.toNat < 2 ^ 64)
include available bounded

/-- On a page boundary the entry is only cut off. -/
theorem sanitizeAvailable_onPage (aligned : e.addr.toNat % 4096 = 0)
    : (sanitizeAvailable mmap e).addr = e.addr
      ∧ e.addr.toNat + (sanitizeAvailable mmap e).length.toNat = e.stop mmap := by
  have kept := (trimReserved_addr mmap e none).1
  have onPage : (trimReserved mmap e none).addr % widePageSize = 0 := by
    apply BitVec.eq_of_toNat_eq
    rw [kept, mod_widePageSize, aligned]
    rfl
  rw [sanitizeAvailable, if_neg (not_not.mpr available)]
  simp only [onPage, ne_eq, not_true_eq_false, if_false]
  exact ⟨kept, trimReserved_stop mmap bounded⟩

/-- Off a page boundary the start is rounded up, and the length loses what its end lacks to
the next page boundary, wrapping around where it is too short for that.
-/
theorem sanitizeAvailable_offPage (unaligned : e.addr.toNat % 4096 ≠ 0)
    : (sanitizeAvailable mmap e).addr.toNat = pageCeil e.addr.toNat % 2 ^ 64
      ∧ (sanitizeAvailable mmap e).length.toNat
        = (e.stop mmap - e.addr.toNat + (e.stop mmap - e.addr.toNat) % 4096 + 2 ^ 64 - 4096)
          % 2 ^ 64 := by
  have kept := (trimReserved_addr mmap e none).1
  have length := trimReserved_stop mmap bounded
  have offPage : (trimReserved mmap e none).addr % widePageSize ≠ 0 := by
    intro zero
    have same := congrArg BitVec.toNat zero
    rw [kept, mod_widePageSize] at same
    exact unaligned same
  rw [sanitizeAvailable, if_neg (not_not.mpr available)]
  simp only [offPage, ne_eq, not_false_eq_true, if_true]
  generalize trimReserved mmap e none = t at kept length offPage ⊢
  rw [kept] at offPage ⊢
  have rounded
      : (e.addr + (widePageSize - e.addr % widePageSize)).toNat
        = pageCeil e.addr.toNat % 2 ^ 64 := by
    rw [BitVec.toNat_add, BitVec.toNat_sub, mod_widePageSize,
      widePageSize_toNat, pageCeil]
    omega
  refine ⟨rounded, ?_⟩
  rw [BitVec.toNat_sub, BitVec.toNat_sub, mod_widePageSize, BitVec.toNat_add, rounded,
    widePageSize_toNat, pageCeil]
  omega

end Entry

/-- The byte belongs to the entry and to no non-available one. -/
def MmapEntry.SafeByte (mmap : List MmapEntry) (e : MmapEntry) (x : Nat) : Prop :=
  e.Holds x ∧ ∀ r ∈ mmap, r.type ≠ memAvailable → ¬r.Holds x

/-- The whole pages of `s` start on a page boundary and consist of safe bytes of `e`. -/
structure SafePages (mmap : List MmapEntry) (e s : MmapEntry) : Prop where
  aligned : s.addr.toNat % 4096 = 0
  safe
    : ∀ x,
        s.addr.toNat ≤ x
        → x < s.addr.toNat + s.length.toNat / 4096 * 4096
        → e.SafeByte mmap x

/-- Non-available entries that start no later than `e` end by `x`. -/
def MmapEntry.ReservedEndBy (mmap : List MmapEntry) (e : MmapEntry) (x : Nat) : Prop :=
  ∀ r ∈ mmap, r.type ≠ memAvailable → r.addr ≤ e.addr → r.addr.toNat + r.length.toNat ≤ x

instance (mmap : List MmapEntry) (e : MmapEntry) (x : Nat)
    : Decidable (e.ReservedEndBy mmap x) :=
  inferInstanceAs (Decidable (∀ r ∈ mmap, _ → _ → _ ≤ x))

/-- A range from `a` on is safe as far as the entry is solid, unless an entry that starts
earlier reaches into it.
-/
theorem MmapEntry.safe_iff (stop : Nat) (low : e.addr.toNat ≤ a) (before : a ≤ e.solidStop mmap)
    (nonempty : a < stop)
    : (∀ x, a ≤ x → x < stop → e.SafeByte mmap x)
      ↔ e.ReservedEndBy mmap a ∧ stop ≤ e.solidStop mmap := by
  constructor
  · intro safe
    obtain ⟨inside, behind⟩ := MmapEntry.le_solidStop_iff.mp before
    constructor
    · intro r member reserved start
      by_contra reaches
      have early : r.addr.toNat ≤ e.addr.toNat := start
      exact (safe a le_rfl nonempty).2 r member reserved ⟨by omega, by omega⟩
    · refine MmapEntry.le_solidStop_iff.mpr ⟨?_, fun r member reserved solid start => ?_⟩
      · by_contra past
        have last := (safe (e.addr.toNat + e.length.toNat) (by omega) (by omega)).1.2
        omega
      · by_contra past
        have length : r.length.toNat ≠ 0 := fun zero => solid (BitVec.eq_of_toNat_eq zero)
        exact (safe r.addr.toNat (behind r member reserved solid start) (by omega)).2 r member
          reserved ⟨le_rfl, by omega⟩
  · rintro ⟨early, solid⟩ x start inside
    obtain ⟨fits, behind⟩ := MmapEntry.le_solidStop_iff.mp solid
    refine ⟨⟨by omega, by omega⟩, fun r member reserved holds => ?_⟩
    obtain ⟨first, last⟩ := holds
    by_cases order : r.addr ≤ e.addr
    · have ends := early r member reserved order
      omega
    · have length : r.length ≠ 0 := by
        intro zero
        rw [zero] at last
        simp at last
        omega
      have starts := behind r member reserved length (BitVec.not_le.mp order)
      omega

-----------------------------------------------------------------------------------------
-- When sanitizing is safe
-----------------------------------------------------------------------------------------

/-- The condition on the length up to where the entry stops. On a page boundary no earlier
entry may reach in, unless there is no whole page. Off a page boundary the length must be at
least half a page. From one and a half pages on, moreover, no earlier entry may reach past
the rounded start, and the length must either exceed whole pages by less than half a page,
and so lose one, or leave room for all of them behind the rounded start.
-/
def SanitizesSafely (mmap : List MmapEntry) (e : MmapEntry) : Prop :=
  let length := e.stop mmap - e.addr.toNat
  let start := pageCeil e.addr.toNat
  if e.addr.toNat % 4096 = 0 then length < 4096 ∨ e.ReservedEndBy mmap start
  else
    2048 ≤ length
    ∧ (length < 6144
      ∨ e.ReservedEndBy mmap start
        ∧ (length % 4096 < 2048 ∨ start + length / 4096 * 4096 ≤ e.solidStop mmap))

instance (mmap : List MmapEntry) (e : MmapEntry) : Decidable (SanitizesSafely mmap e) := by
  unfold SanitizesSafely
  infer_instance

section Entry

variable (available : e.type = memAvailable)
  (bounded : e.addr.toNat + e.length.toNat < 2 ^ 64)
include available bounded

/-- For an entry that starts on a page: it holds no whole page, or all non-available entries
from before its start end by then. The loop looks at those behind the start only.
-/
theorem safePages_onPage_iff (aligned : e.addr.toNat % 4096 = 0)
    : SafePages mmap e (sanitizeAvailable mmap e)
      ↔ e.stop mmap - e.addr.toNat < 4096 ∨ e.ReservedEndBy mmap e.addr.toNat := by
  obtain ⟨addr, length⟩ := sanitizeAvailable_onPage mmap available bounded aligned
  have solid := MmapEntry.stop_le_solidStop mmap e
  have pages
      : (sanitizeAvailable mmap e).length.toNat = e.stop mmap - e.addr.toNat := by
    omega
  by_cases whole : e.stop mmap - e.addr.toNat < 4096
  · refine ⟨fun _ => Or.inl whole, fun _ => ⟨by rw [addr]; exact aligned, fun x start stop => ?_⟩⟩
    rw [addr] at start stop
    omega
  · have safe := MmapEntry.safe_iff (e := e)
      (e.addr.toNat + (e.stop mmap - e.addr.toNat) / 4096 * 4096) le_rfl
      (show e.addr.toNat ≤ e.solidStop mmap by omega) (by omega)
    constructor
    · intro pagesSafe
      have bytes := pagesSafe.safe
      rw [addr, pages] at bytes
      exact Or.inr (safe.mp bytes).1
    · rintro (none | early)
      · exact absurd none whole
      · refine ⟨by rw [addr]; exact aligned, ?_⟩
        rw [addr, pages]
        exact safe.mpr ⟨early, by omega⟩

/-- For an entry that starts inside a page. Its length is adjusted by its own remainder and not
by that of the start, so its end may gain up to a page; the condition says when it does not, or
when the RAM goes on there.
-/
theorem safePages_offPage_iff (unaligned : e.addr.toNat % 4096 ≠ 0)
    : SafePages mmap e (sanitizeAvailable mmap e)
      ↔ 2048 ≤ e.stop mmap - e.addr.toNat
        ∧ (e.stop mmap - e.addr.toNat < 6144
          ∨ e.ReservedEndBy mmap (pageCeil e.addr.toNat)
            ∧ ((e.stop mmap - e.addr.toNat) % 4096 < 2048
              ∨ pageCeil e.addr.toNat + (e.stop mmap - e.addr.toNat) / 4096 * 4096
                ≤ e.solidStop mmap)) := by
  obtain ⟨addr, length⟩ := sanitizeAvailable_offPage mmap available bounded unaligned
  have start := MmapEntry.addr_le_stop mmap e
  have stop := MmapEntry.stop_le_solidStop mmap e
  have solid := (MmapEntry.le_solidStop_iff.mp (le_refl (e.solidStop mmap))).1
  have rounded : pageCeil e.addr.toNat = (e.addr.toNat + 4095) / 4096 * 4096 := rfl
  have onPage : (sanitizeAvailable mmap e).addr.toNat % 4096 = 0 := by omega
  obtain ⟨l, whole⟩ : ∃ l, e.stop mmap = e.addr.toNat + l := ⟨_, (Nat.add_sub_of_le start).symm⟩
  rw [whole, Nat.add_sub_cancel_left] at length
  rw [whole, Nat.add_sub_cancel_left]
  by_cases short : l < 2048
  · -- the length wraps, and the pages are all but one of the address space
    have pages : (sanitizeAvailable mmap e).length.toNat / 4096 * 4096 = 2 ^ 64 - 4096 := by
      omega
    refine ⟨fun pagesSafe => ?_, fun long => by omega⟩
    have bytes := pagesSafe.safe
    rw [pages] at bytes
    by_cases wrapped : pageCeil e.addr.toNat = 2 ^ 64
    · have first := (bytes 0 (by omega) (by omega)).1.1
      omega
    · have last := (bytes ((sanitizeAvailable mmap e).addr.toNat + (2 ^ 64 - 4097)) (by omega)
        (by omega)).1.2
      omega
  · by_cases none : l < 6144
    · refine ⟨fun _ => ⟨by omega, Or.inl none⟩, fun _ => ⟨onPage, fun x first last => ?_⟩⟩
      omega
    · have inside : (sanitizeAvailable mmap e).addr.toNat = pageCeil e.addr.toNat := by omega
      have safe := MmapEntry.safe_iff (e := e)
        (pageCeil e.addr.toNat + (sanitizeAvailable mmap e).length.toNat / 4096 * 4096)
        (show e.addr.toNat ≤ pageCeil e.addr.toNat by omega)
        (show pageCeil e.addr.toNat ≤ e.solidStop mmap by omega) (by omega)
      constructor
      · intro pagesSafe
        have bytes := pagesSafe.safe
        rw [inside] at bytes
        obtain ⟨early, fits⟩ := safe.mp bytes
        exact ⟨by omega, Or.inr ⟨early, by omega⟩⟩
      · rintro ⟨_, short | ⟨early, fits⟩⟩
        · omega
        · refine ⟨onPage, ?_⟩
          rw [inside]
          exact safe.mpr ⟨early, by omega⟩

/-- The pages left are safe exactly under this condition on the entry and the map, because
start and length are rounded one after the other and the end moves with the start.
-/
theorem sanitizeAvailable_safePages_iff
    : SafePages mmap e (sanitizeAvailable mmap e) ↔ SanitizesSafely mmap e := by
  rw [SanitizesSafely]
  by_cases aligned : e.addr.toNat % 4096 = 0
  · rw [safePages_onPage_iff available bounded aligned, if_pos aligned,
      show pageCeil e.addr.toNat = e.addr.toNat by rw [pageCeil]; omega]
  · rw [safePages_offPage_iff available bounded aligned, if_neg aligned]

end Entry

/-- The condition covers entries off page boundaries. Witness: an entry from 0x1C00 to 0x4800
before a reserved page at 0x4000, which is left with the page at 0x2000.
-/
theorem safePages_cutOff
    : SafePages [⟨0x1C00, 0x2C00, 1⟩, ⟨0x4000, 0x1000, 2⟩] ⟨0x1C00, 0x2C00, 1⟩
        (sanitizeAvailable [⟨0x1C00, 0x2C00, 1⟩, ⟨0x4000, 0x1000, 2⟩] ⟨0x1C00, 0x2C00, 1⟩) :=
  (sanitizeAvailable_safePages_iff rfl (by decide)).mpr (by decide)

/-- Rounding the start up moves the end up as well. Counterexample: an entry from 0x1400 to
0x3C00 is left with the page from 0x3000, whose last kilobyte is not its own.
-/
theorem not_safePages_gained
    : ¬∀ (mmap : List MmapEntry) (e : MmapEntry),
        e ∈ mmap
        → e.type = memAvailable
        → e.addr.toNat + e.length.toNat < 2 ^ 64
        → SafePages mmap e (sanitizeAvailable mmap e) := by
  intro claim
  have pages := claim [⟨0x1400, 0x2800, 1⟩] ⟨0x1400, 0x2800, 1⟩ (by decide) rfl (by decide)
  have last := (pages.safe 0x3C00 (by decide) (by decide)).1.2
  exact absurd last (by decide)

end SimpleKernel
