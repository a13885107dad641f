import SimpleKernel.Boot.EarlyPmm
import SimpleKernel.Frames.Ownership

/-! What setup computes from the memory map.
Sanitizing looks only at addresses and types that it never changes, so the first walk
sanitizes each entry as if it were the only one. The second walk clears one bit for each
page of a list, the pages of available entries outside the excluded windows.
-/

namespace SimpleKernel

open ByteMemory

variable {table rest : List MmapEntry} {e : MmapEntry} {combinedEnd page kernelEnd : Addr}
  {k : Nat}

/-- The byte at `x` belongs to the entry. -/
def MmapEntry.Holds (e : MmapEntry) (x : Nat) : Prop :=
  e.addr.toNat ≤ x ∧ x < e.addr.toNat + e.length.toNat

def MmapEntry.IsAvailable (e : MmapEntry) : Bool :=
  e.type = memAvailable

def MmapEntry.IsReserved (e : MmapEntry) : Bool :=
  e.type ≠ memAvailable

theorem MmapEntry.isAvailable_iff : e.IsAvailable = true ↔ e.type = memAvailable :=
  decide_eq_true_iff

theorem MmapEntry.isReserved_iff : e.IsReserved = true ↔ e.type ≠ memAvailable :=
  decide_eq_true_iff

/-- Trimming moves only the end of an entry. -/
theorem trimReserved_addr (table : List MmapEntry) (e : MmapEntry)
    (lowest : Option (BitVec 64))
    : (trimReserved table e lowest).addr = e.addr
      ∧ (trimReserved table e lowest).type = e.type := by
  induction table generalizing e lowest with
  | nil => exact ⟨rfl, rfl⟩
  | cons cur rest ih =>
      rw [trimReserved]
      split
      · exact ih _ _
      · exact ih _ _

/-- An entry that does not wrap only shrinks. -/
theorem trimReserved_length_le (table : List MmapEntry) (e : MmapEntry)
    (lowest : Option (BitVec 64)) (bounded : e.addr.toNat + e.length.toNat ≤ 2 ^ 64)
    : (trimReserved table e lowest).length.toNat ≤ e.length.toNat := by
  induction table generalizing e lowest with
  | nil => exact le_rfl
  | cons cur rest ih =>
      rw [trimReserved]
      split
      · next inside =>
        obtain ⟨_, ⟨low, high⟩, _⟩ := inside
        have cut : (cur.addr - e.addr).toNat + e.addr.toNat = cur.addr.toNat := by bv_omega
        have end_le : (e.addr + e.length).toNat ≤ e.addr.toNat + e.length.toNat := by
          rw [BitVec.toNat_add]
          exact Nat.mod_le _ _
        have shorter := ih { e with length := cur.addr - e.addr } (some cur.addr)
          (show e.addr.toNat + (cur.addr - e.addr).toNat ≤ 2 ^ 64 by omega)
        have below : cur.addr.toNat < (e.addr + e.length).toNat := high
        exact shorter.trans (show (cur.addr - e.addr).toNat ≤ e.length.toNat by omega)
      · exact ih e lowest bounded

/-- Only non-available entries matter. -/
theorem trimReserved_filter (table : List MmapEntry) (e : MmapEntry)
    (lowest : Option (BitVec 64))
    : trimReserved (table.filter MmapEntry.IsReserved) e lowest
      = trimReserved table e lowest := by
  induction table generalizing e lowest with
  | nil => rfl
  | cons cur rest ih =>
      by_cases reserved : cur.type = memAvailable
      · have dropped : ¬cur.IsReserved = true :=
          fun kept => MmapEntry.isReserved_iff.mp kept reserved
        rw [List.filter_cons_of_neg dropped, ih, trimReserved, if_neg]
        exact fun inside => inside.1 reserved
      · have kept : cur.IsReserved = true := MmapEntry.isReserved_iff.mpr reserved
        rw [List.filter_cons_of_pos kept, trimReserved, trimReserved, ih, ih]

/-- Sanitizing an entry depends on the non-available entries only, since it compares with no
others.
-/
theorem sanitizeAvailable_congr {table' : List MmapEntry}
    (same : table'.filter MmapEntry.IsReserved = table.filter MmapEntry.IsReserved)
    (e : MmapEntry)
    : sanitizeAvailable table' e = sanitizeAvailable table e := by
  rw [sanitizeAvailable, ← trimReserved_filter table', same, trimReserved_filter,
    sanitizeAvailable]

/-- Non-available entries are passed over. -/
theorem sanitizeAvailable_reserved (reserved : e.type ≠ memAvailable)
    : sanitizeAvailable table e = e :=
  if_pos reserved

/-- Sanitizing changes no type. -/
theorem sanitizeAvailable_type (table : List MmapEntry) (e : MmapEntry)
    : (sanitizeAvailable table e).type = e.type := by
  have kept := (trimReserved_addr table e none).2
  rw [sanitizeAvailable]
  split
  · rfl
  · dsimp only
    split
    · exact kept
    · exact kept

/-- Sanitizing an entry on a page boundary only shortens it. -/
theorem sanitizeAvailable_aligned (table : List MmapEntry)
    (aligned : e.addr.toNat % 4096 = 0) (bounded : e.addr.toNat + e.length.toNat ≤ 2 ^ 64)
    : (sanitizeAvailable table e).addr = e.addr
      ∧ (sanitizeAvailable table e).length.toNat ≤ e.length.toNat := by
  have kept := (trimReserved_addr table e none).1
  have onPage : (trimReserved table e none).addr % widePageSize = 0 := by
    apply BitVec.eq_of_toNat_eq
    rw [kept, BitVec.toNat_umod, widePageSize_toNat, aligned]
    rfl
  rw [sanitizeAvailable]
  split
  · exact ⟨rfl, le_rfl⟩
  · simp only [onPage, ne_eq, not_true_eq_false, if_false]
    exact ⟨kept, trimReserved_length_le table e none bounded⟩

/-- The walk over the map may sanitize entries in place: those that later ones are compared
with stay as they were.
-/
theorem filter_sanitized (before rest : List MmapEntry) (e : MmapEntry)
    : (before ++ [sanitizeAvailable table e] ++ rest).filter MmapEntry.IsReserved
      = (before ++ e :: rest).filter MmapEntry.IsReserved := by
  by_cases reserved : e.type = memAvailable
  · have dropped : ¬e.IsReserved = true :=
      fun kept => MmapEntry.isReserved_iff.mp kept reserved
    have droppedToo : ¬(sanitizeAvailable table e).IsReserved = true :=
      fun kept => MmapEntry.isReserved_iff.mp kept
        ((sanitizeAvailable_type table e).trans reserved)
    simp [List.filter_append, List.filter_cons_of_neg dropped,
      List.filter_cons_of_neg droppedToo]
  · simp [sanitizeAvailable_reserved reserved]

-----------------------------------------------------------------------------------------
-- The first walk
-----------------------------------------------------------------------------------------

def sanitizedTable (mmap : List MmapEntry) : List MmapEntry :=
  mmap.map (sanitizeAvailable mmap)

/-- The test for `kernel_entry`: the start and the length are compared, not the type. -/
def MmapEntry.MatchesKernel (kernelSize : Word) (e : MmapEntry) : Bool :=
  kernelStart.setWidth 64 ≥ e.addr ∧ e.length ≥ kernelSize.setWidth 64

theorem MmapEntry.matchesKernel_iff {kernelSize : Word}
    : e.MatchesKernel kernelSize = true
      ↔ kernelStart.setWidth 64 ≥ e.addr ∧ e.length ≥ kernelSize.setWidth 64 :=
  decide_eq_true_iff

/-- The last available entry of the map, sanitized. -/
def lastAvailable (mmap : List MmapEntry) : Option MmapEntry :=
  ((sanitizedTable mmap).filter MmapEntry.IsAvailable).getLast?

/-- The walk sanitizes every entry against the map it started with. -/
theorem scanTable_passed (kernelSize : Word) (table rest : List MmapEntry) (scan : TableScan)
    (same
      : (scan.passed ++ rest).filter MmapEntry.IsReserved
        = table.filter MmapEntry.IsReserved)
    : (scanTable kernelSize rest scan).passed
      = scan.passed ++ rest.map (sanitizeAvailable table) := by
  induction rest generalizing scan with
  | nil => simp [scanTable]
  | cons e rest ih =>
      have sanitized := sanitizeAvailable_congr same e
      rw [scanTable, ih]
      · simp [sanitized]
      · exact (filter_sanitized scan.passed rest e).trans same

/-- The last available entry is the one remembered. -/
theorem scanTable_last (kernelSize : Word) (table rest : List MmapEntry) (scan : TableScan)
    (same
      : (scan.passed ++ rest).filter MmapEntry.IsReserved
        = table.filter MmapEntry.IsReserved)
    : let last := ((rest.map (sanitizeAvailable table)).filter MmapEntry.IsAvailable).getLast?
      ((scanTable kernelSize rest scan).lastAddr, (scanTable kernelSize rest scan).lastSize)
        = last.elim (scan.lastAddr, scan.lastSize) (fun e => (e.addr, e.length)) := by
  induction rest generalizing scan with
  | nil => rfl
  | cons e rest ih =>
      have sanitized := sanitizeAvailable_congr same e
      rw [scanTable, ih]
      · simp only [sanitized, List.map_cons]
        by_cases available : (sanitizeAvailable table e).type = memAvailable
        · rw [List.filter_cons_of_pos (MmapEntry.isAvailable_iff.mpr available), List.getLast?_cons]
          simp only [available, if_true]
          cases ((rest.map (sanitizeAvailable table)).filter MmapEntry.IsAvailable).getLast? with
          | none => rfl
          | some last => rfl
        · rw [List.filter_cons_of_neg (mt MmapEntry.isAvailable_iff.mp available)]
          simp only [available, if_false]
      · exact (filter_sanitized scan.passed rest e).trans same

/-- The last matching entry becomes `kernel_entry`, read after it was sanitized. -/
theorem scanTable_kernelEntry (kernelSize : Word) (table rest : List MmapEntry)
    (scan : TableScan)
    (same
      : (scan.passed ++ rest).filter MmapEntry.IsReserved
        = table.filter MmapEntry.IsReserved)
    : (scanTable kernelSize rest scan).kernelEntry
      = (rest.filter (MmapEntry.MatchesKernel kernelSize)).getLast?.elim scan.kernelEntry
        (fun e => some (sanitizeAvailable table e)) := by
  induction rest generalizing scan with
  | nil => rfl
  | cons e rest ih =>
      have sanitized := sanitizeAvailable_congr same e
      rw [scanTable, ih]
      · simp only [sanitized]
        by_cases fits : kernelStart.setWidth 64 ≥ e.addr ∧ e.length ≥ kernelSize.setWidth 64
        · rw [List.filter_cons_of_pos (MmapEntry.matchesKernel_iff.mpr fits),
            List.getLast?_cons, if_pos fits]
          cases (rest.filter (MmapEntry.MatchesKernel kernelSize)).getLast? with
          | none => rfl
          | some last => rfl
        · rw [List.filter_cons_of_neg (mt MmapEntry.matchesKernel_iff.mp fits), if_neg fits]
      · exact (filter_sanitized scan.passed rest e).trans same

-----------------------------------------------------------------------------------------
-- The second walk
-----------------------------------------------------------------------------------------

def MmapEntry.pages (e : MmapEntry) : List Addr :=
  (List.range e.npages.toNat).map (fun i => e.pageAddr (BitVec.ofNat 32 i))

/-- Pages outside the two windows that the second walk skips. -/
def IsCleared (combinedEnd page : Addr) : Bool :=
  mb ≤ page ∧ combinedEnd ≤ page

/-- The pages whose bits the second walk clears, in order. -/
def clearedPages (combinedEnd : Addr) (table : List MmapEntry) : List Addr :=
  ((table.filter MmapEntry.IsAvailable).flatMap MmapEntry.pages).filter
    (IsCleared combinedEnd)

/-- What `clearPage` does to a page outside the windows. -/
def clearFrame : Pmm × Bool → Addr → Pmm × Bool
  | (pmm, pmmNextSet), pageAddr =>
      let cleared := freePage pmm pageAddr
      (
        {
          pmm with
          bytes := cleared.bytes
          freePages := pmm.freePages + 1
          nextIndex := if pmmNextSet then pmm.nextIndex else cleared.nextIndex
          nextOffset := if pmmNextSet then pmm.nextOffset else cleared.nextOffset
        },
        true)

theorem isCleared_iff : IsCleared combinedEnd page = true ↔ mb ≤ page ∧ combinedEnd ≤ page :=
  decide_eq_true_iff

/-- One round of the second walk skips the pages below 1 MiB and those of the kernel and the
bitmap, and clears the bit of any other.
-/
theorem clearPage_eq (combinedEnd page : Addr) (state : Pmm × Bool)
    : clearPage combinedEnd page state
      = if IsCleared combinedEnd page then clearFrame state page else state := by
  obtain ⟨pmm, pmmNextSet⟩ := state
  have start : kernelStart = mb := rfl
  rw [clearPage, start]
  by_cases cleared : IsCleared combinedEnd page = true
  · obtain ⟨low, high⟩ := isCleared_iff.mp cleared
    have outside : ¬(mb ≤ page ∧ page < combinedEnd) :=
      fun window => BitVec.not_lt.mpr high window.2
    rw [if_neg outside, if_neg (BitVec.not_lt.mpr low), if_pos cleared]
    cases pmmNextSet with
    | false => rfl
    | true => rfl
  · rw [if_neg cleared]
    split
    · rfl
    · next outside =>
      have low : page < mb := by
        by_contra high
        have above := BitVec.not_lt.mp high
        exact cleared (isCleared_iff.mpr
          ⟨above, BitVec.not_lt.mp (fun below => outside ⟨above, below⟩)⟩)
      rw [if_pos low]

/-- The walk over one entry clears the bits of its pages in order, by induction on the rounds.
-/
theorem clearPages_eq (combinedEnd : Addr) (e : MmapEntry) (rounds i : Nat)
    (state : Pmm × Bool)
    : clearPages combinedEnd e rounds (BitVec.ofNat 32 i) state
      = (((List.range' i rounds).map (fun i => e.pageAddr (BitVec.ofNat 32 i))).filter
          (IsCleared combinedEnd)).foldl clearFrame state := by
  induction rounds generalizing i state with
  | zero => rfl
  | succ rounds ih =>
      have next : BitVec.ofNat 32 i + 1 = BitVec.ofNat 32 (i + 1) := by
        rw [BitVec.ofNat_add]
        rfl
      rw [clearPages, next, ih, clearPage_eq, List.range'_succ, List.map_cons]
      by_cases cleared : IsCleared combinedEnd (e.pageAddr (BitVec.ofNat 32 i)) = true
      · rw [if_pos cleared, List.filter_cons_of_pos cleared, List.foldl_cons]
      · rw [if_neg cleared, List.filter_cons_of_neg cleared]

/-- The second walk clears the bits of a list of pages, one after the other. -/
theorem clearTable_eq (combinedEnd : Addr) (table : List MmapEntry) (state : Pmm × Bool)
    : clearTable combinedEnd table state
      = (clearedPages combinedEnd table).foldl clearFrame state := by
  induction table generalizing state with
  | nil => rfl
  | cons e rest ih =>
      rw [clearTable, ih, clearedPages, clearedPages]
      by_cases available : e.type = memAvailable
      · rw [if_pos available, List.filter_cons_of_pos (MmapEntry.isAvailable_iff.mpr available),
          List.flatMap_cons, List.filter_append, List.foldl_append, MmapEntry.pages,
          List.range_eq_range']
        rw [← clearPages_eq]
        rfl
      · rw [if_neg available,
          List.filter_cons_of_neg (mt MmapEntry.isAvailable_iff.mp available)]

end SimpleKernel
