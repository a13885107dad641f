import SimpleKernel.Library.StackMachine

/-! The descriptors of an i386 as the processor reads them from its tables in memory.
Trap gates, task gates and local descriptor tables are left out.
-/

namespace Descriptors

open ByteMemory StackMachine

/-- The base and limit that a table register holds. -/
structure Table where
  base : Addr
  limit : BitVec 16

/-- Entries are eight bytes long. -/
def entryAddr (table : Addr) (index : Nat) : Addr :=
  table + BitVec.ofNat 32 (8 * index)

/-- The address of an entry that lies inside the limit. -/
def Table.entry (t : Table) (index : Nat) : Option Addr :=
  if 8 * index + 7 ≤ t.limit.toNat then some (entryAddr t.base index) else none

-----------------------------------------------------------------------------------------
-- Gates
-----------------------------------------------------------------------------------------

structure Gate where
  offset : Addr
  selector : BitVec 16
  attributes : Byte
  deriving DecidableEq

def gateAt (m : Memory) (a : Addr) : Gate where
  offset := m.load16 (a + 6) ++ m.load16 a
  selector := m.load16 (a + 2)
  attributes := m (a + 5)

/-- The type field is that of a 32-bit interrupt gate. -/
def Gate.IsInterruptGate (gate : Gate) : Prop :=
  gate.attributes &&& 0x1F = 0x0E

instance (gate : Gate) : Decidable gate.IsInterruptGate :=
  inferInstanceAs (Decidable (_ = _))

def Gate.target (gate : Gate) : Target where
  offset := gate.offset
  selector := gate.selector

def generalProtection : Byte :=
  13

def notPresent : Byte :=
  11

/-- The gate as the processor accepts it, or the vector of the fault it raises. -/
def Gate.check (gate : Gate) : Except Byte Gate :=
  if ¬gate.IsInterruptGate then .error generalProtection
  else if ¬gate.attributes.getLsbD 7 then .error notPresent
  else .ok gate

/-- The gate of a vector. -/
def Table.gate (t : Table) (m : Memory) (vector : Byte) : Except Byte Gate :=
  match t.entry vector.toNat with
  | none => .error generalProtection
  | some a => (gateAt m a).check

/-- What the processor interrupts for: an exception, with the error code that it reports for
some of them, or a device.
-/
inductive Event
  | exception (vector : Byte) (code : Word)
  | external (vector : Byte)

def Event.vector : Event → Byte
  | .exception vector _ => vector
  | .external vector => vector

/-- The exceptions with an error code. -/
def reportsError (vector : Byte) : Bool :=
  vector ∈ [8, 10, 11, 12, 13, 14, 17, 21]

def Event.error : Event → Option Word
  | .exception vector code => if reportsError vector then some code else none
  | .external _ => none

/-- Devices keep off the vectors of exceptions with an error code. -/
def Event.Genuine : Event → Prop
  | .exception _ _ => True
  | .external vector => reportsError vector = false

/-- A genuine event comes with an error code exactly if its vector reports one. -/
theorem Event.Genuine.isSome_error {event : Event} (genuine : event.Genuine)
    : event.error.isSome = reportsError event.vector := by
  cases event with
  | exception vector code =>
      simp only [Event.error, Event.vector]
      cases reportsError vector <;> rfl
  | external vector => exact Eq.symm genuine

/-- The error code for a gate that could not be used; bit 0 says that a device asked. -/
def Event.gateError (event : Event) : Word :=
  let external :=
    match event with
    | .exception _ _ => 0
    | .external _ => 1
  event.vector.setWidth 32 <<< 3 ||| 2 ||| external

/-- The gate entered for an event and the error code pushed. A fault that has no gate either
is left out.
-/
def Table.enter (t : Table) (m : Memory) (event : Event) : Option (Gate × Option Word) :=
  match t.gate m event.vector with
  | .ok gate => some (gate, event.error)
  | .error fault =>
      match t.gate m fault with
      | .ok gate => some (gate, some event.gateError)
      | .error _ => none

-----------------------------------------------------------------------------------------
-- Segments
-----------------------------------------------------------------------------------------

/-- A segment, its limit counted in bytes. -/
structure Segment where
  base : Addr
  limit : Word
  access : Byte
  flags : Byte
  deriving DecidableEq

/-- A limit in pages covers the last page whole. -/
def byteLimit (granular : Bool) (limit : BitVec 20) : Word :=
  if granular then limit ++ 0xFFF#12 else limit.setWidth 32

def segmentAt (m : Memory) (a : Addr) : Segment where
  base := m (a + 7) ++ m (a + 4) ++ m.load16 (a + 2)
  limit :=
    byteLimit ((m (a + 6)).getLsbD 7) ((m (a + 6)).setWidth 4 ++ m.load16 a)
  access := m (a + 5)
  flags := m (a + 6) &&& 0xF0

/-- The segment of a selector of the global table. -/
def Table.segment (t : Table) (m : Memory) (selector : BitVec 16) : Option Segment :=
  if selector.getLsbD 2 then none else (t.entry (selector.toNat / 8)).map (segmentAt m)

def Segment.IsPresent (segment : Segment) : Prop :=
  segment.access.getLsbD 7

/-- Code, as opposed to data or a system segment. -/
def Segment.IsCode (segment : Segment) : Prop :=
  segment.access.getLsbD 4 ∧ segment.access.getLsbD 3

def Segment.privilege (segment : Segment) : BitVec 2 :=
  segment.access.extractLsb' 5 2

/-- The linear address of an offset within the limit. -/
def Segment.linear (segment : Segment) (offset : Addr) : Option Addr :=
  if offset ≤ segment.limit then some (segment.base + offset) else none

instance (segment : Segment) : Decidable segment.IsPresent :=
  inferInstanceAs (Decidable (_ = true))

instance (segment : Segment) : Decidable segment.IsCode :=
  inferInstanceAs (Decidable (_ ∧ _))

/-- A segment from address 0 to the last one moves no address. -/
theorem Segment.linear_flat {segment : Segment} (base : segment.base = 0)
    (limit : segment.limit = BitVec.allOnes 32) (offset : Addr)
    : segment.linear offset = some offset := by
  have same : (0 : Addr) + offset = offset := BitVec.zero_add offset
  have inside : offset ≤ BitVec.allOnes 32 := by
    have bounded := offset.isLt
    rw [BitVec.le_def, BitVec.toNat_allOnes]
    omega
  rw [linear, base, limit, same, if_pos inside]

-----------------------------------------------------------------------------------------
-- Descriptors and their bytes
-----------------------------------------------------------------------------------------

section Bytes

variable {m m' : Memory} {a : Addr}

/-- A gate is determined by its eight bytes. -/
theorem gateAt_congr (same : ∀ x : Addr, (x - a).toNat < 8 → m' x = m x)
    : gateAt m' a = gateAt m a := by
  have byte (k : Addr) (small : k.toNat < 8) : m' (a + k) = m (a + k) :=
    same (a + k) (by simpa using small)
  have low : m'.load16 a = m.load16 a :=
    Memory.load16_congr (same a (by simp)) (byte 1 (by decide))
  have half (k : Addr) (small : k.toNat < 7) : m'.load16 (a + k) = m.load16 (a + k) := by
    refine Memory.load16_congr (byte k (by omega)) ?_
    rw [BitVec.add_assoc]
    exact byte (k + 1) (by bv_omega)
  simp only [gateAt, low, half 6 (by decide), half 2 (by decide), byte 5 (by decide)]

/-- A gate is read from inside its table. -/
theorem Table.gate_congr {t : Table} (vector : Byte)
    (same : ∀ x : Addr, (x - t.base).toNat ≤ t.limit.toNat → m' x = m x)
    : t.gate m' vector = t.gate m vector := by
  rw [gate, gate, entry]
  split
  · rfl
  · next a entry =>
    split at entry
    · next inside =>
      obtain rfl := Option.some.inj entry
      rw [gateAt_congr fun x near => same x ?_]
      have small : (BitVec.ofNat 32 (8 * vector.toNat)).toNat = 8 * vector.toNat :=
        Nat.mod_eq_of_lt (by omega)
      rw [entryAddr] at near
      have bound := t.limit.isLt
      generalize BitVec.ofNat 32 (8 * vector.toNat) = offset at small near
      bv_omega
    · cases entry

/-- A segment is determined by its eight bytes. -/
theorem segmentAt_congr (same : ∀ x : Addr, (x - a).toNat < 8 → m' x = m x)
    : segmentAt m' a = segmentAt m a := by
  have byte (k : Addr) (small : k.toNat < 8) : m' (a + k) = m (a + k) :=
    same (a + k) (by simpa using small)
  have limit : m'.load16 a = m.load16 a :=
    Memory.load16_congr (same a (by simp)) (byte 1 (by decide))
  have base : m'.load16 (a + 2) = m.load16 (a + 2) := by
    refine Memory.load16_congr (byte 2 (by decide)) ?_
    rw [BitVec.add_assoc]
    exact byte (2 + 1) (by decide)
  simp only [segmentAt, limit, base, byte 4 (by decide), byte 5 (by decide), byte 6 (by decide),
    byte 7 (by decide)]

end Bytes

-----------------------------------------------------------------------------------------
-- Tables written entry by entry
-----------------------------------------------------------------------------------------

/-- How entries are written and read back. -/
structure Format (α β : Type*) where
  write : Memory → Addr → α → Memory
  read : Memory → Addr → β
  value : α → β
  read_write : ∀ m a x, read (write m a x) a = value x
  read_write_of_apart
    : ∀ m a b x,
        8 ≤ (b - a).toNat
        → 8 ≤ (a - b).toNat
        → read (write m a x) b = read m b

/-- Two entries of a table do not overlap, as there are fewer of them than fill the address
space.
-/
theorem entryAddr_apart (table : Addr) {i j : Nat} (first : i < 8192) (second : j < 8192)
    (ne : i ≠ j)
    : 8 ≤ (entryAddr table j - entryAddr table i).toNat := by
  have small {k : Nat} (below : k < 8192) : (BitVec.ofNat 32 (8 * k)).toNat = 8 * k :=
    Nat.mod_eq_of_lt (by omega)
  have first := small first
  have second := small second
  simp only [entryAddr]
  generalize BitVec.ofNat 32 (8 * i) = a at first ⊢
  generalize BitVec.ofNat 32 (8 * j) = b at second ⊢
  bv_omega

/-- Of the entries written, the last one for an index is read back; by induction on them. -/
theorem Format.read_entries {α β : Type*} (format : Format α β) (table : Addr) (m : Memory)
    (entries : List (Nat × α)) {i : Nat} (below : i < 8192)
    (bounded : ∀ entry ∈ entries, entry.1 < 8192)
    : format.read
          (entries.foldl (fun m entry => format.write m (entryAddr table entry.1) entry.2) m)
          (entryAddr table i)
      = ((entries.findRev? fun entry => entry.1 = i).map fun entry => format.value entry.2).getD
          (format.read m (entryAddr table i)) := by
  induction entries generalizing m with
  | nil => rfl
  | cons entry rest ih =>
      rw [List.foldl_cons, ih _ fun later mem => bounded later (List.mem_cons_of_mem _ mem)]
      rw [List.findRev?]
      cases List.findRev? (fun entry => decide (entry.1 = i)) rest with
      | some later => rfl
      | none =>
          by_cases own : entry.1 = i
          · simp only [own, decide_true, if_true, Option.map_some, Option.map_none,
              Option.getD_none, Option.getD_some, format.read_write]
          · have other := bounded entry List.mem_cons_self
            simp only [own, decide_false, Option.map_none, Option.getD_none]
            exact format.read_write_of_apart _ _ _ _ (entryAddr_apart table other below own)
              (entryAddr_apart table below other (Ne.symm own))

end Descriptors
