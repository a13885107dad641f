import SimpleKernel.Library.Descriptors
import SimpleKernel.Limits

/-! The global descriptor table that `load_initial_gdt` writes.
Its four segments are flat: addresses are not moved and nothing is out of reach.
-/

namespace SimpleKernel

open ByteMemory Descriptors

def gdtAccessPrBit (x : Byte) : Byte :=
  x <<< 7

def gdtAccessPrivlBits (x : Byte) : Byte :=
  (x &&& 3) <<< 5

def gdtAccessSBit (x : Byte) : Byte :=
  x <<< 4

def gdtAccessExBit (x : Byte) : Byte :=
  x <<< 3

def gdtAccessRwBit (x : Byte) : Byte :=
  x <<< 1

def gdtFlagsGr (x : Byte) : Byte :=
  x <<< 7

def gdtFlagsSz (x : Byte) : Byte :=
  x <<< 6

/-- The fields of `struct gdt_entry` at their offsets, in the order of the assignments. -/
def configGdtEntry (m : Memory) (entry : Addr) (base limit : Word) (access flags : Byte)
    : Memory :=
  let m := m.store16 (entry + 2) (base.setWidth 16)
  let m := m.store8 (entry + 4) ((base >>> 16).setWidth 8)
  let m := m.store8 (entry + 7) ((base >>> 24).setWidth 8)
  let m := m.store16 entry (limit.setWidth 16)
  let m := m.store8 (entry + 6) (flags &&& 0b11110000)
  let m := m.store8 (entry + 6) (m (entry + 6) ||| ((limit >>> 16) &&& 0b00001111).setWidth 8)
  m.store8 (entry + 5) access

/-- The arguments for an entry. -/
structure GdtConfig where
  base : Word
  limit : Word
  access : Byte
  flags : Byte

def initialGdtEntries : List (Nat × GdtConfig) :=
  let access := gdtAccessPrBit 1 ||| gdtAccessSBit 1 ||| gdtAccessRwBit 1
  let flags := gdtFlagsGr 1 ||| gdtFlagsSz 1
  [
    (0, ⟨0, 0, 0, 0⟩),
    (1, ⟨0, ~~~0, access ||| gdtAccessExBit 1, flags⟩),
    (2, ⟨0, ~~~0, access, flags⟩),
    (3, ⟨0, ~~~0, access ||| gdtAccessPrivlBits 3 ||| gdtAccessExBit 1, flags⟩),
    (4, ⟨0, ~~~0, access ||| gdtAccessPrivlBits 3, flags⟩)
  ]

/-- What `load_initial_gdt` writes to `initial_gdt`. -/
def loadInitialGdt (gdt : Addr) (m : Memory) : Memory :=
  initialGdtEntries.foldl
    (fun m entry =>
      let config := entry.2
      configGdtEntry m (entryAddr gdt entry.1) config.base config.limit config.access
        config.flags)
    m

/-- `initial_gdtr`, which `lgdt` loads. -/
def initialGdtr (gdt : Addr) : Table where
  base := gdt
  limit := 8 * 5 - 1

/-- The selector that the data segment registers are loaded with, and that of the far jump.
-/
def kernelData : BitVec 16 :=
  0x10

def kernelCode : BitVec 16 :=
  0x08

section Entries

variable {m : Memory} {entry : Addr} {base limit : Word} {access flags : Byte}

/-- An entry is written to its eight bytes only. -/
theorem configGdtEntry_outside {x : Addr} (outside : 8 ≤ (x - entry).toNat)
    : configGdtEntry m entry base limit access flags x = m x := by
  simp only [configGdtEntry]
  rw [Memory.store8_of_ne _ _ (by bv_omega), Memory.store8_of_ne _ _ (by bv_omega),
    Memory.store8_of_ne _ _ (by bv_omega), Memory.store16_of_outside (by omega),
    Memory.store8_of_ne _ _ (by bv_omega), Memory.store8_of_ne _ _ (by bv_omega),
    Memory.store16_of_outside (by bv_omega)]

/-- The three parts of the base make up the word they were taken from. -/
theorem append_base (x : Word)
    : (x >>> 24).setWidth 8 ++ (x >>> 16).setWidth 8 ++ x.setWidth 16 = x := by
  ext i inside
  simp only [BitVec.getElem_append, BitVec.getElem_setWidth, BitVec.getLsbD_ushiftRight]
  grind

/-- So do the two parts of the limit, whose upper twelve bits are dropped. -/
theorem append_limit (x : Word) : (x >>> 16).setWidth 4 ++ x.setWidth 16 = x.setWidth 20 := by
  ext i inside
  simp only [BitVec.getElem_append, BitVec.getElem_setWidth, BitVec.getLsbD_ushiftRight]
  grind

/-- The byte shared by the flags and the top of the limit. -/
def flagsByte (flags : Byte) (limit : Word) : Byte :=
  flags &&& 0b11110000#8 ||| (limit >>> 16 &&& 0b00001111#32).setWidth 8

/-- The flags share a byte with the upper four bits of the limit. Both read back, because the
first mask clears what the second sets.
-/
theorem flagsByte_fields (flags : Byte) (limit : Word)
    : (flagsByte flags limit).getLsbD 7 = flags.getLsbD 7
      ∧ (flagsByte flags limit).setWidth 4 = (limit >>> 16).setWidth 4
      ∧ flagsByte flags limit &&& 0xF0 = flags &&& 0xF0 := by
  refine ⟨by simp [flagsByte], ?_, ?_⟩
  · ext i inside
    interval_cases i <;> simp [flagsByte]
  · ext i inside
    interval_cases i <;> simp [flagsByte]

/-- An entry that is configured reads back as the segment asked for, with the low 20 bits of
the limit and the high four of the flags.
-/
theorem segmentAt_configGdtEntry
    : segmentAt (configGdtEntry m entry base limit access flags) entry
      = {
        base := base
        limit := byteLimit (flags.getLsbD 7) (limit.setWidth 20)
        access := access
        flags := flags &&& 0xF0
      } := by
  have low : (configGdtEntry m entry base limit access flags).load16 entry = limit.setWidth 16 := by
    simp only [configGdtEntry]
    rw [Memory.load16_store8_of_ne (by bv_omega) (by bv_omega),
      Memory.load16_store8_of_ne (by bv_omega) (by bv_omega),
      Memory.load16_store8_of_ne (by bv_omega) (by bv_omega), Memory.load16_store16_same]
  have middle
      : (configGdtEntry m entry base limit access flags).load16 (entry + 2)
        = base.setWidth 16 := by
    simp only [configGdtEntry]
    rw [Memory.load16_store8_of_ne (by bv_omega) (by bv_omega),
      Memory.load16_store8_of_ne (by bv_omega) (by bv_omega),
      Memory.load16_store8_of_ne (by bv_omega) (by bv_omega),
      Memory.load16_store16_of_apart (by bv_omega) (by bv_omega),
      Memory.load16_store8_of_ne (by bv_omega) (by bv_omega),
      Memory.load16_store8_of_ne (by bv_omega) (by bv_omega), Memory.load16_store16_same]
  have byte4
      : configGdtEntry m entry base limit access flags (entry + 4) = (base >>> 16).setWidth 8 := by
    simp only [configGdtEntry]
    rw [Memory.store8_of_ne _ _ (by bv_omega), Memory.store8_of_ne _ _ (by bv_omega),
      Memory.store8_of_ne _ _ (by bv_omega), Memory.store16_of_outside (by bv_omega),
      Memory.store8_of_ne _ _ (by bv_omega), Memory.store8_same]
  have byte5 : configGdtEntry m entry base limit access flags (entry + 5) = access :=
    Memory.store8_same ..
  have byte6
      : configGdtEntry m entry base limit access flags (entry + 6) = flagsByte flags limit := by
    simp only [configGdtEntry]
    rw [Memory.store8_of_ne _ _ (by bv_omega), Memory.store8_same, Memory.store8_same]
    rfl
  have byte7
      : configGdtEntry m entry base limit access flags (entry + 7) = (base >>> 24).setWidth 8 := by
    simp only [configGdtEntry]
    rw [Memory.store8_of_ne _ _ (by bv_omega), Memory.store8_of_ne _ _ (by bv_omega),
      Memory.store8_of_ne _ _ (by bv_omega), Memory.store16_of_outside (by bv_omega),
      Memory.store8_same]
  obtain ⟨granular, nibble, kept⟩ := flagsByte_fields flags limit
  rw [segmentAt, low, middle, byte4, byte5, byte6, byte7, append_base, granular, nibble, kept,
    append_limit]

end Entries

/-- The entries as they are configured and as the processor reads them. -/
def gdtFormat : Format GdtConfig Segment where
  write m a config := configGdtEntry m a config.base config.limit config.access config.flags
  read := segmentAt
  value config :=
    {
      base := config.base
      limit := byteLimit (config.flags.getLsbD 7) (config.limit.setWidth 20)
      access := config.access
      flags := config.flags &&& 0xF0
    }
  read_write _ _ _ := segmentAt_configGdtEntry
  read_write_of_apart _ a b _ _ _ := by
    refine segmentAt_congr fun x near => configGdtEntry_outside ?_
    bv_omega

-----------------------------------------------------------------------------------------
-- The whole table
-----------------------------------------------------------------------------------------

/-- The segment that an entry was configured for. -/
def initialSegment (index : Nat) : Option Segment :=
  (initialGdtEntries.findRev? fun entry => entry.1 = index).map fun entry =>
    gdtFormat.value entry.2

/-- What a segment of the table is, by its index. -/
structure InitialSegment (index : Nat) (segment : Segment) : Prop where
  present : segment.IsPresent ↔ index ≠ 0
  flat : index ≠ 0 → ∀ offset, segment.linear offset = some offset
  code : segment.IsCode ↔ index = 1 ∨ index = 3
  privilege : segment.privilege = if index ≤ 2 then 0 else 3

/-- Each of the five entries is the null segment or a flat segment of its kind, by evaluation.
-/
theorem initialSegment_spec {index : Nat} (below : index < 5)
    : ∃ segment, initialSegment index = some segment ∧ InitialSegment index segment := by
  interval_cases index
  · exact ⟨_, rfl, by decide, fun other => absurd rfl other, by decide, by decide⟩
  all_goals exact ⟨_, rfl, by decide, fun _ => Segment.linear_flat rfl rfl, by decide, by decide⟩

section Table

variable {gdt : Addr} {m : Memory} {index : Nat}

/-- The table reads back what was configured, as the entries do not overlap. -/
theorem loadInitialGdt_read (gdt : Addr) (m : Memory) (below : index < 5)
    : initialSegment index
      = some (segmentAt (loadInitialGdt gdt m) (entryAddr gdt index)) := by
  obtain ⟨segment, configured, _⟩ := initialSegment_spec below
  have read :=
    gdtFormat.read_entries gdt m initialGdtEntries (show index < 8192 by omega) (by decide)
  rw [initialSegment] at configured
  rw [configured] at read
  rw [initialSegment, configured]
  exact congrArg some read.symm

/-- Entries below the fifth cover the first forty bytes. -/
theorem configGdtEntries_outside {x : Addr} (outside : 40 ≤ (x - gdt).toNat)
    (entries : List (Nat × GdtConfig)) (below : ∀ entry ∈ entries, entry.1 < 5)
    : entries.foldl (fun m entry => gdtFormat.write m (entryAddr gdt entry.1) entry.2) m x
      = m x := by
  induction entries generalizing m with
  | nil => rfl
  | cons entry rest ih =>
      rw [List.foldl_cons, ih fun later mem => below later (List.mem_cons_of_mem _ mem)]
      have first := below entry List.mem_cons_self
      have small : (BitVec.ofNat 32 (8 * entry.1)).toNat = 8 * entry.1 :=
        Nat.mod_eq_of_lt (by omega)
      refine configGdtEntry_outside ?_
      rw [entryAddr]
      generalize BitVec.ofNat 32 (8 * entry.1) = offset at small
      bv_omega

/-- What a selector of the table names once it is loaded. -/
theorem loadInitialGdt_selects (gdt : Addr) (m : Memory) {selector : BitVec 16}
    (global : selector.getLsbD 2 = false) (below : selector.toNat / 8 < 5)
    : ∃ segment,
        (initialGdtr gdt).segment (loadInitialGdt gdt m) selector = some segment
        ∧ InitialSegment (selector.toNat / 8) segment := by
  have limit : (initialGdtr gdt).limit.toNat = 39 := rfl
  have base : (initialGdtr gdt).base = gdt := rfl
  obtain ⟨segment, configured, spec⟩ := initialSegment_spec below
  rw [loadInitialGdt_read gdt m below] at configured
  refine ⟨segment, ?_, spec⟩
  rw [Table.segment, if_neg (ne_true_of_eq_false global), Table.entry, base, if_pos (by omega),
    Option.map_some, configured]

/-- The far jump continues in a code segment of ring 0, and the data registers take a data
segment of ring 0.
-/
theorem loadInitialGdt_kernel (gdt : Addr) (m : Memory)
    : (∃ code,
        (initialGdtr gdt).segment (loadInitialGdt gdt m) kernelCode = some code
        ∧ code.IsPresent
        ∧ code.IsCode
        ∧ code.privilege = 0)
      ∧ ∃ data,
          (initialGdtr gdt).segment (loadInitialGdt gdt m) kernelData = some data
          ∧ data.IsPresent
          ∧ ¬data.IsCode
          ∧ data.privilege = 0 := by
  have codeGlobal : kernelCode.getLsbD 2 = false := rfl
  have dataGlobal : kernelData.getLsbD 2 = false := rfl
  obtain ⟨code, codeNamed, codeSpec⟩ := loadInitialGdt_selects gdt m codeGlobal (by decide)
  obtain ⟨data, dataNamed, dataSpec⟩ := loadInitialGdt_selects gdt m dataGlobal (by decide)
  refine ⟨⟨code, codeNamed, ?_, ?_, codeSpec.privilege⟩,
    ⟨data, dataNamed, ?_, ?_, dataSpec.privilege⟩⟩
  · exact codeSpec.present.mpr (by decide)
  · exact codeSpec.code.mpr (by decide)
  · exact dataSpec.present.mpr (by decide)
  · exact mt dataSpec.code.mp (by decide)

/-- The table holds one null and four flat segments, for the code and the data of the kernel
and of user space, and every other selector is refused. No address is moved or out of reach,
and nothing outside the table is written.
-/
theorem loadInitialGdt_segment (gdt : Addr) (m : Memory) (selector : BitVec 16)
    : (match (initialGdtr gdt).segment (loadInitialGdt gdt m) selector with
        | none => selector.getLsbD 2 = true ∨ 5 ≤ selector.toNat / 8
        | some segment =>
            selector.toNat / 8 < 5 ∧ InitialSegment (selector.toNat / 8) segment)
      ∧ ∀ x : Addr, 40 ≤ (x - gdt).toNat → loadInitialGdt gdt m x = m x := by
  refine ⟨?_, fun x outside => configGdtEntries_outside outside initialGdtEntries (by decide)⟩
  have limit : (initialGdtr gdt).limit.toNat = 39 := rfl
  by_cases refused : selector.getLsbD 2 = true
  · rw [Table.segment, if_pos refused]
    exact .inl refused
  · by_cases inside : selector.toNat / 8 < 5
    · obtain ⟨segment, named, spec⟩ :=
        loadInitialGdt_selects gdt m (eq_false_of_ne_true refused) inside
      rw [named]
      exact ⟨inside, spec⟩
    · rw [Table.segment, if_neg refused, Table.entry, if_neg (by omega)]
      exact .inr (by omega)

end Table

end SimpleKernel
