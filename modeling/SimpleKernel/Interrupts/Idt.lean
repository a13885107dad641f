import SimpleKernel.Interrupts.Wrappers
import SimpleKernel.Library.Descriptors
import SimpleKernel.Libc.Bytes

/-! The interrupt descriptor table that `load_initial_idt` writes, and the interrupts that the
processor takes through it.
-/

namespace SimpleKernel

open ByteMemory Descriptors StackMachine

abbrev idtSize : Nat := 256

/-- The fields of `struct idt_entry` at their offsets, in the order of the assignments. -/
def configIdtEntry (m : Memory) (entry : Addr) (addr : Word) (cs : BitVec 16)
    (attributes : Byte)
    : Memory :=
  let m := m.store16 entry (addr.setWidth 16)
  let m := m.store16 (entry + 6) ((addr >>> 16).setWidth 16)
  let m := m.store16 (entry + 2) cs
  let m := m.store8 (entry + 4) 0
  m.store8 (entry + 5) attributes

/-- The entries configured before the loop, with the handlers that their wrappers call. -/
def exceptionEntries : List (Nat × Handler) :=
  [
    (0, .zeroDivisionHandler),
    (1, .debugExceptionHandler),
    (2, .nmiInterruptHandler),
    (3, .breakpointExceptionHandler),
    (4, .overflowExceptionHandler),
    (5, .boundRangeExceptionHandler),
    (6, .invalidOpcodeHandler),
    (7, .notAvailableExceptionHandler),
    (8, .doubleFaultHandler),
    (9, .coprocessorOverrunHandler),
    (10, .invalidTssHandler),
    (11, .segmentNotPresentHandler),
    (12, .stackFaultHandler),
    (13, .generalProtectionHandler),
    (14, .pageFaultHandler),
    (15, .reservedInterrupt),
    (16, .floatingPointFaultHandler),
    (17, .alignmentCheckHandler),
    (18, .machineCheckHandler),
    (19, .simdExceptionHandler),
    (20, .virtualizationExceptionHandler),
    (21, .controlProtectionHandler)
  ]

/-- All entries that are configured, in order. -/
def initialEntries : List (Nat × Handler) :=
  exceptionEntries
  ++ (List.range' 22 10).map (fun i => (i, .reservedInterrupt))
  ++ [(32, .pitHandler), (33, .keyboardHandler)]

/-- What `load_initial_idt` writes to `initial_idt`; `wrappers` are the addresses of the
wrappers.
-/
def loadInitialIdt (wrappers : Handler → Addr) (idt : Addr) (m : Memory) : Memory :=
  initialEntries.foldl
    (fun m entry =>
      configIdtEntry m (entryAddr idt entry.1) (wrappers entry.2) 0x08 0b10001110)
    (memset m idt 0 (BitVec.ofNat 32 (8 * idtSize)))

/-- `initial_idtr`, which `lidt` loads. -/
def initialIdtr (idt : Addr) : Table where
  base := idt
  limit := BitVec.ofNat 16 (8 * idtSize - 1)

section Entries

variable {m : Memory} {entry : Addr} {addr : Word} {cs : BitVec 16} {attributes : Byte}

/-- An entry is written to its eight bytes only. -/
theorem configIdtEntry_outside {x : Addr} (outside : 8 ≤ (x - entry).toNat)
    : configIdtEntry m entry addr cs attributes x = m x := by
  simp only [configIdtEntry]
  rw [Memory.store8_of_ne _ _ (by bv_omega), Memory.store8_of_ne _ _ (by bv_omega),
    Memory.store16_of_outside (by bv_omega), Memory.store16_of_outside (by bv_omega),
    Memory.store16_of_outside (by omega)]

/-- The two halves of an address make it up again. -/
theorem append_halves (x : Word) : (x >>> 16).setWidth 16 ++ x.setWidth 16 = x := by
  ext i inside
  simp only [BitVec.getElem_append, BitVec.getElem_setWidth, BitVec.getLsbD_ushiftRight]
  grind

/-- An entry that is configured reads back as the gate asked for. -/
theorem gateAt_configIdtEntry
    : gateAt (configIdtEntry m entry addr cs attributes) entry = ⟨addr, cs, attributes⟩ := by
  have high
      : (configIdtEntry m entry addr cs attributes).load16 (entry + 6)
        = (addr >>> 16).setWidth 16 := by
    simp only [configIdtEntry]
    rw [Memory.load16_store8_of_ne (by bv_omega) (by bv_omega),
      Memory.load16_store8_of_ne (by bv_omega) (by bv_omega),
      Memory.load16_store16_of_apart (by bv_omega) (by bv_omega),
      Memory.load16_store16_same]
  have low : (configIdtEntry m entry addr cs attributes).load16 entry = addr.setWidth 16 := by
    simp only [configIdtEntry]
    rw [Memory.load16_store8_of_ne (by bv_omega) (by bv_omega),
      Memory.load16_store8_of_ne (by bv_omega) (by bv_omega),
      Memory.load16_store16_of_apart (by bv_omega) (by bv_omega),
      Memory.load16_store16_of_apart (by bv_omega) (by bv_omega),
      Memory.load16_store16_same]
  have selector : (configIdtEntry m entry addr cs attributes).load16 (entry + 2) = cs := by
    simp only [configIdtEntry]
    rw [Memory.load16_store8_of_ne (by bv_omega) (by bv_omega),
      Memory.load16_store8_of_ne (by bv_omega) (by bv_omega),
      Memory.load16_store16_same]
  have kind : configIdtEntry m entry addr cs attributes (entry + 5) = attributes :=
    Memory.store8_same ..
  rw [gateAt, high, low, selector, kind, append_halves]

/-- Configuring an entry leaves the others alone. -/
theorem gateAt_configIdtEntry_of_apart {a : Addr} (right : 8 ≤ (a - entry).toNat)
    (left : 8 ≤ (entry - a).toNat)
    : gateAt (configIdtEntry m entry addr cs attributes) a = gateAt m a := by
  refine gateAt_congr fun x near => configIdtEntry_outside ?_
  bv_omega

end Entries

/-- The entries for the handlers' wrappers. -/
def wrapperFormat (wrappers : Handler → Addr) : Format Handler Gate where
  write m a f := configIdtEntry m a (wrappers f) 0x08 0b10001110
  read := gateAt
  value f := ⟨wrappers f, 0x08, 0b10001110⟩
  read_write _ _ _ := gateAt_configIdtEntry
  read_write_of_apart _ _ _ _ := gateAt_configIdtEntry_of_apart

-----------------------------------------------------------------------------------------
-- The whole table
-----------------------------------------------------------------------------------------

/-- The handler of a vector, as the last entry configured for it says. -/
def initialHandler (vector : Nat) : Option Handler :=
  (initialEntries.findRev? fun entry => entry.1 = vector).map Prod.snd

section Table

variable {wrappers : Handler → Addr} {idt : Addr} {m : Memory}

/-- What the table holds: a present interrupt gate for each vector with a handler, and nothing
usable for any other.
-/
theorem loadInitialIdt_gate (idt : Addr) (m : Memory) (vector : Byte)
    : (initialIdtr idt).gate (loadInitialIdt wrappers idt m) vector
      = match initialHandler vector.toNat with
        | none => .error generalProtection
        | some f => .ok ⟨wrappers f, 0x08, 0b10001110⟩ := by
  have below : vector.toNat < idtSize := vector.isLt
  have inside : 8 * vector.toNat + 7 ≤ (initialIdtr idt).limit.toNat := by
    have limit : (initialIdtr idt).limit.toNat = 2047 := rfl
    omega
  have read
      : gateAt (loadInitialIdt wrappers idt m) (entryAddr idt vector.toNat)
        = ((initialHandler vector.toNat).map (wrapperFormat wrappers).value).getD
          (gateAt (memset m idt 0 (BitVec.ofNat 32 (8 * idtSize)))
            (entryAddr idt vector.toNat)) := by
    rw [initialHandler, Option.map_map]
    exact (wrapperFormat wrappers).read_entries idt _ initialEntries
      (Nat.lt_of_lt_of_le below (by decide)) (by decide)
  have base : (initialIdtr idt).base = idt := rfl
  simp only [Table.gate, Table.entry, if_pos inside, base, read]
  cases initialHandler vector.toNat with
  | some f => simp [wrapperFormat, Gate.check, Gate.IsInterruptGate]
  | none =>
      have cleared
          : memset m idt 0 (BitVec.ofNat 32 (8 * idtSize)) (entryAddr idt vector.toNat + 5)
            = 0 := by
        rw [memset_eq_fill]
        refine m.fill_of_inside _ ?_
        have size : (BitVec.ofNat 32 (8 * vector.toNat)).toNat = 8 * vector.toNat :=
          Nat.mod_eq_of_lt (by omega)
        have whole : (BitVec.ofNat 32 (8 * idtSize)).toNat = 2048 := rfl
        rw [entryAddr, whole]
        generalize BitVec.ofNat 32 (8 * vector.toNat) = offset at size
        simp only [idtSize] at below
        bv_omega
      have kind : ¬(gateAt (memset m idt 0 (BitVec.ofNat 32 (8 * idtSize)))
          (entryAddr idt vector.toNat)).IsInterruptGate := by
        simp only [Gate.IsInterruptGate, gateAt, cleared]
        decide
      exact if_pos kind

end Table

-----------------------------------------------------------------------------------------
-- Interrupts through the table
-----------------------------------------------------------------------------------------

/-- The bytes of the table are still those that `load_initial_idt` wrote. -/
def IdtResident (wrappers : Handler → Addr) (idt : Addr) (m : Memory) : Prop :=
  ∃ before : Memory,
    ∀ x : Addr,
      (x - idt).toNat < 8 * idtSize
      → m x = loadInitialIdt wrappers idt before x

/-- The text section holds the wrappers where the linker put them. -/
def HoldsWrappers (wrappers : Handler → Addr) (codeAt : Addr → Option (List (Instr Handler)))
    : Prop :=
  ∀ f, ∃ back, codeAt (wrappers f) = some (f.isrWrapper back)

/-- An event taken in state `s`, up to the end of its wrapper; `none` when the handler never
returns.
-/
def takeInterrupt (codeAt : Addr → Option (List (Instr Handler)))
    (routines : Handler → Cpu → Option Cpu) (idtr : Table) (s : Cpu) (event : Event)
    : Option Cpu :=
  match idtr.enter s.mem event with
  | none => none
  | some (gate, error) =>
      match codeAt gate.offset with
      | none => none
      | some code => runCode routines code (s.interrupt gate.target error)

/-- The handler of an event and the error code in its frame. A vector without a handler ends
in a protection fault.
-/
def eventHandler (event : Event) : Handler × Word :=
  (initialHandler event.vector.toNat).elim (.generalProtectionHandler, event.gateError)
    fun f => (f, event.error.getD 0)

/-- What the kernel does not survive when it happens in the kernel itself. -/
def FatalVector (vector : Byte) : Prop :=
  vector ∈ [0, 6, 9, 14, 15] ∨ 22 ≤ vector ∧ vector < 32

instance (vector : Byte) : Decidable (FatalVector vector) :=
  inferInstanceAs (Decidable (_ ∨ _))

/-- The wrapper of each vector expects an error code where the processor pushes one. -/
theorem initialHandler_expectsError
    : ∀ vector : Byte,
        ∀ f ∈ initialHandler vector.toNat, f.expectsError = reportsError vector := by
  decide +kernel

/-- The vectors whose handlers do not return to the kernel. -/
theorem initialHandler_isFatal
    : ∀ vector : Byte,
        FatalVector vector ↔ ∃ f ∈ initialHandler vector.toNat, f.IsFatal := by
  decide +kernel

/-- Protection faults have a handler, so that events without one end there. -/
theorem initialHandler_generalProtection
    : initialHandler generalProtection.toNat = some .generalProtectionHandler := by
  decide

section Interrupts

variable {wrappers : Handler → Addr} {idt : Addr} {m : Memory} {s : Cpu} {event : Event}
  {codeAt : Addr → Option (List (Instr Handler))} {routines : Handler → Cpu → Option Cpu}
  {owned : Addr → Prop} {scratch : Nat}

/-- The processor finds the gates that were written, as it reads the bytes of the table only.
-/
theorem IdtResident.gate (resident : IdtResident wrappers idt m) (vector : Byte)
    : (initialIdtr idt).gate m vector
      = match initialHandler vector.toNat with
        | none => .error generalProtection
        | some f => .ok ⟨wrappers f, 0x08, 0b10001110⟩ := by
  obtain ⟨before, same⟩ := resident
  rw [← loadInitialIdt_gate idt before]
  refine Table.gate_congr vector fun x inside => same x ?_
  have limit : (initialIdtr idt).limit.toNat = 2047 := rfl
  rw [limit] at inside
  exact Nat.lt_succ_of_le inside

/-- Every event enters the wrapper of its handler, with the error code that the wrapper
expects.
-/
theorem IdtResident.enter (resident : IdtResident wrappers idt m) (genuine : event.Genuine)
    : ∃ error,
        (initialIdtr idt).enter m event
          = some (⟨wrappers (eventHandler event).1, 0x08, 0b10001110⟩, error)
        ∧ (eventHandler event).1.expectsError = error.isSome
        ∧ (eventHandler event).2 = error.getD 0 := by
  have gate := resident.gate event.vector
  have fault := resident.gate generalProtection
  rw [initialHandler_generalProtection] at fault
  rw [eventHandler, Table.enter]
  generalize handled : initialHandler event.vector.toNat = found at gate ⊢
  cases found with
  | some f =>
      simp only [gate]
      refine ⟨event.error, rfl, ?_, rfl⟩
      rw [Option.elim_some, initialHandler_expectsError event.vector f handled,
        genuine.isSome_error]
  | none =>
      simp only [gate, fault]
      exact ⟨some event.gateError, rfl, rfl, rfl⟩

end Interrupts

/-- Wrappers sixteen bytes apart. -/
def spacedWrappers (f : Handler) : Addr :=
  BitVec.ofNat 32 (16 * f.ctorIdx)

def spacedCode (a : Addr) : Option (List (Instr Handler)) :=
  ((initialEntries.map Prod.snd).find? fun f => spacedWrappers f = a).map fun f => f.isrWrapper 0

/-- Each wrapper is where its entry says, by cases on the handlers. -/
theorem spacedCode_holdsWrappers : HoldsWrappers spacedWrappers spacedCode := by
  intro f
  refine ⟨0, ?_⟩
  cases f <;> rfl

/-- Machine code of the handlers. The timer's ends in a jump to `pic_send_eoi`, whose argument
takes the place of the first word of the frame; any other returns at once or loops.
-/
def tailCallRoutines (f : Handler) (s : Cpu) : Option Cpu :=
  if (f.body (stackframeAt s.mem (s.esp + 4))).returns then
    let mem := if f = .pitHandler then s.mem.store32 (s.esp + 4) 0 else s.mem
    some { s with eax := 0x20, eip := s.mem.load32 s.esp, esp := s.esp + 4, mem := mem }
  else none

/-- These routines keep to the calling convention: the word that the timer's handler overwrites
belongs to its arguments.
-/
theorem tailCallRoutines_compiled : Compiled (fun _ => False) 0 tailCallRoutines where
  returns f s _ _ returns := by
    refine ⟨_, if_pos returns, ⟨rfl, rfl, rfl, rfl, fun x _ outside => ?_⟩⟩
    dsimp only
    split
    · exact Memory.store32_of_outside _ _ (by bv_omega)
    · rfl
  loops _ _ _ _ loops := if_neg (Bool.eq_false_iff.mp loops)

/-- The first word of a frame is stored without the others. -/
theorem stackframeAt_store32 (m : Memory) (a : Addr) (value : Word)
    : stackframeAt (m.store32 a value) a = { stackframeAt m a with edi := value } := by
  have apart (k : Addr) (behind : 4 ≤ k.toNat) (near : k.toNat < 48)
      : (m.store32 a value).load32 (a + k) = m.load32 (a + k) :=
    Memory.load32_store32_of_apart m value (by bv_omega) (by bv_omega)
  simp (disch := decide) only [stackframeAt, Memory.load32_store32_same, apart]

/-- Kernel code that runs with interrupts enabled. -/
def runningCpu : Cpu where
  eax := 1
  ecx := 2
  edx := 3
  ebx := 4
  esp := 0x9000
  ebp := 5
  esi := 6
  edi := 7
  eip := 0xC0100000
  cs := 0x08
  eflags := interruptFlag
  mem := loadInitialIdt spacedWrappers 0x1000 fun _ => 0

end SimpleKernel
