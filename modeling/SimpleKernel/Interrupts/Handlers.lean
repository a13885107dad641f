import SimpleKernel.Interrupts.Pic
import SimpleKernel.Terminal.Interrupts
import SimpleKernel.Terminal.Numbers

/-! The interrupt handlers: what each prints, which ports it uses and whether it returns.
A handler for a fault that the kernel cannot survive prints its message and loops forever.
-/

namespace SimpleKernel

open ByteMemory InterruptController

/-- What the wrappers leave on the stack for a handler, from the lowest address up. -/
structure Stackframe where
  edi : Word
  esi : Word
  ebp : Word
  esp : Word
  ebx : Word
  edx : Word
  ecx : Word
  eax : Word
  err : Word
  eip : Word
  cs : Word
  eflags : Word
  deriving DecidableEq

def stackframeAt (m : Memory) (a : Addr) : Stackframe where
  edi := m.load32 a
  esi := m.load32 (a + 4)
  ebp := m.load32 (a + 8)
  esp := m.load32 (a + 12)
  ebx := m.load32 (a + 16)
  edx := m.load32 (a + 20)
  ecx := m.load32 (a + 24)
  eax := m.load32 (a + 28)
  err := m.load32 (a + 32)
  eip := m.load32 (a + 36)
  cs := m.load32 (a + 40)
  eflags := m.load32 (a + 44)

inductive Handler
  | zeroDivisionHandler
  | debugExceptionHandler
  | nmiInterruptHandler
  | breakpointExceptionHandler
  | overflowExceptionHandler
  | boundRangeExceptionHandler
  | invalidOpcodeHandler
  | notAvailableExceptionHandler
  | doubleFaultHandler
  | coprocessorOverrunHandler
  | invalidTssHandler
  | segmentNotPresentHandler
  | stackFaultHandler
  | generalProtectionHandler
  | pageFaultHandler
  | floatingPointFaultHandler
  | alignmentCheckHandler
  | machineCheckHandler
  | simdExceptionHandler
  | virtualizationExceptionHandler
  | controlProtectionHandler
  | reservedInterrupt
  | pitHandler
  | keyboardHandler
  deriving DecidableEq

/-- The calls that handlers make. -/
inductive HandlerCall
  | terminalWritestring (text : List Byte)
  | iprint (n : BitVec 64)
  | inb (port : BitVec 16)
  | picSendEoi (irq : Byte)
  deriving DecidableEq

/-- The calls of a handler, and whether it returns after them or loops forever. -/
structure HandlerBody where
  calls : List HandlerCall
  returns : Bool
  deriving DecidableEq

/-- The characters of a string literal. -/
def ascii (text : String) : List Byte :=
  text.toList.map fun c => BitVec.ofNat 8 c.toNat

/-- The code segment of the interrupted program is one of user space. -/
def Stackframe.FromUser (sf : Stackframe) : Prop :=
  sf.cs &&& 0b11 = 3

instance (sf : Stackframe) : Decidable sf.FromUser :=
  inferInstanceAs (Decidable (_ = _))

def emptyBody : HandlerBody :=
  ⟨[], true⟩

/-- What is fatal in the kernel does nothing in user space yet. -/
def fatalInKernel (sf : Stackframe) (message : String) : HandlerBody :=
  if sf.FromUser then emptyBody else ⟨[.terminalWritestring (ascii message)], false⟩

def zeroDivisionBody (sf : Stackframe) : HandlerBody :=
  fatalInKernel sf "FATAL ERROR: division-by-zero occurred in kernel-space."

def invalidOpcodeBody (sf : Stackframe) : HandlerBody :=
  fatalInKernel sf "FATAL ERROR: the kernel encountered an invalid opcode during execution."

def coprocessorOverrunBody (sf : Stackframe) : HandlerBody :=
  fatalInKernel sf "FATAL ERROR: coprocessor segment overrun in kernel-space."

def reservedInterruptBody (sf : Stackframe) : HandlerBody :=
  fatalInKernel sf "FATAL ERROR: this isn't supposed to happen! Reserved interrupt fired."

/-- A page fault is fatal wherever it comes from. -/
def pageFaultBody (sf : Stackframe) : HandlerBody where
  calls :=
    [
      .terminalWritestring (ascii "FATAL ERROR: page fault!\n"),
      .terminalWritestring (ascii "  error code: "),
      .iprint (sf.err.setWidth 64)
    ]
  returns := false

def pitBody : HandlerBody :=
  ⟨[.picSendEoi 0], true⟩

def keyboardBody : HandlerBody :=
  ⟨[.terminalWritestring pressed, .inb keyboardData, .picSendEoi 1], true⟩

def Handler.body (handler : Handler) (sf : Stackframe) : HandlerBody :=
  match handler with
  | .zeroDivisionHandler => zeroDivisionBody sf
  | .invalidOpcodeHandler => invalidOpcodeBody sf
  | .coprocessorOverrunHandler => coprocessorOverrunBody sf
  | .reservedInterrupt => reservedInterruptBody sf
  | .pageFaultHandler => pageFaultBody sf
  | .pitHandler => pitBody
  | .keyboardHandler => keyboardBody
  | .debugExceptionHandler
  | .nmiInterruptHandler
  | .breakpointExceptionHandler
  | .overflowExceptionHandler
  | .boundRangeExceptionHandler
  | .notAvailableExceptionHandler
  | .doubleFaultHandler
  | .invalidTssHandler
  | .segmentNotPresentHandler
  | .stackFaultHandler
  | .generalProtectionHandler
  | .floatingPointFaultHandler
  | .alignmentCheckHandler
  | .machineCheckHandler
  | .simdExceptionHandler
  | .virtualizationExceptionHandler
  | .controlProtectionHandler => emptyBody

/-- The handlers that never return to the kernel. -/
def Handler.IsFatal (handler : Handler) : Prop :=
  handler ∈ [
    .zeroDivisionHandler, .invalidOpcodeHandler, .coprocessorOverrunHandler,
    .pageFaultHandler, .reservedInterrupt
  ]

instance (handler : Handler) : Decidable handler.IsFatal :=
  inferInstanceAs (Decidable (_ ∈ _))

/-- In kernel code a handler returns exactly if it is not one of the fatal ones, by cases. -/
theorem Handler.body_returns (handler : Handler) {sf : Stackframe} (kernel : ¬sf.FromUser)
    : (handler.body sf).returns = !decide handler.IsFatal := by
  cases handler <;>
    simp [body, IsFatal, zeroDivisionBody, invalidOpcodeBody, coprocessorOverrunBody,
      reservedInterruptBody, fatalInKernel, kernel, pageFaultBody, pitBody, keyboardBody,
      emptyBody]

/-- What handlers act on. -/
structure HandlerWorld where
  tty : Terminal
  hw : InterruptHardware

def HandlerCall.run (w : HandlerWorld) : HandlerCall → HandlerWorld
  | .terminalWritestring text => { w with tty := SimpleKernel.terminalWritestring w.tty text }
  | .iprint n => { w with tty := (SimpleKernel.iprint terminalPutchar 20 w.tty n).getD w.tty }
  | .inb port => { w with hw := (SimpleKernel.inb w.hw port).2 }
  | .picSendEoi irq => { w with hw := SimpleKernel.picSendEoi w.hw irq }

/-- The world when a handler returns or starts to loop. -/
def HandlerBody.run (body : HandlerBody) (w : HandlerWorld) : HandlerWorld :=
  body.calls.foldl HandlerCall.run w

-----------------------------------------------------------------------------------------
-- What handlers print
-----------------------------------------------------------------------------------------

/-- What a call prints. -/
def HandlerCall.printed : HandlerCall → List Byte
  | .terminalWritestring text => text
  | .iprint n => numeralText (decimal n.toNat)
  | .inb _ => []
  | .picSendEoi _ => []

def HandlerBody.printed (body : HandlerBody) : List Byte :=
  body.calls.flatMap HandlerCall.printed

variable {w : HandlerWorld} {mem : Memory} {text : Text}

/-- A call of a handler changes the terminal by the characters that it prints. -/
theorem HandlerCall.run_tty (w : HandlerWorld) (call : HandlerCall)
    : (call.run w).tty = call.printed.foldl terminalPutchar w.tty := by
  cases call with
  | terminalWritestring text =>
      simp only [run, SimpleKernel.terminalWritestring, terminalWrite, List.take_length, printed]
  | iprint n =>
      simp only [run, iprint_eq, if_pos (decimal_length_le n), Option.getD_some, printed]
  | inb _ => rfl
  | picSendEoi _ => rfl

/-- A handler prints the texts of its calls one behind the other, by induction on them. -/
theorem HandlerBody.run_tty (body : HandlerBody) (w : HandlerWorld)
    : (body.run w).tty = body.printed.foldl terminalPutchar w.tty := by
  obtain ⟨calls, _⟩ := body
  simp only [run, printed]
  induction calls generalizing w with
  | nil => rfl
  | cons call rest ih =>
      rw [List.foldl_cons, ih, HandlerCall.run_tty, List.flatMap_cons, List.foldl_append]

/-- The terminal follows what a handler prints. -/
theorem Terminal.Tracks.handlerBody (tracks : w.tty.Tracks mem text) (body : HandlerBody)
    : (body.run w).tty.Tracks mem (body.printed.foldl Text.putchar text) := by
  rw [body.run_tty]
  exact tracks.terminalWrite body.printed

/-- Something that uses the terminal as a whole. -/
inductive TerminalUse
  | call (use : TerminalCall)
  | handler (f : Handler) (sf : Stackframe)

def TerminalUse.exec (w : HandlerWorld) : TerminalUse → HandlerWorld
  | .call use => { w with tty := use.exec w.tty }
  | .handler f sf => (f.body sf).run w

def TerminalUse.extend (text : Text) : TerminalUse → Text
  | .call use => use.extend text
  | .handler f sf => (f.body sf).printed.foldl Text.putchar text

/-- Handlers that run between two calls do not disturb the screen: it shows the last lines of
all that was printed, what a page fault says about its error code included.
-/
theorem terminalUses_show (mem : Memory) (hw : InterruptHardware) (uses : List TerminalUse)
    : let w := uses.foldl TerminalUse.exec ⟨terminalInitialize (unsetTerminal mem), hw⟩
      w.tty.Shows (uses.foldl TerminalUse.extend .initial)
      ∧ w.tty.InBounds
      ∧ ∀ x, OutsideScreen x → w.tty.mem x = mem x := by
  have start : (terminalInitialize (unsetTerminal mem)).Tracks mem .initial := by
    simpa only [List.foldl_nil] using terminalCalls_track mem []
  have tracks
      : (uses.foldl TerminalUse.exec ⟨terminalInitialize (unsetTerminal mem), hw⟩).tty.Tracks mem
          (uses.foldl TerminalUse.extend .initial) := by
    generalize terminalInitialize (unsetTerminal mem) = t at start
    generalize Text.initial = text at start ⊢
    induction uses generalizing t hw text with
    | nil => exact start
    | cons use rest ih =>
        cases use with
        | call use => exact ih _ _ _ (start.exec use)
        | handler f sf =>
            exact ih _ _ _ (Terminal.Tracks.handlerBody (w := ⟨t, hw⟩) start (f.body sf))
  exact ⟨tracks.window.shows tracks.bounds, tracks.bounds, tracks.outside⟩

/-- The handler that `terminalMachine` lets in writes what `keyboard_handler` writes. -/
theorem keyboardBody_tty (w : HandlerWorld)
    : (keyboardBody.run w).tty = keyboardHandler w.tty := by
  simp only [HandlerBody.run, keyboardBody, List.foldl_cons, List.foldl_nil, HandlerCall.run,
    keyboardHandler]

end SimpleKernel
