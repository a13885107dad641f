import SimpleKernel.Interrupts.Idt
import SimpleKernel.Library.Runs

/-! Interrupts from the devices up to the handlers and back.
The main program runs `pic_init` and enables interrupts; the keyboard sends scan codes, other
devices raise and drop their lines, and the processor accepts interrupts, all in any order.
A handler runs with interrupts disabled, but the devices go on between its calls.
-/

namespace SimpleKernel

open ByteMemory Descriptors InterruptController Runs

structure InterruptSession where
  world : HandlerWorld
  /-- The interrupt flag of the processor. -/
  interruptible : Bool
  /-- What is left of `pic_init`. -/
  setup : List PortAccess
  /-- What is left of the handler that runs. -/
  running : Option HandlerBody
  /-- The scan codes that the keyboard has sent and those that a handler has read. -/
  sent : List Byte
  received : List Byte

inductive InterruptEvent
  /-- The next port access of `pic_init`. -/
  | setup
  /-- `sti` or `cli` in the main program. -/
  | setFlag (on : Bool)
  /-- A device other than the keyboard raises its line or drops it. -/
  | request (second : Bool) (line : Fin 8)
  | withdraw (second : Bool) (line : Fin 8)
  | key (code : Byte)
  /-- The processor accepts an interrupt, if only a spurious one. -/
  | accept (sf : Stackframe)
  /-- The next call of the handler that runs, or its return. -/
  | proceed

/-- The scan code that a call reads. -/
def HandlerCall.reads (hw : InterruptHardware) : HandlerCall → List Byte
  | .inb port => if port = keyboardData then hw.keyboard.toList else []
  | _ => []

/-- What a call does to the hardware. -/
def HandlerCall.access (hw : InterruptHardware) : HandlerCall → InterruptHardware
  | .inb port => (SimpleKernel.inb hw port).2
  | .picSendEoi irq => SimpleKernel.picSendEoi hw irq
  | _ => hw

theorem HandlerCall.run_hw (w : HandlerWorld) (call : HandlerCall)
    : (call.run w).hw = call.access w.hw := by
  cases call <;> rfl

/-- A line of one of the controllers changes. -/
def onController (change : Controller → Controller) (second : Bool) (hw : InterruptHardware)
    : InterruptHardware :=
  if second then { hw with pics.second := change hw.pics.second }
  else { hw with pics.first := change hw.pics.first }

def InterruptSession.exec (s : InterruptSession) : InterruptEvent → Option InterruptSession
  | .setup =>
      match s.setup with
      | [] => none
      | access :: rest =>
          some { s with world.hw := access.run s.world.hw, setup := rest }
  | .setFlag on => some { s with interruptible := on }
  | .request second line =>
      some { s with world.hw := onController (fun c => c.request line) second s.world.hw }
  | .withdraw second line =>
      some { s with world.hw := onController (fun c => c.withdraw line) second s.world.hw }
  | .key code =>
      some
        { s with
          world.hw.pics.first := s.world.hw.pics.first.request keyboardLine
          world.hw.keyboard := some code
          sent := s.sent ++ [code] }
  | .accept sf =>
      let (vector, pics) := s.world.hw.pics.accept
      some
        { s with
          world.hw.pics := pics
          interruptible := false
          running := some ((eventHandler (.external vector)).1.body sf) }
  | .proceed =>
      match s.running with
      | none => none
      | some ⟨[], returns⟩ =>
          if returns then some { s with interruptible := true, running := none } else none
      | some ⟨call :: rest, returns⟩ =>
          some
            { s with
              world := call.run s.world
              running := some ⟨rest, returns⟩
              received := s.received ++ call.reads s.world.hw }

def interruptMachine : Machine InterruptSession InterruptEvent where
  enabled s
    | .setup => s.running = none ∧ s.setup ≠ []
    | .setFlag _ => s.running = none ∧ s.setup = []
    | .request second line => second = true ∨ line ≠ keyboardLine
    | .withdraw second line => second = true ∨ line ≠ keyboardLine
    | .key _ => s.world.hw.keyboard = none
    | .accept sf => s.running = none ∧ s.interruptible = true ∧ ¬sf.FromUser
    | .proceed => s.running ≠ none
  exec := InterruptSession.exec

instance (s : InterruptSession) (event : InterruptEvent)
    : Decidable (interruptMachine.enabled s event) :=
  match event with
  | .setup => inferInstanceAs (Decidable (s.running = none ∧ s.setup ≠ []))
  | .setFlag _ => inferInstanceAs (Decidable (s.running = none ∧ s.setup = []))
  | .request second line => inferInstanceAs (Decidable (second = true ∨ line ≠ keyboardLine))
  | .withdraw second line => inferInstanceAs (Decidable (second = true ∨ line ≠ keyboardLine))
  | .key _ => inferInstanceAs (Decidable (s.world.hw.keyboard = none))
  | .accept sf =>
      inferInstanceAs
        (Decidable (s.running = none ∧ s.interruptible = true ∧ ¬sf.FromUser))
  | .proceed => inferInstanceAs (Decidable (s.running ≠ none))

/-- Nothing in service before `pic_init`. -/
def NothingInService (hw : InterruptHardware) : Prop :=
  hw.pics.first.inService = 0 ∧ hw.pics.second.inService = 0

/-- `pic_init` has just sent its first byte, which resets the first controller. -/
def picInitBegun (hw : InterruptHardware) (tty : Terminal) : InterruptSession where
  world := ⟨tty, (picInit.take 1).foldl PortAccess.run hw⟩
  interruptible := false
  setup := picInit.drop 1
  running := none
  sent := []
  received := []

def Undisturbed (_ : InterruptSession) (_ : InterruptEvent) : Prop :=
  True

instance (s : InterruptSession) (event : InterruptEvent) : Decidable (Undisturbed s event) :=
  inferInstanceAs (Decidable True)

-----------------------------------------------------------------------------------------
-- What programs the controllers
-----------------------------------------------------------------------------------------

/-- How a controller is programmed, apart from its requests and what is in service. -/
def settings (c : Controller) : Controller :=
  { c with requested := 0, inService := 0 }

/-- The two are programmed alike. -/
def SameSettings (hw hw' : InterruptHardware) : Prop :=
  settings hw'.pics.first = settings hw.pics.first
  ∧ settings hw'.pics.second = settings hw.pics.second

section Settings

variable {c c' : Controller} {hw hw' : InterruptHardware}

theorem SameSettings.refl (hw : InterruptHardware) : SameSettings hw hw :=
  ⟨rfl, rfl⟩

theorem SameSettings.trans {hw'' : InterruptHardware} (first : SameSettings hw hw')
    (second : SameSettings hw' hw'')
    : SameSettings hw hw'' :=
  ⟨second.1.trans first.1, second.2.trans first.2⟩

/-- What a command programs does not depend on requests or interrupts in service. -/
theorem settings_command (c : Controller) (value : Byte)
    : settings (c.command value) = settings ((settings c).command value) := by
  simp only [Controller.command]
  split
  · rfl
  · split <;> rfl

/-- Nor does what a data byte programs. -/
theorem settings_data (c : Controller) (value : Byte)
    : settings (c.data value) = settings ((settings c).data value) := by
  obtain ⟨_, _, _, _, _, _, awaits⟩ := c
  cases awaits <;> rfl

/-- Controllers that are programmed alike stay so under the accesses of `pic_init`, because
commands and data bytes do not depend on the rest of a controller.
-/
theorem SameSettings.run (same : SameSettings hw hw') (access : PortAccess)
    : SameSettings (access.run hw) (access.run hw') := by
  obtain ⟨first, second⟩ := same
  cases access with
  | iowait => exact ⟨first, second⟩
  | outb port value =>
      simp only [PortAccess.run, outb]
      split_ifs
      · exact ⟨by rw [settings_command, first, ← settings_command], second⟩
      · exact ⟨by rw [settings_data, first, ← settings_data], second⟩
      · exact ⟨first, by rw [settings_command, second, ← settings_command]⟩
      · exact ⟨first, by rw [settings_data, second, ← settings_data]⟩
      · exact ⟨first, second⟩

/-- Handlers do not program the controllers. -/
theorem SameSettings.call (hw : InterruptHardware) (call : HandlerCall)
    : SameSettings hw (call.access hw) := by
  cases call with
  | terminalWritestring _ => exact .refl _
  | iprint _ => exact .refl _
  | inb port =>
      simp only [HandlerCall.access, inb]
      split_ifs <;> exact .refl _
  | picSendEoi irq =>
      simp only [HandlerCall.access, picSendEoi]
      split_ifs <;> exact .refl _

/-- What `pic_init` programs, whatever the controllers were before. -/
theorem settings_picInit (hw : InterruptHardware)
    : settings (picInit.foldl PortAccess.run hw).pics.first
        = ⟨0b11111001, 0, 0, picOffset1, 0b00000100, picIcw48086, .mask⟩
      ∧ settings (picInit.foldl PortAccess.run hw).pics.second
        = ⟨0xFF, 0, 0, picOffset2, 0b00000010, picIcw48086, .mask⟩ :=
  ⟨rfl, rfl⟩

end Settings

-----------------------------------------------------------------------------------------
-- The invariant
-----------------------------------------------------------------------------------------

/-- The lines of the first controller in service, apart from the cascade's: nobody ends what
the cascade's line brings in.
-/
def Serving (hw : InterruptHardware) (lines : BitVec 8) : Prop :=
  hw.pics.first.inService &&& ~~~lineBit cascadeLine = lines

/-- A scan code waits if and only if its request does. -/
def Waiting (alive : Bool) (hw : InterruptHardware) : Prop :=
  hw.pics.first.requested.getLsbD keyboardLine = (alive && hw.keyboard.isSome)

/-- Where the processor is: in the main program, or before the read of the scan code, before
the end of interrupt or before the return in a handler.
-/
inductive Phase (alive : Bool) (hw : InterruptHardware) : Option HandlerBody → Prop
  | main (idle : Serving hw 0) (waiting : Waiting alive hw) : Phase alive hw none
  | reading (calls : List HandlerCall)
      (left : calls = keyboardBody.calls ∨ calls = keyboardBody.calls.tail)
      (serving : Serving hw (lineBit keyboardLine)) (current : alive = true)
      (full : hw.keyboard.isSome = true)
      (taken : hw.pics.first.requested.getLsbD keyboardLine = false)
      : Phase alive hw (some ⟨calls, true⟩)
  | ending (serving : Serving hw (lineBit keyboardLine)) (waiting : Waiting alive hw)
      : Phase alive hw (some ⟨[.picSendEoi 1], true⟩)
  | returning (idle : Serving hw 0) (waiting : Waiting alive hw)
      : Phase alive hw (some emptyBody)

/-- `alive` says that no scan code waited when `pic_init` began. -/
structure Disciplined (alive : Bool) (start : InterruptHardware) (s : InterruptSession)
    : Prop where
  programmed
    : ∃ done,
        picInit = done ++ s.setup
        ∧ done ≠ []
        ∧ SameSettings (done.foldl PortAccess.run start) s.world.hw
  masked : s.setup ≠ [] → s.interruptible = false ∧ s.running = none
  quiet : s.running ≠ none → s.interruptible = false
  phase : Phase alive s.world.hw s.running
  second : s.world.hw.pics.second.inService = 0
  stale : alive = false → s.world.hw.keyboard.isSome = true

section Discipline

variable {alive : Bool} {start hw hw' : InterruptHardware} {s s' : InterruptSession}
  {running : Option HandlerBody}

/-- A change of the hardware that the phase does not see. -/
theorem Phase.congr (phase : Phase alive hw running)
    (service : hw'.pics.first.inService = hw.pics.first.inService)
    (requested
      : hw'.pics.first.requested.getLsbD keyboardLine
        = hw.pics.first.requested.getLsbD keyboardLine)
    (keyboard : hw'.keyboard = hw.keyboard)
    : Phase alive hw' running := by
  have serving {lines : BitVec 8} (serving : Serving hw lines) : Serving hw' lines := by
    rwa [Serving, service]
  have waiting (waiting : Waiting alive hw) : Waiting alive hw' := by
    rwa [Waiting, requested, keyboard]
  cases phase with
  | main idle wait => exact .main (serving idle) (waiting wait)
  | reading calls left served current full taken =>
      exact .reading calls left (serving served) current (keyboard ▸ full) (requested ▸ taken)
  | ending served wait => exact .ending (serving served) (waiting wait)
  | returning idle wait => exact .returning (serving idle) (waiting wait)

/-- A scan code that arrives asks for its interrupt. -/
theorem Phase.key (phase : Phase true hw running) (empty : hw.keyboard = none) (code : Byte)
    : Phase true
        { hw with
          pics.first := hw.pics.first.request keyboardLine
          keyboard := some code }
        running := by
  have waiting
      : Waiting true
          { hw with
            pics.first := hw.pics.first.request keyboardLine
            keyboard := some code } := by
    simp [Waiting, request_requested]
  cases phase with
  | main idle _ => exact .main idle waiting
  | reading _ _ _ _ full _ => simp [empty] at full
  | ending served _ => exact .ending served waiting
  | returning idle _ => exact .returning idle waiting

/-- An access leaves what is asked for and in service alone. -/
structure KeepsRequests (hw hw' : InterruptHardware) : Prop where
  service : hw'.pics.first.inService = hw.pics.first.inService
  requested : hw'.pics.first.requested = hw.pics.first.requested
  second : hw'.pics.second.inService = hw.pics.second.inService
  keyboard : hw'.keyboard = hw.keyboard

/-- A data byte changes neither what is asked for nor what is in service. -/
theorem data_keeps (c : Controller) (value : Byte)
    : (c.data value).inService = c.inService ∧ (c.data value).requested = c.requested := by
  obtain ⟨_, _, _, _, _, _, awaits⟩ := c
  cases awaits <;> exact ⟨rfl, rfl⟩

/-- Behind its first byte `pic_init` resets the second controller only. -/
theorem picInit_keepsRequests {access : PortAccess} (later : access ∈ picInit.drop 1)
    (hw : InterruptHardware)
    : KeepsRequests hw (access.run hw) := by
  have iowait : KeepsRequests hw (PortAccess.iowait.run hw) := ⟨rfl, rfl, rfl, rfl⟩
  have data1 (value : Byte) : KeepsRequests hw ((PortAccess.outb pic1Data value).run hw) :=
    ⟨(data_keeps _ value).1, (data_keeps _ value).2, rfl, rfl⟩
  have data2 (value : Byte) : KeepsRequests hw ((PortAccess.outb pic2Data value).run hw) :=
    ⟨rfl, rfl, (data_keeps _ value).1, rfl⟩
  have reset
      : KeepsRequests hw
          ((PortAccess.outb pic2Command (picIcw1Init ||| picIcw1Icw4)).run hw) :=
    ⟨rfl, rfl, rfl, rfl⟩
  simp only [picInit, picMap, List.drop_succ_cons, List.drop_zero, List.mem_cons,
    List.not_mem_nil, or_false] at later
  rcases later with rfl | rfl | rfl | rfl | rfl | rfl | rfl | rfl | rfl | rfl | rfl | rfl | rfl
    | rfl | rfl | rfl | rfl
  all_goals first | exact iowait | exact data1 _ | exact data2 _ | exact reset

/-- A port access of `pic_init` adds to what the controllers are programmed with, and leaves
the rest alone.
-/
theorem Disciplined.setup {access : PortAccess} {rest : List PortAccess}
    (disciplined : Disciplined alive start s) (next : s.setup = access :: rest)
    : Disciplined alive start
        { s with world.hw := access.run s.world.hw, setup := rest } := by
  obtain ⟨⟨done, whole, begun, same⟩, masked, quiet, phase, second, stale⟩ := disciplined
  have later : access ∈ picInit.drop 1 := by
    cases done with
    | nil => exact absurd rfl begun
    | cons first done => simp [whole, next]
  obtain ⟨service, requested, secondService, keyboard⟩ := picInit_keepsRequests later s.world.hw
  refine ⟨⟨done ++ [access], ?_, by simp, ?_⟩, ?_, quiet, ?_, ?_, ?_⟩
  · rw [whole, next, List.append_assoc, List.singleton_append]
  · rw [List.foldl_append]
    exact same.run access
  · exact fun _ => masked (by simp [next])
  · exact phase.congr service (by rw [requested]) keyboard
  · exact secondService.trans second
  · intro dead
    rw [keyboard]
    exact stale dead

/-- Other devices change neither the programming nor the keyboard's request. -/
theorem Disciplined.device {change : Controller → Controller} {second : Bool}
    (disciplined : Disciplined alive start s)
    (programmed : ∀ c, settings (change c) = settings c)
    (service : ∀ c, (change c).inService = c.inService)
    (apart
      : second = true
        ∨ ∀ c : Controller,
            (change c).requested.getLsbD keyboardLine = c.requested.getLsbD keyboardLine)
    : Disciplined alive start
        { s with world.hw := onController change second s.world.hw } := by
  obtain ⟨⟨done, whole, begun, same⟩, masked, quiet, phase, inService, stale⟩ := disciplined
  cases second with
  | true =>
      exact {
        programmed := ⟨done, whole, begun, same.1, (programmed _).trans same.2⟩
        masked := masked
        quiet := quiet
        phase := phase.congr rfl rfl rfl
        second := (service _).trans inService
        stale := stale
      }
  | false =>
      have apart := apart.resolve_left Bool.false_ne_true
      exact {
        programmed := ⟨done, whole, begun, (programmed _).trans same.1, same.2⟩
        masked := masked
        quiet := quiet
        phase := phase.congr (service _) (apart _) rfl
        second := inService
        stale := stale
      }

/-- A scan code arrives when none waits. In a run where one waited from the start this does not
happen.
-/
theorem Disciplined.key (disciplined : Disciplined alive start s)
    (empty : s.world.hw.keyboard = none) (code : Byte) (sent : List Byte)
    : Disciplined alive start
        { s with
          world.hw.pics.first := s.world.hw.pics.first.request keyboardLine
          world.hw.keyboard := some code
          sent := sent } := by
  obtain ⟨programmed, masked, quiet, phase, second, stale⟩ := disciplined
  obtain rfl : alive = true := by
    cases alive with
    | true => rfl
    | false => simp [empty] at stale
  exact ⟨programmed, masked, quiet, phase.key empty code, second, fun _ => rfl⟩

-----------------------------------------------------------------------------------------
-- Accepting an interrupt
-----------------------------------------------------------------------------------------

/-- How the controllers are programmed once `pic_init` is through. -/
theorem Disciplined.settled (disciplined : Disciplined alive start s) (ready : s.setup = [])
    : settings s.world.hw.pics.first
        = ⟨0b11111001, 0, 0, picOffset1, 0b00000100, picIcw48086, .mask⟩
      ∧ settings s.world.hw.pics.second
        = ⟨0xFF, 0, 0, picOffset2, 0b00000010, picIcw48086, .mask⟩ := by
  obtain ⟨done, whole, _, first, second⟩ := disciplined.programmed
  rw [ready, List.append_nil] at whole
  subst whole
  exact ⟨first.trans (settings_picInit start).1, second.trans (settings_picInit start).2⟩

/-- Only the lines of the keyboard and the cascade can come next, and nothing on the second
controller.
-/
theorem Disciplined.next (disciplined : Disciplined alive start s) (ready : s.setup = [])
    : (∀ line,
          s.world.hw.pics.first.next = some line → line = keyboardLine ∨ line = cascadeLine)
      ∧ s.world.hw.pics.second.next = none := by
  obtain ⟨first, second⟩ := disciplined.settled ready
  have firstMask : s.world.hw.pics.first.masked = 0b11111001 := congrArg Controller.masked first
  have secondMask : s.world.hw.pics.second.masked = 0xFF := congrArg Controller.masked second
  constructor
  · intro line next
    have unmasked := (next_eq_some.mp next).1.2.1
    rw [firstMask] at unmasked
    clear next
    revert line
    decide
  · rw [next_eq_none]
    intro line eligible
    have unmasked := eligible.2.1
    rw [secondMask] at unmasked
    clear eligible
    revert line
    decide

/-- The handlers behind the vectors that can be accepted. -/
theorem eventHandler_vectors
    : (eventHandler (.external 0x21)).1 = .keyboardHandler
      ∧ (eventHandler (.external 0x27)).1 = .generalProtectionHandler
      ∧ (eventHandler (.external 0x2F)).1 = .generalProtectionHandler := by
  decide

/-- The three ways to accept an interrupt: a spurious one, one from the cascade that the
second controller knows nothing of, and the keyboard's.
-/
theorem Disciplined.accept_cases (disciplined : Disciplined alive start s)
    (ready : s.setup = [])
    : let pics := s.world.hw.pics
      (pics.first.next = none ∧ pics.accept = (0x27, pics))
      ∨ (pics.first.next = some cascadeLine
          ∧ pics.accept
            = (0x2F, { pics with first := pics.first.acknowledge cascadeLine }))
      ∨ (pics.first.next = some keyboardLine
          ∧ pics.accept
            = (0x21, { pics with first := pics.first.acknowledge keyboardLine })) := by
  obtain ⟨lines, second⟩ := disciplined.next ready
  obtain ⟨first, other⟩ := disciplined.settled ready
  have firstBase : s.world.hw.pics.first.base = 0x20 := congrArg Controller.base first
  have secondBase : s.world.hw.pics.second.base = 0x28 := congrArg Controller.base other
  simp only [Cascade.accept, second, Controller.vector, firstBase, secondBase]
  cases next : s.world.hw.pics.first.next with
  | none => exact .inl ⟨rfl, rfl⟩
  | some line =>
      rcases lines line next with rfl | rfl
      · exact .inr (.inr ⟨rfl, rfl⟩)
      · exact .inr (.inl ⟨rfl, rfl⟩)

/-- What is in service behind an acceptance. -/
theorem Serving.acknowledge (idle : Serving hw 0) (commanded : hw.pics.first.mode = picIcw48086)
    : Serving { hw with pics.first := hw.pics.first.acknowledge cascadeLine } 0
      ∧ Serving { hw with pics.first := hw.pics.first.acknowledge keyboardLine }
        (lineBit keyboardLine) := by
  simp only [Serving, Controller.acknowledge, commanded] at idle ⊢
  generalize hw.pics.first.inService = inService at idle ⊢
  revert inService
  decide

/-- An interrupt is accepted in the main program, so the handler starts with interrupts
disabled. By the three ways to accept one.
-/
theorem Disciplined.accept (disciplined : Disciplined alive start s)
    (between : s.running = none) (interruptible : s.interruptible = true) (sf : Stackframe)
    : Disciplined alive start
        { s with
          world.hw.pics := s.world.hw.pics.accept.2
          interruptible := false
          running := some ((eventHandler (.external s.world.hw.pics.accept.1)).1.body sf) } := by
  have ready : s.setup = [] := by
    by_contra more
    have masked := (disciplined.masked more).1
    simp [interruptible] at masked
  have cases := disciplined.accept_cases ready
  have commanded : s.world.hw.pics.first.mode = picIcw48086 :=
    congrArg Controller.mode (disciplined.settled ready).1
  obtain ⟨keyboardVector, spuriousVector, cascadeVector⟩ := eventHandler_vectors
  obtain ⟨⟨done, whole, begun, same⟩, masked, quiet, phase, second, stale⟩ := disciplined
  rw [between] at phase
  obtain ⟨idle, waiting⟩ : Serving s.world.hw 0 ∧ Waiting alive s.world.hw := by
    cases phase with
    | main idle waiting => exact ⟨idle, waiting⟩
  obtain ⟨cascadeServed, keyboardServed⟩ := idle.acknowledge commanded
  rcases cases with ⟨_, accepted⟩ | ⟨_, accepted⟩ | ⟨next, accepted⟩
  · rw [accepted, spuriousVector]
    exact {
      programmed := ⟨done, whole, begun, same⟩
      masked := fun more => absurd ready more
      quiet := fun _ => rfl
      phase := .returning idle waiting
      second := second
      stale := stale
    }
  · have waiting
        : Waiting alive
            { s.world.hw with
              pics.first := s.world.hw.pics.first.acknowledge cascadeLine } := by
      rw [Waiting] at waiting ⊢
      rw [acknowledge_requested, waiting]
      simp [keyboardLine, cascadeLine]
    rw [accepted, cascadeVector]
    exact {
      programmed := ⟨done, whole, begun, same⟩
      masked := fun more => absurd ready more
      quiet := fun _ => rfl
      phase := .returning cascadeServed waiting
      second := second
      stale := stale
    }
  · have eligible := (next_eq_some.mp next).1.1
    rw [waiting, Bool.and_eq_true] at eligible
    have taken
        : (s.world.hw.pics.first.acknowledge keyboardLine).requested.getLsbD keyboardLine
          = false := by
      rw [acknowledge_requested]
      simp
    rw [accepted, keyboardVector]
    exact {
      programmed := ⟨done, whole, begun, same⟩
      masked := fun more => absurd ready more
      quiet := fun _ => rfl
      phase := .reading _ (.inl rfl) keyboardServed eligible.1 eligible.2 taken
      second := second
      stale := stale
    }

-----------------------------------------------------------------------------------------
-- Running a handler
-----------------------------------------------------------------------------------------

/-- The end of interrupt leaves the cascade's line in service. -/
theorem Serving.endOfInterrupt (serving : Serving hw (lineBit keyboardLine))
    : Serving (picSendEoi hw 1) 0 := by
  have ended
      : (picSendEoi hw 1).pics.first.inService
        = hw.pics.first.inService &&& (hw.pics.first.inService - 1) :=
    rfl
  rw [Serving, ended]
  rw [Serving] at serving
  generalize hw.pics.first.inService = inService at serving ⊢
  revert inService
  decide

/-- One call of a handler. -/
theorem Phase.call {call : HandlerCall} {rest : List HandlerCall} {returns : Bool}
    (phase : Phase alive hw (some ⟨call :: rest, returns⟩))
    : Phase alive (call.access hw) (some ⟨rest, returns⟩)
      ∧ (call.access hw).pics.second.inService = hw.pics.second.inService
      ∧ (alive = true ∨ (call.access hw).keyboard = hw.keyboard) := by
  cases phase with
  | ending serving waiting =>
      exact ⟨.returning serving.endOfInterrupt waiting, rfl, .inr rfl⟩
  | reading calls left serving current full taken =>
      rcases left with whole | part
      · obtain ⟨rfl, rfl⟩ := List.cons.inj whole
        exact ⟨.reading _ (.inr rfl) serving current full taken, rfl, .inr rfl⟩
      · obtain ⟨rfl, rfl⟩ := List.cons.inj part
        refine ⟨.ending serving ?_, rfl, .inl current⟩
        have emptied : ((HandlerCall.inb keyboardData).access hw).keyboard = none := rfl
        have dropped
            : ((HandlerCall.inb keyboardData).access hw).pics.first
              = hw.pics.first.withdraw keyboardLine :=
          rfl
        rw [Waiting, dropped, emptied, withdraw_requested]
        simp

/-- A handler goes on by one call, or returns to the main program with nothing but the
cascade's line in service.
-/
theorem Disciplined.proceed (disciplined : Disciplined alive start s)
    (stepped : s.exec .proceed = some s')
    : Disciplined alive start s' := by
  have ready : s.running ≠ none → s.setup = [] := by
    intro running
    by_contra more
    exact running (disciplined.masked more).2
  obtain ⟨⟨done, whole, begun, same⟩, masked, quiet, phase, second, stale⟩ := disciplined
  rw [InterruptSession.exec] at stepped
  split at stepped
  · cases stepped
  · next returns running =>
    have ready := ready (by simp [running])
    rw [running] at phase
    obtain ⟨idle, waiting⟩ : Serving s.world.hw 0 ∧ Waiting alive s.world.hw := by
      cases phase with
      | reading _ left _ _ _ _ => simp [keyboardBody] at left
      | returning idle waiting => exact ⟨idle, waiting⟩
    split at stepped
    · cases stepped
      exact {
        programmed := ⟨done, whole, begun, same⟩
        masked := fun more => absurd ready more
        quiet := fun running => absurd rfl running
        phase := .main idle waiting
        second := second
        stale := stale
      }
    · cases stepped
  · next call rest returns running =>
    have ready := ready (by simp [running])
    have quiet := quiet (by simp [running])
    cases stepped
    rw [running] at phase
    obtain ⟨phase, sameSecond, sameKeyboard⟩ := phase.call
    rw [← call.run_hw] at phase sameSecond sameKeyboard
    exact {
      programmed :=
        ⟨done, whole, begun, same.trans (call.run_hw s.world ▸ SameSettings.call _ call)⟩
      masked := fun more => absurd ready more
      quiet := fun _ => quiet
      phase := phase
      second := sameSecond.trans second
      stale := by
        intro dead
        rcases sameKeyboard with alive | same
        · exact absurd (dead.symm.trans alive) Bool.false_ne_true
        · exact (congrArg Option.isSome same).trans (stale dead)
    }

/-- Every step keeps the discipline. -/
theorem Disciplined.step {event : InterruptEvent} (disciplined : Disciplined alive start s)
    (enabled : interruptMachine.enabled s event)
    (stepped : interruptMachine.exec s event = some s')
    : Disciplined alive start s' := by
  cases event with
  | setup =>
      simp only [interruptMachine, InterruptSession.exec] at stepped
      split at stepped
      · cases stepped
      · next access rest next =>
        cases stepped
        exact disciplined.setup next
  | setFlag on =>
      cases stepped
      obtain ⟨between, ready⟩ := enabled
      exact { disciplined with
        masked := fun more => absurd ready more
        quiet := fun running => absurd between running }
  | request second line =>
      cases stepped
      refine disciplined.device (fun _ => rfl) (fun _ => rfl) (enabled.imp_right ?_)
      intro other c
      rw [request_requested]
      simp [Ne.symm other]
  | withdraw second line =>
      cases stepped
      refine disciplined.device (fun _ => rfl) (fun _ => rfl) (enabled.imp_right ?_)
      intro other c
      rw [withdraw_requested]
      simp [Ne.symm other]
  | key code =>
      cases stepped
      exact disciplined.key enabled code _
  | accept sf =>
      cases stepped
      exact disciplined.accept enabled.1 enabled.2.1 sf
  | proceed => exact disciplined.proceed stepped

/-- The first byte of `pic_init` drops all requests of the first controller, so that a code
that waits has lost its own.
-/
theorem picInitBegun_disciplined {tty : Terminal} (quiet : NothingInService hw)
    : Disciplined hw.keyboard.isNone hw (picInitBegun hw tty) where
  programmed := ⟨picInit.take 1, rfl, by decide, .refl _⟩
  masked _ := ⟨rfl, rfl⟩
  quiet running := absurd rfl running
  phase := by
    have idle : Serving (picInitBegun hw tty).world.hw 0 := by
      have kept : (picInitBegun hw tty).world.hw.pics.first.inService = 0 := quiet.1
      rw [Serving, kept]
      decide
    refine .main idle ?_
    have reset : (picInitBegun hw tty).world.hw.pics.first.requested = 0 := rfl
    have kept : (picInitBegun hw tty).world.hw.keyboard = hw.keyboard := rfl
    rw [Waiting, reset, kept]
    cases hw.keyboard <;> rfl
  second := quiet.2
  stale dead := by
    have kept : (picInitBegun hw tty).world.hw.keyboard = hw.keyboard := rfl
    rw [kept]
    cases found : hw.keyboard with
    | none => simp [found] at dead
    | some _ => rfl

-----------------------------------------------------------------------------------------
-- Scan codes
-----------------------------------------------------------------------------------------

/-- The scan codes received and the one that waits are those sent, in order, behind the one
that waited when `pic_init` began.
-/
def Heard (start : InterruptHardware) (s : InterruptSession) : Prop :=
  start.keyboard.toList ++ s.sent = s.received ++ s.world.hw.keyboard.toList

/-- `pic_init` does not talk to the keyboard. -/
theorem PortAccess.run_keyboard (access : PortAccess) (hw : InterruptHardware)
    : (access.run hw).keyboard = hw.keyboard := by
  cases access with
  | iowait => rfl
  | outb port value =>
      simp only [run, SimpleKernel.outb]
      split_ifs <;> rfl

/-- A call reads the code that it takes out of the buffer. -/
theorem HandlerCall.reads_keyboard (call : HandlerCall) (hw : InterruptHardware)
    : call.reads hw ++ (call.access hw).keyboard.toList = hw.keyboard.toList := by
  cases call with
  | terminalWritestring _ => rfl
  | iprint _ => rfl
  | inb port =>
      by_cases data : port = keyboardData
      · subst data
        exact List.append_nil _
      · simp only [reads, data, access, SimpleKernel.inb, if_false]
        split_ifs <;> rfl
  | picSendEoi irq =>
      simp only [reads, access, SimpleKernel.picSendEoi]
      split_ifs <;> rfl

/-- No code is lost or doubled by a step. -/
theorem Heard.step {event : InterruptEvent} (heard : Heard start s)
    (enabled : interruptMachine.enabled s event)
    (stepped : interruptMachine.exec s event = some s')
    : Heard start s' := by
  rw [Heard] at heard ⊢
  cases event with
  | setup =>
      simp only [interruptMachine, InterruptSession.exec] at stepped
      split at stepped
      · cases stepped
      · next access rest next =>
        cases stepped
        rw [access.run_keyboard]
        exact heard
  | setFlag on =>
      cases stepped
      exact heard
  | request second line =>
      cases stepped
      cases second <;> exact heard
  | withdraw second line =>
      cases stepped
      cases second <;> exact heard
  | key code =>
      cases stepped
      have empty : s.world.hw.keyboard = none := enabled
      rw [empty, Option.toList_none, List.append_nil] at heard
      rw [← List.append_assoc, heard]
      rfl
  | accept sf =>
      cases stepped
      exact heard
  | proceed =>
      simp only [interruptMachine, InterruptSession.exec] at stepped
      split at stepped
      · cases stepped
      · split at stepped
        · cases stepped
          exact heard
        · cases stepped
      · next call rest returns running =>
        cases stepped
        rw [heard, List.append_assoc, call.run_hw, call.reads_keyboard]

/-- A handler reads nothing while a code from before `pic_init` waits. -/
theorem Disciplined.silent {event : InterruptEvent} (disciplined : Disciplined false start s)
    (silent : s.received = []) (stepped : interruptMachine.exec s event = some s')
    : s'.received = [] := by
  cases event with
  | setup =>
      simp only [interruptMachine, InterruptSession.exec] at stepped
      split at stepped <;> cases stepped
      exact silent
  | setFlag _ | request _ _ | withdraw _ _ | key _ | accept _ =>
      cases stepped
      exact silent
  | proceed =>
      simp only [interruptMachine, InterruptSession.exec] at stepped
      split at stepped
      · cases stepped
      · split at stepped
        · cases stepped
          exact silent
        · cases stepped
      · next call rest returns running =>
        cases stepped
        have phase := disciplined.phase
        rw [running] at phase
        cases phase with
        | reading _ _ _ current _ _ => cases current
        | ending _ _ => simp [silent, HandlerCall.reads]

-----------------------------------------------------------------------------------------
-- Whole runs
-----------------------------------------------------------------------------------------

/-- Controllers as the firmware may leave them, with or without a scan code that waits. -/
def firmwareHardware (keyboard : Option Byte) : InterruptHardware where
  pics := ⟨⟨0xB8, 0x01, 0, 0x08, 0x04, 0x01, .mask⟩, ⟨0x8F, 0, 0, 0x70, 0x02, 0x01, .mask⟩⟩
  keyboard := keyboard

/-- A frame of kernel code. -/
def kernelFrame : Stackframe where
  edi := 0
  esi := 0
  ebp := 0
  esp := 0
  ebx := 0
  edx := 0
  ecx := 0
  eax := 0
  err := 0
  eip := 0xC0100000
  cs := 0x08
  eflags := 0x202

/-- The timer ticks while `pic_init` runs, and a key is pressed behind `sti`. -/
def pressedLater : List InterruptEvent :=
  .request false timerLine :: List.replicate 17 .setup ++ [.setFlag true, .key 0x1E]

variable {tty : Terminal}

/-- Both invariants hold in every state reached, by their step lemmas. -/
theorem interruptRun_invariant (quiet : NothingInService hw)
    (run : interruptMachine.Reaches Undisturbed (picInitBegun hw tty) s)
    : Disciplined hw.keyboard.isNone hw s ∧ Heard hw s := by
  have heard : Heard hw (picInitBegun hw tty) := by
    have kept : (picInitBegun hw tty).world.hw.keyboard = hw.keyboard := rfl
    rw [Heard, kept]
    exact List.append_nil _
  refine run.invariant ⟨picInitBegun_disciplined quiet, heard⟩ ?_
  intro s s' event invariant enabled _ stepped
  exact ⟨invariant.1.step enabled stepped, invariant.2.step enabled stepped⟩

/-- From `pic_init` on, with the devices and the processor in any order: nothing but the
cascade's line is in service when the main program runs, handlers are never interrupted and
make no other calls than the keyboard's, and scan codes arrive once and in order.
-/
theorem interruptRun_disciplined (quiet : NothingInService hw)
    (run : interruptMachine.Reaches Undisturbed (picInitBegun hw tty) s)
    : (s.running = none → Serving s.world.hw 0 ∧ s.world.hw.pics.second.inService = 0)
      ∧ (∀ body,
          s.running = some body
          → s.setup = []
            ∧ s.interruptible = false
            ∧ body.returns = true
            ∧ body.calls <:+ keyboardBody.calls)
      ∧ hw.keyboard.toList ++ s.sent = s.received ++ s.world.hw.keyboard.toList := by
  obtain ⟨disciplined, heard⟩ := interruptRun_invariant quiet run
  have phase := disciplined.phase
  refine ⟨?_, ?_, heard⟩
  · intro between
    rw [between] at phase
    cases phase with
    | main idle _ => exact ⟨idle, disciplined.second⟩
  · intro body running
    have ready : s.setup = [] := by
      by_contra more
      have between := (disciplined.masked more).2
      simp [running] at between
    rw [running] at phase
    refine ⟨ready, disciplined.quiet (by simp [running]), ?_⟩
    cases phase with
    | reading calls left _ _ _ _ =>
        rcases left with rfl | rfl
        · exact ⟨rfl, List.suffix_refl _⟩
        · exact ⟨rfl, List.tail_suffix keyboardBody.calls⟩
    | ending _ _ => exact ⟨rfl, by decide⟩
    | returning _ _ => exact ⟨rfl, List.nil_suffix⟩

/-- A handler runs with interrupts disabled. Witness: a key is pressed behind `sti`, and its
handler has made its first call.
-/
theorem interruptRun_disciplined_pressedLater
    : ∃ s,
        interruptMachine.replay Undisturbed (pressedLater ++ [.accept kernelFrame, .proceed])
            (picInitBegun (firmwareHardware none) (unsetTerminal fun _ => 0))
          = some s
        ∧ s.interruptible = false
        ∧ [0x1E] = s.received ++ s.world.hw.keyboard.toList := by
  have replayed
      : interruptMachine.replay Undisturbed (pressedLater ++ [.accept kernelFrame, .proceed])
          (picInitBegun (firmwareHardware none) (unsetTerminal fun _ => 0))
        = some _ :=
    rfl
  obtain ⟨_, handling, heard⟩ :=
    interruptRun_disciplined ⟨rfl, rfl⟩ (Machine.Reaches.replay .refl replayed)
  exact ⟨_, replayed, (handling _ rfl).2.1, heard⟩

/-- Only the handler and its acceptance. -/
def Attending (_ : InterruptSession) : InterruptEvent → Prop
  | .accept _ | .proceed => True
  | _ => False

/-- The line of a scan code that waits wins over every other request. -/
theorem Disciplined.accept_keyboard (disciplined : Disciplined true start s)
    (ready : s.setup = []) (between : s.running = none)
    (full : s.world.hw.keyboard.isSome = true)
    : s.world.hw.pics.accept
      = (
        0x21,
        { s.world.hw.pics with
          first := s.world.hw.pics.first.acknowledge keyboardLine }
      ) := by
  have phase := disciplined.phase
  rw [between] at phase
  obtain ⟨idle, waiting⟩ : Serving s.world.hw 0 ∧ Waiting true s.world.hw := by
    cases phase with
    | main idle waiting => exact ⟨idle, waiting⟩
  have mask : s.world.hw.pics.first.masked = 0b11111001 :=
    congrArg Controller.masked (disciplined.settled ready).1
  have next : s.world.hw.pics.first.next = some keyboardLine := by
    rw [next_eq_some]
    refine ⟨⟨by rw [waiting, full]; rfl, by rw [mask]; decide, ?_⟩, ?_⟩
    · rw [Serving] at idle
      generalize s.world.hw.pics.first.inService = inService at idle
      revert inService
      decide
    · intro higher above eligible
      have unmasked := eligible.2.1
      rw [mask] at unmasked
      clear eligible
      revert higher
      decide
  rcases disciplined.accept_cases ready with ⟨none, _⟩ | ⟨cascade, _⟩ | ⟨_, accepted⟩
  · simp [next] at none
  · simp [next, keyboardLine, cascadeLine] at cascade
  · exact accepted

section Attended

variable {t : InterruptSession} {w : HandlerWorld} {flag returns : Bool}
  {setup : List PortAccess} {call : HandlerCall} {rest : List HandlerCall}
  {sent received : List Byte}

/-- A run may go on with the next call of the handler. -/
theorem reaches_call
    (run
      : interruptMachine.Reaches Attending t
          ⟨w, flag, setup, some ⟨call :: rest, returns⟩, sent, received⟩)
    : interruptMachine.Reaches Attending t
        ⟨
          call.run w, flag, setup, some ⟨rest, returns⟩, sent,
          received ++ call.reads w.hw
        ⟩ :=
  .step .proceed run (Option.some_ne_none _) trivial rfl

/-- It may go on with the return of a handler that has no calls left. -/
theorem reaches_return
    (run
      : interruptMachine.Reaches Attending t
          ⟨w, flag, setup, some emptyBody, sent, received⟩)
    : interruptMachine.Reaches Attending t ⟨w, true, setup, none, sent, received⟩ :=
  .step .proceed run (Option.some_ne_none _) trivial rfl

/-- The keyboard handler runs to its end, reading the code that waits. -/
theorem reaches_keyboardRead {code : Byte} (full : w.hw.keyboard = some code)
    (run
      : interruptMachine.Reaches Attending t
          ⟨w, flag, setup, some keyboardBody, sent, received⟩)
    : ∃ w',
        interruptMachine.Reaches Attending t
          ⟨w', true, setup, none, sent, received ++ [code]⟩
        ∧ w'.hw.keyboard = none := by
  have ended := reaches_return (reaches_call (reaches_call (reaches_call run)))
  simp only [HandlerCall.reads, HandlerCall.run_hw, HandlerCall.access, full, if_true,
    List.append_nil, Option.toList_some] at ended
  exact ⟨_, ended, rfl⟩

end Attended

/-- The next call of a handler, or its return. -/
def InterruptEvent.isProceed : InterruptEvent → Bool
  | .proceed => true
  | _ => false

/-- The keyboard handler has gone on `n` times. It has not read `c` yet, or has nothing left to
read.
-/
structure Attends (before : List Byte) (c : Byte) (n : Nat) (s : InterruptSession) : Prop where
  running : s.running = some ⟨keyboardBody.calls.drop n, true⟩
  received : s.received = before ++ if n < 2 then [] else [c]
  full : n < 2 → s.world.hw.keyboard = some c

section Attends

variable {before : List Byte} {c : Byte} {n : Nat}

/-- Up to the return of the handler it can always go on, and each time it makes its next call.
-/
theorem Attends.proceed (attends : Attends before c n s) (more : n < 3)
    (stepped : interruptMachine.exec s .proceed = some s')
    : Attends before c (n + 1) s' := by
  obtain ⟨running, received, full⟩ := attends
  have step {call : HandlerCall} {rest : List HandlerCall}
      (next : keyboardBody.calls.drop n = call :: rest)
      : s' = { s with
          world := call.run s.world
          running := some ⟨rest, true⟩
          received := s.received ++ call.reads s.world.hw } := by
    rw [next] at running
    simp only [interruptMachine, InterruptSession.exec, running, Option.some.injEq] at stepped
    exact stepped.symm
  obtain rfl | rfl | rfl : n = 0 ∨ n = 1 ∨ n = 2 := by omega
  · rw [step rfl]
    refine ⟨rfl, by simp [received, HandlerCall.reads], fun _ => ?_⟩
    rw [HandlerCall.run_hw]
    exact full (by decide)
  · rw [step rfl]
    refine ⟨rfl, ?_, fun early => absurd early (by decide)⟩
    simp [received, HandlerCall.reads, full (by decide)]
  · rw [step rfl]
    exact ⟨rfl, by simp [received, HandlerCall.reads], fun early => absurd early (by decide)⟩

/-- Behind its three calls the handler returns, and has read the code. -/
theorem Attends.goesOn (attends : Attends before c n s) (few : n ≤ 3)
    : ∃ s',
        interruptMachine.exec s .proceed = some s'
        ∧ (n = 3
          → s'.running = none ∧ s'.interruptible = true ∧ s'.received = before ++ [c]) := by
  obtain ⟨w, flag, setup, running, sent, received⟩ := s
  obtain ⟨running, received, _⟩ := attends
  dsimp only at running received
  subst running received
  obtain rfl | rfl | rfl | rfl : n = 0 ∨ n = 1 ∨ n = 2 ∨ n = 3 := by omega
  · exact ⟨_, rfl, fun last => absurd last (by decide)⟩
  · exact ⟨_, rfl, fun last => absurd last (by decide)⟩
  · exact ⟨_, rfl, fun last => absurd last (by decide)⟩
  · exact ⟨_, rfl, fun _ => ⟨rfl, rfl, rfl⟩⟩

/-- Nothing but the devices gets in between, and no code arrives before the read. -/
theorem Attends.elsewhere {event : InterruptEvent} (attends : Attends before c n s)
    (other : event.isProceed = false) (enabled : interruptMachine.enabled s event)
    (stepped : interruptMachine.exec s event = some s')
    : Attends before c n s' := by
  obtain ⟨running, received, full⟩ := attends
  have handling : s.running ≠ none := by simp [running]
  cases event with
  | setup => exact absurd enabled.1 handling
  | setFlag on => exact absurd enabled.1 handling
  | request second line =>
      cases stepped
      exact ⟨running, received, fun early => by cases second <;> exact full early⟩
  | withdraw second line =>
      cases stepped
      exact ⟨running, received, fun early => by cases second <;> exact full early⟩
  | key code =>
      cases stepped
      have empty : s.world.hw.keyboard = none := enabled
      refine ⟨running, received, fun early => ?_⟩
      simp [full early] at empty
  | accept sf => exact absurd enabled.1 handling
  | proceed => cases other

/-- Whatever happens meanwhile, the handler is as far as it has gone on, by induction on the
events.
-/
theorem Attends.trace {events : List InterruptEvent} (attends : Attends before c n s)
    (trace : interruptMachine.Trace Undisturbed s events s')
    (few : n + events.countP InterruptEvent.isProceed ≤ 3)
    : Attends before c (n + events.countP InterruptEvent.isProceed) s' := by
  induction trace generalizing n with
  | nil => exact attends
  | @cons _ _ _ event rest enabled _ stepped _ ih =>
      rw [List.countP_cons] at few ⊢
      cases going : event.isProceed with
      | false =>
          simp only [going, Bool.false_eq_true, if_false, Nat.add_zero] at few ⊢
          exact ih (attends.elsewhere going enabled stepped) few
      | true =>
          obtain rfl : event = .proceed := by
            cases event <;> first | rfl | cases going
          simp only [going, if_true] at few ⊢
          have next := ih (attends.proceed (by omega) stepped) (by omega)
          rwa [Nat.add_assoc, Nat.add_comm 1] at next

end Attends

/-- A scan code that waits while interrupts are enabled is served next, whatever else is
asked for, and its handler reads it. No code waited when `pic_init` began. However the devices
interfere, the handler can go on until its fourth step, which returns with that code read.
-/
theorem interruptRun_served {c : Byte} {k : Stackframe} (quiet : NothingInService hw)
    (empty : hw.keyboard = none)
    (run : interruptMachine.Reaches Undisturbed (picInitBegun hw tty) s)
    (between : s.running = none) (interruptible : s.interruptible = true)
    (full : s.world.hw.keyboard = some c) (kernel : ¬k.FromUser)
    : (∀ s', s.exec (.accept k) = some s' → s'.running = some keyboardBody)
      ∧ (∃ s',
        interruptMachine.Reaches Attending s s'
        ∧ s'.running = none
        ∧ s'.interruptible = true
        ∧ s'.received = s.received ++ [c]
        ∧ s'.world.hw.keyboard = none)
      ∧ ∀ entered events s',
        s.exec (.accept k) = some entered
        → interruptMachine.Trace Undisturbed entered events s'
        → events.countP InterruptEvent.isProceed ≤ 3
        → s'.running
            = some ⟨keyboardBody.calls.drop (events.countP InterruptEvent.isProceed), true⟩
          ∧ ∃ s'',
            interruptMachine.exec s' .proceed = some s''
            ∧ (events.countP InterruptEvent.isProceed = 3
              → s''.running = none
                ∧ s''.interruptible = true
                ∧ s''.received = s.received ++ [c]) := by
  have disciplined := (interruptRun_invariant quiet run).1
  rw [empty, Option.isNone_none] at disciplined
  have ready : s.setup = [] := by
    by_contra more
    have masked := (disciplined.masked more).1
    simp [interruptible] at masked
  have accepted := disciplined.accept_keyboard ready between (by rw [full]; rfl)
  have handler : (eventHandler (.external 0x21)).1.body k = keyboardBody := by
    rw [eventHandler_vectors.1]
    rfl
  have entered
      : s.exec (.accept k)
        = some
          { s with
            world.hw.pics.first := s.world.hw.pics.first.acknowledge keyboardLine
            interruptible := false
            running := some keyboardBody } := by
    simp only [InterruptSession.exec, accepted, handler]
  refine ⟨fun s' stepped => ?_, ?_, fun entered' events s' stepped trace few => ?_⟩
  · rw [entered] at stepped
    cases stepped
    rfl
  · have attended : interruptMachine.Reaches Attending s _ :=
      .step (.accept k) .refl ⟨between, interruptible, kernel⟩ trivial entered
    obtain ⟨w', returned, emptied⟩ := reaches_keyboardRead (by exact full) attended
    exact ⟨_, returned, rfl, rfl, rfl, emptied⟩
  · have begun : Attends s.received c 0 entered' := by
      obtain rfl := Option.some.inj (entered.symm.trans stepped)
      exact ⟨rfl, (List.append_nil _).symm, fun _ => full⟩
    have attends := begun.trace trace (by omega)
    rw [Nat.zero_add] at attends
    generalize events.countP InterruptEvent.isProceed = n at attends few ⊢
    exact ⟨attends.running, attends.goesOn few⟩

/-- The scan code is read by its handler. Witness: the key is pressed behind `sti`, while the
timer asks for service as well.
-/
theorem interruptRun_served_pressedLater
    : ∃ s s',
        interruptMachine.replay Undisturbed pressedLater
            (picInitBegun (firmwareHardware none) (unsetTerminal fun _ => 0))
          = some s
        ∧ interruptMachine.Reaches Attending s s'
        ∧ s'.received = [0x1E] := by
  have replayed
      : interruptMachine.replay Undisturbed pressedLater
          (picInitBegun (firmwareHardware none) (unsetTerminal fun _ => 0))
        = some _ :=
    rfl
  obtain ⟨_, ⟨s', reached, _, _, received, _⟩, _⟩ :=
    interruptRun_served (c := 0x1E) (k := kernelFrame) ⟨rfl, rfl⟩ rfl
      (Machine.Reaches.replay .refl replayed) rfl rfl rfl (by decide)
  exact ⟨_, s', replayed, reached, received⟩

/-- A scan code that waits when `pic_init` begins is never read: no handler reads the
keyboard, and no later code arrives.
-/
theorem interruptRun_deaf {code : Byte} (quiet : NothingInService hw)
    (full : hw.keyboard = some code)
    (run : interruptMachine.Reaches Undisturbed (picInitBegun hw tty) s)
    : s.received = [] ∧ s.sent = [] ∧ s.world.hw.keyboard = some code := by
  have invariant
      : Disciplined false hw s ∧ Heard hw s ∧ s.received = [] := by
    have begun : interruptMachine.Reaches Undisturbed (picInitBegun hw tty) _ := .refl
    obtain ⟨start, heard⟩ := interruptRun_invariant quiet begun
    rw [full, Option.isNone_some] at start
    refine run.invariant ⟨start, heard, rfl⟩ ?_
    rintro s s' event ⟨disciplined, heard, silent⟩ enabled _ stepped
    exact ⟨disciplined.step enabled stepped, heard.step enabled stepped,
      disciplined.silent silent stepped⟩
  obtain ⟨_, heard, silent⟩ := invariant
  rw [Heard, full, silent] at heard
  refine ⟨silent, ?_⟩
  cases waiting : s.world.hw.keyboard with
  | none => simp [waiting] at heard
  | some other =>
      simp [waiting] at heard
      exact ⟨heard.2, by rw [heard.1]⟩

/-- A code from before `pic_init` stays unread. Witness: all that is accepted is a spurious
interrupt, although the keyboard's buffer is full.
-/
theorem interruptRun_deaf_spurious
    : ∃ s,
        interruptMachine.replay Undisturbed
            (List.replicate 17 .setup ++ [.setFlag true, .accept kernelFrame, .proceed])
            (picInitBegun (firmwareHardware (some 0x1E)) (unsetTerminal fun _ => 0))
          = some s
        ∧ s.received = []
        ∧ s.world.hw.keyboard = some 0x1E := by
  have replayed
      : interruptMachine.replay Undisturbed
          (List.replicate 17 .setup ++ [.setFlag true, .accept kernelFrame, .proceed])
          (picInitBegun (firmwareHardware (some 0x1E)) (unsetTerminal fun _ => 0))
        = some _ :=
    rfl
  obtain ⟨silent, _, waiting⟩ :=
    interruptRun_deaf ⟨rfl, rfl⟩ rfl (Machine.Reaches.replay .refl replayed)
  exact ⟨_, replayed, silent, waiting⟩

end Discipline

end SimpleKernel
