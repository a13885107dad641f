import SimpleKernel.Library.InterruptController
import SimpleKernel.Limits

/-! The two interrupt controllers and the keyboard controller behind their ports, and the
functions that program the interrupt controllers.
-/

namespace SimpleKernel

open ByteMemory InterruptController

/-- What answers the ports that the interrupt code uses: the interrupt controllers, and the
keyboard controller with the scan code that waits in its output buffer.
-/
structure InterruptHardware where
  pics : Cascade
  keyboard : Option Byte
  deriving DecidableEq

abbrev pic1Command : BitVec 16 := 0x20

abbrev pic1Data : BitVec 16 := pic1Command + 1

abbrev pic2Command : BitVec 16 := 0xA0

abbrev pic2Data : BitVec 16 := pic2Command + 1

abbrev picCommandEoi : Byte := 0x20

abbrev picOffset1 : Byte := 0x20

abbrev picOffset2 : Byte := 0x28

abbrev picIcw1Icw4 : Byte := 0x01

abbrev picIcw1Init : Byte := 0x10

abbrev picIcw48086 : Byte := 0x01

abbrev keyboardData : BitVec 16 := 0x60

/-- The line of the keyboard controller, which drives it while its output buffer is full. -/
def keyboardLine : Fin 8 :=
  ⟨1, by decide⟩

/-- The line of the timer. -/
def timerLine : Fin 8 :=
  ⟨0, by decide⟩

def outb (hw : InterruptHardware) (port : BitVec 16) (value : Byte) : InterruptHardware :=
  if port = pic1Command then
    { hw with pics.first := hw.pics.first.command value }
  else if port = pic1Data then
    { hw with pics.first := hw.pics.first.data value }
  else if port = pic2Command then
    { hw with pics.second := hw.pics.second.command value }
  else if port = pic2Data then
    { hw with pics.second := hw.pics.second.data value }
  else hw

/-- The value read, and the hardware after it. Reading the scan code empties the buffer and
lets the line go. A read of the command ports is left out.
-/
def inb (hw : InterruptHardware) (port : BitVec 16) : Byte × InterruptHardware :=
  if port = pic1Data then (hw.pics.first.masked, hw)
  else if port = pic2Data then (hw.pics.second.masked, hw)
  else if port = keyboardData then
    (
      hw.keyboard.getD 0,
      { hw with pics.first := hw.pics.first.withdraw keyboardLine, keyboard := none }
    )
  else (0xFF, hw)

def iowait (hw : InterruptHardware) : InterruptHardware :=
  (inb hw 0x80).2

def picSendEoi (hw : InterruptHardware) (irq : Byte) : InterruptHardware :=
  let hw := if irq > 7 then outb hw pic2Command picCommandEoi else hw
  outb hw pic1Command picCommandEoi

/-- The data port for a line, and the line's number behind it. -/
def picMaskPort (line : Byte) : BitVec 16 × Byte :=
  if line > 7 then (pic2Data, line - 8) else (pic1Data, line)

/-- `1 << line`, as the byte that is sent. -/
def picMaskBit (line : Byte) : Byte :=
  (1#32 <<< line.toNat).setWidth 8

def picSetIrqMask (hw : InterruptHardware) (line : Byte) : InterruptHardware :=
  let (port, line) := picMaskPort line
  let (mask, hw) := inb hw port
  outb hw port (mask ||| picMaskBit line)

def picClearIrqMask (hw : InterruptHardware) (line : Byte) : InterruptHardware :=
  let (port, line) := picMaskPort line
  let (mask, hw) := inb hw port
  outb hw port (mask &&& ~~~picMaskBit line)

/-- An access to a port whose value read is not used. -/
inductive PortAccess
  | outb (port : BitVec 16) (value : Byte)
  | iowait

def PortAccess.run (hw : InterruptHardware) : PortAccess → InterruptHardware
  | .outb port value => SimpleKernel.outb hw port value
  | .iowait => SimpleKernel.iowait hw

/-- The accesses of `pic_map`, in their order. -/
def picMap (offset1 offset2 m1 m2 : Byte) : List PortAccess :=
  [
    .outb pic1Command (picIcw1Init ||| picIcw1Icw4), .iowait,
    .outb pic1Data offset1, .iowait,
    .outb pic1Data 0b00000100, .iowait,
    .outb pic1Data picIcw48086, .iowait,
    .outb pic2Command (picIcw1Init ||| picIcw1Icw4), .iowait,
    .outb pic2Data offset2, .iowait,
    .outb pic2Data 0b00000010, .iowait,
    .outb pic2Data picIcw48086, .iowait,
    .outb pic1Data m1,
    .outb pic2Data m2
  ]

def picDisable : List PortAccess :=
  [.outb pic1Data 0xFF, .outb pic2Data 0xFF]

/-- `~0U` is passed as a byte. -/
def picInit : List PortAccess :=
  picMap picOffset1 picOffset2 0b11111001 0xFF

-----------------------------------------------------------------------------------------
-- Masking lines
-----------------------------------------------------------------------------------------

inductive MaskCall
  | set (line : Byte)
  | clear (line : Byte)

def MaskCall.exec (hw : InterruptHardware) : MaskCall → InterruptHardware
  | .set line => picSetIrqMask hw line
  | .clear line => picClearIrqMask hw line

def MaskCall.line : MaskCall → Byte
  | .set line => line
  | .clear line => line

/-- What a call asks for its line. -/
def MaskCall.masks : MaskCall → Bool
  | .set _ => true
  | .clear _ => false

/-- A line of the pair is masked. -/
def lineMasked (hw : InterruptHardware) (line : Nat) : Bool :=
  if line < 8 then hw.pics.first.masked.getLsbD line
  else hw.pics.second.masked.getLsbD (line - 8)

/-- Both controllers take masks at their data ports. -/
def TakesMasks (hw : InterruptHardware) : Prop :=
  hw.pics.first.awaits = .mask ∧ hw.pics.second.awaits = .mask

section Masks

variable {hw : InterruptHardware} {line : Nat}

/-- The mask bit of a line stands for that line only. -/
theorem picMaskBit_getLsbD
    : ∀ line : Byte,
        line.toNat < 8
        → ∀ other < 8, (picMaskBit line).getLsbD other = decide (other = line.toNat) := by
  decide +kernel

/-- The new mask of a controller. -/
def MaskCall.update (mask bit : Byte) : MaskCall → Byte
  | .set _ => mask ||| bit
  | .clear _ => mask &&& ~~~bit

/-- Setting or clearing a mask bit changes no other bit of the mask. -/
theorem MaskCall.update_getLsbD (call : MaskCall) (mask : Byte) {own : Byte}
    (small : own.toNat < 8) {other : Nat} (inside : other < 8)
    : (call.update mask (picMaskBit own)).getLsbD other
      = if own.toNat = other then call.masks else mask.getLsbD other := by
  have bit := picMaskBit_getLsbD own small other inside
  cases call with
  | set _ =>
      rw [update, BitVec.getLsbD_or, bit, masks]
      by_cases same : own.toNat = other
      · simp [same]
      · simp [same, Ne.symm same]
  | clear _ =>
      rw [update, BitVec.getLsbD_and, BitVec.getLsbD_not, bit, masks]
      by_cases same : own.toNat = other
      · simp [same, inside]
      · simp [same, inside, Ne.symm same]

theorem outb_pic1Data (value : Byte)
    : outb hw pic1Data value = { hw with pics.first := hw.pics.first.data value } :=
  rfl

theorem outb_pic2Data (value : Byte)
    : outb hw pic2Data value = { hw with pics.second := hw.pics.second.data value } :=
  rfl

theorem inb_pic1Data : inb hw pic1Data = (hw.pics.first.masked, hw) :=
  rfl

theorem inb_pic2Data : inb hw pic2Data = (hw.pics.second.masked, hw) :=
  rfl

/-- What a call does to the hardware. -/
theorem MaskCall.exec_eq (takes : TakesMasks hw) (call : MaskCall)
    : call.exec hw
      = if call.line > 7 then
          { hw with
            pics.second.masked :=
              call.update hw.pics.second.masked (picMaskBit (call.line - 8)) }
        else
          { hw with
            pics.first.masked := call.update hw.pics.first.masked (picMaskBit call.line) } := by
  obtain ⟨first, second⟩ := takes
  cases call with
  | set line =>
      by_cases upper : line > 7
      · simp only [exec, picSetIrqMask, picMaskPort, MaskCall.line, if_pos upper, inb_pic2Data,
          outb_pic2Data, Controller.data, second, update]
      · simp only [exec, picSetIrqMask, picMaskPort, MaskCall.line, if_neg upper, inb_pic1Data,
          outb_pic1Data, Controller.data, first, update]
  | clear line =>
      by_cases upper : line > 7
      · simp only [exec, picClearIrqMask, picMaskPort, MaskCall.line, if_pos upper, inb_pic2Data,
          outb_pic2Data, Controller.data, second, update]
      · simp only [exec, picClearIrqMask, picMaskPort, MaskCall.line, if_neg upper, inb_pic1Data,
          outb_pic1Data, Controller.data, first, update]

/-- A call changes the mask of its own line only. -/
theorem MaskCall.exec_lineMasked (takes : TakesMasks hw) (call : MaskCall)
    (valid : call.line.toNat < 16) (inside : line < 16)
    : TakesMasks (call.exec hw)
      ∧ lineMasked (call.exec hw) line
        = if call.line.toNat = line then call.masks else lineMasked hw line := by
  rw [call.exec_eq takes]
  split
  · next second =>
    refine ⟨takes, ?_⟩
    have own : (call.line - 8).toNat = call.line.toNat - 8 := by bv_omega
    have above : 7 < call.line.toNat := second
    simp only [lineMasked]
    split
    · next low => rw [if_neg (by omega)]
    · next high =>
      rw [call.update_getLsbD _ (by omega) (by omega), own]
      split
      · rw [if_pos (by omega)]
      · rw [if_neg (by omega)]
  · next first =>
    refine ⟨takes, ?_⟩
    have below : call.line.toNat ≤ 7 := Nat.le_of_not_lt first
    simp only [lineMasked]
    split
    · next low => rw [call.update_getLsbD _ (by omega) low]
    · next high => rw [if_neg (by omega)]

/-- A call that changes masks. -/
inductive PicCall
  | mask (call : MaskCall)
  | disable

def PicCall.exec (hw : InterruptHardware) : PicCall → InterruptHardware
  | .mask call => call.exec hw
  | .disable => picDisable.foldl PortAccess.run hw

/-- The lines exist. -/
def PicCall.Valid : PicCall → Prop
  | .mask call => call.line.toNat < 16
  | .disable => True

/-- Whether a line is masked behind a call, when it was or was not before. -/
def PicCall.update (line : Nat) (masked : Bool) : PicCall → Bool
  | .mask call => if call.line.toNat = line then call.masks else masked
  | .disable => true

/-- Disabling masks all lines of both controllers. -/
theorem PicCall.exec_disable (takes : TakesMasks hw)
    : PicCall.disable.exec hw
      = { hw with pics.first.masked := 0xFF, pics.second.masked := 0xFF } := by
  simp only [PicCall.exec, picDisable, List.foldl_cons, List.foldl_nil, PortAccess.run,
    outb_pic1Data, outb_pic2Data, Controller.data, takes.1, takes.2]

/-- A call changes the mask of its own line as its name says, and keeps the controllers ready
for the next. By the lines of either controller.
-/
theorem PicCall.exec_lineMasked (takes : TakesMasks hw) (call : PicCall) (valid : call.Valid)
    (inside : line < 16)
    : TakesMasks (call.exec hw)
      ∧ lineMasked (call.exec hw) line = call.update line (lineMasked hw line) := by
  cases call with
  | mask call => exact call.exec_lineMasked takes valid inside
  | disable =>
      have all : ∀ k < 8, (0xFF : Byte).getLsbD k = true := by decide
      rw [exec_disable takes]
      refine ⟨takes, ?_⟩
      simp only [lineMasked, update]
      split
      · next low => exact all line low
      · next high => exact all (line - 8) (by omega)

/-- No call moves the vectors. -/
theorem PicCall.exec_base (takes : TakesMasks hw) (call : PicCall)
    : (call.exec hw).pics.first.base = hw.pics.first.base
      ∧ (call.exec hw).pics.second.base = hw.pics.second.base := by
  cases call with
  | mask call =>
      rw [exec, call.exec_eq takes]
      split <;> exact ⟨rfl, rfl⟩
  | disable =>
      rw [exec_disable takes]
      exact ⟨rfl, rfl⟩

/-- Whatever state the controllers are in, behind `pic_init` and any calls that mask, unmask
or disable, each line is masked exactly as the last call for it says; without one all lines
but the keyboard's and the cascade's are. The vectors are those of `pic_init` throughout.
-/
theorem picInit_lineMasked (hw : InterruptHardware) (calls : List PicCall)
    (valid : ∀ call ∈ calls, call.Valid) (inside : line < 16)
    : let programmed := calls.foldl PicCall.exec (picInit.foldl PortAccess.run hw)
      lineMasked programmed line
        = calls.foldl (fun masked call => call.update line masked) (decide (line ≠ 1 ∧ line ≠ 2))
      ∧ programmed.pics.first.base = picOffset1
      ∧ programmed.pics.second.base = picOffset2 := by
  have takes : TakesMasks (picInit.foldl PortAccess.run hw) := ⟨rfl, rfl⟩
  have bases
      : (picInit.foldl PortAccess.run hw).pics.first.base = picOffset1
        ∧ (picInit.foldl PortAccess.run hw).pics.second.base = picOffset2 :=
    ⟨rfl, rfl⟩
  have start
      : lineMasked (picInit.foldl PortAccess.run hw) line = decide (line ≠ 1 ∧ line ≠ 2) := by
    have first : (picInit.foldl PortAccess.run hw).pics.first.masked = 0b11111001 := rfl
    have second : (picInit.foldl PortAccess.run hw).pics.second.masked = 0xFF := rfl
    rw [lineMasked, first, second]
    revert line
    decide
  generalize picInit.foldl PortAccess.run hw = programmed at takes bases start ⊢
  generalize decide (line ≠ 1 ∧ line ≠ 2) = masked at start ⊢
  induction calls generalizing programmed masked with
  | nil => exact ⟨start, bases⟩
  | cons call rest ih =>
      obtain ⟨takes', masks⟩ :=
        call.exec_lineMasked takes (valid call List.mem_cons_self) inside
      obtain ⟨first, second⟩ := call.exec_base takes
      rw [List.foldl_cons, List.foldl_cons]
      refine ih (fun later mem => valid later (List.mem_cons_of_mem _ mem)) _ takes'
        ⟨first.trans bases.1, second.trans bases.2⟩ _ ?_
      rw [masks, start]

/-- The mask of a line is what the last call for it asked for, and set when there was none.
Witness: the mouse is let through and shut out again, and the timer is let through.
-/
theorem picInit_lineMasked_mouse
    : lineMasked
          ([.mask (.clear 12), .mask (.set 12), .mask (.clear 0)].foldl PicCall.exec
            (picInit.foldl PortAccess.run
              ⟨⟨⟨0, 0, 0, 0, 0, 0, .mode⟩, ⟨0, 0, 0, 0, 0, 0, .mask⟩⟩, none⟩))
          12
        = true
      ∧ lineMasked
          ([.mask (.clear 12), .mask (.set 12), .mask (.clear 0)].foldl PicCall.exec
            (picInit.foldl PortAccess.run
              ⟨⟨⟨0, 0, 0, 0, 0, 0, .mode⟩, ⟨0, 0, 0, 0, 0, 0, .mask⟩⟩, none⟩))
          0
        = false := by
  have valid
      : ∀ call ∈ [PicCall.mask (.clear 12), .mask (.set 12), .mask (.clear 0)], call.Valid := by
    simp [PicCall.Valid, MaskCall.line]
  exact ⟨(picInit_lineMasked _ _ valid (by decide)).1,
    (picInit_lineMasked _ _ valid (by decide)).1⟩

end Masks

end SimpleKernel
