import SimpleKernel.Interrupts.Handlers
import SimpleKernel.Library.StackMachine

/-! The assembly wrappers around the interrupt handlers.
A wrapper completes the stack frame that the handler takes by value, calls the handler and
unwinds the frame. Code that is interrupted goes on as if nothing had happened, whatever the
handler does to the registers, if the handler leaves the frame alone. The calling convention
does not ask that of it: arguments passed by value are the callee's to overwrite.
-/

namespace SimpleKernel

open ByteMemory Masks StackMachine

/-- `WRAPPER_DEF_ERR`: the processor has pushed an error code. -/
def wrapperDefErr (f : Handler) (back : Addr) : List (Instr Handler) :=
  [.pushal, .cld, .call f back, .popal, .addEsp 4, .iret]

/-- `WRAPPER_DEF_NO_ERR`: a zero stands for the error code. -/
def wrapperDefNoErr (f : Handler) (back : Addr) : List (Instr Handler) :=
  [.pushl 0, .pushal, .cld, .call f back, .popal, .addEsp 4, .iret]

/-- The wrapper of each handler; `back` is the address behind its call. -/
def Handler.isrWrapper (f : Handler) (back : Addr) : List (Instr Handler) :=
  match f with
  | .doubleFaultHandler
  | .invalidTssHandler
  | .segmentNotPresentHandler
  | .stackFaultHandler
  | .generalProtectionHandler
  | .pageFaultHandler
  | .alignmentCheckHandler
  | .controlProtectionHandler => wrapperDefErr f back
  | _ => wrapperDefNoErr f back

-----------------------------------------------------------------------------------------
-- The frame
-----------------------------------------------------------------------------------------

/-- The processor has to push an error code for the wrapper of the handler. -/
def Handler.expectsError (f : Handler) : Bool :=
  f ∈ [
    .doubleFaultHandler, .invalidTssHandler, .segmentNotPresentHandler, .stackFaultHandler,
    .generalProtectionHandler, .pageFaultHandler, .alignmentCheckHandler,
    .controlProtectionHandler
  ]

/-- The wrapper of a handler is of one of the two kinds. -/
theorem Handler.isrWrapper_eq (f : Handler) (back : Addr)
    : f.isrWrapper back
      = if f.expectsError then wrapperDefErr f back else wrapperDefNoErr f back := by
  cases f <;> rfl

/-- The words of a frame, from the lowest address up. -/
def Stackframe.words (sf : Stackframe) : List Word :=
  [
    sf.edi, sf.esi, sf.ebp, sf.esp, sf.ebx, sf.edx, sf.ecx, sf.eax, sf.err, sf.eip, sf.cs,
    sf.eflags
  ]

/-- The frame of code interrupted in state `s`. The stack pointer in it is the one that
`pushal` found, below what the processor pushed.
-/
def interruptFrame (s : Cpu) (error : Word) : Stackframe where
  edi := s.edi
  esi := s.esi
  ebp := s.ebp
  esp := s.esp - 16
  ebx := s.ebx
  edx := s.edx
  ecx := s.ecx
  eax := s.eax
  err := error
  eip := s.eip
  cs := s.cs.setWidth 32
  eflags := s.eflags

section Frames

variable {m : Memory} {a : Addr} {sf : Stackframe}

/-- A frame is read back from its words. -/
theorem stackframeAt_of_words (holds : Words m a sf.words) : stackframeAt m a = sf := by
  obtain ⟨edi, esi, ebp, esp, ebx, edx, ecx, eax, err, eip, cs, eflags, _⟩ := holds
  simp only [BitVec.add_assoc, BitVec.reduceAdd, BitVec.ofNat_eq_ofNat]
    at esi ebp esp ebx edx ecx eax err eip cs eflags
  simp only [stackframeAt, BitVec.ofNat_eq_ofNat, edi, esi, ebp, esp, ebx, edx, ecx, eax, err,
    eip, cs, eflags]

end Frames

/-- The stack from `below` bytes under the stack pointer to `above` bytes over it holds
nothing that handlers own.
-/
def StackApart (owned : Addr → Prop) (below above : Nat) (s : Cpu) : Prop :=
  ∀ x : Addr, (x - (s.esp - BitVec.ofNat 32 below)).toNat < below + above → ¬owned x

/-- What a compiled handler owes its caller, from its entry `s` to its return `s'`. It may
use `scratch` bytes of stack, write what handlers own and change every register. Its arguments,
the 48 bytes above the return address, are its own as well.
-/
structure Returned (owned : Addr → Prop) (scratch : Nat) (s s' : Cpu) : Prop where
  eip : s'.eip = s.mem.load32 s.esp
  esp : s'.esp = s.esp + 4
  cs : s'.cs = s.cs
  nested : s'.eflags &&& nestedFlag = s.eflags &&& nestedFlag
  kept
    : ∀ x : Addr,
        ¬owned x
        → scratch + 52 ≤ (x - (s.esp - BitVec.ofNat 32 scratch)).toNat
        → s'.mem x = s.mem x

/-- The machine code of the handlers: entered with the direction flag clear and the frame
above its return address, a handler returns when its body does.
-/
structure Compiled (owned : Addr → Prop) (scratch : Nat)
    (routines : Handler → Cpu → Option Cpu)
    : Prop where
  returns
    : ∀ f s,
        s.eflags &&& directionFlag = 0
        → StackApart owned scratch 52 s
        → (f.body (stackframeAt s.mem (s.esp + 4))).returns = true
        → ∃ s', routines f s = some s' ∧ Returned owned scratch s s'
  loops
    : ∀ f s,
        s.eflags &&& directionFlag = 0
        → StackApart owned scratch 52 s
        → (f.body (stackframeAt s.mem (s.esp + 4))).returns = false
        → routines f s = none

/-- The memory that handlers do not own is as it was, outside the stack that was free. -/
def MemoryKept (owned : Addr → Prop) (scratch : Nat) (s s' : Cpu) : Prop :=
  ∀ x : Addr,
    ¬owned x
    → scratch + 52 ≤ (x - (s.esp - BitVec.ofNat 32 (scratch + 52))).toNat
    → s'.mem x = s.mem x

/-- Interrupted code goes on: every register is as it was, and so is its memory. -/
structure Resumed (owned : Addr → Prop) (scratch : Nat) (s s' : Cpu) : Prop where
  registers : s' = { s with mem := s'.mem }
  kept : MemoryKept owned scratch s s'

/-- The registers that `popal` and `iret` take out of a frame. They skip the stack pointer in
it, and the error code.
-/
def Stackframe.restored (sf : Stackframe) (esp : Word) (mem : Memory) : Cpu where
  eax := sf.eax
  ecx := sf.ecx
  edx := sf.edx
  ebx := sf.ebx
  esp := esp
  ebp := sf.ebp
  esi := sf.esi
  edi := sf.edi
  eip := sf.eip
  cs := sf.cs.setWidth 16
  eflags := sf.eflags
  mem := mem

/-- The frame still holds the registers of the code that was interrupted in state `s`. -/
def Stackframe.Restores (sf : Stackframe) (s : Cpu) : Prop :=
  sf.restored s.esp s.mem = s

/-- What code interrupted in state `s` finds behind a handler that returned in state `h`. The
frame lies where the stack pointer is; one that leads to another privilege level or to
virtual-8086 mode is left out, as it is for `iret`.
-/
def resumption (s h : Cpu) : Option Cpu :=
  let sf := stackframeAt h.mem h.esp
  if sf.eflags &&& virtualFlag = 0 ∧ (sf.cs.setWidth 16).setWidth 2 = s.privilege then
    some (sf.restored s.esp h.mem)
  else none

-----------------------------------------------------------------------------------------
-- One interrupt
-----------------------------------------------------------------------------------------

/-- The state in which a wrapper calls its handler. -/
def calledState (s : Cpu) (target : Target) (error : Word) (back : Addr) : Cpu :=
  let saved := (s.interrupt target (some error)).pushal
  { saved with eflags := saved.eflags &&& ~~~directionFlag }.push back

section Calls

variable (s : Cpu) (target : Target) (error : Word) (back : Addr)

/-- Everything pushed on the way to the handler, in its order. -/
def calledPushes (s : Cpu) (error : Word) (back : Addr) : List Word :=
  [
    s.eflags, s.cs.setWidth 32, s.eip, error, s.eax, s.ecx, s.edx, s.ebx,
    s.esp - 4 - 4 - 4 - 4, s.ebp, s.esi, s.edi, back
  ]

/-- The memory at the call is that behind the pushes. -/
theorem calledState_mem
    : (calledState s target error back).mem
      = ((calledPushes s error back).foldl Cpu.push s).mem :=
  rfl

/-- So is the stack pointer. -/
theorem calledState_esp
    : (calledState s target error back).esp
      = ((calledPushes s error back).foldl Cpu.push s).esp :=
  rfl

/-- At the call the return address and the frame stand on the stack, as everything pushed is
still there.
-/
theorem calledState_words
    : Words (calledState s target error back).mem (calledState s target error back).esp
        (back :: (interruptFrame s error).words) := by
  have empty : Words s.mem s.esp [] := trivial
  have pushed := empty.pushes (calledPushes s error back) (by simp [calledPushes])
  rw [calledState_mem, calledState_esp]
  have skipped : s.esp - 4 - 4 - 4 - 4 = s.esp - 16 := by bv_omega
  simp only [calledPushes, skipped] at pushed ⊢
  exact pushed

/-- The stack has grown by 52 bytes, and all memory above it is as it was. -/
theorem calledState_grown : Grown 52 s (calledState s target error back) := by
  obtain ⟨esp, above⟩ := (Grown.refl s).pushes (calledPushes s error back)
    (by simp [calledPushes])
  rw [← calledState_esp s target] at esp above
  rw [← calledState_mem s target] at above
  exact ⟨esp, above⟩

/-- A handler finds the frame above its return address. -/
theorem calledState_frame
    : stackframeAt (calledState s target error back).mem
        ((calledState s target error back).esp + 4)
      = interruptFrame s error :=
  stackframeAt_of_words (calledState_words s target error back).2

/-- What a wrapper does behind the call of its handler. -/
def unwind (s : Cpu) : Option Cpu :=
  let s := s.popal
  { s with esp := s.esp + 4, eflags := addFlags s.eflags s.esp 4 }.iret

/-- A handler is entered with the direction flag clear, by `cld`, and without a nested task, by
the gate.
-/
theorem calledState_cleared
    : (calledState s target error back).eflags &&& directionFlag = 0
      ∧ (calledState s target error back).eflags &&& nestedFlag = 0 := by
  have flags
      : (calledState s target error back).eflags
        = s.eflags
            &&& ~~~(interruptFlag ||| trapFlag ||| nestedFlag ||| resumeFlag ||| virtualFlag)
            &&& ~~~directionFlag :=
    rfl
  rw [flags]
  constructor
  · rw [BitVec.and_assoc, show ~~~directionFlag &&& directionFlag = 0 by decide]
    exact BitVec.and_zero
  · rw [and_not_and_of_disjoint (by decide), BitVec.and_assoc]
    exact BitVec.and_zero

variable {s target error back} {s' : Cpu} {f : Handler} {owned : Addr → Prop} {scratch : Nat}
  {routines : Handler → Cpu → Option Cpu}

/-- A wrapper calls its handler in the state above and unwinds the frame if it comes back
behind the call.
-/
theorem runCode_wrapperDefErr
    : runCode routines (wrapperDefErr f back) (s.interrupt target (some error))
      = (routines f (calledState s target error back)).bind fun s =>
          if s.eip = back then unwind s else none := by
  simp only [runCode, wrapperDefErr, List.foldlM_cons, List.foldlM_nil, Instr.exec,
    Option.bind_eq_bind, Option.bind_some]
  rw [calledState]
  cases routines f _ with
  | none => rfl
  | some s' =>
    simp only [Option.bind_some]
    split
    · simp only [Option.bind_some, Option.pure_def, Option.bind_fun_some]
      rfl
    · rfl

/-- A wrapper without an error code pushes zero for it. -/
theorem runCode_wrapperDefNoErr
    : runCode routines (wrapperDefNoErr f back) (s.interrupt target none)
      = runCode routines (wrapperDefErr f back) (s.interrupt target (some 0)) := by
  have pushed : (s.interrupt target none).push 0 = s.interrupt target (some 0) := rfl
  rw [← pushed, wrapperDefNoErr, runCode, List.foldlM_cons, Instr.exec]
  exact Option.bind_some ..

/-- A frame unwound restores the registers in it, at the stack pointer above it. -/
theorem unwind_eq (nested : s.eflags &&& nestedFlag = 0)
    : unwind s
      = if (stackframeAt s.mem s.esp).eflags &&& virtualFlag = 0
            ∧ ((stackframeAt s.mem s.esp).cs.setWidth 16).setWidth 2 = s.privilege then
          some ((stackframeAt s.mem s.esp).restored (s.esp + 48) s.mem)
        else none := by
  have untouched : addFlags s.eflags (s.esp + 32) 4 &&& nestedFlag = 0 := by
    rw [addFlags_and (by decide), nested]
  have eip : s.esp + 32 + 4 = s.esp + 36 := by bv_omega
  have cs : s.esp + 36 + 4 = s.esp + 40 := by bv_omega
  have eflags : s.esp + 36 + 8 = s.esp + 44 := by bv_omega
  have top : s.esp + 36 + 12 = s.esp + 48 := by bv_omega
  simp only [unwind, Cpu.iret, Cpu.popal, Cpu.privilege, Stackframe.restored, stackframeAt, eip,
    cs, eflags, top, untouched, true_and]
  rfl

/-- Behind a handler the wrapper unwinds what the handler left of the frame, and no memory has
changed but what the handler may write.
-/
theorem Returned.unwind (returned : Returned owned scratch (calledState s target error back) s')
    (fits : scratch + 52 < 2 ^ 32) (level : target.selector.setWidth 2 = s.privilege)
    : SimpleKernel.unwind s' = resumption s s' ∧ MemoryKept owned scratch s s' := by
  obtain ⟨eip, esp, cs, nested, kept⟩ := returned
  obtain ⟨low, above⟩ := calledState_grown s target error back
  have cleared := calledState_cleared s target error back
  have selected : (calledState s target error back).cs = target.selector := rfl
  generalize calledState s target error back = q at *
  have same : s'.privilege = s.privilege := by
    rw [Cpu.privilege, cs, selected, level]
  have bottom : s'.esp + 48 = s.esp := by bv_omega
  refine ⟨?_, fun x unowned outside => ?_⟩
  · rw [unwind_eq (nested.trans cleared.2), same, bottom, resumption]
  · have size : (BitVec.ofNat 32 scratch).toNat = scratch := Nat.mod_eq_of_lt (by omega)
    rw [BitVec.ofNat_add] at outside
    generalize BitVec.ofNat 32 scratch = depth at *
    calc s'.mem x = q.mem x := kept x unowned (by bv_omega)
      _ = s.mem x := above x (by bv_omega)

/-- Interrupted code is resumed as it was exactly when the handler left its registers in the
frame. Nothing else can put them back, as the wrapper reads all of them from there.
-/
theorem resumption_resumed_iff {h : Cpu} (kept : MemoryKept owned scratch s h)
    (virtual : s.eflags &&& virtualFlag = 0)
    : (∃ s', resumption s h = some s' ∧ Resumed owned scratch s s')
      ↔ (stackframeAt h.mem h.esp).Restores s := by
  rw [resumption]
  generalize stackframeAt h.mem h.esp = sf
  constructor
  · rintro ⟨s', resumed, registers, _⟩
    split at resumed
    · obtain rfl := Option.some.inj resumed
      exact congrArg (fun c : Cpu => { c with mem := s.mem }) registers
    · cases resumed
  · intro restores
    have registers : sf.restored s.esp h.mem = { s with mem := h.mem } :=
      congrArg (fun c : Cpu => { c with mem := h.mem }) restores
    have eflags : sf.eflags = s.eflags := congrArg Cpu.eflags restores
    have cs : sf.cs.setWidth 16 = s.cs := congrArg Cpu.cs restores
    refine ⟨_, if_pos ⟨eflags ▸ virtual, by rw [cs, Cpu.privilege]⟩, registers, kept⟩

/-- The same for a wrapper whose error code has been pushed. The handler finds the frame, and
by its contract it either loops or returns to the wrapper.
-/
theorem Compiled.runsWithError (compiled : Compiled owned scratch routines)
    (apart : StackApart owned (scratch + 52) 0 s) (fits : scratch + 52 < 2 ^ 32)
    (level : target.selector.setWidth 2 = s.privilege)
    : if (f.body (interruptFrame s error)).returns then
        ∃ h,
          routines f (calledState s target error back) = some h
          ∧ runCode routines (wrapperDefErr f back) (s.interrupt target (some error))
            = resumption s h
          ∧ MemoryKept owned scratch s h
      else
        runCode routines (wrapperDefErr f back) (s.interrupt target (some error)) = none := by
  have frame := calledState_frame s target error back
  have cleared := calledState_cleared s target error back
  have callee : StackApart owned scratch 52 (calledState s target error back) := by
    intro x near
    have low := (calledState_grown s target error back).esp
    have size : (BitVec.ofNat 32 scratch).toNat = scratch := Nat.mod_eq_of_lt (by omega)
    refine apart x ?_
    rw [BitVec.ofNat_add]
    bv_omega
  rw [runCode_wrapperDefErr]
  split
  · next returns =>
    rw [← frame] at returns
    obtain ⟨h, ran, returned⟩ := compiled.returns f _ cleared.1 callee returns
    obtain ⟨unwound, kept⟩ := returned.unwind fits level
    have back : h.eip = back :=
      returned.eip.trans (calledState_words s target error back).1
    refine ⟨h, ran, ?_, kept⟩
    rw [ran, Option.bind_some, if_pos back, unwound]
  · next loops =>
    rw [← frame, Bool.not_eq_true] at loops
    rw [compiled.loops f _ cleared.1 callee loops]
    rfl

/-- A wrapper either goes back to the interrupted code with what its handler left of the frame,
or its handler never returns. It has to be of the kind that the error code pushed asks for.
-/
theorem Compiled.runs {error : Option Word} (compiled : Compiled owned scratch routines)
    (target : Target) (back : Addr)
    (expected : f.expectsError = error.isSome)
    (apart : StackApart owned (scratch + 52) 0 s) (fits : scratch + 52 < 2 ^ 32)
    (level : target.selector.setWidth 2 = s.privilege)
    : if (f.body (interruptFrame s (error.getD 0))).returns then
        ∃ h,
          routines f (calledState s target (error.getD 0) back) = some h
          ∧ runCode routines (f.isrWrapper back) (s.interrupt target error) = resumption s h
          ∧ MemoryKept owned scratch s h
      else runCode routines (f.isrWrapper back) (s.interrupt target error) = none := by
  have wrapped
      : runCode routines (f.isrWrapper back) (s.interrupt target error)
        = runCode routines (wrapperDefErr f back) (s.interrupt target (some (error.getD 0))) := by
    rw [f.isrWrapper_eq, expected]
    cases error with
    | none =>
        rw [Option.isSome_none, if_neg Bool.false_ne_true]
        exact runCode_wrapperDefNoErr
    | some error =>
        rw [Option.isSome_some, if_pos rfl, Option.getD_some]
  rw [wrapped]
  exact compiled.runsWithError apart fits level

end Calls

end SimpleKernel
