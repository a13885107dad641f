import SimpleKernel.Library.ByteMemory
import SimpleKernel.Library.Masks

/-! The part of an i386 processor that takes an interrupt: the general registers, the flags,
the stack, and the instructions that save and restore them. The processor stays at one
privilege level, so an interrupt is taken on the stack of the code it interrupts.
-/

namespace StackMachine

open ByteMemory Masks

structure Cpu where
  eax : Word
  ecx : Word
  edx : Word
  ebx : Word
  esp : Word
  ebp : Word
  esi : Word
  edi : Word
  eip : Addr
  cs : BitVec 16
  eflags : Word
  mem : Memory

def trapFlag : Word := 0x100

def interruptFlag : Word := 0x200

def directionFlag : Word := 0x400

def nestedFlag : Word := 0x4000

def resumeFlag : Word := 0x10000

def virtualFlag : Word := 0x20000

/-- The flags that arithmetic writes: carry, parity, adjust, zero, sign and overflow. -/
def statusFlags : Word := 0x8D5

/-- The flags behind an addition of `a` and `b`. -/
def addFlags (flags a b : Word) : Word :=
  let sum := a + b
  let bit (set : Bool) (flag : Word) : Word := if set then flag else 0
  flags &&& ~~~statusFlags
    ||| bit (2 ^ 32 ≤ a.toNat + b.toNat) 0x001
    ||| bit ((List.range 8).countP sum.getLsbD % 2 = 0) 0x004
    ||| bit (16 ≤ a.toNat % 16 + b.toNat % 16) 0x010
    ||| bit (sum = 0) 0x040
    ||| bit sum.msb 0x080
    ||| bit (a.msb = b.msb ∧ sum.msb ≠ a.msb) 0x800

/-- The privilege level is the low two bits of the code selector. -/
def Cpu.privilege (s : Cpu) : BitVec 2 :=
  s.cs.setWidth 2

def Cpu.push (s : Cpu) (value : Word) : Cpu :=
  { s with esp := s.esp - 4, mem := s.mem.store32 (s.esp - 4) value }

/-- `pushal` stores the stack pointer it started with. -/
def Cpu.pushal (s : Cpu) : Cpu :=
  [s.eax, s.ecx, s.edx, s.ebx, s.esp, s.ebp, s.esi, s.edi].foldl Cpu.push s

/-- `popal` skips the stored stack pointer. -/
def Cpu.popal (s : Cpu) : Cpu where
  edi := s.mem.load32 s.esp
  esi := s.mem.load32 (s.esp + 4)
  ebp := s.mem.load32 (s.esp + 8)
  ebx := s.mem.load32 (s.esp + 16)
  edx := s.mem.load32 (s.esp + 20)
  ecx := s.mem.load32 (s.esp + 24)
  eax := s.mem.load32 (s.esp + 28)
  esp := s.esp + 32
  eip := s.eip
  cs := s.cs
  eflags := s.eflags
  mem := s.mem

/-- `iret` to the same privilege level. A task return, a return to virtual-8086 mode and one
to another level are left out.
-/
def Cpu.iret (s : Cpu) : Option Cpu :=
  let cs := (s.mem.load32 (s.esp + 4)).setWidth 16
  let flags := s.mem.load32 (s.esp + 8)
  if s.eflags &&& nestedFlag = 0 ∧ flags &&& virtualFlag = 0 ∧ cs.setWidth 2 = s.privilege then
    some
      { s with eip := s.mem.load32 s.esp, cs := cs, eflags := flags, esp := s.esp + 12 }
  else none

/-- Where a gate leads. -/
structure Target where
  offset : Addr
  selector : BitVec 16

/-- An interrupt through an interrupt gate to the same privilege level. Some exceptions push
an error code.
-/
def Cpu.interrupt (s : Cpu) (target : Target) (error : Option Word) : Cpu :=
  let saved := [s.eflags, s.cs.setWidth 32, s.eip].foldl Cpu.push s
  let entered := error.elim saved saved.push
  { entered with
    eip := target.offset
    cs := target.selector
    eflags :=
      s.eflags
        &&& ~~~(interruptFlag ||| trapFlag ||| nestedFlag ||| resumeFlag ||| virtualFlag) }

inductive Instr (ρ : Type*)
  | pushl (value : Word)
  | pushal
  | cld
  /-- A call of `routine`; `back` is the address of the instruction that follows. -/
  | call (routine : ρ) (back : Addr)
  | popal
  | addEsp (value : Word)
  | iret

/-- One instruction; `none` when it does not get to the next one. A routine is entered with
its return address on the stack.
-/
def Instr.exec {ρ : Type*} (routines : ρ → Cpu → Option Cpu) (s : Cpu) : Instr ρ → Option Cpu
  | .pushl value => some (s.push value)
  | .pushal => some s.pushal
  | .cld => some { s with eflags := s.eflags &&& ~~~directionFlag }
  | .call routine back =>
      match routines routine (s.push back) with
      | none => none
      | some s => if s.eip = back then some s else none
  | .popal => some s.popal
  | .addEsp value =>
      some { s with esp := s.esp + value, eflags := addFlags s.eflags s.esp value }
  | .iret => s.iret

def runCode {ρ : Type*} (routines : ρ → Cpu → Option Cpu) (code : List (Instr ρ)) (s : Cpu)
    : Option Cpu :=
  code.foldlM (Instr.exec routines) s

/-- An addition leaves the flags that are not about its result. -/
theorem addFlags_and {kept : Word} (apart : kept &&& statusFlags = 0) (flags a b : Word)
    : addFlags flags a b &&& kept = flags &&& kept := by
  have bits {set : Bool} {flag : Word} (status : flag &&& statusFlags = flag) (x : Word)
      : (x ||| if set then flag else 0) &&& kept = x &&& kept := by
    apply or_and_of_disjoint
    split
    · calc flag &&& kept = flag &&& (kept &&& statusFlags) := by
            rw [BitVec.and_comm kept, ← BitVec.and_assoc, status]
        _ = 0 := by simp [apart]
    · exact BitVec.zero_and
  simp only [addFlags]
  rw [bits (by decide), bits (by decide), bits (by decide), bits (by decide), bits (by decide),
    bits (by decide)]
  apply and_not_and_of_disjoint
  rw [BitVec.and_comm, apart]

-----------------------------------------------------------------------------------------
-- What stands on the stack
-----------------------------------------------------------------------------------------

/-- The words from `a` upwards are `words`. -/
def Words (m : Memory) : Addr → List Word → Prop
  | _, [] => True
  | a, word :: rest => m.load32 a = word ∧ Words m (a + 4) rest

section Stack

variable {m m' : Memory} {a : Addr} {words : List Word} {s s' : Cpu} {value : Word}
  {count : Nat}

/-- Words are kept with their bytes, by induction on them. -/
theorem Words.congr (holds : Words m a words) (fits : 4 * words.length ≤ 2 ^ 32)
    (same : ∀ x : Addr, (x - a).toNat < 4 * words.length → m' x = m x)
    : Words m' a words := by
  induction words generalizing a with
  | nil => trivial
  | cons word rest ih =>
      rw [List.length_cons] at fits same
      obtain ⟨first, others⟩ := holds
      refine ⟨?_, ih others (by omega) ?_⟩
      · rw [← first]
        exact Memory.load32_congr fun x near => same x (by omega)
      · intro x near
        exact same x (by bv_omega)

/-- A word stored below others joins them. -/
theorem Words.store32 (holds : Words m a words) (fits : 4 * (words.length + 1) ≤ 2 ^ 32)
    : Words (m.store32 (a - 4) value) (a - 4) (value :: words) := by
  refine ⟨Memory.load32_store32_same .., ?_⟩
  have next : a - 4 + 4 = a := by bv_omega
  rw [next]
  refine holds.congr (by omega) fun x near => ?_
  exact Memory.store32_of_outside _ _ (by bv_omega)

/-- Words pushed one after the other, the last one lowest; by induction on them. -/
theorem Words.pushes (holds : Words s.mem s.esp words) (values : List Word)
    (fits : 4 * (words.length + values.length) ≤ 2 ^ 32)
    : Words (values.foldl Cpu.push s).mem (values.foldl Cpu.push s).esp
        (values.reverse ++ words) := by
  induction values generalizing s words with
  | nil => exact holds
  | cons value rest ih =>
      rw [List.length_cons] at fits
      have pushed : Words (s.push value).mem (s.push value).esp (value :: words) :=
        holds.store32 (by omega)
      rw [List.foldl_cons, List.reverse_cons, List.append_assoc]
      refine ih pushed ?_
      rw [List.length_append, List.length_singleton]
      omega

/-- The stack grew by `count` bytes from `s` to `s'`, and nothing above it was written. -/
structure Grown (count : Nat) (s s' : Cpu) : Prop where
  esp : s'.esp = s.esp - BitVec.ofNat 32 count
  above : ∀ x : Addr, count ≤ (x - s'.esp).toNat → s'.mem x = s.mem x

theorem Grown.refl (s : Cpu) : Grown 0 s s :=
  ⟨by simp, fun _ _ => rfl⟩

/-- A push reaches one word further down. -/
theorem Grown.push (grown : Grown count s s') (value : Word) (fits : count + 4 < 2 ^ 32)
    : Grown (count + 4) s (s'.push value) := by
  obtain ⟨esp, above⟩ := grown
  have size : (BitVec.ofNat 32 count).toNat = count := Nat.mod_eq_of_lt (by omega)
  have lower : s'.esp - 4 = s.esp - BitVec.ofNat 32 (count + 4) := by
    rw [esp, BitVec.ofNat_add]
    bv_omega
  refine ⟨lower, fun x high => ?_⟩
  have high : count + 4 ≤ (x - (s'.esp - 4)).toNat := high
  rw [← above x (by bv_omega)]
  exact Memory.store32_of_outside _ _ (by omega)

/-- Several pushes reach that many words down, by induction on the values. -/
theorem Grown.pushes (values : List Word) (grown : Grown count s s')
    (fits : count + 4 * values.length < 2 ^ 32)
    : Grown (count + 4 * values.length) s (values.foldl Cpu.push s') := by
  induction values generalizing s' count with
  | nil => exact grown
  | cons value rest ih =>
      rw [List.length_cons] at fits ⊢
      have pushed := ih (grown.push value (by omega)) (by omega)
      rwa [show count + 4 + 4 * rest.length = count + 4 * (rest.length + 1) by ring] at pushed

end Stack

end StackMachine
