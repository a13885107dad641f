import Mathlib

/-! A pair of cascaded 8259A interrupt controllers in fully nested mode.
Line 0 has the highest priority, and the second controller drives line 2 of the first.
Initialization clears masks and requests; what it does to interrupts in service is left open
by keeping them. Operation commands other than the nonspecific end of interrupt are left
out.
-/

namespace InterruptController

/-- What the data port of a controller takes next. -/
inductive Awaits
  | mask
  | base (single fourth : Bool)
  | wiring (fourth : Bool)
  | mode
  deriving DecidableEq

structure Controller where
  masked : BitVec 8
  requested : BitVec 8
  inService : BitVec 8
  /-- The vector of line 0, a multiple of 8. -/
  base : BitVec 8
  /-- How the pair is wired, as the third initialization word says. -/
  wiring : BitVec 8
  /-- The fourth initialization word. -/
  mode : BitVec 8
  awaits : Awaits
  deriving DecidableEq

def lineBit (line : Fin 8) : BitVec 8 :=
  1 <<< line.val

/-- The interrupt of the highest priority in service is over. -/
def Controller.endOfInterrupt (c : Controller) : Controller :=
  { c with inService := c.inService &&& (c.inService - 1) }

/-- A byte written to the command port. -/
def Controller.command (c : Controller) (value : BitVec 8) : Controller :=
  if value.getLsbD 4 then
    { c with
      masked := 0
      requested := 0
      mode := if value.getLsbD 0 then c.mode else 0
      awaits := .base (value.getLsbD 1) (value.getLsbD 0) }
  else if value = 0x20 then c.endOfInterrupt
  else c

/-- A byte written to the data port. -/
def Controller.data (c : Controller) (value : BitVec 8) : Controller :=
  match c.awaits with
  | .mask => { c with masked := value }
  | .base single fourth =>
      let next := if fourth then .mode else .mask
      { c with base := value &&& 0xF8, awaits := if single then next else .wiring fourth }
  | .wiring fourth => { c with wiring := value, awaits := if fourth then .mode else .mask }
  | .mode => { c with mode := value, awaits := .mask }

/-- A device asks for service. -/
def Controller.request (c : Controller) (line : Fin 8) : Controller :=
  { c with requested := c.requested ||| lineBit line }

/-- A device gives up before it was served. -/
def Controller.withdraw (c : Controller) (line : Fin 8) : Controller :=
  { c with requested := c.requested &&& ~~~lineBit line }

/-- The line is asked for and not masked, and nothing of its priority or above is in
service.
-/
def Controller.Eligible (c : Controller) (line : Fin 8) : Prop :=
  c.requested.getLsbD line ∧ ¬c.masked.getLsbD line
    ∧ ∀ higher ≤ line, ¬c.inService.getLsbD higher

instance (c : Controller) (line : Fin 8) : Decidable (c.Eligible line) :=
  inferInstanceAs (Decidable (_ ∧ _ ∧ _))

/-- The line that the controller interrupts for. -/
def Controller.next (c : Controller) : Option (Fin 8) :=
  Fin.find? fun line => c.Eligible line

/-- The processor accepts an interrupt for a line. It stays in service until its end is
commanded, unless the mode is that of automatic ends.
-/
def Controller.acknowledge (c : Controller) (line : Fin 8) : Controller :=
  { c with
    requested := c.requested &&& ~~~lineBit line
    inService := if c.mode.getLsbD 1 then c.inService else c.inService ||| lineBit line }

def Controller.vector (c : Controller) (line : Fin 8) : BitVec 8 :=
  c.base ||| BitVec.ofFin (line.castLE (by decide))

structure Cascade where
  first : Controller
  second : Controller
  deriving DecidableEq

def cascadeLine : Fin 8 :=
  2

/-- The interrupt accepted, by its vector. A controller whose request is gone by now answers
with its line 7 and takes nothing into service.
-/
def Cascade.accept (p : Cascade) : BitVec 8 × Cascade :=
  match p.first.next with
  | none => (p.first.vector 7, p)
  | some line =>
      let first := p.first.acknowledge line
      if line = cascadeLine then
        match p.second.next with
        | none => (p.second.vector 7, { p with first := first })
        | some line => (p.second.vector line, ⟨first, p.second.acknowledge line⟩)
      else (p.first.vector line, { p with first := first })

section Controllers

variable {c : Controller} {line : Fin 8}

/-- The lowest eligible line comes next. -/
theorem next_eq_some
    : c.next = some line ↔ c.Eligible line ∧ ∀ higher < line, ¬c.Eligible higher := by
  simp only [Controller.next, Fin.find?_eq_some_iff, decide_eq_true_eq, decide_eq_false_iff_not]

/-- Nothing comes next exactly if no line is eligible. -/
theorem next_eq_none : c.next = none ↔ ∀ line, ¬c.Eligible line := by
  simp only [Controller.next, Fin.find?_eq_none_iff, decide_eq_false_iff_not]

/-- The bit of a line stands for that line. -/
theorem lineBit_getLsbD
    : ∀ line other : Fin 8, (lineBit line).getLsbD other = decide (other = line) := by
  decide

/-- The request accepted is gone, every other one stays. -/
theorem acknowledge_requested (c : Controller) (line other : Fin 8)
    : (c.acknowledge line).requested.getLsbD other
      = (c.requested.getLsbD other && decide (other ≠ line)) := by
  simp only [Controller.acknowledge, BitVec.getLsbD_and, BitVec.getLsbD_not, lineBit_getLsbD,
    other.isLt, decide_true, Bool.true_and, ne_eq, decide_not]

/-- A request is that of its own line. -/
theorem request_requested (c : Controller) (line other : Fin 8)
    : (c.request line).requested.getLsbD other
      = (c.requested.getLsbD other || decide (other = line)) := by
  simp only [Controller.request, BitVec.getLsbD_or, lineBit_getLsbD]

/-- So is its withdrawal. -/
theorem withdraw_requested (c : Controller) (line other : Fin 8)
    : (c.withdraw line).requested.getLsbD other
      = (c.requested.getLsbD other && decide (other ≠ line)) := by
  simp only [Controller.withdraw, BitVec.getLsbD_and, BitVec.getLsbD_not, lineBit_getLsbD,
    other.isLt, decide_true, Bool.true_and, ne_eq, decide_not]

end Controllers

end InterruptController
