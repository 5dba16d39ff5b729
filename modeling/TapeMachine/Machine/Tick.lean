import TapeMachine.Machine.Outcome
import TapeMachine.Opcode.Fields

/-! Executing one instruction. A tick changes the machine as it goes along, one part after another,
and may stop at any point in between: what has been changed until then stays changed. -/

namespace TapeMachine
namespace OpFields

/-- The first of the operands of an opcode whose digit names no mode. -/
def badMode? (f : OpFields) (opcode : Opcode) : Option Nat :=
  (List.range opcode.operandCount).find? fun i => (f.mode? i).isNone

/-- A digit that names no mode is taken for the position mode. -/
def mode (f : OpFields) (i : Nat) : Mode := (f.mode? i).getD .position

end OpFields

namespace Machine

def read (m : Machine) (a : Address) : Except FaultCause Word :=
  match m.peek? a with
  | some w => .ok w
  | none => .error (.readOutside a)

def operandAddress (m : Machine) (i : Nat) : Address := m.position + 1 + UInt64.ofNat i

/-- The address that an operand word stands for. -/
def effective (m : Machine) (mode : Mode) (w : Word) : Except FaultCause Address :=
  let e := if mode = .relative then m.base + w else w
  match Word.address? e with
  | some a => .ok a
  | none => .error (.negativeAddress e)

def load (m : Machine) (mode : Mode) (i : Nat) : Except FaultCause Word := do
  let w ← m.read (m.operandAddress i)
  if mode = .immediate then .ok w else m.read (← m.effective mode w)

/-- The checks on the modes of an instruction: each has to be known, and what is stored into may not
be an immediate. -/
def checkModes (fields : OpFields) (opcode : Opcode) : Except FaultCause Unit :=
  match fields.badMode? opcode with
  | some i => .error (.badMode (fields.digit i) i)
  | none =>
    if opcode.writeSlot?.any fun i => fields.mode i = .immediate then .error .immediateStore
    else .ok ()

def decode (w : Word) : Except FaultCause (OpFields × Opcode) :=
  match OpFields.ofWord? w with
  | none => .error (.badOpcode w)
  | some fields =>
    match fields.opcode? with
    | none => .error (.badOpcode w)
    | some opcode => .ok (fields, opcode)

end Machine

/-- A machine with the opcode that it is executing, which it remembers for the sake of faults. -/
structure Processor extends Machine where
  current : Option Opcode := none

/-- A part of a tick: it goes on with a result or stops, and leaves a state behind either way. -/
abbrev Action := EStateM Stop Processor

namespace Action

def fault {α : Type} (cause : FaultCause) : Action α := do
  let p ← get
  throw (.fault ⟨cause, p.position, p.current, p.base⟩)

/-- Asks the machine, as it is by then, something that may be a fault. -/
def query {α : Type} (question : Machine → Except FaultCause α) : Action α := do
  match question (← get).toMachine with
  | .ok a => return a
  | .error cause => fault cause

def store (a : Address) (w : Word) : Action Unit := do
  let p ← get
  let (m, done) := p.poke a w
  set { p with toMachine := m }
  if done then return () else fault (.writeOutside a)

def storeOperand (mode : Mode) (i : Nat) (w : Word) : Action Unit :=
  if mode = .immediate then fault .immediateStore
  else do
    let word ← query fun m => m.read (m.operandAddress i)
    store (← query fun m => m.effective mode word) w

def moveTo (a : Address) : Action Unit := modify fun p => { p with position := a }

def combine (mode : Nat → Mode) (next : Address) (f : Word → Word → Word) : Action Unit := do
  let a ← query fun m => m.load (mode 0) 0
  let b ← query fun m => m.load (mode 1) 1
  storeOperand (mode 2) 2 (f a b)
  moveTo next

def input (mode : Nat → Mode) (next : Address) : Action Unit := do
  match (← get).input with
  | [] => throw .inputRequired
  | w :: _ =>
    storeOperand (mode 0) 0 w
    modify fun p => { p with input := p.input.tail }
    moveTo next

def jump (mode : Nat → Mode) (next : Address) (taken : Word → Bool) : Action Unit := do
  let condition ← query fun m => m.load (mode 0) 0
  let destination ← query fun m => m.load (mode 1) 1
  if taken condition then
    match Word.address? destination with
    | some a => moveTo a
    | none => fault (.negativeTarget destination)
  else moveTo next

def adjustBase (mode : Nat → Mode) (next : Address) : Action Unit := do
  let w ← query fun m => m.load (mode 0) 0
  modify fun p => { p with base := p.base + w }
  moveTo next

def halt {α : Type} : Action α := do
  let p ← get
  throw (.halted ((p.peek? 0).getD 0))

def countTick : Action Unit := modify fun p => { p with ticks := p.ticks + 1 }

/-- The end of an operation that puts nothing out. -/
def finish (operation : Action Unit) : Action Outcome := do
  operation
  countTick
  return .ok

def output (mode : Nat → Mode) (next : Address) : Action Outcome := do
  let w ← query fun m => m.load (mode 0) 0
  moveTo next
  countTick
  return .output w

def execute (opcode : Opcode) (mode : Nat → Mode) : Action Outcome := do
  let next := (← get).position + 1 + UInt64.ofNat opcode.operandCount
  match opcode with
  | .add => finish (combine mode next fun a b => a + b)
  | .mul => finish (combine mode next fun a b => a * b)
  | .less => finish (combine mode next fun a b => Word.ofBool (a < b))
  | .equal => finish (combine mode next fun a b => Word.ofBool (a = b))
  | .input => finish (input mode next)
  | .output => output mode next
  | .jumpIfTrue => finish (jump mode next fun w => w ≠ 0)
  | .jumpIfFalse => finish (jump mode next fun w => w = 0)
  | .adjustBase => finish (adjustBase mode next)
  | .halt => halt

def remember (current : Option Opcode) : Action Unit := modify fun p => { p with current }

def fetch : Action Word :=
  query fun m =>
    match m.loadError with
    | some e => .error (.notLoaded e)
    | none => m.read m.position

def tick : Action Outcome := do
  remember none
  let w ← fetch
  let (fields, opcode) ← query fun _ => Machine.decode w
  remember (some opcode)
  query fun _ => Machine.checkModes fields opcode
  execute opcode fields.mode

end Action

namespace Processor

def tick (p : Processor) : Outcome × Processor :=
  match Action.tick.run p with
  | .ok outcome p => (outcome, p)
  | .error stop p => (.stopped stop, p)

end Processor

namespace Machine

/-- The opcode is remembered for as long as a tick takes. -/
def tick (m : Machine) : Outcome × Machine :=
  let (outcome, p) := Processor.tick ⟨m, none⟩
  (outcome, p.toMachine)

end Machine
end TapeMachine
