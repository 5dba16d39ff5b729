import TapeMachine.Image
import TapeMachine.Opcode.Fields
import TapeMachine.SymbolTable

/-! Programs in which every name has become an address, and the images made of them. -/

namespace TapeMachine

structure Cell where
  mode : Nat
  word : Word
  deriving DecidableEq

/-- Codes are kept as numbers: the words made from them are well defined for any code. A marker
takes no word. -/
inductive Resolved where
  | op (code : Nat) (cells : List Cell)
  | data (word : Word)
  | marker
  deriving DecidableEq

namespace Resolved

def words : Resolved → List Word
  | op code cells => (OpFields.ofModes code (cells.map (·.mode))).toWord :: cells.map (·.word)
  | data word => [word]
  | marker => []

def emit : Resolved → Except Error (List Word)
  | op code cells =>
    if cells.length > maxOperands then .error { cause := .tooManyOperands }
    else .ok (op code cells).words
  | r => .ok r.words

end Resolved

namespace Image

def emit (resolved : List Resolved) : Except Error Image := do
  return (← resolved.mapM Resolved.emit).flatten

end Image

namespace Operand

/-- The mode in which the machine reads the word that the operand becomes. -/
def mode (operand : Operand) : Mode :=
  match operand.kind with
  | .immediate | .labelRef | .immediateAnchor => .immediate
  | .position | .positionAnchor => .position
  | .relative => .relative

def resolve (operand : Operand) (symbols : SymbolTable) (line : UInt32) : Except Error Cell :=
  if operand.isReference then
    match symbols.address? operand.name with
    | some address => .ok ⟨operand.mode.code, Int64.ofInt address⟩
    | none => .error { cause := .undefined operand.name, line }
  else .ok ⟨operand.mode.code, operand.value⟩

end Operand

namespace Instruction

/-- The operand that the operation stores into, if it would be read as an immediate. -/
def immediateTarget? (i : Instruction) (opcode : Opcode) : Option Operand := do
  let target ← i.operands[← opcode.writeSlot?]?
  guard (target.mode = .immediate)
  return target

def resolveOp (i : Instruction) (opcode : Opcode) (symbols : SymbolTable) : Except Error Resolved :=
  if i.operands.length ≠ opcode.operandCount then i.fail (.wrongOperandCount i.mnemonic)
  else do
    let cells ← i.operands.mapM fun operand => operand.resolve symbols i.line
    match i.immediateTarget? opcode with
    | some target => i.fail (.notWritable i.mnemonic target)
    | none => .ok (.op opcode.code cells)

def resolve (i : Instruction) (symbols : SymbolTable) : Except Error Resolved :=
  match i.mnemonic, i.operands with
  | .label, _ => .ok .marker
  | .data, [operand] => .ok (.data operand.value)
  | .data, _ => i.fail .dataOperandCount
  | .op opcode, _ => i.resolveOp opcode symbols
  | m, _ => i.fail (.notLowered m)

end Instruction

namespace Program

def resolve (p : Program) (symbols : SymbolTable) : Except Error (List Resolved) :=
  p.mapM fun i => i.resolve symbols

end Program
end TapeMachine
