import TapeMachine.Error
import TapeMachine.Text

/-! Which instructions are well formed. The number of operands is checked first, then the names,
then whether the operand stored into can be stored into; the first fault found is reported. -/

namespace TapeMachine
namespace Instruction

def fail {α : Type} (i : Instruction) (cause : ErrorCause) : Except Error α :=
  .error { cause, line := i.line }

def misnamed? (operands : List Operand) : Option (Operand × Nat) :=
  operands.zipIdx.find? fun (operand, _) =>
    operand.kind ≠ .immediate && !Text.isIdentifier operand.name

def canWrite (m : Mnemonic) (operand : Operand) : Bool :=
  if m.isInPlace then operand.isUpdatable else operand.isWritable

/-- The operand stored into, if the instruction stores and cannot do so through that operand. -/
def unwritable? (i : Instruction) : Option Operand := do
  let target ← i.operands[← i.mnemonic.writeSlot?]?
  guard !canWrite i.mnemonic target
  return target

def checkOperands (i : Instruction) : Except Error Unit :=
  match misnamed? i.operands with
  | some (operand, index) => i.fail (.operandName i.mnemonic index operand.name)
  | none =>
    match i.unwritable? with
    | some target => i.fail (.notWritable i.mnemonic target)
    | none => .ok ()

def check (i : Instruction) : Except Error Unit :=
  if i.operands.length ≠ i.mnemonic.arity then
    i.fail (.operandCount i.mnemonic i.operands.length)
  else
    match i.mnemonic with
    | .label => if Text.isIdentifier i.label then .ok () else i.fail (.labelName i.label)
    | .data =>
      if i.operands.any (·.kind ≠ .immediateAnchor) then i.fail .dataOperand else i.checkOperands
    | _ => i.checkOperands

end Instruction

namespace Program

def check (p : Program) : Except Error Unit := p.forM Instruction.check

end Program
end TapeMachine
