import TapeMachine.Instruction.Validity

/-! Lowering replaces each shorthand by the operation it stands for. -/

namespace TapeMachine
namespace Instruction

/-- Where an instruction that updates an operand in place stores: through the operand as it is, or
into the word that an anchor declares. -/
def writeForm (i : Instruction) (target : Operand) : Except Error Operand :=
  match target.kind with
  | .position | .relative => .ok target
  | .immediateAnchor => .ok (.pos target.name)
  | .immediate | .labelRef | .positionAnchor => i.fail (.notWritable i.mnemonic target)

def lowerInPlace (i : Instruction) (opcode : Opcode) (target amount : Operand) :
    Except Error Instruction := do
  let destination ← i.writeForm target
  return { mnemonic := .op opcode, operands := [target, amount, destination], line := i.line }

def lowerDerived (i : Instruction) : Except Error Instruction :=
  match i.mnemonic, i.operands with
  | .copy, [target, source] =>
    .ok { mnemonic := .op .add, operands := [source, .imm 0, target], line := i.line }
  | .jump, [target] =>
    .ok { mnemonic := .op .jumpIfTrue, operands := [.imm 1, target], line := i.line }
  | .addInPlace, [target, amount] => i.lowerInPlace .add target amount
  | .mulInPlace, [target, amount] => i.lowerInPlace .mul target amount
  | m, _ => i.fail (.noLowering m)

def lower (i : Instruction) : Except Error Instruction :=
  if i.mnemonic.isDerived then do
    i.check
    i.lowerDerived
  else .ok i

end Instruction

namespace Program

def lower (p : Program) : Except Error Program := p.mapM Instruction.lower

end Program
end TapeMachine
