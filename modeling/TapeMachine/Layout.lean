import TapeMachine.Program.Lowering
import TapeMachine.Opcode.Fields

/-! How many words each instruction takes in the image, and which of these words carry names. -/

namespace TapeMachine

/-- `anchors` holds the name declared by each operand. The first operand lies one word after the
start of the instruction, moved by `adjust`, which is -1 where there is no opcode word. -/
structure Layout where
  size : Nat
  adjust : Int := 0
  anchors : Vector (Option String) maxOperands := .replicate maxOperands none
  deriving DecidableEq

namespace Layout

def total (layouts : List Layout) : Nat := layouts.foldr (fun layout n => layout.size + n) 0

end Layout

namespace Operand

def anchorName? (operand : Operand) : Option String :=
  if operand.isAnchor then some operand.name else none

end Operand

namespace Instruction

def primitiveLayout (i : Instruction) : Layout :=
  match i.mnemonic with
  | .label => { size := 0, adjust := -1, anchors := #v[some i.label, none, none] }
  | .data => { size := 1, adjust := -1, anchors := #v[i.operands.head?.map (·.name), none, none] }
  | _ =>
    { size := 1 + i.operands.length
      anchors := .ofFn fun slot => i.operands[slot.val]?.bind Operand.anchorName? }

/-- A shorthand that cannot be lowered takes as many words as a well-formed one, and declares
nothing. -/
def fallbackLayout (m : Mnemonic) : Layout :=
  { size := 1 + (if m = .jump then Opcode.jumpIfTrue else Opcode.add).operandCount }

def layout (i : Instruction) : Layout :=
  match i.lower with
  | .ok lowered => lowered.primitiveLayout
  | .error _ => fallbackLayout i.mnemonic

end Instruction

namespace Program

def layouts (p : Program) : List Layout := p.map Instruction.layout

end Program
end TapeMachine
