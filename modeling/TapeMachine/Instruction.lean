import TapeMachine.Mnemonic
import TapeMachine.Operand

/-! Assembly instructions and programs as data. Nothing here asks whether they are well formed. -/

namespace TapeMachine

/-- `label` is the name that a label declares. An instruction that no text holds has line 0. -/
structure Instruction where
  mnemonic : Mnemonic
  operands : List Operand := []
  label : String := ""
  line : UInt32 := 0
  deriving DecidableEq

abbrev Program := List Instruction

namespace Instruction

def ofLabel (name : String) : Instruction := { mnemonic := .label, label := name }

def ofData (name : String) (initial : Word) : Instruction :=
  { mnemonic := .data, operands := [.immAnchor name initial] }

def formatData (operand : Operand) : String :=
  operand.name ++ if operand.value = 0 then "" else " " ++ operand.value.decimal

def format (i : Instruction) : String :=
  match i.mnemonic, i.operands with
  | .label, _ => i.mnemonic.name ++ " " ++ i.label
  | .data, [operand] => i.mnemonic.name ++ " " ++ formatData operand
  | _, operands => " ".intercalate (i.mnemonic.name :: operands.map Operand.format)

end Instruction
end TapeMachine
