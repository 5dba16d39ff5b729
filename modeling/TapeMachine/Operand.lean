import TapeMachine.Word.Decimal

/-! Operands of assembly instructions. A reference uses the address of a name; an anchor declares a
name for the very word that it becomes in the image. -/

namespace TapeMachine

inductive OperandKind where
  | immediate
  | position
  | relative
  | labelRef
  | immediateAnchor
  | positionAnchor
  deriving DecidableEq

/-- An immediate uses only `value`, a reference only `name`, an anchor both. The part that a kind
does not use is carried along. -/
structure Operand where
  kind : OperandKind
  value : Word := 0
  name : String := ""
  deriving DecidableEq

namespace Operand

def imm (value : Word) : Operand := { kind := .immediate, value }

def pos (name : String) : Operand := { kind := .position, name }

def rel (name : String) : Operand := { kind := .relative, name }

def ref (name : String) : Operand := { kind := .labelRef, name }

def immAnchor (name : String) (value : Word) : Operand := { kind := .immediateAnchor, value, name }

def posAnchor (name : String) (value : Word) : Operand := { kind := .positionAnchor, value, name }

/-- The operand with only the parts that its kind uses. -/
def normal (operand : Operand) : Operand :=
  match operand.kind with
  | .immediate => imm operand.value
  | .position => pos operand.name
  | .relative => rel operand.name
  | .labelRef => ref operand.name
  | .immediateAnchor => immAnchor operand.name operand.value
  | .positionAnchor => posAnchor operand.name operand.value

def isAnchor (operand : Operand) : Bool :=
  match operand.kind with
  | .immediateAnchor | .positionAnchor => true
  | _ => false

def isReference (operand : Operand) : Bool :=
  match operand.kind with
  | .position | .relative | .labelRef => true
  | _ => false

def isWritable (operand : Operand) : Bool :=
  match operand.kind with
  | .position | .relative | .positionAnchor => true
  | _ => false

/-- Whether an instruction that updates its first operand in place can do so: it reads that operand
and stores into it, and an immediate anchor is stored into under its name. -/
def isUpdatable (operand : Operand) : Bool :=
  match operand.kind with
  | .position | .relative | .immediateAnchor => true
  | _ => false

def formatInitial (value : Word) : String := if value = 0 then "" else "[" ++ value.decimal ++ "]"

def format (operand : Operand) : String :=
  match operand.kind with
  | .immediate => operand.value.decimal
  | .position => "&" ++ operand.name
  | .relative => "@" ++ operand.name
  | .labelRef => "$" ++ operand.name
  | .immediateAnchor => formatInitial operand.value ++ "#" ++ operand.name
  | .positionAnchor => formatInitial operand.value ++ "&#" ++ operand.name

end Operand
end TapeMachine
