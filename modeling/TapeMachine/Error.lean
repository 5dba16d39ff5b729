import TapeMachine.Instruction

/-! Why a program is refused. An error is a cause and a place; its kind and its wording follow from
the cause. -/

namespace TapeMachine

inductive ErrorKind where
  | parse
  | duplicateAnchor
  | undefinedSymbol
  | malformedOperand
  deriving DecidableEq

def ErrorKind.all : List ErrorKind := [parse, duplicateAnchor, undefinedSymbol, malformedOperand]

def ErrorKind.label : ErrorKind → String
  | parse => "ParseError"
  | duplicateAnchor => "DuplicateAnchor"
  | undefinedSymbol => "UndefinedSymbol"
  | malformedOperand => "MalformedOperand"

inductive NameRole where
  | anchor
  | position
  | relative
  | label
  | data
  deriving DecidableEq

def NameRole.describe : NameRole → String
  | anchor => "anchor"
  | position => "position"
  | relative => "relative"
  | label => "label"
  | data => "variable"

inductive ErrorCause where
  | unknownMnemonic (token : String)
  | labelForm
  | dataForm
  | dataInitial (token : String)
  | badName (role : NameRole) (name : String)
  | emptyOperand
  | badInteger (token : String)
  | unclosedInitial (token : String)
  | badInitial (literal : String)
  | strayInitial (token : String)
  | unknownOperand (token : String)
  | operandCount (mnemonic : Mnemonic) (found : Nat)
  | labelName (name : String)
  | dataOperand
  | operandName (mnemonic : Mnemonic) (index : Nat) (name : String)
  | notWritable (mnemonic : Mnemonic) (operand : Operand)
  | noLowering (mnemonic : Mnemonic)
  | layoutCount
  | duplicate (name : String) (first : UInt32)
  | undefined (name : String)
  | dataOperandCount
  | notLowered (mnemonic : Mnemonic)
  | wrongOperandCount (mnemonic : Mnemonic)
  | tooManyOperands
  | sizeMismatch
  deriving DecidableEq

namespace ErrorCause

def kind : ErrorCause → ErrorKind
  | unknownMnemonic _ | labelForm | dataForm | dataInitial _ | badName _ _ | emptyOperand
  | badInteger _ | unclosedInitial _ | badInitial _ | strayInitial _ | unknownOperand _ => .parse
  | duplicate _ _ => .duplicateAnchor
  | undefined _ => .undefinedSymbol
  | operandCount _ _ | labelName _ | dataOperand | operandName _ _ _ | notWritable _ _
  | noLowering _ | layoutCount | dataOperandCount | notLowered _ | wrongOperandCount _
  | tooManyOperands | sizeMismatch => .malformedOperand

def quote (s : String) : String := "'" ++ s ++ "'"

def countOperands (n : Nat) : String := n.repr ++ if n = 1 then " operand" else " operands"

def message : ErrorCause → String
  | unknownMnemonic token => "unknown instruction " ++ quote token
  | labelForm => "LBL expects a name"
  | dataForm => "VAR expects a name and optional initial value"
  | dataInitial token => "invalid VAR initial value " ++ quote token
  | badName role name => "invalid " ++ role.describe ++ " name " ++ quote name
  | emptyOperand => "empty operand"
  | badInteger token => "invalid integer literal " ++ quote token
  | unclosedInitial token => "anchor initial value missing ']' in " ++ quote token
  | badInitial literal => "invalid anchor initial value " ++ quote literal
  | strayInitial token => "initial value must precede an anchor in " ++ quote token
  | unknownOperand token => "unrecognized operand " ++ quote token
  | operandCount m found => m.name ++ " expects " ++ countOperands m.arity ++ ", got " ++ found.repr
  | labelName name => "LBL has invalid name " ++ quote name
  | dataOperand => "VAR operand must declare its own anchor"
  | operandName m index name =>
    m.name ++ " operand " ++ (index + 1).repr ++ " has invalid name " ++ quote name
  | notWritable m operand => m.name ++ " cannot write to " ++ operand.format
  | noLowering m => "no lowering for " ++ m.name
  | layoutCount => "layout count does not match program"
  | duplicate name first =>
    "anchor " ++ quote name ++ " already declared" ++
      if first = 0 then "" else " at line " ++ first.toNat.repr
  | undefined name => "undefined symbol " ++ quote name
  | dataOperandCount => "VAR expects 1 operand"
  | notLowered m => m.name ++ " must be lowered before resolution"
  | wrongOperandCount m => m.name ++ " has wrong operand count"
  | tooManyOperands => "instruction has too many operands"
  | sizeMismatch => "emitted image size does not match layout"

end ErrorCause

/-- Line 0 stands for no line. `index` tells the instructions of a program without lines apart. -/
structure Error where
  cause : ErrorCause
  line : UInt32 := 0
  index : Option Nat := none
  deriving DecidableEq

namespace Error

def kind (e : Error) : ErrorKind := e.cause.kind

def message (e : Error) : String :=
  match e.index with
  | none => e.cause.message
  | some i => "inst " ++ i.repr ++ ": " ++ e.cause.message

def describe (label : String) (line : UInt32) (message : String) : String :=
  label ++ (if line = 0 then "" else " line " ++ line.toNat.repr) ++ ": " ++ message

def format (e : Error) : String := describe e.kind.label e.line e.message

end Error
end TapeMachine
