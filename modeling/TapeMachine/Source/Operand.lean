import TapeMachine.Error
import TapeMachine.Text

/-! Operands as they are written: `42` an immediate, `&name` a position, `@name` relative to the
base, `$name` an address, `#name` and `&#name` the two anchors, before which `[5]` sets the initial
value and `[]` sets none. -/

namespace TapeMachine

def readName (role : NameRole) (name : List Char) : Except ErrorCause String :=
  if Text.isName name then .ok (String.ofList name) else .error (.badName role (String.ofList name))

namespace Operand

def readInitial (literal : List Char) : Except ErrorCause Word :=
  if literal.isEmpty then .ok 0
  else
    match Word.ofDecimal? literal with
    | some w => .ok w
    | none => .error (.badInitial (String.ofList literal))

def readInteger (token : List Char) : Except ErrorCause Operand :=
  match Word.ofDecimal? token with
  | some w => .ok (imm w)
  | none => .error (.badInteger (String.ofList token))

def readAnchor (token : List Char) (initial : Word) : List Char → Except ErrorCause Operand
  | '&' :: '#' :: name => (posAnchor · initial) <$> readName .anchor name
  | '#' :: name => (immAnchor · initial) <$> readName .anchor name
  | _ => .error (.strayInitial (String.ofList token))

def read (token : List Char) : Except ErrorCause Operand :=
  match token with
  | [] => .error .emptyOperand
  | '[' :: inner =>
    match inner.dropWhile (· ≠ ']') with
    | [] => .error (.unclosedInitial (String.ofList token))
    | _ :: rest => do readAnchor token (← readInitial (inner.takeWhile (· ≠ ']'))) rest
  | '&' :: '#' :: name => (posAnchor · 0) <$> readName .anchor name
  | '#' :: name => (immAnchor · 0) <$> readName .anchor name
  | '&' :: name => pos <$> readName .position name
  | '@' :: name => rel <$> readName .relative name
  | '$' :: name => ref <$> readName .label name
  | c :: _ =>
    if c = '-' || c.isDigit then readInteger token
    else .error (.unknownOperand (String.ofList token))

def parse (text : String) : Except ErrorCause Operand := read text.toList

end Operand
end TapeMachine
