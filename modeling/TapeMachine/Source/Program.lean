import TapeMachine.Instruction.Validity
import TapeMachine.Source.Operand

/-! Program texts: one instruction a line, its mnemonic and operands separated by blanks or commas,
and a comment from `;` to the end of the line. A line is read without regard to any other, and the
first line that cannot be read decides the error. -/

namespace TapeMachine

namespace Instruction

def readData (name : List Char) (initial? : Option (List Char)) :
    Except ErrorCause Instruction := do
  let name ← readName .data name
  match initial? with
  | none => return ofData name 0
  | some literal =>
    match Word.ofDecimal? literal with
    | some w => return ofData name w
    | none => .error (.dataInitial (String.ofList literal))

def readArguments (m : Mnemonic) (arguments : List (List Char)) : Except ErrorCause Instruction :=
  match m, arguments with
  | .label, [name] => ofLabel <$> readName .label name
  | .label, _ => .error .labelForm
  | .data, [name] => readData name none
  | .data, [name, literal] => readData name (some literal)
  | .data, _ => .error .dataForm
  | _, _ => do return { mnemonic := m, operands := ← arguments.mapM Operand.read }

def readTokens (mnemonic : List Char) (arguments : List (List Char)) :
    Except ErrorCause Instruction :=
  match Mnemonic.ofName? mnemonic with
  | none => .error (.unknownMnemonic (String.ofList mnemonic))
  | some m => readArguments m arguments

def isSeparator (c : Char) : Bool := Text.isBlank c || c = ','

def tokens (chars : List Char) : List (List Char) :=
  Text.pieces isSeparator (chars.takeWhile (· ≠ ';'))

/-- A line may hold no instruction. -/
def readLine (chars : List Char) (line : UInt32) : Except Error (Option Instruction) :=
  match tokens chars with
  | [] => .ok none
  | mnemonic :: arguments => do
    let i ← (readTokens mnemonic arguments).mapError fun cause => { cause, line }
    let i := { i with line }
    i.check
    return some i

end Instruction

namespace Program

def readLines (lines : List (List Char × Nat)) : Except Error Program := do
  let instructions ← lines.mapM fun (chars, n) => Instruction.readLine chars (UInt32.ofNat n)
  return instructions.filterMap id

/-- Lines count from 1. -/
def read (text : String) : Except Error Program := readLines ((Text.lines text.toList).zipIdx 1)

end Program
end TapeMachine
