import TapeMachine.Opcode
import TapeMachine.Word

/-! The opcode word: the two low decimal digits are the opcode's code, each digit above them is the
mode of one operand, the first operand lowest. -/

namespace TapeMachine

/-- The most operands an operation has, and the most modes an opcode word is given. -/
def maxOperands : Nat := 3

theorem Opcode.operandCount_le (opcode : Opcode) : opcode.operandCount ≤ maxOperands := by
  cases opcode <;> decide

/-- The two parts of an opcode word; `modes` holds the mode digits as one number. -/
structure OpFields where
  code : Nat
  modes : Nat
  deriving DecidableEq

namespace OpFields

def modesOf : List Nat → Nat
  | [] => 0
  | m :: ms => m + 10 * modesOf ms

def ofModes (code : Nat) (modes : List Nat) : OpFields :=
  ⟨code, modesOf (modes.take maxOperands)⟩

def toWord (f : OpFields) : Word := Int64.ofNat (f.code + 100 * f.modes)

/-- A negative word is no opcode word. Nothing is said yet about the code or the digits. -/
def ofWord? (w : Word) : Option OpFields :=
  if w < 0 then none else some ⟨w.toNatClampNeg % 100, w.toNatClampNeg / 100⟩

def digit (f : OpFields) (i : Nat) : Nat := f.modes / Nat.pow 10 i % 10

def opcode? (f : OpFields) : Option Opcode := Opcode.ofCode? f.code

def mode? (f : OpFields) (i : Nat) : Option Mode := Mode.ofCode? (f.digit i)

end OpFields
end TapeMachine
