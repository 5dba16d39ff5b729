import TapeMachine.Opcode

/-! What an assembly instruction can be: an operation of the machine, one of four shorthands that
stand for such an operation, a label, or a word of data. -/

namespace TapeMachine

inductive Mnemonic where
  | op (opcode : Opcode)
  | copy
  | jump
  | addInPlace
  | mulInPlace
  | label
  | data
  deriving DecidableEq

namespace Mnemonic

def all : List Mnemonic :=
  Opcode.all.map op ++ [copy, jump, addInPlace, mulInPlace, label, data]

def name : Mnemonic → String
  | op opcode => opcode.name
  | copy => "COPY"
  | jump => "JUMP"
  | addInPlace => "IADD"
  | mulInPlace => "IMUL"
  | label => "LBL"
  | data => "VAR"

/-- Letter case does not matter. -/
def ofName? (chars : List Char) : Option Mnemonic :=
  all.find? fun m => m.name.toList = chars.map Char.toUpper

def opcode? : Mnemonic → Option Opcode
  | op opcode => some opcode
  | _ => none

def isPrimitive (m : Mnemonic) : Bool := m.opcode?.isSome

def isDerived : Mnemonic → Bool
  | copy | jump | addInPlace | mulInPlace => true
  | _ => false

def isPseudo : Mnemonic → Bool
  | label | data => true
  | _ => false

/-- Whether the first operand is both read and stored into. -/
def isInPlace : Mnemonic → Bool
  | addInPlace | mulInPlace => true
  | _ => false

def arity : Mnemonic → Nat
  | op opcode => opcode.operandCount
  | copy | addInPlace | mulInPlace => 2
  | jump | data => 1
  | label => 0

/-- The operand stored into, in the order in which operands are written. -/
def writeSlot? : Mnemonic → Option Nat
  | op opcode => opcode.writeSlot?
  | copy | addInPlace | mulInPlace => some 0
  | jump | label | data => none

end Mnemonic
end TapeMachine
