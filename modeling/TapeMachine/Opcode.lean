/-! The ten operations of the machine and the three ways an operand word is used, with their codes
and names. -/

namespace TapeMachine

inductive Opcode where
  | add
  | mul
  | input
  | output
  | jumpIfTrue
  | jumpIfFalse
  | less
  | equal
  | adjustBase
  | halt
  deriving DecidableEq

namespace Opcode

def all : List Opcode :=
  [add, mul, input, output, jumpIfTrue, jumpIfFalse, less, equal, adjustBase, halt]

def code : Opcode → Nat
  | add => 1
  | mul => 2
  | input => 3
  | output => 4
  | jumpIfTrue => 5
  | jumpIfFalse => 6
  | less => 7
  | equal => 8
  | adjustBase => 9
  | halt => 99

def ofCode? (n : Nat) : Option Opcode := all.find? fun op => op.code = n

theorem ofCode?_code (op : Opcode) : ofCode? op.code = some op := by cases op <;> rfl

theorem code_of_ofCode? {n : Nat} {op : Opcode} (h : ofCode? n = some op) : op.code = n := by
  simpa using List.find?_some h

def name : Opcode → String
  | add => "ADD"
  | mul => "MUL"
  | input => "IN"
  | output => "OUT"
  | jumpIfTrue => "JIT"
  | jumpIfFalse => "JIF"
  | less => "LESS"
  | equal => "EQ"
  | adjustBase => "ARB"
  | halt => "HALT"

def operandCount : Opcode → Nat
  | add | mul | less | equal => 3
  | jumpIfTrue | jumpIfFalse => 2
  | input | output | adjustBase => 1
  | halt => 0

def writeSlot? : Opcode → Option Nat
  | add | mul | less | equal => some 2
  | input => some 0
  | output | jumpIfTrue | jumpIfFalse | adjustBase | halt => none

def isJump : Opcode → Bool
  | jumpIfTrue | jumpIfFalse => true
  | _ => false

end Opcode

inductive Mode where
  | position
  | immediate
  | relative
  deriving DecidableEq

namespace Mode

def code : Mode → Nat
  | position => 0
  | immediate => 1
  | relative => 2

def ofCode? : Nat → Option Mode
  | 0 => some position
  | 1 => some immediate
  | 2 => some relative
  | _ => none

theorem ofCode?_code (mode : Mode) : ofCode? mode.code = some mode := by cases mode <;> rfl

def name : Mode → String
  | position => "position"
  | immediate => "immediate"
  | relative => "relative"

end Mode
end TapeMachine
