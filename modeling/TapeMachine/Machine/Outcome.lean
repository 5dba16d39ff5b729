import TapeMachine.Machine

/-! What comes of executing an instruction, and why a machine stops. -/

namespace TapeMachine

inductive Status where
  | ok
  | halted
  | inputRequired
  | output
  | invalidOpcode
  | invalidMode
  | memoryFault
  deriving DecidableEq

namespace Status

def all : List Status :=
  [ok, halted, inputRequired, output, invalidOpcode, invalidMode, memoryFault]

def name : Status → String
  | ok => "ok"
  | halted => "halted"
  | inputRequired => "input required"
  | output => "output"
  | invalidOpcode => "invalid opcode"
  | invalidMode => "invalid addressing mode"
  | memoryFault => "memory fault"

def isFault : Status → Bool
  | invalidOpcode | invalidMode | memoryFault => true
  | _ => false

end Status

inductive FaultCause where
  | notLoaded (e : LoadError)
  | readOutside (a : Address)
  | writeOutside (a : Address)
  | negativeAddress (w : Word)
  | negativeTarget (w : Word)
  | badOpcode (w : Word)
  | badMode (digit operand : Nat)
  | immediateStore
  deriving DecidableEq

namespace FaultCause

def status : FaultCause → Status
  | notLoaded _ | readOutside _ | writeOutside _ | negativeAddress _ | negativeTarget _ =>
    .memoryFault
  | badOpcode _ => .invalidOpcode
  | badMode _ _ | immediateStore => .invalidMode

/-- The word at fault: an address, an opcode word, or the digit of a mode. -/
def value : FaultCause → Word
  | notLoaded _ => 0
  | readOutside a | writeOutside a => a.toInt64
  | negativeAddress w | negativeTarget w | badOpcode w => w
  | badMode digit _ => Int64.ofNat digit
  | immediateStore => Int64.ofNat Mode.immediate.code

def message : FaultCause → String
  | notLoaded e => e.message
  | readOutside a => "read outside tape at " ++ a.toNat.repr
  | writeOutside a => "write outside tape at " ++ a.toNat.repr
  | negativeAddress w => "negative address " ++ w.decimal
  | negativeTarget w => "jump to negative address " ++ w.decimal
  | badOpcode w => "invalid opcode word " ++ w.decimal
  | badMode digit operand =>
    "unknown addressing mode " ++ digit.repr ++ " for operand " ++ operand.repr
  | immediateStore => "store through immediate operand"

end FaultCause

/-- A fault with the state it arose in. The opcode is there once it has been read. -/
structure Fault where
  cause : FaultCause
  position : Address
  opcode : Option Opcode
  base : Word
  deriving DecidableEq

namespace Fault

def opcodeNote : Option Opcode → String
  | none => ""
  | some opcode => " op " ++ opcode.name

def message (f : Fault) : String :=
  f.cause.message ++ " (pc " ++ f.position.toNat.repr ++ opcodeNote f.opcode ++ " rb " ++
    f.base.decimal ++ ")"

end Fault

inductive Stop where
  | halted (word : Word)
  | inputRequired
  | fault (f : Fault)
  deriving DecidableEq

namespace Stop

def status : Stop → Status
  | halted _ => .halted
  | inputRequired => .inputRequired
  | fault f => f.cause.status

def value : Stop → Word
  | halted w => w
  | inputRequired => 0
  | fault f => f.cause.value

def message : Stop → String
  | fault f => f.message
  | _ => ""

end Stop

inductive Outcome where
  | ok
  | output (word : Word)
  | stopped (stop : Stop)
  deriving DecidableEq

namespace Outcome

def status : Outcome → Status
  | ok => .ok
  | output _ => .output
  | stopped s => s.status

def value : Outcome → Word
  | ok => 0
  | output w => w
  | stopped s => s.value

def message : Outcome → String
  | stopped s => s.message
  | _ => ""

end Outcome
end TapeMachine
