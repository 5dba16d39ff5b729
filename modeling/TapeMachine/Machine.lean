import TapeMachine.Image
import TapeMachine.Opcode
import TapeMachine.Tape

/-! The state of a machine: the image it was made for, its tape, the queue of inputs, the position
of the next instruction, the base of relative addresses and the number of instructions executed. -/

namespace TapeMachine

inductive LoadError where
  | noTape
  | tooSmall (words : Nat) (capacity : Address)
  deriving DecidableEq

def LoadError.message : LoadError → String
  | noTape => "machine has no tape"
  | tooSmall words capacity =>
    "image of " ++ words.repr ++ " words does not fit tape capacity " ++ capacity.toNat.repr

/-- A machine whose image could not be loaded has a `loadError` and executes nothing. -/
structure Machine where
  image : Image
  tape : Option Tape
  input : List Word := []
  position : Address := 0
  base : Word := 0
  ticks : UInt64 := 0
  loadError : Option LoadError := none

namespace Machine

/-- The machine with its image on a cleared tape and everything else at the start. What fits is
loaded even if the image as a whole does not fit. -/
def reset (m : Machine) : Machine :=
  match m.tape with
  | none => { image := m.image, tape := none, loadError := some .noTape }
  | some t =>
    let capacity := t.capacity
    let (tape, complete) := t.cleared.load 0 m.image
    { image := m.image
      tape := some tape
      loadError := if complete then none else some (.tooSmall m.image.length capacity) }

def start (image : Image) (tape : Option Tape) : Machine := reset { image, tape }

def push (m : Machine) (w : Word) : Machine := { m with input := m.input ++ [w] }

def pushAll (m : Machine) (ws : List Word) : Machine := { m with input := m.input ++ ws }

def pending (m : Machine) : Nat := m.input.length

def peek? (m : Machine) (a : Address) : Option Word := m.tape.bind (·.read? a)

/-- Writes a word to the tape, and says whether that was done. -/
def poke (m : Machine) (a : Address) (w : Word) : Machine × Bool :=
  match m.tape with
  | none => (m, false)
  | some t =>
    let (t, done) := t.write a w
    ({ m with tape := some t }, done)

end Machine
end TapeMachine
