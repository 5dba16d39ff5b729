import TapeMachine.Machine.Tick

/-! Running a machine until it stops. A run may have no end, so it is given a number of ticks to
stop within, and has no result if they do not suffice. -/

namespace TapeMachine

/-- A finished run: what it put out, why it stopped and the machine it left behind. -/
structure Run where
  outputs : List Word
  stop : Stop
  machine : Machine

namespace Machine

/-- `outputs` are the outputs so far, last first. -/
def runFrom (outputs : List Word) : Nat → Machine → Option Run
  | 0, _ => none
  | n + 1, m =>
    match m.tick with
    | (.ok, m) => runFrom outputs n m
    | (.output w, m) => runFrom (w :: outputs) n m
    | (.stopped stop, m) => some ⟨outputs.reverse, stop, m⟩

def run (n : Nat) (m : Machine) : Option Run := runFrom [] n m

end Machine

/-- How the execution of an image ended: the image was not loaded, or it ran. -/
inductive Execution where
  | refused (e : LoadError)
  | ran (r : Run)

namespace Execution

def status : Execution → Status
  | refused _ => .memoryFault
  | ran r => r.stop.status

def value : Execution → Word
  | refused _ => 0
  | ran r => r.stop.value

def message : Execution → String
  | refused e => e.message
  | ran r => r.stop.message

def outputs : Execution → List Word
  | refused _ => []
  | ran r => r.outputs

end Execution

namespace Image

/-- Loads the image onto the tape and runs it on the inputs, for at most `n` ticks. -/
def execute (n : Nat) (image : Image) (tape : Option Tape) (inputs : List Word) :
    Option Execution :=
  let m := Machine.start image tape
  match m.loadError with
  | some e => some (.refused e)
  | none => .ran <$> (m.pushAll inputs).run n

end Image
end TapeMachine
