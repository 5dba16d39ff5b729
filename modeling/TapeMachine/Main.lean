import TapeMachine.Command

/-! The program: it reads the file that the arguments name, and prints the answer. -/

namespace TapeMachine

/-- More ticks than any run can take in practice. -/
def tickBudget : Nat := 1 <<< 62

def readContent (path : String) : IO (Option String) := do
  try return some (Text.ofBytes (← IO.FS.readBinFile path))
  catch _ => return none

def answer (args : List String) : IO Report := do
  match Command.ofArguments args with
  | .error report => return report
  | .ok command =>
    let content ← readContent command.path
    return (command.perform tickBudget content).getD (.refusal "no end within the budget of ticks")

end TapeMachine

def main (args : List String) : IO UInt32 := do
  let report ← TapeMachine.answer args
  IO.print report.out
  IO.eprint report.err
  return report.exitCode.toUInt32
