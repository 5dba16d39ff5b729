import TapeMachine.Image.Listing
import TapeMachine.Image.Reader
import TapeMachine.Machine.Run
import TapeMachine.Program.Assembly

/-! The command line, apart from reading the file and printing: what the arguments ask for, and what
is answered once the content of the file is known. -/

namespace TapeMachine

/-- What a file to be run holds. -/
inductive FileKind where
  | source
  | image
  deriving DecidableEq

inductive Command where
  | run (kind : FileKind) (path : String) (inputs : List Word)
  | disassemble (path : String)
  deriving DecidableEq

structure Report where
  exitCode : UInt8
  out : String := ""
  err : String := ""
  deriving DecidableEq

namespace FileKind

def option : FileKind → String
  | source => "--llir"
  | image => "--image"

def describe : FileKind → String
  | source => "llir"
  | image => "image"

end FileKind

namespace Report

/-- Nothing was executed. -/
def refusal (err : String) : Report := { exitCode := 2, err := err ++ "\n" }

def ofExecution (e : Execution) : Report :=
  let out := String.join (e.outputs.map fun w => w.decimal ++ "\n")
  match e.status with
  | .halted => { exitCode := 0, out }
  | status =>
    let note := if e.message.isEmpty then "" else ": " ++ e.message
    { exitCode := 1, out, err := status.name ++ note ++ "\n" }

end Report

namespace Command

def runUsage (kind : FileKind) : String :=
  "usage: tally_tests " ++ kind.option ++ " <file> [input...]"

def disassembleUsage : String := "usage: tally_tests --disasm <file.llir>"

def readInput (text : String) : Except Report Word :=
  match Word.parse? text with
  | some w => .ok w
  | none => .error (.refusal ("invalid input value '" ++ text ++ "'"))

def ofRunArguments (kind : FileKind) : List String → Except Report Command
  | [] => .error (.refusal (runUsage kind))
  | path :: inputs => return .run kind path (← inputs.mapM readInput)

/-- The inputs are read before the file is. -/
def ofArguments : List String → Except Report Command
  | "--llir" :: arguments => ofRunArguments .source arguments
  | "--image" :: arguments => ofRunArguments .image arguments
  | "--disasm" :: [] => .error (.refusal disassembleUsage)
  | "--disasm" :: path :: _ => .ok (.disassemble path)
  | _ =>
    .error (.refusal ("\n".intercalate [runUsage .source, runUsage .image, disassembleUsage]))

def path : Command → String
  | run _ path _ | disassemble path => path

def kind : Command → FileKind
  | run kind _ _ => kind
  | disassemble _ => .source

def loadFailure (kind : FileKind) (path reason : String) : Report :=
  .refusal (kind.describe ++ " load failed: " ++ path ++ " (" ++ reason ++ ")")

def readImage (kind : FileKind) (path content : String) : Except Report Image :=
  match kind with
  | .source => (Image.ofSource content).mapError fun e => .refusal (path ++ ": " ++ e.format)
  | .image => (Image.read content).mapError fun e => loadFailure kind path e.message

/-- The image of the file that a command names; a file that is not there has no content. -/
def image (c : Command) (content : Option String) : Except Report Image :=
  match content with
  | none => .error (loadFailure c.kind c.path "failed to open file")
  | some content => readImage c.kind c.path content

/-- The answer to a command, if a run that it asks for ends within `n` ticks. -/
def perform (n : Nat) (c : Command) (content : Option String) : Option Report :=
  match c.image content with
  | .error report => some report
  | .ok image =>
    match c with
    | disassemble _ => some { exitCode := 0, out := image.format ++ "\n" ++ image.disassembly }
    | run _ _ inputs =>
      Report.ofExecution <$> image.execute n (some (.blank .growable Tape.defaultLimit)) inputs

end Command
end TapeMachine
