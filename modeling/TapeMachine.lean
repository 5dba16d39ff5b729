import TapeMachine.Main
import TapeMachine.Program.Draft
import TapeMachine.Proofs.Course
import TapeMachine.Proofs.Image.Printing
import TapeMachine.Proofs.Machine.Delivery
import TapeMachine.Proofs.Machine.Renewal
import TapeMachine.Proofs.Machine.Rest
import TapeMachine.Proofs.Machine.Room
import TapeMachine.Proofs.Machine.Twins
import TapeMachine.Proofs.Meaning
import TapeMachine.Proofs.Program.Concatenation
import TapeMachine.Proofs.Program.Lowering
import TapeMachine.Proofs.Program.Spelling
import TapeMachine.Proofs.Source.Printing
import TapeMachine.Proofs.Tape.Store
import TapeMachine.Proofs.Machine.Confinement
import TapeMachine.Proofs.Program.Renaming
import TapeMachine.Proofs.Forward
import TapeMachine.Proofs.Program.Attribution
import TapeMachine.Proofs.Source.Reading
import TapeMachine.Proofs.Machine.Frame
import TapeMachine.Proofs.Command.RunModes
import TapeMachine.Proofs.Program.Resolution
import TapeMachine.Proofs.Program.Tabulation
import TapeMachine.Proofs.Image.Resemblance
import TapeMachine.Proofs.Program.Disassembly
import TapeMachine.Proofs.Machine.Listed
import TapeMachine.Proofs.Source.Appearance
import TapeMachine.Proofs.Word.Exactness
import TapeMachine.Proofs.Machine.Plan
