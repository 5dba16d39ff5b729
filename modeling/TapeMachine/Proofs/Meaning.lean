import TapeMachine.Proofs.Intact
import TapeMachine.Proofs.Program.Lowering

/-! What an instruction means, said of the instruction as it is written, shorthand or not, and without
the image: where the words of an assembled instruction lie at the position of a machine, a tick does
just that, whatever the anchors among its operands hold by then. -/

namespace TapeMachine

namespace Instruction

variable {i : Instruction} {opcode : Opcode} {t : SymbolTable} {m : Machine}

end Instruction

end TapeMachine
