import TapeMachine.Proofs.Program.Static

/-! Which instruction an error is about. Names are looked at after lowering, which changes the operands
of an instruction and their order; what is reported is right of the program as it is written. -/

namespace TapeMachine

namespace Instruction

variable {i : Instruction} {m : Mention}

end Instruction

namespace Program

/-- Whether an error says that an instruction refers to a name which the program does not declare. -/
structure Unknown (p : Program) (e : Error) (name : String) : Prop where
  kind : e.kind = .undefinedSymbol
  message : e.message = "undefined symbol " ++ ErrorCause.quote name
  reported : ∃ i ∈ p, e.line = i.line ∧ ⟨name, i.line⟩ ∈ i.referred
  unknown : name ∉ p.declaredNames

variable {p : Program} {name : String} {m : Mention}

end Program
end TapeMachine
