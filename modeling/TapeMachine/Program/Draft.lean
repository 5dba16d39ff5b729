import TapeMachine.Instruction.Validity

/-! A program under construction: instructions are added without being looked at, and the finished
program is checked as a whole. -/

namespace TapeMachine

structure Draft where
  instructions : Program := []

namespace Draft

def size (d : Draft) : Nat := d.instructions.length

def add (d : Draft) (i : Instruction) : Draft := ⟨d.instructions ++ [i]⟩

def emit (d : Draft) (m : Mnemonic) (operands : List Operand) : Draft :=
  d.add { mnemonic := m, operands }

def label (d : Draft) (name : String) : Draft := d.add (.ofLabel name)

def data (d : Draft) (name : String) (initial : Word) : Draft := d.add (.ofData name initial)

/-- An error that has no line to point to points to the instruction by its index. -/
def checkAt (i : Instruction) (index : Nat) : Except Error Unit :=
  i.check.mapError fun e => if e.line = 0 then { e with index := some index } else e

def finish (d : Draft) : Except Error Program := do
  d.instructions.zipIdx.forM fun (i, index) => checkAt i index
  return d.instructions

end Draft
end TapeMachine
