import TapeMachine.Image
import TapeMachine.Opcode.Fields

/-! The listing of an image: from the first word on, each word that starts an instruction is shown
with the operands that follow it, every other word is shown as it is. A word starts an instruction
if its code is an opcode's, its operands lie within the image and their mode digits name modes. -/

namespace TapeMachine

structure ListedOperand where
  mode : Mode
  word : Word
  deriving DecidableEq

inductive ListedItem where
  | word (w : Word)
  | instruction (opcode : Opcode) (operands : List ListedOperand)
  deriving DecidableEq

structure ListingLine where
  address : Nat
  item : ListedItem
  deriving DecidableEq

namespace ListedOperand

def format (operand : ListedOperand) : String :=
  match operand.mode with
  | .position => "[" ++ operand.word.decimal ++ "]"
  | .immediate => operand.word.decimal
  | .relative => "rb[" ++ operand.word.decimal ++ "]"

end ListedOperand

namespace ListedItem

def width : ListedItem → Nat
  | word _ => 1
  | instruction _ operands => 1 + operands.length

def format : ListedItem → String
  | word w => ".word " ++ w.decimal
  | instruction opcode [] => opcode.name
  | instruction opcode operands =>
    opcode.name ++ " " ++ ", ".intercalate (operands.map ListedOperand.format)

def instruction? (w : Word) (rest : List Word) : Option ListedItem := do
  let fields ← OpFields.ofWord? w
  let opcode ← fields.opcode?
  guard (opcode.operandCount ≤ rest.length)
  let modes ← (List.range opcode.operandCount).mapM fields.mode?
  return instruction opcode (List.zipWith ListedOperand.mk modes rest)

def ofWords (w : Word) (rest : List Word) : ListedItem := (instruction? w rest).getD (word w)

end ListedItem

namespace ListingLine

def format (line : ListingLine) : String := line.address.repr ++ ": " ++ line.item.format ++ "\n"

end ListingLine

namespace Image

/-- The listing of the words from `address` on, of which the first `skip` are operands of the
instruction before them. -/
def listingFrom (address skip : Nat) : List Word → List ListingLine
  | [] => []
  | w :: rest =>
    if skip = 0 then
      let item := ListedItem.ofWords w rest
      ⟨address, item⟩ :: listingFrom (address + 1) (item.width - 1) rest
    else listingFrom (address + 1) (skip - 1) rest

def listing (image : Image) : List ListingLine := listingFrom 0 0 image

def disassembly (image : Image) : String := String.join (image.listing.map ListingLine.format)

end Image
end TapeMachine
