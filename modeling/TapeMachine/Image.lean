import TapeMachine.Word.Decimal

/-! A memory image: the words that a machine finds on its tape when it starts. -/

namespace TapeMachine

abbrev Image := List Word

namespace Image

def format (image : Image) : String := ",".intercalate (image.map Word.decimal)

end Image
end TapeMachine
