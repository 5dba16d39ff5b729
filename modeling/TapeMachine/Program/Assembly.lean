import TapeMachine.Program.Resolved
import TapeMachine.Source.Program

/-! From a program, or its text, to the image: check, lower, lay out, collect the symbols, resolve
and emit. -/

namespace TapeMachine

/-- An assembled program: the image with what led to it. -/
structure Assembly where
  lowered : Program
  layouts : List Layout
  symbols : SymbolTable
  image : Image
  deriving DecidableEq

namespace Program

def assemble (p : Program) : Except Error Assembly := do
  p.check
  let lowered ← p.lower
  let layouts := lowered.layouts
  let symbols ← lowered.symbolTable layouts
  let image ← Image.emit (← lowered.resolve symbols)
  if image.length = Layout.total layouts then .ok { lowered, layouts, symbols, image }
  else .error { cause := .sizeMismatch }

def image (p : Program) : Except Error Image := (·.image) <$> p.assemble

end Program

namespace Assembly

def ofText (text : String) : Except Error Assembly := do (← Program.read text).assemble

end Assembly

namespace Image

def ofSource (text : String) : Except Error Image := (·.image) <$> Assembly.ofText text

end Image
end TapeMachine
