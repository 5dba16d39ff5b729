/-! Machine words are 64-bit two's complement numbers, tape addresses are 64-bit unsigned ones.
`Word.address?` says which words name an address. -/

namespace TapeMachine

abbrev Word := Int64

abbrev Address := UInt64

namespace Word

def ofBool (b : Bool) : Word := if b then 1 else 0

/-- A negative word names no address. -/
def address? (w : Word) : Option Address := if w < 0 then none else some w.toUInt64

end Word
end TapeMachine
