/-! Text as lists of characters. Every class used here is within ASCII, so a character and the bytes
of its UTF-8 form belong to the same class; positions in a text are counted in bytes. -/

namespace TapeMachine
namespace Text

/-- Space, tab, line feed, vertical tab, form feed and carriage return. -/
def isBlank (c : Char) : Bool := c = ' ' || (9 ≤ c.toNat && c.toNat ≤ 13)

def bytes (cs : List Char) : Nat := cs.foldr (fun c n => c.utf8Size + n) 0

def isNameStart (c : Char) : Bool := c.isAlpha || c = '_'

def isNameChar (c : Char) : Bool := c.isAlphanum || c = '_'

def isName : List Char → Bool
  | [] => false
  | c :: cs => isNameStart c && cs.all isNameChar

def isIdentifier (s : String) : Bool := isName s.toList

def pieces (isSeparator : Char → Bool) (cs : List Char) : List (List Char) :=
  (cs.splitOnP isSeparator).filter fun piece => !piece.isEmpty

/-- The text behind the byte at `i`, put behind `text`. A byte that is part of no character is taken
for the character of its number. -/
def decodeFrom (bytes : ByteArray) (i : Nat) (text : String) : String :=
  if h : i < bytes.size then
    match bytes.utf8DecodeChar? i with
    | some c => decodeFrom bytes (i + c.utf8Size) (text.push c)
    | none => decodeFrom bytes (i + 1) (text.push (Char.ofUInt8 bytes[i]))
  else text
termination_by bytes.size - i
decreasing_by
  · have := c.utf8Size_pos
    omega
  · omega

def ofBytes (bytes : ByteArray) : String := decodeFrom bytes 0 ""

/-- A line feed ends a line, so a text that ends in one has no empty last line. -/
def lines (cs : List Char) : List (List Char) :=
  let parts := cs.splitOn '\n'
  if parts.getLast? = some [] then parts.dropLast else parts

end Text
end TapeMachine
