import TapeMachine.Image
import TapeMachine.Text

/-! Reading an image from text: decimal words separated by blanks, by single commas, or by both, the
whole possibly in square brackets. The text is cut into words and commas first; a comma then needs a
word on either side of it. -/

namespace TapeMachine
namespace Image

inductive ReadError where
  | missingBracket
  | emptyWord
  | invalidWord (word : String) (offset : Nat)
  | trailingComma
  deriving DecidableEq

def ReadError.message : ReadError → String
  | missingBracket => "image missing closing ']'"
  | emptyWord => "empty word in image"
  | invalidWord word offset => "invalid word '" ++ word ++ "' at offset " ++ offset.repr
  | trailingComma => "trailing ',' in image"

/-- A word carries the offset of the byte after it. -/
inductive Lexeme where
  | word (chars : List Char) (stop : Nat)
  | comma
  deriving DecidableEq

/-- The word read so far, if there is one; its characters are kept last first. -/
def pending (reversed : List Char) (offset : Nat) : List Lexeme :=
  if reversed.isEmpty then [] else [.word reversed.reverse offset]

def lexemes (reversed : List Char) (offset : Nat) : List Char → List Lexeme
  | [] => pending reversed offset
  | c :: cs =>
    let next := offset + c.utf8Size
    if c = ',' then pending reversed offset ++ .comma :: lexemes [] next cs
    else if Text.isBlank c then pending reversed offset ++ lexemes [] next cs
    else lexemes (c :: reversed) next cs

/-- Reads the lexemes after `words`, which are kept last first; `afterComma` says that a comma still
waits for its word. -/
def readLexemes (words : List Word) (afterComma : Bool) : List Lexeme → Except ReadError Image
  | [] => if afterComma then .error .trailingComma else .ok words.reverse
  | .comma :: rest =>
    if afterComma || words.isEmpty then .error .emptyWord else readLexemes words true rest
  | .word chars stop :: rest =>
    match Word.ofDecimal? chars with
    | none => .error (.invalidWord (String.ofList chars) stop)
    | some w => readLexemes (w :: words) false rest

def readBody (offset : Nat) (body : List Char) : Except ReadError Image :=
  readLexemes [] false (lexemes [] offset body)

def trimRight (cs : List Char) : List Char := (cs.reverse.dropWhile Text.isBlank).reverse

def read (text : String) : Except ReadError Image :=
  let cs := text.toList
  let start := Text.bytes (cs.takeWhile Text.isBlank)
  match trimRight (cs.dropWhile Text.isBlank) with
  | '[' :: inner =>
    if inner.getLast? = some ']' then readBody (start + 1) inner.dropLast
    else .error .missingBracket
  | body => readBody start body

end Image
end TapeMachine
