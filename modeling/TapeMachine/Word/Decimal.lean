import TapeMachine.Word

/-! Words in decimal: an optional minus sign and at least one ASCII digit. Any number of leading
zeros is read; a value outside the range of a word is refused. -/

namespace TapeMachine
namespace Word

def decimal (w : Word) : String :=
  if w < 0 then "-" ++ w.toInt.natAbs.repr else w.toInt.natAbs.repr

def digitValue (c : Char) : UInt64 := UInt64.ofNat (c.toNat - '0'.toNat)

/-- The largest magnitude that a word of this sign has. -/
def maxMagnitude (negative : Bool) : UInt64 :=
  if negative then 9223372036854775808 else 9223372036854775807

/-- Appends a digit to a magnitude that may not pass `limit`. The test comes before the product, so
that nothing wraps. -/
def pushDigit? (limit magnitude digit : UInt64) : Option UInt64 :=
  if magnitude > (limit - digit) / 10 then none else some (magnitude * 10 + digit)

def magnitude? (limit : UInt64) (digits : List Char) : Option UInt64 :=
  digits.foldlM (fun m c => if c.isDigit then pushDigit? limit m (digitValue c) else none) 0

def unsigned? (negative : Bool) : List Char → Option UInt64
  | [] => none
  | digits => magnitude? (maxMagnitude negative) digits

def ofDecimal? : List Char → Option Word
  | '-' :: digits => (unsigned? true digits).map fun m => (0 - m).toInt64
  | digits => (unsigned? false digits).map fun m => m.toInt64

def parse? (text : String) : Option Word := ofDecimal? text.toList

end Word
end TapeMachine
