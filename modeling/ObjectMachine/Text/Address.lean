/-
# ObjectMachine.Text.Address -- texts without addresses

An address means nothing to a reader, so reports show a question mark in its place.
-/

namespace ObjectMachine

namespace Text

/-- Whether a character is a digit in base sixteen. -/
def isHexDigit (c : Char) : Bool :=
  c.isDigit || ('a' ≤ c && c ≤ 'f') || ('A' ≤ c && c ≤ 'F')

/-- Replace each number in base sixteen. While `inside` one, its digits are passed over. -/
def hideFrom (inside : Bool) : List Char → List Char
  | [] => []
  | '0' :: 'x' :: c :: rest =>
    if inside then
      hideFrom true ('x' :: c :: rest)
    else if isHexDigit c then
      '0' :: 'x' :: '?' :: hideFrom true rest
    else
      '0' :: hideFrom false ('x' :: c :: rest)
  | c :: rest =>
    if inside && isHexDigit c then hideFrom true rest else c :: hideFrom false rest
termination_by text => text.length

/-- A text with its addresses hidden. -/
def hideAddresses (text : String) : String := String.ofList (hideFrom false text.toList)

end Text

end ObjectMachine
