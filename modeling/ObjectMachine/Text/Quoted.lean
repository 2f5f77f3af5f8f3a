/-
# ObjectMachine.Text.Quoted -- strings between quotes

Between quotes, a quote and a backslash are escaped by a backslash, the usual control
characters have a letter, and whatever is not shown as it is stands as its code point.
-/
import ObjectMachine.Text.Printable

namespace ObjectMachine

namespace Text

/-- A character inside quotes. -/
def escape (c : Char) : List Char :=
  if c = Char.ofNat 0 then ['\\', '0']
  else if c = '\t' then ['\\', 't']
  else if c = '\r' then ['\\', 'r']
  else if c = '\n' then ['\\', 'n']
  else if c = '"' then ['\\', '"']
  else if c = '\\' then ['\\', '\\']
  else if isPrintable c then [c]
  else ['\\', 'u', '\x7b'] ++ Nat.toDigits 16 c.toNat ++ ['\x7d']

/-- A string between quotes. -/
def quote (content : String) : String :=
  String.ofList ('"' :: content.toList.flatMap escape ++ ['"'])

end Text

end ObjectMachine
