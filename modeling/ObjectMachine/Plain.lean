/-
# ObjectMachine.Plain -- values outside a heap

A plain value is what a machine and its callers exchange: it has no identity and refers to
nothing.
-/
import ObjectMachine.Text.Quoted

namespace ObjectMachine

/-- A value that lives outside a heap. -/
inductive Plain where
  | void
  | null
  | bool (truth : Bool)
  | int (n : Int)
  | string (content : String)
  | tuple (elements : List Plain)
  deriving Inhabited

namespace Plain

mutual

/-- The text of a plain value. Strings are quoted. -/
def text : Plain → String
  | void => "#<void>"
  | null => "null"
  | bool truth => if truth then "true" else "false"
  | int n => toString n
  | string content => Text.quote content
  | tuple elements => "(" ++ ", ".intercalate (texts elements) ++ ")"

/-- The texts of plain values. -/
def texts : List Plain → List String
  | [] => []
  | element :: rest => element.text :: texts rest

end

end Plain

end ObjectMachine
