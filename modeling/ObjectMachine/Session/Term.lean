/-
# ObjectMachine.Session.Term -- values as a script writes them

A script names the values it works on: a literal, a variable, or one of the objects that every
machine has. A part of a script that could not be read stands as `unreadable` until the step that
needs it is reached.
-/
import ObjectMachine.Code.Draft
import ObjectMachine.Kind

namespace ObjectMachine

namespace Session

/-- An object that every machine has. -/
inductive Fixture where
  | emptyTuple
  | emptyString
  | emptyLambda
  | emptyContext
  | toplevel
  deriving DecidableEq

/-- A value as a script writes it. -/
inductive Term where
  | int (n : Int)
  | string (content : String)
  | null
  | bool (truth : Bool)
  | tuple (elements : List Term)
  | named (name : String)
  | void
  | signal (signal : Signal)
  /-- The protocol of a kind, or the one that all protocols refine. -/
  | protocol (kind : Option Kind)
  | layout (kind : Kind)
  | fixture (which : Fixture)
  | unreadable
  deriving Inhabited

/-- A program as a script writes it. -/
abbrev Program := List (Draft Term)

end Session

end ObjectMachine
