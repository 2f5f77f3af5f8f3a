/-
# ObjectMachine.Session.Answer -- what the steps of a script answer

`Rendered` is a value as an answer shows it: what has a counterpart outside the heap is shown as
that, and other objects by their kind and text.
-/
import ObjectMachine.Dispatch
import ObjectMachine.Machine.Basic
import ObjectMachine.Plain
import ObjectMachine.Rendering

namespace ObjectMachine

namespace Session

/-- A value as an answer shows it. -/
inductive Rendered where
  | int (n : Int)
  | string (content : String)
  | null
  | bool (truth : Bool)
  | void
  | tuple (elements : List Rendered)
  /-- A tuple that lies too deep to be shown. -/
  | deep (length : Nat)
  | signal (signal : Signal)
  | object (kind : Kind) (text : String)
  deriving Inhabited

/-- Levels of tuples that an answer shows unless it says otherwise. -/
def defaultLevels : Nat := 12

/-- A value with at most `levels` levels of tuples. -/
def renderLevels (s : Store) : Nat → Value → Except Violation Rendered
  | levels, v =>
    if v = s.roots.void then .ok .void
    else if v = s.roots.null then .ok .null
    else if v = s.roots.yes then .ok (.bool true)
    else if v = s.roots.no then .ok (.bool false)
    else
      match v with
      | .int n => .ok (.int n)
      | .signal signal => .ok (.signal signal)
      | .object _ =>
        match s.heap.bodyOf? v with
        | some (.string text) => .ok (.string text.content)
        | some (.tuple t) =>
          match levels with
          | 0 => .ok (.deep t.elements.size)
          | levels + 1 => do
            pure (.tuple (← t.elements.toList.mapM (renderLevels s levels)))
        | some body => do pure (.object body.kind (← s.heap.display v))
        | none => .error (.castFailed none v)

/-- How full a heap is, and what its collections have done. -/
structure HeapReport where
  used : Nat
  capacity : Nat
  stats : CollectionStats

/-- What a stack looks like from outside. -/
structure StackReport where
  height : Nat
  size : Nat
  status : StackStatus
  mode : StackMode
  marker : Option Nat
  /-- The chain of links of a stack that can run. -/
  links : Option (List Nat)

/-- What an object looks like from outside. -/
structure ObjectReport where
  kind : Kind
  size : Nat
  inHeap : Bool
  layoutFields : Nat
  layoutMethods : Nat
  protocol : Rendered

/-- What a lambda looks like from outside. -/
structure LambdaReport where
  argc : Nat
  maxHeight : Nat
  outers : Rendered
  source : Rendered
  context : Rendered
  /-- Units and constants, once it has been compiled. -/
  code : Option (List UInt16 × List Rendered)

/-- What a selector looks like from outside. -/
structure SelectorReport where
  name : Rendered
  argc : Nat
  keywords : Rendered
  accessor : Rendered

/-- Why a step of a script has no answer, although the machine goes on. -/
inductive Trouble where
  | signal (signal : Signal)
  | run (error : RunError)
  /-- The step could not be read, or names something that is not there. -/
  | malformed
  deriving DecidableEq

/-- The answer to a step of a script. -/
inductive Answer where
  | value (value : Rendered)
  /-- There is no such value. -/
  | nothing
  /-- The step has been done, and there is nothing to say about it. -/
  | done
  | bool (truth : Bool)
  | int (n : Int)
  | optional (n : Option Nat)
  | text (text : String)
  | hash (hash : UInt64)
  | values (values : List Rendered)
  | handles (count : Nat) (indices : List (String × Nat))
  | object (report : ObjectReport)
  | stringAt (length : Nat) (char : Option Char)
  | forwarder (binding : Binding) (target : Rendered)
  /-- Size and capacity of a map. -/
  | mapSize (size capacity : Nat)
  | mapEntries (size capacity : Nat) (entries : List (Rendered × Rendered))
  | protocol (name : Rendered) (methods : Nat) (parent : Option Rendered)
  | selector (report : SelectorReport)
  | layout (kind : Kind) (protocol : Rendered)
  | search (score : Option Nat) (ambiguous : Bool) (method : Option String)
  /-- The name of the variable that holds a method. -/
  | method (name : Option String)
  | assembly (progress : List (UInt16 × Nat × Nat)) (units : List UInt16)
      (constants : List Rendered)
  | lambda (report : LambdaReport)
  | plain (value : Plain)
  | heap (report : HeapReport)
  | retried (calls : Nat) (failure : Option RunError)
  | stack (report : StackReport)
  | task (stack : StackReport) (caller : Rendered)
  /-- What happened while some values were held, and what became of them. -/
  | block (inside after : Nat) (steps : List (Except Trouble Answer)) (values : List Rendered)

end Session

end ObjectMachine
