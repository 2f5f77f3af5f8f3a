/-
# ObjectMachine.Channel -- requests from outside

A request arrives as plain values. They are imported into the heap, the message is sent by a
small program made for the purpose, and the answer is exported. Nothing that goes wrong in
between reaches the requester: the answer is void then, and the log has the reason.
-/
import ObjectMachine.Interpreter.Run
import ObjectMachine.Plain

namespace ObjectMachine

/-- A message with its receiver and arguments. -/
structure Request where
  receiver : Plain
  selector : String
  arguments : List Plain

namespace Machine

mutual

/-- Copy a plain value into the heap. The copy is held in a slot. -/
def importPlain : Plain → Op RunError Value
  | .void => do held (← ask fun m => (m.store.roots.void : Value))
  | .null => do held (← ask fun m => (m.store.roots.null : Value))
  | .bool truth => do held (← ask fun m => m.store.boolean truth)
  | .int n =>
    match Value.ofInt? n with
    | some v => held v
    | none => Action.fail (.signal .typeMismatch)
  | .string content => do held (← retrying (onStore (Make.string content)))
  | .tuple elements => do
    let rooted ← importAll elements
    held (← retrying do onStore (Make.tuple (← slots rooted)))

/-- Copy plain values into the heap, and answer slots that hold them. -/
def importAll : List Plain → Op RunError (List Nat)
  | [] => pure []
  | element :: rest => do
    let v ← importPlain element
    let slot ← root v
    let slots ← importAll rest
    pure (slot :: slots)

end

/-- Copy a value out of the heap, following tuples for at most `fuel` levels. What has no plain
counterpart becomes its text. -/
def exportWith (s : Store) : Nat → Value → Except Violation Plain
  | 0, _ => .error .endless
  | fuel + 1, v =>
    if v = s.roots.void then .ok .void
    else if v = s.roots.null then .ok .null
    else if v = s.roots.yes then .ok (.bool true)
    else if v = s.roots.no then .ok (.bool false)
    else
      match v with
      | .int n => .ok (.int n)
      | .signal _ => .ok .void
      | .object _ =>
        match s.heap.bodyOf? v with
        | some (.string text) => .ok (.string text.content)
        | some (.tuple t) => do pure (.tuple (← t.elements.toList.mapM (exportWith s fuel)))
        | _ => do pure (.string (← s.heap.display v))

/-- Copy a value out of the heap. -/
def exportPlain (m : Machine) (v : Value) : Except Violation Plain :=
  exportWith m.store m.store.heap.walkFuel v

/-- The largest number of arguments that an instruction can name. -/
def maxArguments : Nat := 65535

/-- A selector without keywords. -/
def plainSelector (name : String) (argc : Nat) : Op RunError Value := retrying do
  let keywords ← ask fun m => (m.store.roots.emptyTuple : Value)
  let name ← Make.string name
  Make.selector name argc keywords false

/-- Send a message and export the answer. -/
def dispatch (budget : Nat) (request : Request) : Op RunError Plain := inScope do
  let receiver ← root (← importPlain request.receiver)
  let arguments ← importAll request.arguments
  let argc := arguments.length
  let selector ← root (← plainSelector request.selector argc)
  if maxArguments < argc then
    Action.fail (.arityMismatch maxArguments argc)
  else
    let pushes ← (receiver :: arguments).mapM fun index => do
      pure (Draft.push (← slot index))
    let keymap ← ask fun m => (m.store.roots.emptyTuple : Value)
    let argc := UInt16.ofNat argc
    let assembly ← Assembly.ofDrafts
      (pushes ++ [.invoke (← slot selector) argc keymap, .slap argc, .ret])
    let program ← assemble assembly 0
    let answer ← call budget program #[]
    check fun m => m.exportPlain answer

/-- Answer a request. -/
def handle (budget : Nat) (request : Request) : Op RunError Plain := fun m =>
  let opening : Op RunError Unit := report .debug fun _ =>
    "channel request " ++ request.receiver.text ++ "." ++ request.selector ++
      s!"/{request.arguments.length}"
  match (do opening; dispatch budget request : Op RunError Plain) m with
  | .error (.raised error) m =>
    (do report .warn fun _ =>
          "channel request " ++ request.selector ++ " failed: " ++ error.message
        pure .void : Op RunError Plain) m
  | outcome => outcome

end Machine

end ObjectMachine
