/-
# ObjectMachine.Session.Basic -- a machine and the names a script gave

A session keeps variables beside a machine. A variable that holds an object is a persistent
handle, so the object survives; integers and signals are kept as they are. What a step evaluates
is held in slots until the step ends.
-/
import ObjectMachine.Channel
import ObjectMachine.Session.Answer
import ObjectMachine.Session.Command

namespace ObjectMachine

namespace Session

/-- What a variable holds. -/
inductive Holding where
  | handle (handle : Handle)
  | immediate (value : Value)

/-- A machine together with variables. -/
structure State where
  machine : Machine
  /-- Variables, each name once. -/
  bindings : List (String × Holding)
  /-- Instructions that a call may take. -/
  budget : Nat

/-- Work of a step. -/
abbrev Work (α : Type) := Action State Trouble α

variable {α : Type}

/-- Run work on the machine. -/
@[inline]
def onMachine {ε : Type} (trouble : ε → Trouble) (work : Op ε α) : Work α := fun s =>
  let { machine, bindings, budget } := s
  match work machine with
  | .ok answer machine => .ok answer { machine, bindings, budget }
  | .error stop machine => .error (stop.map trouble) { machine, bindings, budget }

/-- Run work that may fail as a call does. -/
def operate (work : Op RunError α) : Work α := onMachine .run work

/-- Run work that may end in a signal. -/
def signalling (work : Op Signal α) : Work α := onMachine .signal work

/-- Make objects in one try, once more after a collection. -/
def make (work : Op Signal α) : Work α := operate (Machine.retrying work)

/-- Ask the machine. -/
def ask (f : Machine → α) : Work α := fun s =>
  let answer := f s.machine
  .ok answer s

/-- Ask the machine a question that may find a broken invariant. -/
def check (f : Machine → Except Violation α) : Work α := fun s =>
  match f s.machine with
  | .ok answer => .ok answer s
  | .error violation => .error (.broken violation) s

/-- Ask the heap a question that may find a broken invariant. -/
def checkHeap (f : Heap → Except Violation α) : Work α := check fun m => f m.store.heap

/-- Change the heap. -/
def modifyHeap (f : Heap → Heap) : Work Unit := operate (Machine.modifyHeap f)

/-- The step cannot be done as it is written. -/
def malformed : Work α := Action.fail .malformed

/-- A field that has to be readable. -/
def need (field : Option α) : Work α :=
  match field with
  | some content => pure content
  | none => malformed

/-- Hold a value in a slot until the step ends. -/
def hold (v : Value) : Work Nat := operate (Machine.root v)

/-- The value of a slot. -/
def slot (index : Nat) : Work Value := ask fun m => m.references.slot index

/-- What a variable holds. -/
def holding? (name : String) : Work (Option Holding) := fun s =>
  .ok (List.lookup name s.bindings) s

/-- The value of a variable. -/
def valueOf (m : Machine) : Holding → Value
  | .handle handle => m.references.value handle
  | .immediate v => v

/-- The object that every machine has. -/
def fixture (r : Roots) : Fixture → Value
  | .emptyTuple => r.emptyTuple
  | .emptyString => r.emptyString
  | .emptyLambda => r.emptyLambda
  | .emptyContext => r.emptyContext
  | .toplevel => r.toplevel

mutual

/-- Evaluate a term, and answer the slot that holds its value. -/
def eval : Term → Work Nat
  | .int n =>
    match Value.ofInt? n with
    | some v => hold v
    | none => Action.violate (.smallIntegerRange n)
  | .string content => do hold (← make (Machine.onStore (Make.string content)))
  | .null => do hold (← ask fun m => (m.store.roots.null : Value))
  | .bool truth => do hold (← ask fun m => m.store.boolean truth)
  | .tuple elements => do
    let slots ← evalAll elements
    hold (← make do Machine.onStore (Make.tuple (← Machine.slots slots)))
  | .named name => do
    match ← holding? name with
    | none => malformed
    | some held => do hold (← ask fun m => valueOf m held)
  | .void => do hold (← ask fun m => (m.store.roots.void : Value))
  | .signal signal => hold (.signal signal.stored)
  | .protocol none => do hold (← ask fun m => (m.store.roots.objectProtocol : Value))
  | .protocol (some kind) => do
    let layout ← check fun m => m.store.heap.cast Layout (m.store.roots.layout kind)
    hold layout.protocol
  | .layout kind => do hold (← ask fun m => (m.store.roots.layout kind : Value))
  | .fixture which => do hold (← ask fun m => fixture m.store.roots which)
  | .unreadable => malformed

/-- Evaluate terms from left to right. -/
def evalAll : List Term → Work (List Nat)
  | [] => pure []
  | term :: rest => do
    let slot ← eval term
    let slots ← evalAll rest
    pure (slot :: slots)

end

/-- Evaluate a list of terms, which has to be readable. -/
def evalList (terms : Option (List Term)) : Work (List Nat) := do evalAll (← need terms)

/-- The values of slots. -/
def values (slots : List Nat) : Work (Array Value) := ask fun m =>
  (slots.map m.references.slot).toArray

/-- Evaluate a term to an object of kind `κ`. -/
def evalAs (κ : Type) [HeapKind κ] (term : Term) : Work Nat := do
  let index ← eval term
  let v ← slot index
  if ← ask fun m => m.store.heap.is κ v then pure index else malformed

/-- The object of kind `κ` in a slot. -/
def dataAt (κ : Type) [HeapKind κ] (index : Nat) : Work κ := check fun m =>
  m.store.heap.cast κ (m.references.slot index)

/-- A value as an answer shows it. -/
def renderAt (levels : Nat) (v : Value) : Work Rendered := check fun m =>
  renderLevels m.store levels v

/-- The answer that shows a value. -/
def shown (v : Value) : Work Answer := do pure (.value (← renderAt defaultLevels v))

/-- The answer that shows several values. -/
def shownAll (levels : Nat) (vs : List Value) : Work (List Rendered) := vs.mapM (renderAt levels)

/-- Give a variable up, and its handle with it. -/
def forget (name : String) : Work Bool := fun s =>
  let { machine, bindings, budget } := s
  match List.lookup name bindings with
  | none => .ok false { machine, bindings, budget }
  | some held =>
    let bindings := bindings.filter fun entry => entry.1 != name
    match held with
    | .immediate _ => .ok true { machine, bindings, budget }
    | .handle handle =>
      match machine.references.dispose handle with
      | .ok references => .ok true { machine := { machine with references }, bindings, budget }
      | .error violation => .error (.broken violation) { machine, bindings, budget }

/-- Let a variable hold a value. -/
def assign (name : String) (v : Value) : Work Unit := do
  let _ ← forget name
  fun s =>
    let { machine, bindings, budget } := s
    match v with
    | .object _ =>
      let (handle, references) := machine.references.persist v
      .ok () { machine := { machine with references }
               bindings := (name, .handle handle) :: bindings
               budget }
    | v => .ok () { machine, bindings := (name, .immediate v) :: bindings, budget }

/-- The answer of a step that has a value, which is given a name if the step has one. -/
def named (name : Option String) (v : Value) : Work Answer := do
  match name with
  | some name => assign name v
  | none => pure ()
  shown v

/-- The name of the variable that holds a value, the alphabetically first if there are several. -/
def nameOf? (v : Value) : Work (Option String) := fun s =>
  let holders := s.bindings.filter fun entry => valueOf s.machine entry.2 == v
  let names := holders.map Prod.fst
  let first := names.foldl (fun (least : Option String) name =>
    match least with
    | some known => if name < known then some name else least
    | none => some name) none
  .ok first s

end Session

end ObjectMachine
