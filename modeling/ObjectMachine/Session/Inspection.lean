/-
# ObjectMachine.Session.Inspection -- steps that look at values
-/
import ObjectMachine.Session.Basic
import ObjectMachine.Text.Address

namespace ObjectMachine

namespace Session

/-- The handles that variables hold, by name. -/
def listHandles : Work Answer := fun s =>
  let references := s.machine.references
  let indices := s.bindings.filterMap fun (name, held) =>
    match held with
    | .handle handle => some (name, references.index handle)
    | .immediate _ => none
  .ok (.handles references.persistentCount indices) s

/-- Give a variable up without giving its handle back, which stays registered. -/
def leakHandle (name : String) : Work Answer := do
  match ← holding? name with
  | none => pure (.bool false)
  | some held => do
    fun s => .ok () { s with bindings := s.bindings.filter fun entry => entry.1 != name }
    match held with
    | .immediate _ => pure ()
    | .handle handle => do
      let index ← ask fun m => m.references.index handle
      operate (Machine.report .warn fun _ =>
        s!"persistent handle {index} dropped without dispose, it stays rooted")
    pure (.bool true)

/-- What a value is. -/
def typeName (h : Heap) : Value → String
  | .int _ => "SmallInteger"
  | .signal _ => "Signal"
  | v =>
    match h.kindOf? v with
    | some kind => "Object " ++ kind.name
    | none => "Object"

/-- Whether a value is an object of a kind, or of any kind. -/
def isOfKind (h : Heap) (kind : Option Kind) (v : Value) : Bool :=
  match h.kindOf? v, kind with
  | some actual, some wanted => actual = wanted
  | some _, none => true
  | none, _ => false

/-- Look at a value as a kind of object. -/
def narrowValue (name : Option String) (v : Value) (how : Narrowing) (kind : Option Kind) :
    Work Answer := do
  match how with
  | .is => pure (.bool (← ask fun m => isOfKind m.store.heap kind v))
  | .as =>
    if ← ask fun m => isOfKind m.store.heap kind v then named name v else pure .nothing
  | .cast =>
    if ← ask fun m => isOfKind m.store.heap kind v then named name v
    else Action.violate (.castFailed kind v)
  | .to => do
    let target ← checkHeap fun h => h.deref v
    if ← ask fun m => isOfKind m.store.heap kind target then named name target
    else Action.fail (.signal .typeMismatch)

/-- Compare two values. -/
def compareValues (how : Comparison) (a b : Value) : Work Answer := do
  match how with
  | .equal => pure (.bool (← checkHeap fun h => h.equal a b))
  | .keysEqual => pure (.bool (← checkHeap fun h => h.keyEqual a b))
  | .same => pure (.bool (a == b))

/-- What an object looks like from outside. -/
def objectReport (v : Value) : Work Answer := do
  match ← ask fun m => m.store.heap.objectOf? v with
  | none => malformed
  | some object => do
    let layout ← checkHeap fun h => do h.cast Layout (← h.layoutOf v)
    let methods ← checkHeap fun h => h.tupleElements layout.methods
    pure (.object
      { kind := object.body.kind
        size := object.body.size
        inHeap := ← ask fun m => m.store.heap.contains v
        layoutFields := layout.fieldCount
        layoutMethods := methods.size
        protocol := ← renderAt 1 layout.protocol })

/-- Carry out a step that looks at values. -/
def inspect (name : Option String) : Command → Work Answer
  | .letValue value => do named name (← slot (← eval value))
  | .drop field => do pure (.bool (← forget (← need field)))
  | .leak field => do leakHandle (← need field)
  | .handles => listHandles
  | .typeOf value => do
    let v ← slot (← eval value)
    pure (.text (← ask fun m => typeName m.store.heap v))
  | .narrow value how kind => do
    let v ← slot (← eval value)
    narrowValue name v (← need how) (← need kind)
  | .toInteger value => do
    let v ← slot (← eval value)
    pure (.int (← signalling (Machine.onStore (Store.narrowInt v))))
  | .deref value => do
    let v ← slot (← eval value)
    named name (← checkHeap fun h => h.deref v)
  | .isKey value => do
    let v ← slot (← eval value)
    pure (.bool (← ask fun m => m.store.heap.isKey v))
  | .hash value => do
    let v ← slot (← eval value)
    pure (.hash (← checkHeap fun h => h.hash v))
  | .compare how a b => do
    let a ← eval a
    let b ← eval b
    compareValues how (← slot a) (← slot b)
  | .display value quoted depth => do
    let v ← slot (← eval value)
    let quoted ← need quoted
    let depth ← need depth
    pure (.text (← checkHeap fun h => h.render quoted depth v))
  | .debug value => do
    let v ← slot (← eval value)
    pure (.text (Text.hideAddresses v.describe))
  | .object value => do objectReport (← slot (← eval value))
  | .stringAt value index => do
    let text ← dataAt Text (← evalAs Text value)
    let index ← need index
    pure (.stringAt text.content.length text.content.toList[index]?)
  | _ => malformed

end Session

end ObjectMachine
