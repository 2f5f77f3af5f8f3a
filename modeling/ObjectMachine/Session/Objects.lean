/-
# ObjectMachine.Session.Objects -- steps that make and change objects
-/
import ObjectMachine.Session.Basic

namespace ObjectMachine

namespace Session

/-- An element, which has to be there. -/
def elementAt (elements : Array Value) (index : Nat) : Work Value :=
  match elements[index]? with
  | some v => pure v
  | none => Action.violate (.indexOutOfBounds elements.size index)

/-- Make an object, and show it. -/
def made (name : Option String) (work : Op Signal Value) : Work Answer := do
  named name (← make work)

/-- Replace an element of a sequence. -/
def setElement (array value : Nat) (index : Nat) : Work Unit := do
  let s ← dataAt Sequence array
  let v ← slot value
  if v.isSignal then
    Action.violate (.signalStored .array)
  let _ ← elementAt s.elements index
  let target ← slot array
  modifyHeap fun h => h.put target (⟨s.elements.setIfInBounds index v⟩ : Sequence)

/-- Replace a field of an instance. -/
def setInstanceField (inst value : Nat) (index : Nat) : Work Unit := do
  let i ← dataAt Instance inst
  let v ← slot value
  if v.isSignal then
    Action.violate (.signalStored .inst)
  let _ ← elementAt i.fields index
  let target ← slot inst
  modifyHeap fun h => h.put target (⟨i.fields.setIfInBounds index v⟩ : Instance)

/-- Replace the content of a cell. -/
def setContent (cell value : Nat) : Work Unit := do
  let v ← slot value
  if v.isSignal then
    Action.violate (.signalStored .cell)
  let target ← slot cell
  modifyHeap fun h => h.put target (⟨v⟩ : Cell)

/-- Do something to a forwarder. -/
def redirectForwarder (forwarder : Nat) (target : Option Nat) (how : Redirection) :
    Work Answer := do
  let { descriptor } ← dataAt Forwarder forwarder
  let change (f : Heap → Except Violation Descriptor) : Work Unit := do
    let d ← checkHeap f
    modifyHeap fun h => h.put descriptor d
  match how with
  | .bind => do
    let v ← slot (← need target)
    change fun h => h.bound descriptor v
  | .retarget => do
    let v ← slot (← need target)
    change fun h => h.retargeted descriptor v
  | .close => change fun h => h.rebound descriptor .closed
  | .reopen => change fun h => h.rebound descriptor .opened
  | .look => pure ()
  let d ← checkHeap fun h => h.cast Descriptor descriptor
  pure (.forwarder d.binding (← renderAt defaultLevels d.target))

/-- Size and capacity of a map. -/
def mapSize (map : Value) : Work Answer := do
  let t ← checkHeap fun h => h.cast Table map
  let entries ← checkHeap fun h => h.entries t
  pure (.mapSize t.size entries.capacity)

/-- The entries of a map, in the order of its table. -/
def listEntries (map : Nat) : Work Answer := do
  let t ← dataAt Table map
  let entries ← checkHeap fun h => h.entries t
  let shown ← entries.toList.mapM fun entry => do
    pure (← renderAt 3 entry.key, ← renderAt 3 entry.value)
  pure (.mapEntries t.size entries.capacity shown)

/-- What a protocol looks like from outside. -/
def protocolReport (protocol : Nat) : Work Answer := do
  let p ← dataAt Protocol protocol
  let name ← renderAt 3 p.name
  let methods ← checkHeap fun h => h.tupleElements p.methods
  let parent ← match ← ask fun m => m.store.heap.view? Protocol p.parent with
    | some parent => do pure (some (← renderAt 3 parent.name))
    | none => pure none
  pure (.protocol name methods.size parent)

/-- Carry out a step that makes or changes an object. -/
def modifyObjects (name : Option String) : Command → Work Answer
  | .tuple length => do made name (Machine.onStore (Make.nulls (← need length)))
  | .array length => do made name (Machine.onStore (Make.sequence (← need length)))
  | .blankString length => do made name (Machine.onStore (Make.blankString (← need length)))
  | .singleton ordinal => do made name (Machine.onStore (Make.singleton (← need ordinal)))
  | .context => made name (Machine.onStore Make.context)
  | .get value index => do
    let v ← slot (← eval value)
    let elements ← match ← ask fun m => m.store.heap.bodyOf? v with
      | some (.tuple t) => pure t.elements
      | some (.array s) => pure s.elements
      | _ => malformed
    named name (← elementAt elements (← need index))
  | .arraySet array value index => do
    let array ← evalAs Sequence array
    let value ← eval value
    setElement array value (← need index)
    named name (← slot array)
  | .clone value => do
    let source ← eval value
    if !(← ask fun m => m.store.heap.contains (m.references.slot source)) then malformed
    made name do Machine.onStore (Make.clone (← Machine.slot source))
  | .cell value => do
    let content ← eval value
    made name do Machine.onStore (Make.cell (← Machine.slot content))
  | .cellGet cell => do
    let { content } ← dataAt Cell (← evalAs Cell cell)
    named name content
  | .cellSet cell value => do
    let cell ← evalAs Cell cell
    let value ← eval value
    setContent cell value
    named name (← slot cell)
  | .forwarder target binding => do
    let target ← eval target
    let binding ← need binding
    made name do Machine.onStore (Make.forwarder binding (← Machine.slot target))
  | .redirect forwarder target how => do
    let forwarder ← evalAs Forwarder forwarder
    let target ← match target with
      | some term => do pure (some (← eval term))
      | none => pure none
    redirectForwarder forwarder target (← need how)
  | .map capacity => do
    let capacity ← need capacity
    made name (Machine.onStore (Make.table (capacity.getD Make.defaultCapacity)))
  | .mapSet map key value => do
    let map ← evalAs Table map
    let key ← eval key
    let value ← eval value
    make do
      let target ← Machine.slot map
      let key ← Machine.slot key
      let value ← Machine.slot value
      Machine.onStore (Table.set target key value)
    mapSize (← slot map)
  | .mapGet map key => do
    let t ← dataAt Table (← evalAs Table map)
    let key ← slot (← eval key)
    match ← checkHeap fun h => h.tableGet? t key with
    | some v => named name v
    | none => Action.fail (.signal .nothing)
  | .mapEntries map => do listEntries (← evalAs Table map)
  | .protocol label parent => do
    let label ← eval label
    let parent ← eval parent
    made name do Machine.onStore (Make.protocol (← Machine.slot label) (← Machine.slot parent))
  | .protocolInfo protocol => do protocolReport (← evalAs Protocol protocol)
  | .layout protocol kind fields => do
    let protocol ← eval protocol
    let kind ← need kind
    let fields ← need fields
    made name do Machine.onStore (Make.layout kind fields (← Machine.slot protocol))
  | .inst layout => do
    let layout ← evalAs Layout layout
    made name do Machine.onStore (Make.inst (← Machine.slot layout))
  | .field inst index => do
    let i ← dataAt Instance (← evalAs Instance inst)
    named name (← elementAt i.fields (← need index))
  | .setField inst value index => do
    let inst ← evalAs Instance inst
    let value ← eval value
    setInstanceField inst value (← need index)
    pure .done
  | .fields inst => do
    let i ← dataAt Instance (← evalAs Instance inst)
    pure (.values (← shownAll 3 i.fields.toList))
  | .selector label keywords argc accessor => do
    let label ← evalAs Text label
    let keywords ← match keywords with
      | some term => evalAs Tuple term
      | none => do hold (← ask fun m => (m.store.roots.emptyTuple : Value))
    let argc ← need argc
    let accessor ← need accessor
    made name do
      let label ← Machine.slot label
      Machine.onStore (Make.selector label argc (← Machine.slot keywords) accessor)
  | .selectorInfo selector => do
    let s ← dataAt Selector (← evalAs Selector selector)
    pure (.selector
      { name := ← renderAt defaultLevels s.name
        argc := s.argc
        keywords := ← renderAt defaultLevels s.keywords
        accessor := ← renderAt defaultLevels s.accessor })
  | .signature parameters => do
    let parameters ← evalList parameters
    made name do Machine.onStore (Make.signature (← Machine.slots parameters))
  | .method selector signature lambda => do
    let selector ← evalAs Selector selector
    let signature ← evalAs Signature signature
    let lambda ← evalAs Lambda lambda
    made name do
      let selector ← Machine.slot selector
      let signature ← Machine.slot signature
      Machine.onStore (Make.method selector signature (← Machine.slot lambda))
  | .addMethod holder method => do
    let holder ← eval holder
    let method ← evalAs Method method
    operate do Machine.addMethod (← Machine.slot holder) (← Machine.slot method)
    pure .done
  | _ => malformed

end Session

end ObjectMachine
