/-
# ObjectMachine.Construction -- making objects

One constructor for each kind of object. A constructor never collects: if the active space is
full it ends in `allocationFailed` and the caller decides what to do. One that needs several
objects makes the inner ones first, so that a failure leaves only garbage behind.
-/
import ObjectMachine.Store

namespace ObjectMachine

namespace Make

/-- Place an object of `size` bytes that the layout `layout` describes. -/
def placeAs (layout : Ref) (size : Nat) (body : Unit → Body) : Alloc Value := do
  let ref ← Store.onHeap
    (Heap.allocate size fun _ => { header := .layout layout, body := body () })
  pure (.object ref)

/-- Place an object with the layout of its kind. The body is only made once there is room. -/
def placeLazy (kind : Kind) (size : Nat) (body : Unit → Body) : Alloc Value := do
  let layout ← Store.ask fun s => s.roots.layout kind
  placeAs layout size body

/-- Place an object with the layout of its kind. -/
def place (size : Nat) (body : Body) : Alloc Value := placeLazy body.kind size fun _ => body

/-- A string. -/
def string (content : String) : Alloc Value := do
  let size ← Size.text content.length
  place size (.string ⟨content⟩)

/-- A string of `length` zero characters. -/
def blankString (length : Nat) : Alloc Value := do
  let size ← Size.text length
  placeLazy .string size fun _ => .string ⟨String.ofList (List.replicate length (Char.ofNat 0))⟩

/-- A tuple of `length` nulls. -/
def nulls (length : Nat) : Alloc Value := do
  let size ← Size.sequence length
  let null ← Store.ask fun s => s.roots.null
  placeLazy .tuple size fun _ => .tuple ⟨Array.replicate length null⟩

/-- A tuple of the given elements, none of which may be a signal. -/
def tuple (elements : Array Value) : Alloc Value := do
  let size ← Size.sequence elements.size
  let made ← place size (.tuple ⟨elements⟩)
  if elements.any Value.isSignal then
    Action.violate (.signalStored .tuple)
  else
    pure made

/-- A sequence of `length` nulls. -/
def sequence (length : Nat) : Alloc Value := do
  let size ← Size.sequence length
  let null ← Store.ask fun s => s.roots.null
  placeLazy .array size fun _ => .array ⟨Array.replicate length null⟩

/-- Words of an entry of a hash map: key, value and hash. -/
def entryWords : Nat := 3

/-- Entries of a hash map that nobody gave a capacity. -/
def defaultCapacity : Nat := 4

/-- A hash map with room for `capacity` entries, and at least for one. -/
def table (capacity : Nat) : Alloc Value := do
  let length ← Size.mul (max capacity 1) entryWords
  let entries ← sequence length
  place 24 (.hashMap { size := 0, entries })

/-- A layout with an empty table of methods. -/
def layout (kind : Kind) (fieldCount : Nat) (protocol : Value) : Alloc Value := do
  let methods ← Store.ask fun s => s.roots.emptyTuple
  let made ← place 40 (.layout { kind, fieldCount, protocol, methods })
  let _ ← Size.count fieldCount
  pure made

/-- A protocol with an empty table of methods. -/
def protocol (name parent : Value) : Alloc Value := do
  let methods ← Store.ask fun s => s.roots.emptyTuple
  place 32 (.protocol { name, methods, parent })

/-- A method. -/
def method (selector signature lambda : Value) : Alloc Value :=
  place 32 (.method { selector, signature, lambda })

/-- A selector. -/
def selector (name : Value) (argc : Nat) (keywords : Value) (accessor : Bool) : Alloc Value := do
  let flag ← Store.ask fun s => s.boolean accessor
  let made ← place 40 (.selector { name, argc, keywords, accessor := flag })
  let _ ← Size.count argc
  pure made

/-- A signature with the given parameters, receiver first. -/
def signature (parameters : Array Value) : Alloc Value := do
  let parameters ← tuple parameters
  place 16 (.signature ⟨parameters⟩)

/-- A lambda. -/
def lambda (data : Lambda) : Alloc Value := do
  let made ← place 64 (.lambda data)
  let _ ← Size.count data.argc
  let _ ← Size.count data.maxHeight
  pure made

/-- A buffer of code. -/
def code (units : Array UInt16) : Alloc Value := do
  let size ← Size.code units.size
  place size (.code ⟨units⟩)

/-- A context. -/
def context : Alloc Value := place 8 (.context {})

/-- A cell. -/
def cell (content : Value) : Alloc Value := place 16 (.cell ⟨content⟩)

/-- A forwarder with a descriptor of its own. -/
def forwarder (binding : Binding) (target : Value) : Alloc Value := do
  let descriptor ← place 24 (.forwarderDescriptor { binding, target })
  place 16 (.forwarder ⟨descriptor⟩)

/-- An instance of a layout with every field null. -/
def inst (layout : Value) : Alloc Value := do
  let { kind, fieldCount, .. } ← Store.check fun s => s.heap.cast Layout layout
  if kind ≠ .inst then
    Action.violate .notAnInstanceLayout
  else
    let size ← Size.inst fieldCount
    let null ← Store.ask fun s => s.roots.null
    match layout with
    | .object ref => placeAs ref size fun _ => .inst ⟨Array.replicate fieldCount null⟩
    | _ => Action.violate (.castFailed (some .layout) layout)

/-- A stack that has nothing to run. -/
def stack (height : Nat) : Alloc Value := do
  let size ← Size.stack height
  placeLazy .stack size fun _ => .stack (Stack.fresh height)

/-- A task nobody is attached to, on a fresh stack. -/
def task (height : Nat) : Alloc Value := do
  let made ← stack height
  let caller ← Store.ask fun s => s.roots.null
  place 24 (.task { stack := made, caller })

/-- A singleton. -/
def singleton (ordinal : Nat) : Alloc Value := do
  let made ← place 16 (.singleton ⟨ordinal⟩)
  let _ ← Size.count ordinal
  pure made

/-- A copy of an object that shares whatever the object refers to. Stacks are not copied so. -/
def clone (v : Value) : Alloc Value := do
  match ← Store.ask fun s => s.heap.objectOf? v with
  | none => Action.violate (.castFailed none v)
  | some { body := .stack _, .. } => Action.violate .cloneOfStack
  | some object => do
    let ref ← Store.onHeap (Heap.allocate object.body.size fun _ => object)
    pure (.object ref)

end Make

end ObjectMachine
