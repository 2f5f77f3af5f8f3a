/-
# ObjectMachine.Object -- the kinds of objects

Every object has a header, which leads to the layout that describes it, and a body. Each kind
of body is a structure of its own. `HeapKind` ties such a structure to its kind, so that a view
of an object as a kind is written once for all kinds.

* `HeapKind.view?_eq_some` -- a body has a view as a kind exactly when it was built as that kind.
* `Body.size` -- bytes of an object, its header included.
* `Body.traverse` -- the references an object holds, in the order a collection visits them.
-/
import ObjectMachine.Growth
import ObjectMachine.Stack.Relocation

namespace ObjectMachine

/-- What all objects of a kind share: their kind, how many fields they have, the protocol they
answer to and a table of methods of their own. -/
structure Layout where
  kind : Kind
  fieldCount : Nat
  protocol : Value
  methods : Value
  deriving DecidableEq, Inhabited

/-- A unit of inheritance: a name, a table of methods, and the protocol it refines. -/
structure Protocol where
  name : Value
  methods : Value
  parent : Value
  deriving DecidableEq, Inhabited

/-- A string of characters. -/
structure Text where
  content : String
  deriving DecidableEq, Inhabited

/-- A sequence that is filled once and never written again. -/
structure Tuple where
  elements : Array Value
  deriving DecidableEq, Inhabited

/-- A sequence whose elements can be replaced. -/
structure Sequence where
  elements : Array Value
  deriving DecidableEq, Inhabited

/-- A hash map: how many keys it has, and the sequence with its entries. -/
structure Table where
  size : Nat
  entries : Value
  deriving DecidableEq, Inhabited

/-- A value that stands for the target of its descriptor. -/
structure Forwarder where
  descriptor : Value
  deriving DecidableEq, Inhabited

/-- Whether a descriptor can still be changed. -/
inductive Binding where
  | opened
  | closed
  deriving DecidableEq, Inhabited

/-- The target of a forwarder. -/
structure Descriptor where
  binding : Binding
  target : Value
  deriving DecidableEq, Inhabited

/-- A box for one value. -/
structure Cell where
  content : Value
  deriving DecidableEq, Inhabited

/-- An object of a layout that programs define. -/
structure Instance where
  fields : Array Value
  deriving DecidableEq, Inhabited

/-- An executable unit. Its code and constants are void until it has been compiled. -/
structure Lambda where
  argc : Nat
  /-- Words the code may push above a frame header. -/
  maxHeight : Nat
  code : Value
  constants : Value
  /-- Captured values. -/
  outers : Value
  context : Value
  /-- What a compiler makes code from. -/
  source : Value
  deriving DecidableEq, Inhabited

/-- A buffer of instructions. -/
structure Code where
  units : Array UInt16
  deriving DecidableEq, Inhabited

/-- The context a lambda was created in. -/
structure Context where
  deriving DecidableEq, Inhabited

/-- A lambda bound to a selector and a signature. -/
structure Method where
  selector : Value
  signature : Value
  lambda : Value
  deriving DecidableEq, Inhabited

/-- The name of a message with its arity, keywords and accessor flag. -/
structure Selector where
  name : Value
  argc : Nat
  keywords : Value
  accessor : Value
  deriving DecidableEq, Inhabited

/-- The constraints on the arguments of a method, receiver first. An entry that is no protocol
constrains nothing. -/
structure Signature where
  parameters : Value
  deriving DecidableEq, Inhabited

/-- A unit of execution: a stack, and the task that attached to it. -/
structure Task where
  stack : Value
  caller : Value
  deriving DecidableEq, Inhabited

/-- One of void, null, true and false. -/
structure Singleton where
  ordinal : Nat
  deriving DecidableEq, Inhabited

/-- The contents of an object. -/
inductive Body where
  | layout (layout : Layout)
  | protocol (protocol : Protocol)
  | string (text : Text)
  | tuple (tuple : Tuple)
  | array (sequence : Sequence)
  | hashMap (table : Table)
  | forwarder (forwarder : Forwarder)
  | forwarderDescriptor (descriptor : Descriptor)
  | cell (cell : Cell)
  | inst (fields : Instance)
  | lambda (lambda : Lambda)
  | code (code : Code)
  | context (context : Context)
  | method (method : Method)
  | selector (selector : Selector)
  | signature (signature : Signature)
  | stack (stack : Stack)
  | task (task : Task)
  | singleton (singleton : Singleton)
  deriving DecidableEq, Inhabited

namespace Body

/-- The kind of a body. -/
def kind : Body → Kind
  | layout _ => .layout
  | protocol _ => .protocol
  | string _ => .string
  | tuple _ => .tuple
  | array _ => .array
  | hashMap _ => .hashMap
  | forwarder _ => .forwarder
  | forwarderDescriptor _ => .forwarderDescriptor
  | cell _ => .cell
  | inst _ => .inst
  | lambda _ => .lambda
  | code _ => .code
  | context _ => .context
  | method _ => .method
  | selector _ => .selector
  | signature _ => .signature
  | stack _ => .stack
  | task _ => .task
  | singleton _ => .singleton

end Body

/-- A structure that is the body of a kind of objects. -/
class HeapKind (α : Type) where
  kind : Kind
  wrap : α → Body
  view? : Body → Option α
  view?_eq_some : ∀ body data, view? body = some data ↔ body = wrap data := by
    intro body data; cases body <;> simp
  kind_wrap : ∀ data, (wrap data).kind = kind := by intro data; rfl

instance : HeapKind Layout where
  kind := .layout
  wrap := .layout
  view? | .layout data => some data | _ => none

instance : HeapKind Protocol where
  kind := .protocol
  wrap := .protocol
  view? | .protocol data => some data | _ => none

instance : HeapKind Text where
  kind := .string
  wrap := .string
  view? | .string data => some data | _ => none

instance : HeapKind Tuple where
  kind := .tuple
  wrap := .tuple
  view? | .tuple data => some data | _ => none

instance : HeapKind Sequence where
  kind := .array
  wrap := .array
  view? | .array data => some data | _ => none

instance : HeapKind Table where
  kind := .hashMap
  wrap := .hashMap
  view? | .hashMap data => some data | _ => none

instance : HeapKind Forwarder where
  kind := .forwarder
  wrap := .forwarder
  view? | .forwarder data => some data | _ => none

instance : HeapKind Descriptor where
  kind := .forwarderDescriptor
  wrap := .forwarderDescriptor
  view? | .forwarderDescriptor data => some data | _ => none

instance : HeapKind Cell where
  kind := .cell
  wrap := .cell
  view? | .cell data => some data | _ => none

instance : HeapKind Instance where
  kind := .inst
  wrap := .inst
  view? | .inst data => some data | _ => none

instance : HeapKind Lambda where
  kind := .lambda
  wrap := .lambda
  view? | .lambda data => some data | _ => none

instance : HeapKind Code where
  kind := .code
  wrap := .code
  view? | .code data => some data | _ => none

instance : HeapKind Context where
  kind := .context
  wrap := .context
  view? | .context data => some data | _ => none

instance : HeapKind Method where
  kind := .method
  wrap := .method
  view? | .method data => some data | _ => none

instance : HeapKind Selector where
  kind := .selector
  wrap := .selector
  view? | .selector data => some data | _ => none

instance : HeapKind Signature where
  kind := .signature
  wrap := .signature
  view? | .signature data => some data | _ => none

instance : HeapKind Stack where
  kind := .stack
  wrap := .stack
  view? | .stack data => some data | _ => none

instance : HeapKind Task where
  kind := .task
  wrap := .task
  view? | .task data => some data | _ => none

instance : HeapKind Singleton where
  kind := .singleton
  wrap := .singleton
  view? | .singleton data => some data | _ => none

namespace Size

/-- Bytes of an object with `words` words and `count` elements of `width` bytes. -/
def elements (words width count : Nat) : Except Violation Nat := do
  let tail ← mul count width
  add (words * word) tail

/-- Bytes of a string of `length` characters. -/
def text (length : Nat) : Except Violation Nat := elements 2 4 length >>= align

/-- Bytes of a buffer of `length` units of code. -/
def code (length : Nat) : Except Violation Nat := elements 2 2 length >>= align

/-- Bytes of a tuple or a sequence. -/
def sequence (length : Nat) : Except Violation Nat := elements 2 8 length

/-- Bytes of an instance with `count` fields. -/
def inst (count : Nat) : Except Violation Nat := elements 1 8 count

/-- Bytes of a stack of `height` words. -/
def stack (height : Nat) : Except Violation Nat := elements 6 8 height

end Size

namespace Body

/-- Bytes of the object with this body, its header included. -/
def size : Body → Nat
  | layout _ => 40
  | protocol _ => 32
  | string text => Size.roundUp (16 + 4 * text.content.length)
  | tuple t => 16 + 8 * t.elements.size
  | array s => 16 + 8 * s.elements.size
  | hashMap _ => 24
  | forwarder _ => 16
  | forwarderDescriptor _ => 24
  | cell _ => 16
  | inst fields => 8 + 8 * fields.fields.size
  | lambda _ => 64
  | code c => Size.roundUp (16 + 2 * c.units.size)
  | context _ => 8
  | method _ => 32
  | selector _ => 40
  | signature _ => 16
  | stack s => 48 + 8 * s.height
  | task _ => 24
  | singleton _ => 16

end Body

namespace Stack

/-- Replace the values that the frames of a relocatable stack hold. What is replaced has to be in
the space that is left behind: neither a link that looks like an object nor an object that has been
replaced before is. -/
def traverse {m : Type → Type} [Monad m] [MonadLiftT (Except Violation) m]
    (f : Value → m Value) (s : Stack) : m Stack := do
  let outside : Except Violation Unit := .error .fieldOutsideSpace
  let slots ← (s.liveSlots : m (List Nat))
  let replace (state : Array Slot × Array Bool) (offset : Nat) : m (Array Slot × Array Bool) :=
    let (words, replaced) := state
    match words[offset]? with
    | some (.value v) => do
      if v.asRef?.isSome && replaced.getD offset false then
        (outside : m Unit)
      let moved ← f v
      pure (words.setIfInBounds offset (.value moved), replaced.setIfInBounds offset true)
    | some slot => do
      if slot.asValue?.isNone then
        (outside : m Unit)
      pure (words, replaced)
    | none => pure (words, replaced)
  let (words, _) ← slots.foldlM replace (s.words, Array.replicate s.height false)
  pure { s with words }

end Stack

namespace Body

/-- Replace the references that a body holds, in the order a collection visits them. -/
def traverse {m : Type → Type} [Monad m] [MonadLiftT (Except Violation) m]
    (f : Value → m Value) : Body → m Body
  | layout l => do
    let protocol ← f l.protocol
    let methods ← f l.methods
    pure (.layout { l with protocol, methods })
  | protocol p => do
    let name ← f p.name
    let methods ← f p.methods
    let parent ← f p.parent
    pure (.protocol { name, methods, parent })
  | string text => pure (.string text)
  | tuple t => do pure (.tuple ⟨← t.elements.mapM f⟩)
  | array s => do pure (.array ⟨← s.elements.mapM f⟩)
  | hashMap t => do pure (.hashMap { t with entries := ← f t.entries })
  | forwarder d => do pure (.forwarder ⟨← f d.descriptor⟩)
  | forwarderDescriptor d => do pure (.forwarderDescriptor { d with target := ← f d.target })
  | cell c => do pure (.cell ⟨← f c.content⟩)
  | inst i => do pure (.inst ⟨← i.fields.mapM f⟩)
  | lambda l => do
    let code ← f l.code
    let constants ← f l.constants
    let outers ← f l.outers
    let context ← f l.context
    let source ← f l.source
    pure (.lambda { l with code, constants, outers, context, source })
  | code c => pure (.code c)
  | context c => pure (.context c)
  | method m => do
    let selector ← f m.selector
    let signature ← f m.signature
    let lambda ← f m.lambda
    pure (.method { selector, signature, lambda })
  | selector s => do
    let name ← f s.name
    let keywords ← f s.keywords
    let accessor ← f s.accessor
    pure (.selector { s with name, keywords, accessor })
  | signature s => do pure (.signature ⟨← f s.parameters⟩)
  | stack s => do pure (.stack (← s.traverse f))
  | task t => do
    let stack ← f t.stack
    let caller ← f t.caller
    pure (.task { stack, caller })
  | singleton s => pure (.singleton s)

end Body

/-- The header of an object: the layout that describes it, or the copy a collection made. -/
inductive Header where
  | layout (ref : Ref)
  | forward (target : Ref)
  deriving DecidableEq, Inhabited

/-- An object of the heap. -/
structure Object where
  header : Header
  body : Body
  deriving DecidableEq, Inhabited

end ObjectMachine
