/-
# ObjectMachine.Heap.Basic -- the objects of the active space

A heap holds its objects in allocation order, and a reference is a position in that order. The
space beside them counts their bytes, so the byte offset of an object is the sum of the sizes
before it.

`view?` reads a value as an object of a kind, `cast` insists on the kind, and `put` replaces
the body of an object.
-/
import ObjectMachine.Heap.Space
import ObjectMachine.Object
import ObjectMachine.Settings

namespace ObjectMachine

/-- What collections have done so far. -/
structure CollectionStats where
  collections : Nat := 0
  /-- Bytes copied by the last collection. -/
  last : Nat := 0
  /-- Bytes copied by all collections. -/
  total : Nat := 0
  deriving DecidableEq, Inhabited

/-- The objects of the active space, and how full it is. -/
structure Heap where
  objects : Array Object
  space : Space
  settings : HeapSettings
  stats : CollectionStats
  deriving Inhabited

namespace Heap

/-- A heap without objects. -/
def create (settings : HeapSettings) : Except Violation Heap := do
  let space ← Space.create settings.initialSize
  pure { objects := #[], space, settings, stats := {} }

/-- Bytes of the active space. -/
def capacity (h : Heap) : Nat := h.space.capacity

/-- Bytes that objects occupy. -/
def used (h : Heap) : Nat := h.space.used

/-- Bytes for further objects. -/
def free (h : Heap) : Nat := h.space.free

/-- Take `size` bytes of the active space. Never collects. -/
def reserve (size : Nat) : Action Heap Signal Unit := fun h =>
  match h.space.allocate size with
  | .error violation => .error (.broken violation) h
  | .ok none => .error (.raised (.allocationFailed size)) h
  | .ok (some space) => .ok () { h with space }

/-- Place an object of `size` bytes at the end of the active space. The object is only made
once there is room for it. -/
def allocate (size : Nat) (object : Unit → Object) : Action Heap Signal Ref := fun h =>
  match reserve size h with
  | .error stop h => .error stop h
  | .ok _ h =>
    let ref : Ref := ⟨h.objects.size⟩
    .ok ref { h with objects := h.objects.push (object ()) }

/-- The object a reference leads to. -/
def object? (h : Heap) (ref : Ref) : Option Object := h.objects[ref.position]?

/-- The object a value leads to. -/
def objectOf? (h : Heap) (v : Value) : Option Object := v.asRef?.bind h.object?

/-- The body of the object a value leads to. -/
def bodyOf? (h : Heap) : Value → Option Body
  | .object ref => (h.object? ref).map Object.body
  | _ => none

/-- The kind of the object a value leads to. -/
def kindOf? (h : Heap) (v : Value) : Option Kind := (h.bodyOf? v).map Body.kind

/-- Whether a value leads to an object of the active space. -/
def contains (h : Heap) (v : Value) : Bool := (h.objectOf? v).isSome

/-- A value as an object of kind `α`. -/
def view? (α : Type) [HeapKind α] (h : Heap) (v : Value) : Option α :=
  (h.bodyOf? v).bind HeapKind.view?

/-- Whether a value is an object of kind `α`. -/
def is (α : Type) [HeapKind α] (h : Heap) (v : Value) : Bool := (h.view? α v).isSome

/-- A value that has to be an object of kind `α`. -/
def cast (α : Type) [HeapKind α] (h : Heap) (v : Value) : Except Violation α :=
  match h.view? α v with
  | some data => .ok data
  | none => .error (.castFailed (some (HeapKind.kind α)) v)

/-- Change the body of the object a value leads to. -/
def adjust (h : Heap) (v : Value) (f : Body → Body) : Heap :=
  match v with
  | .object ref =>
    let { objects, space, settings, stats } := h
    { objects := objects.modify ref.position fun object =>
        let { header, body } := object
        { header, body := f body }
      space, settings, stats }
  | _ => h

/-- Replace the body of the object a value leads to. -/
def put {α : Type} [HeapKind α] (h : Heap) (v : Value) (data : α) : Heap :=
  h.adjust v fun _ => HeapKind.wrap data

/-- Replace the header of the object a value leads to. -/
def setHeader (h : Heap) (v : Value) (header : Header) : Heap :=
  match v with
  | .object ref =>
    { h with objects := h.objects.modify ref.position fun object => { object with header } }
  | _ => h

/-- The layout that describes the object a value leads to. -/
def layoutOf (h : Heap) (v : Value) : Except Violation Value :=
  match h.objectOf? v with
  | some { header := .layout ref, .. } => .ok (.object ref)
  | some { header := .forward _, .. } => .error .forwardedHeader
  | none => .error (.castFailed none v)

end Heap

end ObjectMachine
