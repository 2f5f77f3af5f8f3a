/-
# ObjectMachine.Heap.Validation -- checking the active space

`validate` walks over the objects in allocation order and names the byte offset of the first
one that is not sound: its header has to lead to a layout of the active space, and the frames
of a stack have to end in its bottom frame.
-/
import ObjectMachine.Heap.Basic

namespace ObjectMachine

namespace Heap

/-- Check the object at a position, which lies at byte `offset`. -/
def validateObject (h : Heap) (position offset : Nat) (object : Object) :
    Except Violation Unit :=
  match object.header with
  | .forward _ => .error (.forwardedHeaderAt offset)
  | .layout ref =>
    match h.object? ref with
    | none => .error (.headerOutsideHeap offset)
    | some { header := .forward target, .. } => .error (.layoutForwarded target)
    | some layout =>
      if layout.body.kind ≠ .layout then
        .error (.headerNotLayout offset)
      else
        match object.body with
        | .stack s => s.validate ⟨position⟩ (h.is Lambda)
        | _ => .ok ()

/-- Check the objects of a list, the first of which lies at byte `offset`. -/
def validateFrom (h : Heap) : Nat → Nat → List Object → Except Violation Unit
  | _, _, [] => .ok ()
  | position, offset, object :: rest => do
    h.validateObject position offset object
    h.validateFrom (position + 1) (offset + Size.roundUp object.body.size) rest

/-- Check every object of the active space. -/
def validate (h : Heap) : Except Violation Unit := h.validateFrom 0 0 h.objects.toList

end Heap

end ObjectMachine
