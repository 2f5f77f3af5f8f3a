/-
# ObjectMachine.Forwarding -- looking through forwarders

A forwarder stands for the target of its descriptor. `deref` follows forwarders to a value that
is none. A closed descriptor never changes again, and an open one is never given a target that
leads back to it, so following forwarders ends.
-/
import ObjectMachine.Store
import ObjectMachine.Structural

namespace ObjectMachine

namespace Heap

/-- The target of a forwarder. -/
def forwarded? (h : Heap) (v : Value) : Option (Except Violation Value) :=
  (h.view? Forwarder v).map fun f => (h.cast Descriptor f.descriptor).map Descriptor.target

/-- Follow forwarders for at most `fuel` steps. -/
def derefWith (h : Heap) : Nat → Value → Except Violation Value
  | 0, _ => .error .endless
  | fuel + 1, v =>
    match h.forwarded? v with
    | none => .ok v
    | some target => do h.derefWith fuel (← target)

/-- The value that a value stands for. -/
def deref (h : Heap) (v : Value) : Except Violation Value :=
  match v with
  | .object _ => h.derefWith h.walkFuel v
  | v => .ok v

/-- Whether following forwarders from `v` passes through `descriptor`. -/
def leadsTo (h : Heap) (descriptor : Value) : Nat → Value → Except Violation Bool
  | 0, _ => .error .endless
  | fuel + 1, v =>
    match h.view? Forwarder v with
    | none => .ok false
    | some f =>
      if f.descriptor = descriptor then
        .ok true
      else do
        let d ← h.cast Descriptor f.descriptor
        h.leadsTo descriptor fuel d.target

/-- An open descriptor with another target, which must not lead back to it. -/
def retargeted (h : Heap) (descriptor target : Value) : Except Violation Descriptor := do
  let d ← h.cast Descriptor descriptor
  if d.binding = .closed then
    throw .closedForwarderRetargeted
  else if target.isSignal then
    throw (.signalStored .forwarder)
  else if ← h.leadsTo descriptor h.walkFuel target then
    throw .forwarderCycle
  else
    pure { d with target }

/-- A descriptor that is still open, opened or closed anew. -/
def rebound (h : Heap) (descriptor : Value) (binding : Binding) :
    Except Violation Descriptor := do
  let d ← h.cast Descriptor descriptor
  if d.binding = .closed then
    throw .closedForwarderReopened
  else
    pure { d with binding }

/-- An open descriptor with its last target. -/
def bound (h : Heap) (descriptor target : Value) : Except Violation Descriptor := do
  let d ← h.retargeted descriptor target
  pure { d with binding := .closed }

end Heap

namespace Store

/-- The value that a value stands for. -/
def deref {ε : Type} (v : Value) : Action Store ε Value := check fun s => s.heap.deref v

/-- A value as an object of kind `α`, looking through forwarders. -/
def narrow (α : Type) [HeapKind α] (v : Value) : Alloc (Value × α) := do
  let target ← deref v
  match ← ask fun s => s.heap.view? α target with
  | some data => pure (target, data)
  | none => Action.fail .typeMismatch

/-- A value as a small integer, looking through forwarders. -/
def narrowInt (v : Value) : Alloc Int := do
  match ← deref v with
  | .int n => pure n
  | _ => Action.fail .typeMismatch

end Store

end ObjectMachine
