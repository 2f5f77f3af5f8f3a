/-
# ObjectMachine.Store -- a heap with its roots

`Alloc` is what works on a store and may run out of room: it ends in a signal, most often a
failed allocation, and leaves it to the caller to collect and try again.
-/
import ObjectMachine.Roots

namespace ObjectMachine

/-- A heap together with the objects every machine starts with. -/
structure Store where
  heap : Heap
  roots : Roots
  deriving Inhabited

/-- Work on a store that answers or ends in a signal. -/
abbrev Alloc (α : Type) := Action Store Signal α

namespace Store

/-- Run work on the heap alone. -/
@[inline]
def onHeap {ε α : Type} (work : Action Heap ε α) : Action Store ε α := fun s =>
  let { heap, roots } := s
  match work heap with
  | .ok answer heap => .ok answer { heap, roots }
  | .error stop heap => .error stop { heap, roots }

/-- Change the heap. -/
@[inline]
def modifyHeap {ε : Type} (f : Heap → Heap) : Action Store ε Unit := fun s =>
  let { heap, roots } := s
  .ok () { heap := f heap, roots }

/-- Ask the store. -/
@[inline]
def ask {ε α : Type} (f : Store → α) : Action Store ε α := fun s =>
  let answer := f s
  .ok answer s

/-- Ask the store a question that may find a broken invariant. -/
@[inline]
def check {ε α : Type} (f : Store → Except Violation α) : Action Store ε α := fun s =>
  match f s with
  | .ok answer => .ok answer s
  | .error violation => .error (.broken violation) s

/-- The singleton of a truth value. -/
def boolean (s : Store) (truth : Bool) : Value := s.roots.boolean truth

end Store

end ObjectMachine
