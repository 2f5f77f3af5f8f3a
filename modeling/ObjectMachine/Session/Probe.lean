/-
# ObjectMachine.Session.Probe -- looking at one part of a machine

Small experiments that need no script: filling a bare space or a bare heap, and creating a
machine to see whether its settings are sound.
-/
import ObjectMachine.Machine.Basic

namespace ObjectMachine

namespace Probe

/-- What became of one block that a space was asked for. -/
structure SpaceStep where
  /-- Where the block starts, if it was handed out. -/
  offset : Option Nat
  used : Nat
  free : Nat
  /-- Whether the space contains the first byte of the block. -/
  contained : Option Bool

/-- Ask a space for blocks. -/
def fillFrom : Space → List Nat → Except Violation (List SpaceStep)
  | _, [] => .ok []
  | s, size :: rest => do
    let (step, s) ← match ← s.allocate size with
      | none =>
        pure ({ offset := none, used := s.used, free := s.free, contained := none }, s)
      | some t =>
        pure ({ offset := some s.used, used := t.used, free := t.free,
                contained := some (t.contains s.used) }, t)
    pure (step :: (← fillFrom s rest))

/-- Ask a fresh space for blocks. The answer starts with its capacity. -/
def fillSpace (capacity : Nat) (sizes : List Nat) : Except Violation (Nat × List SpaceStep) := do
  let s ← Space.create capacity
  pure (s.capacity, ← fillFrom s sizes)

/-- Ask a heap for bytes. Each step answers the bytes in use, or the signal. -/
def reserveFrom : Heap → List Nat → Except Violation (List (Except Signal Nat))
  | _, [] => .ok []
  | h, size :: rest =>
    match Heap.reserve size h with
    | .ok _ h => do pure (.ok h.used :: (← reserveFrom h rest))
    | .error (.raised signal) h => do pure (.error signal :: (← reserveFrom h rest))
    | .error (.broken violation) _ => throw violation
    | .error .unfinished _ => throw .endless

/-- Ask a fresh heap for bytes. The answer starts with its capacity. -/
def fillHeap (settings : HeapSettings) (sizes : List Nat) :
    Except Violation (Nat × List (Except Signal Nat)) := do
  let h ← Heap.create settings
  pure (h.capacity, ← reserveFrom h sizes)

/-- Bytes in use and capacity of a machine that has just been made. -/
def createMachine (settings : Settings) : Except (Stop RunError) (Nat × Nat) := do
  let m ← Machine.create settings {}
  pure (m.store.heap.used, m.store.heap.capacity)

end Probe

end ObjectMachine
