/-
# ObjectMachine.References -- references from outside the heap

Whoever holds an object across an allocation registers it here, so that a collection keeps the
object and updates the reference. A scoped reference is a slot that lives until its scope is
left. A persistent handle lives until it is disposed of.

Each handle knows its place in the registry. When a handle is disposed of, the last handle takes
its place.
-/
import ObjectMachine.Heap.Collection

namespace ObjectMachine

/-- The number of a persistent handle. -/
structure Handle where
  number : Nat
  deriving DecidableEq, Inhabited

/-- What a persistent handle refers to, and where the registry has it. -/
structure HandleRecord where
  value : Value
  index : Nat
  deriving DecidableEq, Inhabited

/-- References that a collection starts from, besides the roots. -/
structure References where
  /-- Slots of all scopes that are open, outer ones first. -/
  slots : Array Value := #[]
  /-- One record for every handle there ever was. -/
  records : Array HandleRecord := #[]
  /-- The handles that have not been disposed of. -/
  registry : Array Handle := #[]
  deriving Inhabited

namespace References

/-- Slots that are in use. -/
def scopedCount (r : References) : Nat := r.slots.size

/-- Handles that are in use. -/
def persistentCount (r : References) : Nat := r.registry.size

/-- Take a slot for a value. -/
def push (r : References) (v : Value) : References := { r with slots := r.slots.push v }

/-- The value of a slot. -/
def slot (r : References) (index : Nat) : Value := r.slots.getD index (.int 0)

/-- Change the value of a slot. -/
def setSlot (r : References) (index : Nat) (v : Value) : References :=
  { r with slots := r.slots.setIfInBounds index v }

/-- Leave the scope whose first slot is `start`. -/
def leave (r : References) (start : Nat) : References := { r with slots := r.slots.take start }

/-- Register a persistent handle for a value. -/
def persist (r : References) (v : Value) : Handle × References :=
  let handle : Handle := ⟨r.records.size⟩
  (handle,
    { r with records := r.records.push { value := v, index := r.registry.size }
             registry := r.registry.push handle })

/-- What a handle refers to. -/
def value (r : References) (handle : Handle) : Value :=
  (r.records.getD handle.number default).value

/-- Where the registry has a handle. -/
def index (r : References) (handle : Handle) : Nat :=
  (r.records.getD handle.number default).index

/-- Give a handle up. The last handle of the registry takes its place. -/
def dispose (r : References) (handle : Handle) : Except Violation References :=
  let place := r.index handle
  match r.registry[place]?, r.registry.back? with
  | some registered, some last =>
    if registered ≠ handle then
      .error .foreignHandle
    else
      let registry := (r.registry.setIfInBounds place last).pop
      let records :=
        if place < registry.size then
          r.records.modify last.number fun record => { record with index := place }
        else
          r.records
      .ok { r with registry, records }
  | _, _ => .error (.indexOutOfBounds r.registry.size place)

/-- The references after the move, slots first. -/
def migrate (r : References) : Migration References := do
  let slots ← r.slots.mapM Transfer.migrate
  let records ← r.registry.foldlM (fun (records : Array HandleRecord) handle => do
    let moved ← Transfer.migrate (records.getD handle.number default).value
    pure (records.modify handle.number fun record => { record with value := moved })) r.records
  pure { slots, records, registry := r.registry }

end References

end ObjectMachine
