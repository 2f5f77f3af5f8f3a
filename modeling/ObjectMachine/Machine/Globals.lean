/-
# ObjectMachine.Machine.Globals -- methods and global names

A protocol or a layout gets a method by a longer table. Global names live in the table of the
roots; `global?` finds one by its characters, without making a key for it.
-/
import ObjectMachine.Machine.Basic
import ObjectMachine.Table

namespace ObjectMachine

namespace Machine

/-- The table of methods of a protocol or a layout. -/
def methodTable (holder : Value) : Alloc (Array Value) := do
  match ← Store.ask fun s => s.heap.bodyOf? holder with
  | some (.protocol { methods, .. }) | some (.layout { methods, .. }) => do
    let table ← Store.check fun s => s.heap.cast Tuple methods
    pure table.elements
  | _ => Action.fail .typeMismatch

/-- Add a method to a protocol or a layout. -/
def addMethod (holder method : Value) : Op RunError Unit := inScope do
  let holder ← root holder
  let method ← root method
  let methods ← retrying do
    let table ← methodTable (← slot holder)
    Make.tuple (table.push (← slot method))
  let v ← slot holder
  modifyHeap fun h => h.adjust v fun
    | .protocol p => .protocol { p with methods }
    | .layout l => .layout { l with methods }
    | body => body

/-- Give a name a global value. -/
def defineGlobal (name : String) (v : Value) : Op RunError Unit := inScope do
  let v ← root v
  retrying do
    let toplevel ← ask fun m => m.store.roots.toplevel
    let key ← Make.string name
    Table.set toplevel key (← slot v)

/-- The global value of a name. -/
def global? (m : Machine) (name : String) : Except Violation (Option Value) := do
  let h := m.store.heap
  let table ← h.cast Table m.store.roots.toplevel
  let entries ← h.entries table
  let named (entry : Entry) : Bool :=
    (h.view? Text entry.key).any fun text => text.content == name
  pure ((entries.toList.find? named).map Entry.value)

end Machine

end ObjectMachine
