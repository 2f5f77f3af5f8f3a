/-
# ObjectMachine.Machine.Basic -- a store that is in use

A machine owns a store and everything that refers into it from outside. `retrying` is how
allocating work is done: if the space is full, the machine collects and does the work once more.
Objects that the work uses have to be read from slots inside it, because they may have moved.
-/
import ObjectMachine.Bootstrap
import ObjectMachine.Code.Assembly
import ObjectMachine.Log
import ObjectMachine.References

namespace ObjectMachine

/-- What makes code for a lambda that has none. It may run out of room, in which case it is
asked again after a collection. -/
abbrev Compiler := Value → Alloc Assembly

/-- A store together with the references into it, and what runs on it. -/
structure Machine where
  store : Store
  references : References
  settings : Settings
  compiler : Option Compiler
  /-- Text that programs have printed. -/
  output : String
  log : Log

/-- Work on a machine. -/
abbrev Op (ε α : Type) := Action Machine ε α

namespace Machine

variable {ε α : Type}

/-- Run work on the store alone. -/
@[inline]
def onStore (work : Action Store ε α) : Op ε α := fun m =>
  let { store, references, settings, compiler, output, log } := m
  match work store with
  | .ok answer store => .ok answer { store, references, settings, compiler, output, log }
  | .error stop store => .error stop { store, references, settings, compiler, output, log }

instance : MonadLift (EStateM (Stop ε) Store) (EStateM (Stop ε) Machine) where
  monadLift := onStore

/-- Ask the machine. -/
@[inline]
def ask (f : Machine → α) : Op ε α := fun m =>
  let answer := f m
  .ok answer m

/-- Ask the machine a question that may find a broken invariant. -/
@[inline]
def check (f : Machine → Except Violation α) : Op ε α := fun m =>
  match f m with
  | .ok answer => .ok answer m
  | .error violation => .error (.broken violation) m

/-- Change the heap. -/
@[inline]
def modifyHeap (f : Heap → Heap) : Op ε Unit := onStore (Store.modifyHeap f)

/-- Change the references. -/
@[inline]
def modifyReferences (f : References → References) : Op ε Unit := fun m =>
  let { store, references, settings, compiler, output, log } := m
  .ok () { store, references := f references, settings, compiler, output, log }

/-- Report something. -/
@[inline]
def report (level : LogLevel) (message : Unit → String) : Op ε Unit := fun m =>
  let { store, references, settings, compiler, output, log } := m
  .ok () { store, references, settings, compiler, output, log := log.add level message }

/-- Print a line. -/
def printLine (text : String) : Op ε Unit := fun m =>
  let { store, references, settings, compiler, output, log } := m
  .ok () { store, references, settings, compiler, output := output ++ text ++ "\n", log }

/-- Take a slot for a value, and answer its number. -/
def root (v : Value) : Op ε Nat := fun m =>
  let { store, references, settings, compiler, output, log } := m
  let index := references.scopedCount
  .ok index { store, references := references.push v, settings, compiler, output, log }

/-- Hold a value in a slot, and answer the value. -/
def held (v : Value) : Op ε Value := do
  let _ ← root v
  pure v

/-- The value of a slot. -/
@[inline]
def slot (index : Nat) : Op ε Value := ask fun m => m.references.slot index

/-- Change the value of a slot. -/
@[inline]
def setSlot (index : Nat) (v : Value) : Op ε Unit := modifyReferences fun r => r.setSlot index v

/-- Do work whose slots are given up when it ends, however it ends. -/
def inScope (work : Op ε α) : Op ε α := fun m =>
  let start := m.references.scopedCount
  let leave (m : Machine) : Machine :=
    let { store, references, settings, compiler, output, log } := m
    { store, references := references.leave start, settings, compiler, output, log }
  match work m with
  | .ok answer m => .ok answer (leave m)
  | .error stop m => .error stop (leave m)

/-- The roots and the references after the move. -/
def migrateRoots (outside : Roots × References) : Migration (Roots × References) := do
  let roots ← outside.1.migrate
  let references ← outside.2.migrate
  pure (roots, references)

/-- Keep what is reachable. `pending` is the size of the allocation that is waiting. -/
def collect (pending : Nat) : Op ε Unit := do
  let (used, capacity) ← ask fun m => (m.store.heap.used, m.store.heap.capacity)
  report .info fun _ => s!"Starting garbage collection ({used} of {capacity} bytes used)"
  let { growths, outcome } ← ask fun m =>
    m.store.heap.collect migrateRoots pending (m.store.roots, m.references)
  growths.forM fun size => report .debug fun _ => s!"growing semi-space to {size} bytes"
  let ((roots, references), heap) ← Action.check outcome
  modify fun { settings, compiler, output, log, .. } =>
    { store := { heap, roots }, references, settings, compiler, output, log }
  let (last, capacity) ← ask fun m => (m.store.heap.stats.last, m.store.heap.capacity)
  report .info fun _ => s!"Done collecting garbage ({last} bytes copied, capacity {capacity})"

/-- Do allocating work, once more after a collection if the space is full. A second failure is a
lack of memory. -/
def retrying (work : Op Signal α) : Op RunError α := fun m =>
  match work m with
  | .error (.raised (.allocationFailed size)) m =>
    (do report .debug fun _ => s!"allocation of {size} bytes failed, collecting"
        collect size
        work.mapError RunError.ofSignal : Op RunError α) m
  | .error stop m => .error (stop.map RunError.ofSignal) m
  | .ok answer m => .ok answer m

/-- A machine with the first objects. The settings are checked before anything is made. -/
def create (settings : Settings) (log : Log) : Except (Stop RunError) Machine :=
  match settings.problem? with
  | some reason => .error (.raised (.invalidSettings reason))
  | none =>
    match Store.create settings.heap with
    | .error stop => .error (stop.map RunError.ofSignal)
    | .ok store =>
      let log := log.add .debug fun _ =>
        s!"runtime ready, {store.heap.used} of {store.heap.capacity} bytes used by roots"
      .ok { store, references := {}, settings, compiler := none, output := "", log }

end Machine

end ObjectMachine
