/-
# ObjectMachine.Interpreter.Run -- calls

A call runs its lambda on a task of its own, instruction by instruction. An interrupted
instruction is executed again once the cause has been dealt with: after a collection that makes
room for all that the instruction has failed to allocate, on a higher stack, or with the code of
a lambda that had none. However a call fails, no task that took part in it can be run again.

`budget` bounds the number of instructions; a call that exceeds it is `unfinished`.
-/
import ObjectMachine.Interpreter.Step

namespace ObjectMachine

namespace Size

/-- The first size of at least `height` that growing from `n` leads to. -/
def growTo (height n : Nat) : Except Violation Nat :=
  if n < height then
    match isGrown : grow n with
    | .error violation => .error violation
    | .ok grown =>
      have := grow_gt isGrown
      growTo height grown
  else
    .ok n
termination_by height - n

end Size

namespace Exec

/-- Work that ends the call if it fails. -/
def orFail {α : Type} (work : Op RunError α) : Exec α :=
  onMachine (Action.mapError Interrupt.failed work)

/-- Move the contents of the parked stack of the task that runs to a stack that has been made. -/
def replaceStack (grown : Value) : Exec Unit := do
  let task ← currentTask
  let (t, s, old, ref) ← checkStore fun s => do
    let t ← s.heap.cast Task task
    match t.stack, grown with
    | .object old, .object ref => pure (t, ← s.heap.cast Stack grown, old, ref)
    | v, _ => throw (.castFailed (some .stack) v)
  let (moved, kept) ← checkStore fun store => do
    let parked ← store.heap.cast Stack t.stack
    let loose ← parked.uncook old
    let copied ← s.copyContents loose
    pure (← copied.recook ref, ← loose.recook old)
  modifyHeap fun h =>
    ((h.put grown moved).put t.stack kept).put task { t with stack := grown }

/-- Replace the parked stack of the task that runs by one of at least `height` words. -/
def growStack (height : Nat) : Exec Unit := do
  let task ← currentTask
  let oldHeight ← checkStore fun s => do
    let t ← s.heap.cast Task task
    pure (← s.heap.cast Stack t.stack).height
  let newHeight ← do Size.growTo height (← Size.grow oldHeight)
  report .debug fun _ => s!"growing stack from {oldHeight} to {newHeight} words"
  let grown ← orFail (Machine.retrying (Machine.onStore (Make.stack newHeight)))
  replaceStack grown

/-- Mark a task, and every task that is attached below it, as finished. -/
def abandonFrom : Nat → Value → Heap → Except Violation Heap
  | 0, _, _ => .error .endless
  | fuel + 1, task, h => do
    let t ← h.cast Task task
    let h := h.adjustStack t.stack fun s => { s with status := .empty }
    match callerOf? h t with
    | some caller => abandonFrom fuel caller h
    | none => pure h

/-- Mark the task that runs, and every task that is attached below it, as finished. -/
def abandon : Exec Unit := do
  let task ← currentTask
  let h ← checkStore fun s => abandonFrom s.heap.walkFuel task s.heap
  modifyHeap fun _ => h

/-- Count a failed allocation of the instruction at `pc`, and answer what to collect for. -/
def shortOf (pc size : Nat) : Exec Nat := do
  let before ← ask fun x => match x.shortage with
    | some shortage => if shortage.pc = pc then shortage.pending else 0
    | none => 0
  let pending ← check fun _ => Size.add before size
  fun x => .ok pending { x with shortage := some { pc, pending } }

/-- Deal with the cause that interrupted the instruction at `pc`. -/
def recover (pc : Nat) : Interrupt → Exec Unit
  | .collect size => do
    let pending ← shortOf pc size
    park pc
    onMachine (Machine.collect pending)
    if (← askStore fun s => s.heap.free) < pending then
      fail (.outOfMemory pending)
  | .grow height => do
    park pc
    growStack height
  | .compile lambda => do
    park pc
    orFail (Machine.compile lambda)
  | interrupt => Action.fail interrupt

/-- Give the call up with an error. -/
def giveUp (error : RunError) (x : Execution) : EStateM.Result (Stop RunError) Execution Value :=
  match abandon x with
  | .ok _ x => .error (.raised error) x
  | .error (.broken violation) x => .error (.broken violation) x
  | .error _ x => .error (.raised error) x

/-- Run instructions until the call is done. -/
def run : Nat → Execution → EStateM.Result (Stop RunError) Execution Value
  | 0, x => .error .unfinished x
  | budget + 1, x =>
    let pc := x.pc
    match step x with
    | .ok _ { machine, rootTask, currentTask, stack, limit, fp, sp, pc, lambda, .. } =>
      run budget
        { machine, rootTask, currentTask, stack, limit, fp, sp, pc, lambda, shortage := none }
    | .error (.raised (.done answer)) x => .ok answer x
    | .error (.raised interrupt) x =>
      match (do recover pc interrupt; resume : Exec Unit) x with
      | .ok _ x => run budget x
      | .error (.raised (.done answer)) x => .ok answer x
      | .error (.raised (.failed error)) x => giveUp error x
      | .error (.raised _) x => .error .unfinished x
      | .error (.broken violation) x => .error (.broken violation) x
      | .error .unfinished x => .error .unfinished x
    | .error (.broken violation) x => .error (.broken violation) x
    | .error .unfinished x => .error .unfinished x

end Exec

namespace Machine

/-- The call of a task that has been laid out, before its stack runs. -/
def entering (m : Machine) (rootTask currentTask : Nat) (lambda : Value) : Execution :=
  { machine := m, rootTask, currentTask, stack := ⟨0⟩, limit := 0, fp := 0, sp := 0, pc := 0, lambda,
    shortage := none }

/-- Run a parked task until its call is done. -/
def runTask (budget : Nat) (rootTask currentTask : Nat) (lambda : Value) : Op RunError Value :=
  fun m =>
    match Exec.resume (m.entering rootTask currentTask lambda) with
    | .error (.broken violation) x => .error (.broken violation) x.machine
    | .error _ x => .error .unfinished x.machine
    | .ok _ x =>
      match Exec.run budget x with
      | .ok answer x => .ok answer x.machine
      | .error stop x => .error stop x.machine

/-- Lay out a task that calls a lambda. Answers its slots and the lambda of its bottom frame. -/
def layOut (lambda : Value) (arguments : Array Value) : Op RunError (Nat × Nat × Value) := do
  let entry ← rootAll (lambda :: arguments.toList)
  let height ← ask fun m => max m.settings.stackHeight (entry.length + Stack.entryRoom)
  let task ← retrying (onStore (Make.task height))
  let values ← slots entry
  let (stack, prepared) ← check fun m =>
    m.store.heap.preparedStack task m.store.roots.emptyLambda values
  modifyHeap fun h => h.put stack prepared
  let rootTask ← root task
  let currentTask ← root task
  let bottom ← ask fun m => m.store.roots.emptyLambda
  pure (rootTask, currentTask, bottom)

/-- Run a lambda with the given arguments on a task of its own. -/
def call (budget : Nat) (lambda : Value) (arguments : Array Value) : Op RunError Value :=
  inScope do
    let (rootTask, currentTask, bottom) ← layOut lambda arguments
    runTask budget rootTask currentTask bottom

/-- Run the lambda that a global name stands for, without arguments. -/
def runEntryPoint (budget : Nat) (name : String) : Op RunError Value := do
  match ← check fun m => m.global? name with
  | none => Action.fail (.unresolvedEntryPoint name)
  | some v => do
    let target ← check fun m => m.store.heap.deref v
    if ← ask fun m => m.store.heap.is Lambda target then
      report .debug fun _ => "running entry point " ++ name
      call budget target #[]
    else
      Action.fail (.unresolvedEntryPoint name)

end Machine

end ObjectMachine
