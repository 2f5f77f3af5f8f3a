/-
# ObjectMachine.Interpreter.Frames -- entering, leaving, parking

Entering a lambda puts a frame above its arguments; returning from it puts the answer in the place
of the topmost of them. Before anything that may move the stack, the running frame is parked: one
more frame above the operands records where to go on, and afterwards everything is read back from
it. The words above the limit of a stack always have room for the parking frame.

A task hands over to another by parking itself and resuming the other.
-/
import ObjectMachine.Interpreter.State

namespace ObjectMachine

namespace Heap

/-- Change a stack. -/
def adjustStack (h : Heap) (stack : Value) (f : Stack → Stack) : Heap :=
  h.adjust stack fun
    | .stack s => .stack (f s)
    | body => body

/-- The stack of a task, laid out to start with the given entry values. -/
def preparedStack (h : Heap) (task bottomLambda : Value) (entry : Array Value) :
    Except Violation (Value × Stack) := do
  let t ← h.cast Task task
  match t.stack with
  | .object ref => do
    let s ← h.cast Stack t.stack
    pure (t.stack, ← s.prepare ref bottomLambda entry)
  | v => throw (.castFailed (some .stack) v)

end Heap

namespace Exec

/-- The task that runs. -/
def currentTask : Exec Value := ask fun x => x.machine.references.slot x.currentTask

/-- Let another task be the one that runs. -/
def setCurrentTask (task : Value) : Exec Unit := do
  let slot ← ask fun x => x.currentTask
  onMachine (Machine.setSlot slot task)

/-- The task a task was attached by. -/
def callerOf? (h : Heap) (t : Task) : Option Value :=
  if h.is Task t.caller then some t.caller else none

/-- Save the running frame into its stack, to go on at `pc`. -/
def park (pc : Nat) : Exec Unit := do
  let (sp, limit, fp) ← ask fun x => (x.sp, x.limit, x.fp)
  let (stack, lambda) ← ask fun x => (x.stack, x.lambda)
  let s ← check runningStack
  if limit < sp then
    Action.violate .parkingAboveLimit
  else if s.mode ≠ .linked then
    Action.violate .stackNotLinked
  else
    write (sp + Frame.pcWord) (.value (.ofNat pc))
    write (sp + Frame.linkWord) (.link (.address stack fp))
    write (sp + Frame.lambdaWord) (.value lambda)
    modifyHeap fun h => h.adjustStack stack fun { words, marker, mode, .. } =>
      { words, top := .address stack sp, marker, status := .parked, mode }

/-- The offset that a place of a stack is. -/
def offsetOf : Place → Except Violation Nat
  | .inside offset => .ok offset
  | _ => .error .wildStackAccess

/-- A stack word that holds a count. -/
def countAt (s : Stack) (offset : Nat) : Except Violation Nat := do
  match ← s.valueAt offset with
  | .int n => pure (Size.ofInt n)
  | v => throw (.notSmallInteger v)

/-- The lambda of the frame at an offset. -/
def lambdaAt (h : Heap) (s : Stack) (frame : Nat) : Except Violation Value := do
  let v ← s.valueAt (frame + Frame.lambdaWord)
  let _ ← h.cast Lambda v
  pure v

/-- Read the registers back from the parked stack of the task that runs. -/
def resume : Exec Unit := do
  let task ← currentTask
  let (stack, s) ← checkStore fun s => do
    let t ← s.heap.cast Task task
    let parked ← s.heap.cast Stack t.stack
    match t.stack with
    | .object ref => pure (ref, parked)
    | v => throw (.castFailed (some .stack) v)
  if s.status ≠ .parked then
    Action.violate .resumingUnparked
  else if s.mode ≠ .linked then
    Action.violate .stackNotLinked
  else
    let sp ← offsetOf ((Slot.link s.top).place stack)
    let pc ← countAt s (sp + Frame.pcWord)
    let fp ← do offsetOf (← Stack.placeAt s.words stack (sp + Frame.linkWord))
    let lambda ← checkStore fun store => lambdaAt store.heap s fp
    let limit := s.height - Frame.reserved * Frame.size
    fun x =>
      let { machine, rootTask, currentTask, shortage, .. } := x
      .ok () { machine, rootTask, currentTask, stack, limit, fp, sp, pc, lambda, shortage }
    modifyHeap fun h => h.adjustStack stack fun { words, top, marker, mode, .. } =>
      { words, top, marker, status := .running, mode }

/-- Park the running task at `pc` and go on with another. -/
def switchTo (task : Value) (pc : Nat) : Exec Unit := do
  park pc
  report .debug fun _ => "switching to task " ++ task.describe
  setCurrentTask task
  resume

/-- The running task has returned from its entry lambda. -/
def finishTask (answer : Value) : Exec Unit := do
  let stack ← ask fun x => x.stack
  modifyHeap fun h => h.adjustStack stack fun { words, top, marker, mode, .. } =>
    { words, top, marker, status := .empty, mode }
  let task ← currentTask
  let t ← checkStore fun s => s.heap.cast Task task
  if task = (← ask fun x => x.machine.references.slot x.rootTask) then
    Action.fail (.done answer)
  else
    match ← askStore fun s => callerOf? s.heap t with
    | none => Action.violate .orphanedTask
    | some caller => do
      let null ← askStore fun s => s.roots.null
      modifyHeap fun h => h.put task { t with caller := null }
      report .debug fun _ => "task " ++ task.describe ++ " finished"
      setCurrentTask caller
      resume
      setPeek 0 answer

/-- Put a frame for a lambda above its `argc` arguments. A keymap becomes the first local. -/
def enter (lambda : Value) (l : Lambda) (argc : Nat) (keymap : Option Value) (returnPc : Nat) :
    Exec Unit := do
  if !(← askStore fun s => Machine.isCompiled s.heap l) then
    Action.fail (.compile lambda)
  else if l.argc ≠ argc then
    fail (.arityMismatch l.argc argc)
  else
    let (sp, limit, fp) ← ask fun x => (x.sp, x.limit, x.fp)
    let header := Frame.size + (if keymap.isSome then 1 else 0)
    let reach ← check fun _ => do Size.add sp (← Size.add header l.maxHeight)
    if limit < reach then
      Action.fail (.grow (← check fun _ => Size.add reach (Frame.reserved * Frame.size)))
    else
      let stack ← ask fun x => x.stack
      write (sp + Frame.pcWord) (.value (.ofNat returnPc))
      write (sp + Frame.linkWord) (.link (.address stack fp))
      write (sp + Frame.lambdaWord) (.value lambda)
      fun x =>
        let { machine, rootTask, currentTask, stack, limit, shortage, .. } := x
        .ok () { machine, rootTask, currentTask, stack, limit, fp := sp,
                 sp := sp + Frame.size, pc := 0, lambda, shortage }
      match keymap with
      | some v => push v
      | none => pure ()

/-- Enter the lambda that the bottom frame holds. -/
def start : Exec Unit := do
  let argc ← ask fun x => x.sp - Frame.size - 1
  let (lambda, l) ← narrow Lambda (← localValue 0)
  enter lambda l argc none 0

/-- The marker below the marker at an offset. -/
def nextMarker (s : Stack) (marker : Nat) : Except Violation (Option Nat) := do
  match ← countAt s marker with
  | 0 => pure none
  | link + 1 => pure (some link)

/-- The innermost marker. -/
def innermostMarker : Exec (Option Nat) := check fun x => do pure (← runningStack x).marker

/-- Remember the innermost marker. -/
def setMarker (marker : Option Nat) : Exec Unit := do
  let stack ← ask fun x => x.stack
  modifyHeap fun h => h.adjustStack stack fun { words, top, status, mode, .. } =>
    { words, top, marker, status, mode }

/-- The innermost marker below `frame`. -/
def markerBelow (s : Stack) (frame : Nat) : Nat → Option Nat → Except Violation (Option Nat)
  | 0, _ => .error .endless
  | _ + 1, none => .ok none
  | fuel + 1, some marker =>
    if marker < frame then .ok (some marker)
    else do markerBelow s frame fuel (← nextMarker s marker)

/-- Go on in the frame at `below` with the answer of the frame at `fp`, whose markers are off the
stack. What a task does that has left its last frame is for `finish` to say. -/
def returnTo (finish : Value → Exec Unit) (answer : Value) (s : Stack) (below fp pc : Nat) : Exec Unit :=
  if below = 0 then
    finish answer
  else do
    let lambda ← checkStore fun store => lambdaAt store.heap s below
    fun x =>
      let { machine, rootTask, currentTask, stack, limit, shortage, .. } := x
      .ok () { machine, rootTask, currentTask, stack, limit, fp := below, sp := fp, pc, lambda,
               shortage }
    setPeek 0 answer

/-- Leave the top frame with the top operand as its answer, together with its markers. -/
def leaveWith (finish : Value → Exec Unit) : Exec Unit := do
  let answer ← pop
  let (stack, fp) ← ask fun x => (x.stack, x.fp)
  let s ← check runningStack
  let pc ← countAt s (fp + Frame.pcWord)
  let below ← do offsetOf (← Stack.placeAt s.words stack (fp + Frame.linkWord))
  let marker ← markerBelow s fp (s.height + 2) s.marker
  if marker ≠ s.marker then
    setMarker marker
  returnTo finish answer s below fp pc

/-- Leave the top frame of a task, which finishes with its last one. -/
def leave : Exec Unit := leaveWith finishTask

end Exec

end ObjectMachine
