/-
# ObjectMachine.Interpreter.State -- a call under way

While a task runs, the interpreter keeps its registers beside the machine: where the top frame
starts, where the operands end, the next instruction, and the lambda of the frame. Everything
else is in the stack of the task. Frame positions are offsets into that stack.

An instruction that cannot be completed ends in an `Interrupt`. Nothing below the top of the
stack has changed by then, so an instruction that was interrupted for lack of room can simply be
executed again.
-/
import ObjectMachine.Builtin
import ObjectMachine.Dispatch
import ObjectMachine.Machine.Code
import ObjectMachine.Machine.Globals

namespace ObjectMachine

/-- Why an instruction was not completed. -/
inductive Interrupt where
  /-- An allocation of `size` bytes failed. -/
  | collect (size : Nat)
  /-- The stack has to hold `height` words. -/
  | grow (height : Nat)
  /-- A lambda that is to be entered has no code yet. -/
  | compile (lambda : Value)
  | done (answer : Value)
  | failed (error : RunError)
  deriving Inhabited

namespace Interrupt

/-- What a signal means to the instruction that met it. -/
def ofSignal : Signal → Interrupt
  | .allocationFailed size => collect size
  | .stackOverflow height => grow height
  | other => failed (.signal other)

end Interrupt

/-- Bytes that an instruction has failed to allocate since it was first tried. -/
structure Shortage where
  pc : Nat
  pending : Nat
  deriving DecidableEq, Inhabited

/-- A machine that runs a call. -/
structure Execution where
  machine : Machine
  /-- Slot of the task that the call started on. -/
  rootTask : Nat
  /-- Slot of the task that runs. -/
  currentTask : Nat
  /-- The stack of the task that runs. -/
  stack : Ref
  /-- Operands stay below this offset. -/
  limit : Nat
  /-- Offset of the top frame. -/
  fp : Nat
  /-- Offset of the first free word. -/
  sp : Nat
  /-- The next instruction. -/
  pc : Nat
  /-- The lambda of the top frame. -/
  lambda : Value
  shortage : Option Shortage

/-- Work on a call. -/
abbrev Exec (α : Type) := Action Execution Interrupt α

namespace Exec

variable {α : Type}

/-- Run work on the machine. -/
@[inline]
def onMachine (work : Op Interrupt α) : Exec α := fun x =>
  let { machine, rootTask, currentTask, stack, limit, fp, sp, pc, lambda, shortage } := x
  match work machine with
  | .ok answer machine =>
    .ok answer { machine, rootTask, currentTask, stack, limit, fp, sp, pc, lambda, shortage }
  | .error stop machine =>
    .error stop { machine, rootTask, currentTask, stack, limit, fp, sp, pc, lambda, shortage }

/-- Run allocating work. A signal interrupts the instruction. -/
@[inline]
def alloc (work : Alloc α) : Exec α :=
  onMachine (Action.mapError Interrupt.ofSignal (Machine.onStore work))

/-- Ask about the call. -/
@[inline]
def ask (f : Execution → α) : Exec α := fun x =>
  let answer := f x
  .ok answer x

/-- Ask a question that may find a broken invariant. -/
@[inline]
def check (f : Execution → Except Violation α) : Exec α := fun x =>
  match f x with
  | .ok answer => .ok answer x
  | .error violation => .error (.broken violation) x

/-- Ask the store. -/
@[inline]
def askStore (f : Store → α) : Exec α := ask fun x => f x.machine.store

/-- Ask the store a question that may find a broken invariant. -/
@[inline]
def checkStore (f : Store → Except Violation α) : Exec α := check fun x => f x.machine.store

/-- Change the heap. -/
@[inline]
def modifyHeap (f : Heap → Heap) : Exec Unit := onMachine (Machine.modifyHeap f)

/-- Report something. -/
@[inline]
def report (level : LogLevel) (message : Unit → String) : Exec Unit :=
  onMachine (Machine.report level message)

/-- Set the registers for the operands: the end of the operands. -/
@[inline]
def setSp (sp : Nat) : Exec Unit := fun x =>
  let { machine, rootTask, currentTask, stack, limit, fp, pc, lambda, shortage, .. } := x
  .ok () { machine, rootTask, currentTask, stack, limit, fp, sp, pc, lambda, shortage }

/-- Set the next instruction. -/
@[inline]
def jump (pc : Nat) : Exec Unit := fun x =>
  let { machine, rootTask, currentTask, stack, limit, fp, sp, lambda, shortage, .. } := x
  .ok () { machine, rootTask, currentTask, stack, limit, fp, sp, pc, lambda, shortage }

/-- The stack that runs. -/
def runningStack (x : Execution) : Except Violation Stack :=
  x.machine.store.heap.cast Stack x.stack

/-- The value at an offset of the stack. -/
def valueAt (offset : Nat) : Exec Value := check fun x => do (← runningStack x).valueAt offset

/-- Write a word of the stack. -/
def write (offset : Nat) (slot : Slot) : Exec Unit := fun x =>
  let { machine, rootTask, currentTask, stack, limit, fp, sp, pc, lambda, shortage } := x
  let { store := { heap, roots }, references, settings, compiler, output, log } := machine
  let change : Body → Body
    | .stack { words, top, marker, status, mode } =>
      .stack { words := words.setIfInBounds offset slot, top, marker, status, mode }
    | body => body
  let heap := heap.adjust (.object stack) change
  let machine := { store := { heap, roots }, references, settings, compiler, output, log }
  .ok () { machine, rootTask, currentTask, stack, limit, fp, sp, pc, lambda, shortage }

/-- Push an operand, which must not be a signal. -/
def push (v : Value) : Exec Unit := do
  if v.isSignal then
    Action.violate (.signalStored .operands)
  else
    let sp ← ask fun x => x.sp
    write sp (.value v)
    setSp (sp + 1)

/-- The offset `count` words below the end of the operands. -/
def below (count : Nat) : Exec Nat := check fun x =>
  if count ≤ x.sp then .ok (x.sp - count) else .error .wildStackAccess

/-- Give `count` operands up. -/
def drop (count : Nat) : Exec Unit := do setSp (← below count)

/-- The operand with `index` operands above it. -/
def peek (index : Nat) : Exec Value := do valueAt (← below (index + 1))

/-- Replace the operand with `index` operands above it. -/
def setPeek (index : Nat) (v : Value) : Exec Unit := do
  write (← below (index + 1)) (.value v)

/-- Take the top operand. -/
def pop : Exec Value := do
  let v ← peek 0
  drop 1
  pure v

/-- The top `count` operands in the order they were pushed. -/
def top (count : Nat) : Exec (Array Value) := do
  let start ← below count
  check fun x => do
    let s ← runningStack x
    let values ← (List.range' start count).mapM s.valueAt
    pure values.toArray

/-- The argument with `index` arguments above it. Arguments lie right below the frame. -/
def argument (index : Nat) : Exec Value := do
  let offset ← check fun x => do
    let depth ← Size.add 1 index
    if depth ≤ x.fp then pure (x.fp - depth) else throw .wildStackAccess
  valueAt offset

/-- A local of the top frame. -/
def localValue (index : Nat) : Exec Value := do
  valueAt ((← ask fun x => x.fp) + Frame.size + index)

/-- Replace a local of the top frame. -/
def setLocal (index : Nat) (v : Value) : Exec Unit := do
  write ((← ask fun x => x.fp) + Frame.size + index) (.value v)

/-- The lambda of the top frame. -/
def runningLambda (x : Execution) : Except Violation Lambda :=
  x.machine.store.heap.cast Lambda x.lambda

/-- An element of a tuple. -/
def elementOf (h : Heap) (tuple : Value) (index : Nat) : Except Violation Value := do
  let t ← h.cast Tuple tuple
  match t.elements[index]? with
  | some element => pure element
  | none => throw (.indexOutOfBounds t.elements.size index)

/-- A constant of the lambda that runs. -/
def constant (index : UInt16) : Exec Value := check fun x => do
  elementOf x.machine.store.heap (← runningLambda x).constants index.toNat

/-- A value as an object of kind `α`, looking through forwarders. -/
def narrow (κ : Type) [HeapKind κ] (v : Value) : Exec (Value × κ) := alloc (Store.narrow κ v)

/-- End the call with an error. -/
def fail (error : RunError) : Exec α := Action.fail (.failed error)

/-- The text by which an error names a value: the characters of a string, or a description. -/
def nameOf (h : Heap) (v : Value) : Except Violation String := do
  match h.view? Text (← h.deref v) with
  | some text => pure text.content
  | none => pure v.describe

end Exec

end ObjectMachine
