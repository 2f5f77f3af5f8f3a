/-
# ObjectMachine.Interpreter.Step -- one instruction

`execute` says what each instruction does to the operands, the frames and the heap. An
instruction that allocates does so before it changes anything, so it can be interrupted and
executed again.
-/
import ObjectMachine.Interpreter.Frames

namespace ObjectMachine

namespace Exec

/-- Enter the lambda of a method that has been found for the selector called `name`. -/
def answerWith (name : Value) (argc keymap : UInt16) (next : Nat) : Option Value → Exec Unit
  | none => do fail (.lookupFailure (← checkStore fun s => nameOf s.heap name))
  | some method => do
    let v ← constant keymap
    let keymap ← askStore fun s =>
      if (s.heap.view? Tuple v).any fun t => !t.elements.isEmpty then some v else none
    let (lambda, l) ← checkStore fun s => do
      let m ← s.heap.cast Method method
      pure (m.lambda, ← s.heap.cast Lambda m.lambda)
    enter lambda l argc.toNat keymap next

/-- Send a message to the operand below `argc` arguments. With a signature, the method after the
one with that signature answers. -/
def invoke (selector argc keymap : UInt16) (signature : Option UInt16) (next : Nat) :
    Exec Unit := do
  let selector ← constant selector
  let named ← checkStore fun s => s.heap.cast Selector selector
  let arguments ← top (argc.toNat + 1)
  let found ← match signature with
    | none => checkStore fun s => s.lookup selector arguments
    | some signature => do
      let current ← constant signature
      let _ ← checkStore fun s => s.heap.cast Signature current
      checkStore fun s => s.lookupSuper selector arguments current
  answerWith named.name argc keymap next found

/-- The handler for a condition in a table of names and handlers. -/
def handlerIn (h : Heap) (name : Value) : List Value → Except Violation (Option Value)
  | key :: handler :: rest => do
    if ← h.equal key name then pure (some handler) else handlerIn h name rest
  | _ => .ok none

/-- The innermost handler for a condition, from a marker on. -/
def handlerFrom (h : Heap) (s : Stack) (name : Value) :
    Nat → Option Nat → Except Violation (Option Value)
  | 0, _ => .error .endless
  | _ + 1, none => .ok none
  | fuel + 1, some marker => do
    let handlers ← h.tupleElements (← s.valueAt (marker + 1))
    match ← handlerIn h name handlers.toList with
    | some handler => pure (some handler)
    | none => handlerFrom h s name fuel (← nextMarker s marker)

/-- Enter the innermost handler for a condition. -/
def raise (name argc : UInt16) (next : Nat) : Exec Unit := do
  let name ← constant name
  let handler ← check fun x => do
    let s ← runningStack x
    handlerFrom x.machine.store.heap s name (s.height + 2) s.marker
  match handler with
  | none => fail (.unhandledCondition (← checkStore fun s => nameOf s.heap name))
  | some handler => do
    let (lambda, l) ← narrow Lambda handler
    enter lambda l argc.toNat none next

/-- Call a builtin on the operand below `argc` arguments, and push its answer. -/
def callBuiltin (argc index : UInt16) : Exec Unit := do
  match Builtin.ofIndex? index with
  | none => Action.violate (.unassignedBuiltin index)
  | some builtin =>
    if argc.toNat ≠ builtin.argc then
      Action.violate (.builtinArity builtin.name argc.toNat)
    else
      let this ← peek argc.toNat
      let arguments ← top argc.toNat
      let interrupt : Signal → Interrupt
        | .allocationFailed size => .collect size
        | signal => .failed (.builtinFailed builtin.name signal)
      let answer ← onMachine (Action.mapError interrupt (builtin.run { this, arguments }))
      push answer

/-- Push the value of a global name. -/
def pushGlobal (name : UInt16) : Exec Unit := do
  let name ← constant name
  let found ← checkStore fun s => do
    s.heap.tableGet? (← s.heap.cast Table s.roots.toplevel) name
  match found with
  | some v => push v
  | none => fail (.unresolvedGlobal (← checkStore fun s => nameOf s.heap name))

/-- Make an instance of a fresh layout, from a protocol and the values of the fields above it. -/
def makeInstance (template : UInt16) : Exec Unit := do
  let template ← constant template
  let { fieldCount, .. } ← checkStore fun s => s.heap.cast Layout template
  let protocol ← valueAt (← below (← check fun _ => Size.add 1 fieldCount))
  let layout ← alloc (Make.clone template)
  if protocol.isSignal then
    Action.violate (.signalStored .layout)
  modifyHeap fun h => h.adjust layout fun
    | .layout l => .layout { l with protocol }
    | body => body
  let made ← alloc (Make.inst layout)
  let fields ← top fieldCount
  if fields.any Value.isSignal then
    Action.violate (.signalStored .inst)
  modifyHeap fun h => h.put made (⟨fields⟩ : Instance)
  drop (fieldCount + 1)
  push made

/-- Whether a task is on the chain of callers of another, itself included. -/
def isAttached (h : Heap) (task : Value) : Nat → Value → Except Violation Bool
  | 0, _ => .error .endless
  | fuel + 1, link =>
    if link = task then
      .ok true
    else do
      let t ← h.cast Task link
      match callerOf? h t with
      | some caller => isAttached h task fuel caller
      | none => pure false

/-- Hand over to a task that has been found. -/
def attachTo (next : Nat) : Value × Task → Exec Unit := fun (task, t) => do
  let s ← checkStore fun s => s.heap.cast Stack t.stack
  if s.status = .empty then
    fail .deadTask
  else
    let current ← currentTask
    if ← checkStore fun s => isAttached s.heap task s.heap.walkFuel current then
      fail .taskBusy
    else
      modifyHeap fun h => h.put task { t with caller := current }
      switchTo task next

/-- Hand over to the task on top of the operands. -/
def attach (next : Nat) : Exec Unit := do
  attachTo next (← narrow Task (← peek 0))

/-- Hand the top operand to the task that attached this one. Without such a task the call is
done. -/
def yield (next : Nat) : Exec Unit := do
  let v ← peek 0
  let null ← askStore fun s => s.roots.null
  setPeek 0 null
  let task ← currentTask
  let t ← checkStore fun s => s.heap.cast Task task
  match ← askStore fun s => callerOf? s.heap t with
  | none => do
    park next
    Action.fail (.done v)
  | some caller => do
    modifyHeap fun h => h.put task { t with caller := null }
    switchTo caller next
    setPeek 0 v

/-- Replace the lambda on top of the operands by a task that will run it. -/
def makeTask : Exec Unit := do
  let (lambda, _) ← narrow Lambda (← peek 0)
  let height ← ask fun x => x.machine.settings.stackHeight
  let task ← alloc (Make.task height)
  let (stack, prepared) ← checkStore fun s =>
    s.heap.preparedStack task s.roots.emptyLambda #[lambda]
  modifyHeap fun h => h.put stack prepared
  setPeek 0 task

/-- Replace the captured values on top of the operands by a lambda that has captured them. -/
def makeClosure (template count : UInt16) : Exec Unit := do
  let template ← constant template
  let _ ← checkStore fun s => s.heap.cast Lambda template
  let captured ← top count.toNat
  let outers ← alloc (Make.tuple captured)
  let closure ← alloc (Make.clone template)
  modifyHeap fun h => h.adjust closure fun
    | .lambda l => .lambda { l with outers }
    | body => body
  drop count.toNat
  push closure

/-- The value that a condition stands for is true. -/
def isTrue (condition : Value) : Exec Bool := checkStore fun s => do
  pure (decide ((← s.heap.deref condition) = s.roots.yes))

/-- The binding with a number. -/
def bindingOf? : UInt16 → Option Binding
  | 0 => some .opened
  | 1 => some .closed
  | _ => none

/-- An instance among the arguments of the top frame. -/
def argumentInstance (index : UInt16) : Exec (Value × Instance) := do
  narrow Instance (← argument index.toNat)

/-- Carry an instruction out. It stands at `pc`, and `next` is the one after it. -/
def execute (pc next : Nat) : Instruction → Exec Unit
  | .push index => do push (← constant index)
  | .ret => leave
  | .global name => pushGlobal name
  | .call argc => do
    let (lambda, l) ← narrow Lambda (← peek argc.toNat)
    enter lambda l argc.toNat none next
  | .slap height => do
    let v ← pop
    drop height.toNat
    push v
  | .argument index => do push (← argument index.toNat)
  | .pushVoid => do push (← askStore fun s => s.roots.void)
  | .pushNull => do push (← askStore fun s => s.roots.null)
  | .pushTrue => do push (← askStore fun s => s.roots.yes)
  | .pushFalse => do push (← askStore fun s => s.roots.no)
  | .pop height => drop height.toNat
  | .ifTrue target => do
    if ← isTrue (← pop) then jump target.toNat
  | .ifFalse target => do
    if !(← isTrue (← pop)) then jump target.toNat
  | .goto target => jump target.toNat
  | .invoke selector argc keymap => invoke selector argc keymap none next
  | .invokeSuper selector argc keymap signature =>
    invoke selector argc keymap (some signature) next
  | .builtin argc index => callBuiltin argc index
  | .tuple length => do
    let elements ← top length.toNat
    let made ← alloc (Make.tuple elements)
    drop length.toNat
    push made
  | .concat terms => do
    let strings ← top terms.toNat
    let made ← alloc (Builtin.concatStrings strings.toList)
    drop terms.toNat
    push made
  | .loadLocal index => do push (← localValue index.toNat)
  | .storeLocal index => do setLocal index.toNat (← peek 0)
  | .checkHeight expected => do
    let height ← ask fun x => x.sp - x.fp - Frame.size
    if height ≠ expected.toNat then Action.violate (.heightMismatch pc)
  | .outer index => do
    push (← check fun x => do
      elementOf x.machine.store.heap (← runningLambda x).outers index.toNat)
  | .closure template count => makeClosure template count
  | .raise name argc => raise name argc next
  | .mark handlers => do
    let marker ← ask fun x => x.sp
    let link := match ← innermostMarker with
      | some below => below + 1
      | none => 0
    push (.int (Size.signed link))
    push (← constant handlers)
    setMarker (some marker)
  | .unmark => do
    let marker ← below Marker.size
    if (← innermostMarker) ≠ some marker then
      Action.violate .unbalancedUnmark
    let outer ← check fun x => do nextMarker (← runningStack x) marker
    setMarker outer
    drop Marker.size
  | .new template => makeInstance template
  | .loadField index argc => do
    let (_, i) ← argumentInstance argc
    match i.fields[index.toNat]? with
    | some field => push field
    | none => Action.violate (.indexOutOfBounds i.fields.size index.toNat)
  | .storeField index argc => do
    let (receiver, i) ← argumentInstance argc
    let v ← peek 0
    if v.isSignal then
      Action.violate (.signalStored .inst)
    if i.fields.size ≤ index.toNat then
      Action.violate (.indexOutOfBounds i.fields.size index.toNat)
    modifyHeap fun h => h.adjust receiver fun
      | .inst i => .inst ⟨i.fields.setIfInBounds index.toNat v⟩
      | body => body
  | .task => makeTask
  | .yield => yield next
  | .attach => attach next
  | .keyword index => do
    let keymap ← localValue 0
    match ← checkStore fun s => elementOf s.heap keymap index.toNat with
    | .int n => do push (← argument (Size.ofInt n))
    | v => Action.violate (.notSmallInteger v)
  | .swap => do
    let above ← peek 0
    let below ← peek 1
    setPeek 0 below
    setPeek 1 above
  | .newForwarder kind => do
    match bindingOf? kind with
    | none => Action.violate (.invalidForwarderKind kind pc)
    | some binding => do
      let target ← peek 0
      let made ← alloc (Make.forwarder binding target)
      setPeek 0 made
  | .bindForwarder => do
    let target ← pop
    let v ← peek 0
    match ← askStore fun s => s.heap.view? Forwarder v with
    | none => fail (.signal .typeMismatch)
    | some f => do
      let bound ← checkStore fun s => s.heap.bound f.descriptor target
      modifyHeap fun h => h.put f.descriptor bound
  | .newCell => do
    let content ← peek 0
    let made ← alloc (Make.cell content)
    setPeek 0 made
  | .loadCell => do
    let (_, cell) ← narrow Cell (← peek 0)
    setPeek 0 cell.content
  | .storeCell => do
    let v ← pop
    let (cell, _) ← narrow Cell (← peek 0)
    if v.isSignal then
      Action.violate (.signalStored .cell)
    modifyHeap fun h => h.put cell (⟨v⟩ : Cell)
    setPeek 0 v

/-- A number of at most four places, right-aligned. -/
def padded (n : Nat) : String :=
  let digits := toString n
  String.ofList (List.replicate (4 - digits.length) ' ') ++ digits

/-- Carry out the next instruction. In the bottom frame that is to enter the entry lambda. -/
def step : Exec Unit := do
  if (← ask fun x => x.fp) = 0 then
    start
  else
    let pc ← ask fun x => x.pc
    let instruction ← check fun x => do
      let code ← x.machine.store.heap.cast Code (← runningLambda x).code
      Instruction.decodeAt code.units pc
    report .trace fun _ => padded pc ++ ": " ++ instruction.text
    let next := pc + instruction.size
    jump next
    execute pc next instruction

end Exec

end ObjectMachine
