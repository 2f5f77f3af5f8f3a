/-
# ObjectMachine.Session.Storage -- steps that work on the heap and on stacks
-/
import ObjectMachine.Heap.Validation
import ObjectMachine.Session.Objects

namespace ObjectMachine

namespace Session

/-- How full the heap is. -/
def heapReport : Work Answer := ask fun m =>
  let h := m.store.heap
  .heap { used := h.used, capacity := h.capacity, stats := h.stats }

/-- Make an object in one try. -/
def rawMake (kind : RawKind) (n : Nat) : Alloc Value :=
  match kind with
  | .tuple => Make.nulls n
  | .array => Make.sequence n
  | .string => Make.blankString n
  | .map => Make.table n
  | .stack => Make.stack n
  | .task => Make.task n
  | .code => do
    let size ← Size.code n
    Make.placeLazy .code size fun _ => .code ⟨Array.replicate n 1⟩
  | .signature => do
    let size ← Size.sequence n
    let parameters ← Make.placeLazy .tuple size fun _ => .tuple ⟨Array.replicate n (.int 0)⟩
    Make.place 16 (.signature ⟨parameters⟩)
  | .forwarder => do
    match Value.ofInt? (Size.signed n) with
    | some target => Make.forwarder .opened target
    | none => Action.violate (.smallIntegerRange (Size.signed n))

/-- Make tuples of `n` elements until one does not fit, and answer how many did. -/
def fillWith (n : Nat) : Nat → Nat → Alloc Nat
  | 0, count => pure count
  | fuel + 1, count => fun s =>
    match Make.nulls n s with
    | .ok _ s => fillWith n fuel (count + 1) s
    | .error (.raised _) s => .ok count s
    | .error stop s => .error stop s

/-- The length of the tuple that leaves `free` bytes of the active space. -/
def tupleLeaving? (h : Heap) (free : Nat) : Option Nat :=
  if free + 2 * Size.word ≤ h.free ∧ (h.free - free) % Size.word = 0 then
    some ((h.free - free) / Size.word - 2)
  else
    none

/-- Work whose tries are written down: each try takes the next entry of the plan, and what is not
in the plan succeeds. The slot `counter` counts the tries. -/
def planned (plan : List (Option Signal)) (counter : Nat) : Op Signal Unit := do
  match ← Machine.slot counter with
  | .int tries => do
    Machine.setSlot counter (.int (tries + 1))
    match plan[tries.toNat]? with
    | some (some signal) => Action.fail signal
    | _ => pure ()
  | _ => pure ()

/-- Do planned work, and answer how often it was tried. -/
def retryPlan (plan : List (Option Signal)) : Work Answer := do
  let counter ← hold (.int 0)
  let failure ← fun s =>
    match operate (Machine.retrying (planned plan counter)) s with
    | .ok _ s => .ok none s
    | .error (.raised (.run error)) s => .ok (some error) s
    | .error stop s => .error stop s
  match ← slot counter with
  | .int tries => pure (.retried tries.toNat failure)
  | _ => malformed

/-- Write a forward header over an object, and look at it. -/
def forwardHeader (object target : Value) (validate : Bool) : Work Answer := do
  match target with
  | .object ref => modifyHeap fun h => h.setHeader object (.forward ref)
  | _ => check fun _ => .error .forwardToNonObject
  if validate then
    checkHeap Heap.validate
  else
    let _ ← checkHeap fun h => h.layoutOf object
  pure .done

/-- A stack that is laid out by hand, at `self`. -/
def StackDraft.layOut (draft : StackDraft) (self : Ref) (lambda : Value) (s : Stack) : Stack :=
  let link : Option Nat → Link
    | some offset => .address self offset
    | none => .bottom
  let s := draft.words.foldl (fun (s : Stack) word => s.setWord word.1 (.value (.int word.2))) s
  let s := draft.frames.foldl (fun (s : Stack) frame =>
    let s := s.setWord (frame.offset + Frame.pcWord) (.value (.int 0))
    let s := s.setWord (frame.offset + Frame.linkWord) (.link (link frame.below))
    if frame.withLambda then s.setWord (frame.offset + Frame.lambdaWord) (.value lambda) else s) s
  { s with top := .address self draft.top, marker := draft.marker, status := draft.status }

/-- Insist that the integers of a stack that is laid out by hand fit its words. -/
def StackDraft.validate (draft : StackDraft) : Except Violation Unit := do
  draft.words.forM fun word =>
    if Value.isSmall word.2 then .ok () else .error (.smallIntegerRange word.2)
  match draft.marker with
  | some offset => do
    let _ ← Size.count (← Size.add offset 1)
  | none => pure ()

/-- Make a stack that is laid out by hand. -/
def makeStack (name : Option String) (draft : StackDraft) : Work Answer := do
  let made ← make (Machine.onStore (Make.stack draft.height))
  check fun _ => draft.validate
  match made with
  | .object ref => do
    let lambda ← ask fun m => m.store.roots.emptyLambda
    let s ← checkHeap fun h => h.cast Stack made
    modifyHeap fun h => h.put made (draft.layOut ref lambda s)
    named name made
  | _ => malformed

/-- What a stack looks like from outside. -/
def stackReport (h : Heap) (stack : Value) : Except Violation StackReport := do
  let s ← h.cast Stack stack
  let runs := s.mode = .linked ∧ s.status ≠ .empty
  pure
    { height := s.height
      size := (Body.stack s).size
      status := s.status
      mode := s.mode
      marker := s.marker
      links := if runs then stack.asRef?.map s.links else none }

/-- The values that a relocatable stack holds. -/
def visitedValues (s : Stack) : Except Violation (List Value) := do
  let slots ← s.liveSlots
  slots.mapM s.valueAt

/-- Do something to a stack. -/
def actOnStack (stack : Nat) (action : StackAction) : Work Answer := do
  let target ← slot stack
  let s ← dataAt Stack stack
  let self ← need target.asRef?
  let change (changed : Except Violation Stack) : Work Unit := do
    let s ← check fun _ => changed
    modifyHeap fun h => h.put target s
  match action with
  | .uncook => change (s.uncook self)
  | .recook => change (s.recook self)
  | .validate => checkHeap fun h => s.validate self (h.is Lambda)
  | .setStatus status => do change (.ok { s with status := ← need status })
  | .copyFrom source => do
    let old ← dataAt Stack (← evalAs Stack source)
    change (s.copyContents old)
  | .look | .visit => pure ()
  match action with
  | .visit => do
    let visited ← check fun _ => visitedValues s
    pure (.values (← shownAll 3 visited))
  | _ => do pure (.stack (← checkHeap fun h => stackReport h target))

/-- Carry out a step that works on the heap or on a stack. -/
def workOnStorage (name : Option String) : Command → Work Answer
  | .collect pending => do
    let pending ← need pending
    operate (Machine.collect pending)
    heapReport
  | .heap => heapReport
  | .validate => do
    checkHeap Heap.validate
    pure .done
  | .rawAlloc kind n => do
    let kind ← need kind
    let n ← need n
    named name (← signalling (Machine.onStore (rawMake kind n)))
  | .fill n => do
    let n ← need n
    let fuel ← ask fun m => m.store.heap.free / Size.word + 1
    pure (.int (← signalling (Machine.onStore (fillWith n fuel 0))))
  | .leave free => do
    let free ← need free
    let length ← need (← ask fun m => tupleLeaving? m.store.heap free)
    let made ← signalling (Machine.onStore (Make.nulls length))
    let _ ← named name made
    pure (.int length)
  | .retry plan => do retryPlan (← need plan)
  | .forwardHeader object target validate => do
    let object ← eval object
    let target ← eval target
    let validate ← need validate
    if !(← ask fun m => m.store.heap.contains (m.references.slot object)) then malformed
    forwardHeader (← slot object) (← slot target) validate
  | .stack draft => do makeStack name (← need draft)
  | .stackDo stack action => do actOnStack (← evalAs Stack stack) (← need action)
  | .task height => do made name (Machine.onStore (Make.task (← need height)))
  | .taskInfo task => do
    let t ← dataAt Task (← evalAs Task task)
    let report ← checkHeap fun h => stackReport h t.stack
    pure (.task report (← renderAt 1 t.caller))
  | _ => malformed

end Session

end ObjectMachine
