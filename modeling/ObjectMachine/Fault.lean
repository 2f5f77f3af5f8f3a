/-
# ObjectMachine.Fault -- the ways an operation ends early

Three disjoint causes end an operation before it has an answer.

* A `Signal` is an expected outcome that the immediate caller deals with.
* A `RunError` ends a call; its text goes to whoever made the call.
* A `Violation` is a broken invariant. Nothing recovers from it.

`Stop ε` says which channel an operation of error type `ε` ended through, and each cause has
one text.
-/
import ObjectMachine.Kind
import ObjectMachine.Value
import ObjectMachine.Code.Opcode

namespace ObjectMachine

/-- The arithmetic that left the range of machine words. -/
inductive Arithmetic where
  | add
  | subtract
  | multiply
  deriving DecidableEq, Inhabited

/-- The place a signal was about to be stored in. -/
inductive Storage where
  | tuple
  | array
  | cell
  | inst
  | table
  | layout
  | forwarder
  | constants
  | operands
  deriving DecidableEq, Inhabited

/-- A broken invariant. -/
inductive Violation where
  /-- A count left the range of machine words. -/
  | overflow (operation : Arithmetic)
  /-- A space was to be larger than memory can be addressed. -/
  | capacityOverflow
  | indexOutOfBounds (length index : Nat)
  | smallIntegerRange (n : Int)
  | notSmallInteger (value : Value)
  | misalignedAddress
  | castFailed (kind : Option Kind) (value : Value)
  | signalStored (storage : Storage)
  /-- A header that forwards was read as a layout. -/
  | forwardedHeader
  | forwardedHeaderAt (offset : Nat)
  | headerOutsideHeap (offset : Nat)
  /-- The layout of an object was asked for its kind, but its own header forwards. -/
  | layoutForwarded (target : Ref)
  | headerNotLayout (offset : Nat)
  /-- An object was read by a layout that does not describe it. -/
  | misdescribed
  /-- A forward header was to lead to something that is not an object. -/
  | forwardToNonObject
  | fieldOutsideSpace
  | toSpaceExhausted (size : Nat)
  | noStructuralHash (kind : Kind)
  | hashOfSignal (signal : Signal)
  | noStructuralEquality (kind : Kind)
  | equalityOfSignal (signal : Signal)
  | unhashableKey (key : Value)
  /-- An instance was asked of a layout of another kind. -/
  | notAnInstanceLayout
  | cloneOfStack
  | closedForwarderRetargeted
  | closedForwarderReopened
  | forwarderCycle
  | uncookingUnparked
  | alreadyUncooked
  | recookingUnparked
  | alreadyCooked
  | copyingCooked
  | copyingIntoSmaller
  | visitingCooked
  /-- A frame link was read or written as an address while links are offsets. -/
  | stackNotLinked
  | frameOutsideStack
  | frameWithoutLambda
  | frameChainAscends
  | linkBelowStack
  | stackTooSmall
  | resumingUnparked
  | parkingAboveLimit
  /-- A stack word outside the buffer, or of the wrong sort, was accessed. -/
  | wildStackAccess
  | unassignedOpcode (unit : UInt16) (pc : Nat)
  | truncatedInstruction (op : Opcode) (pc : Nat)
  | ambiguousLookup
  | ambiguousSuperLookup
  | dispatchOnSignal (signal : Signal)
  | unassignedBuiltin (index : UInt16)
  | builtinArity (name : String) (argc : Nat)
  | heightMismatch (pc : Nat)
  | unbalancedUnmark
  | invalidForwarderKind (kind : UInt16) (pc : Nat)
  | orphanedTask
  | scopesOutOfOrder
  | foreignHandle
  /-- A chain that has to end does not. -/
  | endless
  deriving DecidableEq, Inhabited

namespace Violation

/-- The verb of an arithmetic that overflowed. -/
def verb : Arithmetic → String
  | .add => "add"
  | .subtract => "subtract"
  | .multiply => "multiply"

/-- The text for a signal that was about to be stored. -/
def storageMessage : Storage → String
  | .tuple => "signal stored in tuple"
  | .array => "signal stored in array"
  | .cell => "signal stored in cell"
  | .inst => "signal stored in instance"
  | .table => "assertion failed: !value.is_signal()"
  | .layout => "assertion failed: !protocol.is_signal()"
  | .forwarder => "assertion failed: !target.is_signal()"
  | .constants => "signal in constant pool"
  | .operands => "signal pushed on the stack"

/-- How a wanted kind is written, `None` standing for any object. -/
def wantedKind : Option Kind → String
  | some kind => "Some(" ++ kind.name ++ ")"
  | none => "None"

/-- The text of a violation. -/
def message : Violation → String
  | overflow operation => "attempt to " ++ verb operation ++ " with overflow"
  | capacityOverflow => "capacity overflow"
  | indexOutOfBounds length index =>
    s!"index out of bounds: the len is {length} but the index is {index}"
  | smallIntegerRange n => s!"small integer out of range: {n}"
  | notSmallInteger value => "not a small integer: " ++ value.describe
  | misalignedAddress => "object address must be aligned"
  | castFailed kind value => "cast to " ++ wantedKind kind ++ " failed for " ++ value.describe
  | signalStored storage => storageMessage storage
  | forwardedHeader => "forward pointer outside collection"
  | forwardedHeaderAt offset => s!"forward pointer outside collection at offset {offset}"
  | headerOutsideHeap offset => s!"header outside the heap at offset {offset}"
  | layoutForwarded target =>
    "not an object: Signal(0x" ++ Value.hexDigits (8 * target.position + 3) ++ ")"
  | headerNotLayout offset => s!"header is not a layout at offset {offset}"
  | misdescribed => "object is not what its layout describes"
  | forwardToNonObject => "assertion failed: target.is_object()"
  | fieldOutsideSpace => "field outside from-space"
  | toSpaceExhausted size => s!"to-space exhausted while copying {size} bytes"
  | noStructuralHash kind => "structural hash requested on " ++ kind.name
  | hashOfSignal signal => "hash of signal " ++ signal.message
  | noStructuralEquality kind => "structural equality requested on " ++ kind.name
  | equalityOfSignal signal => "equality of signal " ++ signal.message
  | unhashableKey key => "hash map key without structural hash: " ++ key.describe
  | notAnInstanceLayout => "assertion failed"
  | cloneOfStack => "stacks are copied with copy_contents_from"
  | closedForwarderRetargeted => "closed forwarder retargeted"
  | closedForwarderReopened => "closed forwarder reopened"
  | forwarderCycle => "forwarder cycle"
  | uncookingUnparked => "uncooking a stack that is not parked"
  | alreadyUncooked => "stack already uncooked"
  | recookingUnparked => "recooking a stack that is not parked"
  | alreadyCooked => "stack already cooked"
  | copyingCooked => "copying a cooked stack"
  | copyingIntoSmaller => "assertion failed: self.height() >= old.height()"
  | visitingCooked => "visiting a cooked stack"
  | stackNotLinked => "assertion failed"
  | frameOutsideStack => "frame outside its stack"
  | frameWithoutLambda => "frame without a lambda"
  | frameChainAscends => "frame chain does not descend"
  | linkBelowStack => "assertion failed: offset >= 0"
  | stackTooSmall =>
    "assertion failed: stack.height() >= entry.len() + (RESERVED_FRAMES + 2) * FRAME_SIZE"
  | resumingUnparked => "assertion failed"
  | parkingAboveLimit => "assertion failed: self.sp <= self.limit"
  | wildStackAccess => "stack word out of reach"
  | unassignedOpcode unit pc => s!"unhandled opcode {unit} at {pc}"
  | truncatedInstruction op pc => "truncated " ++ op.name ++ s!" instruction at {pc}"
  | ambiguousLookup => "ambiguous method lookup"
  | ambiguousSuperLookup => "ambiguous super lookup"
  | dispatchOnSignal signal => "dispatch on signal " ++ signal.message
  | unassignedBuiltin index => s!"unhandled builtin {index}"
  | builtinArity name argc => s!"builtin {name} called with {argc} arguments"
  | heightMismatch pc => s!"stack height mismatch at {pc}"
  | unbalancedUnmark => "unbalanced unmark"
  | invalidForwarderKind kind pc => s!"invalid forwarder kind {kind} at {pc}"
  | orphanedTask => "internal error: entered unreachable code: attached task without a caller"
  | scopesOutOfOrder => "reference scopes exited out of order"
  | foreignHandle => "assertion failed: Rc::ptr_eq(&registry[index], &handle.slot)"
  | endless => "chain does not end"

end Violation

/-- A failure that ends a call. -/
inductive RunError where
  | invalidSettings (reason : String)
  /-- An allocation failed even after a collection. -/
  | outOfMemory (size : Nat)
  | unresolvedGlobal (name : String)
  | lookupFailure (selector : String)
  | unhandledCondition (name : String)
  | unresolvedEntryPoint (name : String)
  | builtinFailed (name : String) (signal : Signal)
  /-- A lambda without code, and nobody to produce it. -/
  | notCompiled
  | arityMismatch (expected actual : Nat)
  | deadTask
  /-- The task is already running somewhere up the chain of attached tasks. -/
  | taskBusy
  /-- A signal that nobody expected, usually a failed narrowing. -/
  | signal (signal : Signal)
  /-- The worker that owns the machine ended without an answer. -/
  | workerDied
  deriving DecidableEq, Inhabited

namespace RunError

/-- The text of a run error. -/
def message : RunError → String
  | invalidSettings reason => "invalid settings: " ++ reason
  | outOfMemory size => s!"out of memory allocating {size} bytes after collecting"
  | unresolvedGlobal name => "unresolved global " ++ name
  | lookupFailure selector => "no method matches " ++ selector
  | unhandledCondition name => "unhandled condition " ++ name
  | unresolvedEntryPoint name => "unresolved entry point " ++ name
  | builtinFailed name cause => "builtin " ++ name ++ " failed: " ++ cause.message
  | notCompiled => "lambda has no code and no compiler is registered"
  | arityMismatch expected actual => s!"expected {expected} arguments, got {actual}"
  | deadTask => "attaching a finished task"
  | taskBusy => "attaching a task that is already attached"
  | .signal cause => "unexpected signal: " ++ cause.message
  | workerDied => "interpreter thread exited"

/-- A signal that reached the end of a call: a failed allocation is a lack of memory. -/
def ofSignal : Signal → RunError
  | .allocationFailed size => outOfMemory size
  | other => signal other

end RunError

/-- How an operation ended without an answer: through its own error channel, by a broken
invariant, or because its step budget was spent. -/
inductive Stop (ε : Type) where
  | raised (cause : ε)
  | broken (violation : Violation)
  | unfinished
  deriving DecidableEq

namespace Stop

/-- The same ending with another error type. -/
def map {ε δ : Type} (f : ε → δ) : Stop ε → Stop δ
  | raised cause => raised (f cause)
  | broken violation => broken violation
  | unfinished => unfinished

end Stop

/-- Operations that change a state of type `σ` and may end early. The state survives an early
end. -/
abbrev Action (σ ε α : Type) := EStateM (Stop ε) σ α

namespace Action

variable {σ τ ε δ α : Type}

/-- End through the error channel. -/
def fail (cause : ε) : Action σ ε α := throw (.raised cause)

/-- End by a broken invariant. -/
def violate (violation : Violation) : Action σ ε α := throw (.broken violation)

/-- Run a check that touches no state. -/
def check (result : Except Violation α) : Action σ ε α :=
  match result with
  | .ok answer => pure answer
  | .error violation => violate violation

instance : MonadLift (Except Violation) (EStateM (Stop ε) σ) where
  monadLift := check

/-- Map the error channel. -/
def mapError (f : ε → δ) (action : Action σ ε α) : Action σ δ α := fun state =>
  match action state with
  | .ok answer state => .ok answer state
  | .error stop state => .error (stop.map f) state

end Action

end ObjectMachine
