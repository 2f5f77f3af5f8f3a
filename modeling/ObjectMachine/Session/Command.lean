/-
# ObjectMachine.Session.Command -- the steps of a script

Each command is one thing to do to a machine. Fields that are numbers, names or choices may have
been unreadable; they are `none` then, and the command fails when it gets to them.
-/
import ObjectMachine.Object
import ObjectMachine.Plain
import ObjectMachine.Session.Term

namespace ObjectMachine

namespace Session

/-- The ways to look at a value as a kind of object. -/
inductive Narrowing where
  /-- Whether it is one. -/
  | is
  /-- The object, if it is one. -/
  | as
  /-- The object, which it has to be. -/
  | cast
  /-- The object it stands for. -/
  | to
  deriving DecidableEq

/-- The ways to compare two values. -/
inductive Comparison where
  | equal
  | keysEqual
  | same
  deriving DecidableEq

/-- What to do to a forwarder. -/
inductive Redirection where
  | bind
  | retarget
  | close
  | reopen
  | look
  deriving DecidableEq

/-- What to do to a stack. -/
inductive StackAction where
  | uncook
  | recook
  | validate
  | setStatus (status : Option StackStatus)
  | copyFrom (source : Term)
  | look
  | visit

/-- Objects that are made in one try, without a collection. -/
inductive RawKind where
  | tuple
  | array
  | string
  | map
  | stack
  | task
  | code
  | signature
  | forwarder
  deriving DecidableEq

/-- A frame of a stack that is laid out by hand. -/
structure FrameDraft where
  offset : Nat
  /-- Offset of the frame below, unless this is the bottom frame. -/
  below : Option Nat
  /-- Whether the word of the lambda is written. -/
  withLambda : Bool

/-- A stack that is laid out by hand. -/
structure StackDraft where
  height : Nat
  words : List (Nat × Int)
  frames : List FrameDraft
  top : Nat
  marker : Option Nat
  status : StackStatus

/-- A step of a script. -/
inductive Command where
  -- variables and references
  | letValue (value : Term)
  | drop (name : Option String)
  | leak (name : Option String)
  | handles
  -- inspection
  | typeOf (value : Term)
  | narrow (value : Term) (how : Option Narrowing) (kind : Option (Option Kind))
  | toInteger (value : Term)
  | deref (value : Term)
  | isKey (value : Term)
  | hash (value : Term)
  | compare (how : Comparison) (a b : Term)
  | display (value : Term) (quoted : Option Bool) (depth : Option Nat)
  | debug (value : Term)
  | object (value : Term)
  | stringAt (value : Term) (index : Option Nat)
  -- objects
  | tuple (length : Option Nat)
  | array (length : Option Nat)
  | blankString (length : Option Nat)
  | singleton (ordinal : Option Nat)
  | context
  | get (value : Term) (index : Option Nat)
  | arraySet (array value : Term) (index : Option Nat)
  | clone (value : Term)
  | cell (value : Term)
  | cellGet (cell : Term)
  | cellSet (cell value : Term)
  | forwarder (target : Term) (binding : Option Binding)
  | redirect (forwarder : Term) (target : Option Term) (how : Option Redirection)
  | map (capacity : Option (Option Nat))
  | mapSet (map key value : Term)
  | mapGet (map key : Term)
  | mapEntries (map : Term)
  | protocol (name parent : Term)
  | protocolInfo (protocol : Term)
  | layout (protocol : Term) (kind : Option Kind) (fields : Option Nat)
  | inst (layout : Term)
  | field (inst : Term) (index : Option Nat)
  | setField (inst value : Term) (index : Option Nat)
  | fields (inst : Term)
  | selector (name : Term) (keywords : Option Term) (argc : Option Nat) (accessor : Option Bool)
  | selectorInfo (selector : Term)
  | signature (parameters : Option (List Term))
  | method (selector signature lambda : Term)
  | addMethod (holder method : Term)
  -- lookup
  | layoutOf (value : Term)
  | distance (value protocol : Term)
  | score (signature : Term) (arguments : Option (List Term))
  | search (selector : Term) (arguments : Option (List Term)) (minScore : Option Nat)
  | lookup (selector : Term) (arguments : Option (List Term))
  | lookupSuper (selector : Term) (arguments : Option (List Term)) (signature : Term)
  -- code
  | build (code : Option Program)
  | lambda (code : Option Program) (argc : Option Nat)
  | rawLambda (units : Option (List UInt16)) (constants : Option (List Term))
      (argc maxHeight : Option Nat)
  | lazyLambda (source : Term) (argc : Option Nat)
  | setCompiler (code : Option Program) (signal : Option (Option Signal))
  | lambdaInfo (lambda : Term)
  | call (lambda : Term) (arguments : Option (List Term))
  | defineGlobal (value : Term) (name : Option String)
  | global (name : Option String)
  | runEntry (name : Option String)
  | builtin (this : Term) (arguments : Option (List Term)) (index : Option UInt16)
  -- channel
  | request (receiver : Option Plain) (selector : Option String)
      (arguments : Option (List Plain))
  | importPlain (value : Option Plain)
  | exportPlain (value : Term)
  -- heap
  | collect (pending : Option Nat)
  | heap
  | validate
  | rawAlloc (kind : Option RawKind) (n : Option Nat)
  | fill (n : Option Nat)
  | leave (free : Option Nat)
  | retry (plan : Option (List (Option Signal)))
  | forwardHeader (object target : Term) (validate : Option Bool)
  -- stacks
  | stack (draft : Option StackDraft)
  | stackDo (stack : Term) (action : Option StackAction)
  | task (height : Option Nat)
  | taskInfo (task : Term)
  /-- A step that could not be read. -/
  | unreadable
  deriving Inhabited

/-- A line of a script: a step whose answer may be given a name, or a block of lines during which
some values are held. -/
inductive Line where
  | step (command : Command) (name : Option String)
  | block (values : Option (List Term)) (lines : Option (List Line))
  deriving Inhabited

end Session

end ObjectMachine
