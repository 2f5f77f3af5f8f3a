/-
# ObjectMachine.Dispatch -- which method answers a message

The distance of a protocol from a layout is the number of steps up the chain of parents from the
layout's own protocol. The score of a method is the sum of the distances of its parameters from
the layouts of the arguments, and the method with the least score answers. The candidates come
from the layout of the receiver and then from each protocol of its chain.

Two candidates with the same least score make the message ambiguous.
-/
import ObjectMachine.Forwarding

namespace ObjectMachine

namespace Heap

/-- The protocols from a value up the chain of parents. -/
def chainWith (h : Heap) : Nat → Value → Except Violation (List (Value × Protocol))
  | 0, _ => .error .endless
  | fuel + 1, v =>
    match h.view? Protocol v with
    | none => .ok []
    | some protocol => do
      let rest ← h.chainWith fuel protocol.parent
      pure ((v, protocol) :: rest)

/-- The protocols from a value up the chain of parents. -/
def chain (h : Heap) (v : Value) : Except Violation (List (Value × Protocol)) :=
  h.chainWith h.walkFuel v

/-- Steps from the protocol of a layout up to `target`. -/
def distance (h : Heap) (layout : Layout) (target : Value) : Except Violation (Option Nat) := do
  let protocols ← h.chain layout.protocol
  pure (protocols.findIdx? fun protocol => protocol.1 == target)

/-- The elements of a tuple. -/
def tupleElements (h : Heap) (v : Value) : Except Violation (Array Value) := do
  let t ← h.cast Tuple v
  pure t.elements

end Heap

namespace Store

/-- The layout through which a value is dispatched. -/
def layoutOf (s : Store) (v : Value) : Except Violation Layout := do
  match ← s.heap.deref v with
  | .int _ => s.heap.cast Layout (s.roots.layout .smallInteger)
  | .signal signal => throw (.dispatchOnSignal signal)
  | object => do s.heap.cast Layout (← s.heap.layoutOf object)

/-- Add the distances of parameters from their arguments. A parameter that is no protocol adds
nothing; one that is not on the chain of its argument ends the sum. -/
def scoreFrom (s : Store) : Nat → List (Value × Value) → Except Violation (Option Nat)
  | score, [] => .ok (some score)
  | score, (parameter, argument) :: rest =>
    if s.heap.is Protocol parameter then do
      let layout ← s.layoutOf argument
      match ← s.heap.distance layout parameter with
      | none => pure none
      | some steps => s.scoreFrom (score + steps) rest
    else
      s.scoreFrom score rest

/-- The score of a signature for the given arguments, receiver first. -/
def score (s : Store) (signature : Value) (arguments : Array Value) :
    Except Violation (Option Nat) := do
  let { parameters } ← s.heap.cast Signature signature
  let parameters ← s.heap.tupleElements parameters
  if arguments.size < parameters.size then
    pure none
  else
    s.scoreFrom 0 (parameters.toList.zip arguments.toList)

end Store

/-- What a search for a method has found so far. -/
structure Search where
  /-- Candidates with a lower score do not count. -/
  minScore : Nat
  /-- The least score and the first method that has it. -/
  best : Option (Nat × Value) := none
  /-- Whether another method has the least score, too. -/
  ambiguous : Bool := false
  deriving DecidableEq, Inhabited

namespace Search

/-- Take a candidate into account. -/
def consider (search : Search) (score : Nat) (method : Value) : Search :=
  if score < search.minScore then
    search
  else
    match search.best with
    | none => { search with best := some (score, method), ambiguous := false }
    | some (least, _) =>
      if score = least then { search with ambiguous := true }
      else if least < score then search
      else { search with best := some (score, method), ambiguous := false }

/-- Search a table of methods. -/
def inTable (s : Store) (selector : Selector) (arguments : Array Value) (search : Search)
    (table : Value) : Except Violation Search := do
  let methods ← s.heap.tupleElements table
  methods.foldlM (fun search method => do
    let m ← s.heap.cast Method method
    let named ← s.heap.cast Selector m.selector
    if ← s.heap.selectorsEqual named selector then
      match ← s.score m.signature arguments with
      | none => pure search
      | some score => pure (search.consider score method)
    else
      pure search) search

/-- Search the table of the receiver's layout, then those of the protocols on its chain. -/
def run (s : Store) (minScore : Nat) (selector : Value) (arguments : Array Value) :
    Except Violation Search := do
  match arguments[0]? with
  | none => throw (.indexOutOfBounds 0 0)
  | some receiver => do
    let layout ← s.layoutOf receiver
    let wanted ← s.heap.cast Selector selector
    let protocols ← s.heap.chain layout.protocol
    let tables := layout.methods :: protocols.map fun protocol => protocol.2.methods
    tables.foldlM (inTable s wanted arguments) { minScore }

end Search

namespace Store

/-- The method that answers a message. -/
def lookup (s : Store) (selector : Value) (arguments : Array Value) :
    Except Violation (Option Value) := do
  let search ← Search.run s 0 selector arguments
  if search.ambiguous then
    throw .ambiguousLookup
  else
    pure (search.best.map Prod.snd)

/-- The method that is next after the one with the signature `current`. -/
def lookupSuper (s : Store) (selector : Value) (arguments : Array Value) (current : Value) :
    Except Violation (Option Value) := do
  match ← s.score current arguments with
  | none => pure none
  | some previous => do
    let search ← Search.run s (previous + 1) selector arguments
    if search.ambiguous then
      throw .ambiguousSuperLookup
    else
      pure (search.best.map Prod.snd)

end Store

end ObjectMachine
