/-
# ObjectMachine.Machine.Code -- lambdas from code

An assembly becomes a lambda in one step: its constants are held in slots while the code, the
constant pool and the lambda are made. A lambda without code gets it from the compiler when it is
first entered.
-/
import ObjectMachine.Machine.Basic

namespace ObjectMachine

namespace Machine

/-- Hold values in slots, and answer the slots. -/
def rootAll {ε : Type} (values : List Value) : Op ε (List Nat) := values.mapM root

/-- The values of slots. -/
def slots {ε : Type} (indices : List Nat) : Op ε (Array Value) := do
  let values ← indices.mapM slot
  pure values.toArray

/-- A lambda with the code of an assembly. -/
def assemble (assembly : Assembly) (argc : Nat) : Op RunError Value := inScope do
  let constants ← rootAll assembly.constants.toList
  retrying do
    let values ← slots constants
    let roots ← ask fun m => m.store.roots
    let code ← Make.code assembly.units
    let constants ← Make.tuple values
    Make.lambda
      { argc, maxHeight := assembly.maxHeight, code, constants, outers := roots.emptyTuple,
        context := roots.emptyContext, source := roots.null }

/-- A lambda whose code is made from `source` when it is first entered. -/
def uncompiledLambda (argc : Nat) (source : Value) : Op RunError Value := inScope do
  let source ← root source
  retrying do
    let source ← slot source
    let roots ← ask fun m => m.store.roots
    Make.lambda
      { argc, maxHeight := 0, code := roots.void, constants := roots.void,
        outers := roots.emptyTuple, context := roots.emptyContext, source }

/-- Whether a lambda has code. -/
def isCompiled (h : Heap) (l : Lambda) : Bool := h.is Code l.code

/-- Make the code of a lambda that has been compiled and enter it. -/
def installing (assembly : Assembly) (lambda : Nat) (constants : List Nat) : Op Signal Unit := do
  let values ← slots constants
  let code ← Make.code assembly.units
  let constants ← Make.tuple values
  let v ← slot lambda
  let l ← check fun m => m.store.heap.cast Lambda v
  modifyHeap fun h => h.put v { l with code, constants, maxHeight := assembly.maxHeight }

/-- Have the compiler make the code of a lambda. -/
def compile (lambda : Value) : Op RunError Unit := inScope do
  let lambda ← root lambda
  match ← ask fun m => m.compiler with
  | none => Action.fail .notCompiled
  | some compiler => do
    let argc ← check fun m => do
      let l ← m.store.heap.cast Lambda (m.references.slot lambda)
      pure l.argc
    report .debug fun _ => s!"compiling lambda/{argc}"
    let assembly ← retrying do
      let v ← slot lambda
      onStore (compiler v)
    let constants ← rootAll assembly.constants.toList
    retrying (installing assembly lambda constants)

end Machine

end ObjectMachine
