/-
# ObjectMachine.Session.Programs -- steps that look methods up and run code

The constants of a program are evaluated first, all of them, before any of it is assembled. A
conditional jump only goes forward.
-/
import ObjectMachine.Session.Objects

namespace ObjectMachine

namespace Session

/-- Whether a draft is a conditional jump to a label that has been defined before it. -/
def branchesBack (assembler : Assembler) : Draft Value → Bool
  | .ifTrue target | .ifFalse target => (List.lookup target assembler.labels).isSome
  | _ => false

/-- Append drafts one by one, and answer the assembler after each. -/
def assembleAll : Assembler → List (Draft Value) → Work (List Assembler)
  | _, [] => pure []
  | assembler, draft :: rest => do
    if branchesBack assembler draft then
      malformed
    else
      let next ← check fun _ => assembler.step draft
      let later ← assembleAll next rest
      pure (next :: later)

/-- Assemble a program whose constants are evaluated first, and answer the assembler after each
draft. -/
def assembleProgram (code : Option Program) : Work (List Assembler) := do
  let program ← need code
  let held ← program.mapM fun draft => draft.traverse eval
  let drafts ← held.mapM fun draft => draft.traverse slot
  assembleAll {} drafts

/-- What has been assembled after all steps. -/
def finalAssembly (steps : List Assembler) : Assembly := (steps.getLast?.getD {}).assembly

/-- Show how a program was assembled. -/
def buildReport (steps : List Assembler) : Work Answer := do
  let progress := steps.map fun a =>
    (a.assembly.offset, a.assembly.height, a.assembly.maxHeight)
  let last := finalAssembly steps
  pure (.assembly progress last.units.toList (← shownAll 3 last.constants.toList))

/-- A constant of a program that a compiler makes for the lambda with the given source. Terms that
have no counterpart there stand for the source. -/
def compiledConstant (source : Value) : Term → Alloc Value
  | .int n =>
    match Value.ofInt? n with
    | some v => pure v
    | none => Action.violate (.smallIntegerRange n)
  | .string content => Make.string content
  | .null => Store.ask fun s => s.roots.null
  | .bool truth => Store.ask fun s => s.boolean truth
  | _ => pure source

/-- The compiler that makes the same program for every lambda. -/
def compilerFor (program : Program) : Compiler := fun lambda => do
  let l ← Store.check fun s => s.heap.cast Lambda lambda
  let drafts ← program.mapM fun draft => draft.traverse (compiledConstant l.source)
  Action.check (Assembly.ofDrafts drafts)

/-- What a lambda looks like from outside. -/
def lambdaReport (lambda : Nat) : Work Answer := do
  let l ← dataAt Lambda lambda
  let outers ← renderAt 3 l.outers
  let source ← renderAt 3 l.source
  let context ← renderAt 1 l.context
  let code ← match ← ask fun m => m.store.heap.view? Code l.code with
    | none => pure none
    | some code => do
      let constants ← checkHeap fun h => h.tupleElements l.constants
      pure (some (code.units.toList, ← shownAll 3 constants.toList))
  pure (.lambda { argc := l.argc, maxHeight := l.maxHeight, outers, source, context, code })

/-- The name of the method that a search has found. -/
def foundMethod (found : Option Value) : Work (Option String) :=
  match found with
  | some method => nameOf? method
  | none => pure none

/-- Instructions that a call may take. -/
def budget : Work Nat := fun s => .ok s.budget s

/-- Carry out a step that looks a method up. -/
def lookUp : Command → Work Answer
  | .layoutOf value => do
    let v ← slot (← eval value)
    let layout ← check fun m => m.store.layoutOf v
    pure (.layout layout.kind (← renderAt 1 layout.protocol))
  | .distance value protocol => do
    let v ← slot (← eval value)
    let target ← slot (← evalAs Protocol protocol)
    let layout ← check fun m => m.store.layoutOf v
    pure (.optional (← checkHeap fun h => h.distance layout target))
  | .score signature arguments => do
    let signature ← evalAs Signature signature
    let arguments ← values (← evalList arguments)
    let signature ← slot signature
    pure (.optional (← check fun m => m.store.score signature arguments))
  | .search selector arguments minScore => do
    let selector ← evalAs Selector selector
    let arguments ← values (← evalList arguments)
    let selector ← slot selector
    let minScore ← need minScore
    let search ← check fun m => Search.run m.store minScore selector arguments
    let method ← foundMethod (search.best.map Prod.snd)
    pure (.search (search.best.map Prod.fst) search.ambiguous method)
  | .lookup selector arguments => do
    let selector ← evalAs Selector selector
    let arguments ← values (← evalList arguments)
    let selector ← slot selector
    pure (.method (← foundMethod (← check fun m => m.store.lookup selector arguments)))
  | .lookupSuper selector arguments signature => do
    let selector ← evalAs Selector selector
    let arguments ← evalList arguments
    let current ← slot (← evalAs Signature signature)
    let arguments ← values arguments
    let selector ← slot selector
    pure (.method
      (← foundMethod (← check fun m => m.store.lookupSuper selector arguments current)))
  | _ => malformed

/-- Carry out a step that makes or runs code. -/
def runCode (name : Option String) : Command → Work Answer
  | .build code => do buildReport (← assembleProgram code)
  | .lambda code argc => do
    let steps ← assembleProgram code
    let argc ← need argc
    named name (← operate (Machine.assemble (finalAssembly steps) argc))
  | .rawLambda units constants argc maxHeight => do
    let units ← need units
    let constants ← evalList constants
    let argc ← need argc
    let maxHeight ← need maxHeight
    made name do
      let values ← Machine.slots constants
      let roots ← Machine.ask fun m => m.store.roots
      let code ← Make.code units.toArray
      let constants ← Make.tuple values
      Make.lambda
        { argc, maxHeight, code, constants, outers := roots.emptyTuple,
          context := roots.emptyContext, source := roots.null }
  | .lazyLambda source argc => do
    let source ← slot (← eval source)
    let argc ← need argc
    named name (← operate (Machine.uncompiledLambda argc source))
  | .setCompiler code signal => do
    let program ← need code
    let compiler : Compiler ← match ← need signal with
      | some signal => pure fun _ => Action.fail signal
      | none => pure (compilerFor program)
    fun s => .ok .done { s with machine := { s.machine with compiler := some compiler } }
  | .lambdaInfo lambda => do lambdaReport (← evalAs Lambda lambda)
  | .call lambda arguments => do
    let lambda ← evalAs Lambda lambda
    let arguments ← values (← evalList arguments)
    let lambda ← slot lambda
    named name (← operate (Machine.call (← budget) lambda arguments))
  | .defineGlobal value label => do
    let v ← slot (← eval value)
    let label ← need label
    operate (Machine.defineGlobal label v)
    mapSize (← ask fun m => m.store.roots.toplevel)
  | .global label => do
    let label ← need label
    match ← check fun m => m.global? label with
    | some v => named name v
    | none => pure .nothing
  | .runEntry label => do
    let label ← need label
    named name (← operate (Machine.runEntryPoint (← budget) label))
  | .builtin this arguments index => do
    let this ← eval this
    let arguments ← evalList arguments
    match Builtin.ofIndex? (← need index) with
    | none => malformed
    | some builtin =>
      made name do
        builtin.run { this := ← Machine.slot this, arguments := ← Machine.slots arguments }
  | .request receiver selector arguments => do
    let receiver ← need receiver
    let selector ← need selector
    let arguments ← need arguments
    let request : Request := { receiver, selector, arguments }
    pure (.plain (← operate (Machine.handle (← budget) request)))
  | .importPlain value => do
    let value ← need value
    named name (← operate (Machine.importPlain value))
  | .exportPlain value => do
    let v ← slot (← eval value)
    pure (.plain (← check fun m => m.exportPlain v))
  | _ => malformed

end Session

end ObjectMachine
