/-
# ObjectMachine.Demo -- small programs

Programs that show what a machine does: arithmetic, joining strings, a recursive method that is
dispatched on integers, a task that hands out values, and a condition with its handler.
-/
import ObjectMachine.Channel

namespace ObjectMachine

/-- A program to run. -/
inductive Demo where
  | arithmetic
  | concat
  | fib
  | tasks
  | conditions
  deriving DecidableEq, Inhabited

namespace Demo

/-- All programs. -/
def all : List Demo := [arithmetic, concat, fib, tasks, conditions]

/-- The name of a program. -/
def name : Demo → String
  | arithmetic => "arithmetic"
  | concat => "concat"
  | fib => "fib"
  | tasks => "tasks"
  | conditions => "conditions"

/-- The name of a program in diagnostics. -/
def title : Demo → String
  | arithmetic => "Arithmetic"
  | concat => "Concat"
  | fib => "Fib"
  | tasks => "Tasks"
  | conditions => "Conditions"

/-- The program with a name. -/
def ofName? (text : String) : Option Demo := all.find? fun demo => demo.name == text

/-- A lambda from drafts. -/
def assemble (drafts : List (Draft Value)) (argc : Nat) : Op RunError Value := do
  Machine.assemble (← Assembly.ofDrafts drafts) argc

/-- An integer, which has to fit. -/
def integer (n : Int) : Except Violation Value :=
  match Value.ofInt? n with
  | some v => .ok v
  | none => .error (.smallIntegerRange n)

/-- Three plus four. -/
def buildArithmetic : Op RunError Value :=
  assemble [.push (.int 3), .push (.int 4), .builtin 1 10, .slap 2, .ret] 0

/-- Two strings joined. -/
def buildConcat : Op RunError Value := Machine.inScope do
  let a ← Machine.root (← Machine.retrying (Machine.onStore (Make.string "a")))
  let b ← Machine.root (← Machine.retrying (Machine.onStore (Make.string "b")))
  assemble [.push (← Machine.slot a), .push (← Machine.slot b), .concat 2, .ret] 0

/-- The body of the method `fib`: its receiver below two, and otherwise the sum of what the two
integers before the receiver answer. -/
def fibBody (selector positional : Value) : List (Draft Value) :=
  let before (step : Int) : List (Draft Value) :=
    [.argument 0, .push (.int step), .builtin 1 11, .slap 2, .invoke selector 0 positional]
  [.argument 0, .push (.int 2), .builtin 1 15, .slap 2, .ifFalse "recurse", .argument 0, .ret,
    .label "recurse"] ++ before 1 ++ before 2 ++ [.builtin 1 10, .slap 2, .ret]

/-- The protocol of integers. -/
def integerProtocol {ε : Type} : Op ε Value := Machine.check fun m => do
  let layout ← m.store.heap.cast Layout (m.store.roots.layout .smallInteger)
  pure layout.protocol

/-- The Fibonacci numbers as a method of integers, sent to `n`. -/
def buildFib (n : Int) : Op RunError Value := Machine.inScope do
  let selector ← Machine.root (← Machine.plainSelector "fib" 0)
  let positional ← Machine.ask fun m => m.store.roots.emptyTuple
  let lambda ← Machine.root (← assemble (fibBody (← Machine.slot selector) positional) 0)
  let method ← Machine.retrying do
    let protocol ← integerProtocol
    let signature ← Make.signature #[protocol]
    let selector ← Machine.slot selector
    Make.method selector signature (← Machine.slot lambda)
  Machine.addMethod (← integerProtocol) method
  let positional ← Machine.ask fun m => m.store.roots.emptyTuple
  let receiver ← integer n
  assemble [.push receiver, .invoke (← Machine.slot selector) 0 positional, .ret] 0

/-- A task that hands out one and two and returns three, attached to three times. -/
def buildTasks : Op RunError Value := do
  let handOut (n : Int) : List (Draft Value) := [.push (.int n), .yield, .pop 1]
  let generator ← assemble (handOut 1 ++ handOut 2 ++ [.push (.int 3), .ret]) 0
  let attachment : List (Draft Value) := [.loadLocal 0, .attach]
  assemble
    ([.push generator, .task] ++ attachment ++ attachment ++ attachment ++
      [.tuple 3, .slap 1, .ret]) 0

/-- A condition raised with `n`, and a handler that answers ten times as much. -/
def buildConditions (n : Int) : Op RunError Value := Machine.inScope do
  let handler ← Machine.root (← assemble
    [.argument 0, .push (.int 10), .builtin 1 12, .slap 2, .ret] 1)
  let name ← Machine.root (← Machine.retrying (Machine.onStore (Make.string "oops")))
  let table ← Machine.retrying do
    Make.tuple #[← Machine.slot name, ← Machine.slot handler]
  let argument ← integer n
  assemble
    [.pushNull, .mark table, .pushNull, .push argument, .raise (← Machine.slot name) 1, .slap 1,
      .storeLocal 0, .pop 1, .unmark, .ret] 0

/-- The lambda of a program. -/
def build (demo : Demo) (n : Int) : Op RunError Value :=
  match demo with
  | arithmetic => buildArithmetic
  | concat => buildConcat
  | fib => buildFib n
  | tasks => buildTasks
  | conditions => buildConditions n

/-- Give a program a global name, run it by that name, and answer the text of its answer. -/
def runAs (demo : Demo) (budget : Nat) (entry : String) (n : Int) : Op RunError String := do
  let program ← demo.build n
  Machine.defineGlobal entry program
  let answer ← Machine.runEntryPoint budget entry
  let text ← Machine.check fun m => m.store.heap.display answer
  let stats ← Machine.ask fun m => m.store.heap.stats
  Machine.report .info fun _ =>
    demo.title ++ s!" done, {stats.collections} collections, {stats.total} bytes copied"
  pure text

end Demo

end ObjectMachine
