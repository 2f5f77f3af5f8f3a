/-
# ObjectMachine.Builtin -- what programs cannot do themselves

A builtin works on a receiver and its arguments, looking through forwarders. Integer builtins
compute with 64 bits and answer small integers, which have 63. A result that does not fit either is
a fatal error; nothing wraps around.
-/
import ObjectMachine.Forwarding
import ObjectMachine.Machine.Basic
import ObjectMachine.Rendering

namespace ObjectMachine

/-- The receiver and the arguments of a builtin, in the order they were pushed. -/
structure Builtin.Call where
  this : Value
  arguments : Array Value

/-- A function that instructions name by number. The receiver does not count as an argument. -/
structure Builtin where
  index : UInt16
  name : String
  argc : Nat
  run : Builtin.Call → Op Signal Value

namespace Builtin

namespace Call

/-- The argument at a position. -/
def argument (call : Call) (index : Nat) : Except Violation Value :=
  match call.arguments[index]? with
  | some v => .ok v
  | none => .error (.indexOutOfBounds call.arguments.size index)

end Call

/-- An integer of 64 bits. Others have no machine word. -/
def wide? (n : Int) : Option Int := if -0x8000000000000000 ≤ n ∧ n < 0x8000000000000000 then some n else none

/-- The quotient of two integers of 64 bits, rounded toward zero. -/
def quotient? (a b : Int) : Option Int := if b = 0 then none else wide? (a.tdiv b)

/-- The value of a result that is there and fits, or a fatal error. -/
def smallInteger (result : Option Int) : Alloc Value :=
  match result.bind Value.ofInt? with
  | some v => pure v
  | none => Action.fail .fatalError

/-- A builtin on two integers. -/
def onIntegers (call : Call) (answer : Int → Int → Alloc Value) : Alloc Value := do
  let a ← Store.narrowInt call.this
  let b ← Store.narrowInt (← call.argument 0)
  answer a b

/-- The singleton of a truth value. -/
def boolean (truth : Bool) : Alloc Value := Store.ask fun s => s.boolean truth

/-- The number of characters of a string. -/
def stringLength (call : Call) : Alloc Value := do
  let (_, text) ← Store.narrow Text call.this
  pure (.ofNat text.content.length)

/-- Whether two strings have the same characters. -/
def stringEq (call : Call) : Alloc Value := do
  let (_, a) ← Store.narrow Text call.this
  let (_, b) ← Store.narrow Text (← call.argument 0)
  boolean (a.content == b.content)

/-- One string with the characters of several. -/
def concatStrings (terms : List Value) : Alloc Value := do
  let texts ← terms.mapM fun term => do
    let (_, text) ← Store.narrow Text term
    pure text.content
  Make.string (String.join texts)

/-- A string followed by another. -/
def stringPlus (call : Call) : Alloc Value := do
  concatStrings [call.this, ← call.argument 0]

/-- The sum of two integers. -/
def integerPlus (call : Call) : Alloc Value :=
  onIntegers call fun a b => smallInteger (wide? (a + b))

/-- The difference of two integers. -/
def integerMinus (call : Call) : Alloc Value :=
  onIntegers call fun a b => smallInteger (wide? (a - b))

/-- The product of two integers. -/
def integerTimes (call : Call) : Alloc Value :=
  onIntegers call fun a b => smallInteger (wide? (a * b))

/-- The quotient of two integers, rounded toward zero. -/
def integerDivide (call : Call) : Alloc Value :=
  onIntegers call fun a b => smallInteger (quotient? a b)

/-- The magnitude of an integer. -/
def integerAbs (call : Call) : Alloc Value := do
  let a ← Store.narrowInt call.this
  smallInteger (wide? a.natAbs)

/-- Whether an integer is less than another. -/
def integerLess (call : Call) : Alloc Value := onIntegers call fun a b => boolean (decide (a < b))

/-- Whether two values are equal. -/
def objectEq (call : Call) : Alloc Value := do
  let that ← call.argument 0
  boolean (← Store.check fun s => s.heap.equal call.this that)

/-- The text of a value. -/
def objectToString (call : Call) : Alloc Value := do
  Make.string (← Store.check fun s => s.heap.display call.this)

/-- The number of elements of a tuple. -/
def tupleLength (call : Call) : Alloc Value := do
  let (_, t) ← Store.narrow Tuple call.this
  pure (.ofNat t.elements.size)

/-- An element of a tuple. -/
def tupleGet (call : Call) : Alloc Value := do
  let (_, t) ← Store.narrow Tuple call.this
  let index ← Store.narrowInt (← call.argument 0)
  match if index < 0 then none else t.elements[index.toNat]? with
  | some element => pure element
  | none => Action.fail .nothing

/-- Always a fatal error. -/
def failing (_ : Call) : Alloc Value := Action.fail .fatalError

/-- Print a line with the text of a value. -/
def print (call : Call) : Op Signal Value := do
  let v ← call.argument 0
  let text ← Machine.check fun m => m.store.heap.display v
  Machine.printLine text
  Machine.ask fun m => m.store.roots.void

/-- A builtin that works on the store alone. -/
def onStore (index : UInt16) (name : String) (argc : Nat) (run : Call → Alloc Value) : Builtin :=
  { index, name, argc, run := fun call => run call }

/-- All builtins. -/
def all : List Builtin :=
  [onStore 0 "string_length" 0 stringLength, onStore 1 "string_eq" 1 stringEq,
    onStore 2 "string_plus" 1 stringPlus, onStore 10 "integer_plus" 1 integerPlus,
    onStore 11 "integer_minus" 1 integerMinus, onStore 12 "integer_times" 1 integerTimes,
    onStore 13 "integer_divide" 1 integerDivide, onStore 14 "integer_abs" 0 integerAbs,
    onStore 15 "integer_less" 1 integerLess, onStore 20 "object_eq" 1 objectEq,
    onStore 21 "object_to_string" 0 objectToString, onStore 30 "tuple_length" 0 tupleLength,
    onStore 31 "tuple_get" 1 tupleGet, onStore 100 "fail" 0 failing,
    { index := 101, name := "print", argc := 1, run := print }]

/-- The builtin with a number. -/
def ofIndex? (index : UInt16) : Option Builtin := all.find? fun builtin => builtin.index == index

end Builtin

end ObjectMachine
