/-
# ObjectMachine.Code.Opcode -- the instruction set

Code is a sequence of 16-bit units. An instruction is one opcode unit followed by a number
of operand units that the opcode alone decides. Units 21, 22 and everything from 42 on are
unassigned. `ofUnit?_eq_some_iff` says that the numbering is inverted exactly.
-/

namespace ObjectMachine

/-- The operation of an instruction. -/
inductive Opcode where
  /-- Push a constant. -/
  | push
  /-- Pop the result and return it to the caller. -/
  | ret
  /-- Push the toplevel binding of a name. -/
  | global
  /-- Call the lambda below the top `argc` values. -/
  | call
  /-- Drop values from under the top one. -/
  | slap
  /-- Push an argument of the current frame; the last one pushed is number 0. -/
  | argument
  | pushVoid
  | pushNull
  | pushTrue
  | pushFalse
  /-- Drop the top values. -/
  | pop
  /-- Pop a condition and jump if it is true. -/
  | ifTrue
  | goto
  /-- Send a message to the receiver below the top `argc` values. -/
  | invoke
  /-- Run a native function on a receiver and its arguments, push the result. -/
  | builtin
  /-- Pop values into a tuple. -/
  | tuple
  /-- Pop strings and push their concatenation. -/
  | concat
  | loadLocal
  /-- Check the number of operands of the current frame. -/
  | checkHeight
  /-- Push a captured value. -/
  | outer
  /-- Pop captured values into a copy of a lambda. -/
  | closure
  /-- Raise a condition with the top `argc` values. -/
  | raise
  /-- Push a marker with a table of handlers. -/
  | mark
  /-- Pop the innermost marker. -/
  | unmark
  /-- Pop field values and a protocol into a fresh instance. -/
  | new
  | loadField
  | storeField
  /-- Replace a lambda by a task that will run it. -/
  | task
  /-- Hand the top value to the task that attached this one. -/
  | yield
  | storeLocal
  /-- Continue a task. -/
  | attach
  /-- Push the argument bound to a keyword. -/
  | keyword
  /-- Send to the next less specific method. -/
  | invokeSuper
  | swap
  /-- Pop a condition and jump unless it is true. -/
  | ifFalse
  /-- Replace the top value by a forwarder to it. -/
  | newForwarder
  /-- Pop the final target of a forwarder. -/
  | bindForwarder
  /-- Replace the top value by a cell holding it. -/
  | newCell
  /-- Replace a cell by its contents. -/
  | loadCell
  /-- Pop a value into a cell. -/
  | storeCell
  deriving DecidableEq, Inhabited

namespace Opcode

/-- The unit of an opcode. -/
def unit : Opcode → UInt16
  | push => 0
  | ret => 1
  | global => 2
  | call => 3
  | slap => 4
  | argument => 5
  | pushVoid => 6
  | pushNull => 7
  | pushTrue => 8
  | pushFalse => 9
  | pop => 10
  | ifTrue => 11
  | goto => 12
  | invoke => 13
  | builtin => 14
  | tuple => 15
  | concat => 16
  | loadLocal => 17
  | checkHeight => 18
  | outer => 19
  | closure => 20
  | raise => 23
  | mark => 24
  | unmark => 25
  | new => 26
  | loadField => 27
  | storeField => 28
  | task => 29
  | yield => 30
  | storeLocal => 31
  | attach => 32
  | keyword => 33
  | invokeSuper => 34
  | swap => 35
  | ifFalse => 36
  | newForwarder => 37
  | bindForwarder => 38
  | newCell => 39
  | loadCell => 40
  | storeCell => 41

/-- The opcode of a unit, if the unit is assigned. -/
def ofUnit? (u : UInt16) : Option Opcode :=
  match u.toNat with
  | 0 => some push
  | 1 => some ret
  | 2 => some global
  | 3 => some call
  | 4 => some slap
  | 5 => some argument
  | 6 => some pushVoid
  | 7 => some pushNull
  | 8 => some pushTrue
  | 9 => some pushFalse
  | 10 => some pop
  | 11 => some ifTrue
  | 12 => some goto
  | 13 => some invoke
  | 14 => some builtin
  | 15 => some tuple
  | 16 => some concat
  | 17 => some loadLocal
  | 18 => some checkHeight
  | 19 => some outer
  | 20 => some closure
  | 23 => some raise
  | 24 => some mark
  | 25 => some unmark
  | 26 => some new
  | 27 => some loadField
  | 28 => some storeField
  | 29 => some task
  | 30 => some yield
  | 31 => some storeLocal
  | 32 => some attach
  | 33 => some keyword
  | 34 => some invokeSuper
  | 35 => some swap
  | 36 => some ifFalse
  | 37 => some newForwarder
  | 38 => some bindForwarder
  | 39 => some newCell
  | 40 => some loadCell
  | 41 => some storeCell
  | _ => none

theorem ofUnit?_unit (op : Opcode) : ofUnit? op.unit = some op := by
  cases op <;> rfl

theorem ofUnit?_eq_some_iff {u : UInt16} {op : Opcode} : ofUnit? u = some op ↔ u = op.unit := by
  constructor
  · intro found
    unfold ofUnit? at found
    split at found <;> cases found <;> exact UInt16.toNat_inj.mp (by assumption)
  · rintro rfl
    exact ofUnit?_unit op

/-- The number of operand units. -/
def argc : Opcode → Nat
  | ret | pushVoid | pushNull | pushTrue | pushFalse | unmark | task | yield | attach | swap
    | bindForwarder | newCell | loadCell | storeCell => 0
  | builtin | closure | raise | loadField | storeField => 2
  | invoke => 3
  | invokeSuper => 4
  | _ => 1

/-- The number of units of an instruction. -/
def size (op : Opcode) : Nat := op.argc + 1

/-- The name of an opcode in diagnostics. -/
def name : Opcode → String
  | push => "Push"
  | ret => "Return"
  | global => "Global"
  | call => "Call"
  | slap => "Slap"
  | argument => "Argument"
  | pushVoid => "Void"
  | pushNull => "Null"
  | pushTrue => "True"
  | pushFalse => "False"
  | pop => "Pop"
  | ifTrue => "IfTrue"
  | goto => "Goto"
  | invoke => "Invoke"
  | builtin => "Builtin"
  | tuple => "Tuple"
  | concat => "Concat"
  | loadLocal => "LoadLocal"
  | checkHeight => "CheckHeight"
  | outer => "Outer"
  | closure => "Closure"
  | raise => "Raise"
  | mark => "Mark"
  | unmark => "Unmark"
  | new => "New"
  | loadField => "LoadField"
  | storeField => "StoreField"
  | task => "Task"
  | yield => "Yield"
  | storeLocal => "StoreLocal"
  | attach => "Attach"
  | keyword => "Keyword"
  | invokeSuper => "InvokeSuper"
  | swap => "Swap"
  | ifFalse => "IfFalse"
  | newForwarder => "NewForwarder"
  | bindForwarder => "BindForwarder"
  | newCell => "NewCell"
  | loadCell => "LoadCell"
  | storeCell => "StoreCell"

end Opcode

end ObjectMachine
