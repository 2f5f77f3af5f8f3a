/-
# ObjectMachine.Code.Instruction -- decoded instructions

An instruction is an opcode together with its operands: indices into the constant pool,
counts, and absolute jump targets. `units` writes an instruction down, `decodeAt` reads one
back, and `decode` reads a whole buffer until it ends or is malformed.

* `operands_length` -- an instruction carries as many operands as its opcode declares.
* `ofOperands_operands` -- reading the operands of an instruction gives the instruction.
-/
import ObjectMachine.Fault

namespace ObjectMachine

/-- One instruction. -/
inductive Instruction where
  | push (index : UInt16)
  | ret
  | global (name : UInt16)
  | call (argc : UInt16)
  | slap (height : UInt16)
  | argument (index : UInt16)
  | pushVoid
  | pushNull
  | pushTrue
  | pushFalse
  | pop (height : UInt16)
  | ifTrue (target : UInt16)
  | goto (target : UInt16)
  | invoke (selector argc keymap : UInt16)
  | builtin (argc index : UInt16)
  | tuple (length : UInt16)
  | concat (terms : UInt16)
  | loadLocal (index : UInt16)
  | checkHeight (expected : UInt16)
  | outer (index : UInt16)
  | closure (template count : UInt16)
  | raise (name argc : UInt16)
  | mark (handlers : UInt16)
  | unmark
  | new (template : UInt16)
  | loadField (index argc : UInt16)
  | storeField (index argc : UInt16)
  | task
  | yield
  | storeLocal (index : UInt16)
  | attach
  | keyword (index : UInt16)
  | invokeSuper (selector argc keymap signature : UInt16)
  | swap
  | ifFalse (target : UInt16)
  | newForwarder (kind : UInt16)
  | bindForwarder
  | newCell
  | loadCell
  | storeCell
  deriving DecidableEq, Inhabited

namespace Instruction

/-- The operation an instruction performs. -/
def opcode : Instruction → Opcode
  | push _ => .push
  | ret => .ret
  | global _ => .global
  | call _ => .call
  | slap _ => .slap
  | argument _ => .argument
  | pushVoid => .pushVoid
  | pushNull => .pushNull
  | pushTrue => .pushTrue
  | pushFalse => .pushFalse
  | pop _ => .pop
  | ifTrue _ => .ifTrue
  | goto _ => .goto
  | invoke _ _ _ => .invoke
  | builtin _ _ => .builtin
  | tuple _ => .tuple
  | concat _ => .concat
  | loadLocal _ => .loadLocal
  | checkHeight _ => .checkHeight
  | outer _ => .outer
  | closure _ _ => .closure
  | raise _ _ => .raise
  | mark _ => .mark
  | unmark => .unmark
  | new _ => .new
  | loadField _ _ => .loadField
  | storeField _ _ => .storeField
  | task => .task
  | yield => .yield
  | storeLocal _ => .storeLocal
  | attach => .attach
  | keyword _ => .keyword
  | invokeSuper _ _ _ _ => .invokeSuper
  | swap => .swap
  | ifFalse _ => .ifFalse
  | newForwarder _ => .newForwarder
  | bindForwarder => .bindForwarder
  | newCell => .newCell
  | loadCell => .loadCell
  | storeCell => .storeCell

/-- The operands of an instruction, in the order of their units. -/
def operands : Instruction → List UInt16
  | push index => [index]
  | global name => [name]
  | call argc => [argc]
  | slap height => [height]
  | argument index => [index]
  | pop height => [height]
  | ifTrue target => [target]
  | goto target => [target]
  | invoke selector argc keymap => [selector, argc, keymap]
  | builtin argc index => [argc, index]
  | tuple length => [length]
  | concat terms => [terms]
  | loadLocal index => [index]
  | checkHeight expected => [expected]
  | outer index => [index]
  | closure template count => [template, count]
  | raise name argc => [name, argc]
  | mark handlers => [handlers]
  | new template => [template]
  | loadField index argc => [index, argc]
  | storeField index argc => [index, argc]
  | storeLocal index => [index]
  | keyword index => [index]
  | invokeSuper selector argc keymap signature => [selector, argc, keymap, signature]
  | ifFalse target => [target]
  | newForwarder kind => [kind]
  | _ => []

/-- The instruction of an opcode whose operand number `i` is `operand i`. -/
def ofOperands (op : Opcode) (operand : Nat → UInt16) : Instruction :=
  match op with
  | .push => .push (operand 0)
  | .ret => .ret
  | .global => .global (operand 0)
  | .call => .call (operand 0)
  | .slap => .slap (operand 0)
  | .argument => .argument (operand 0)
  | .pushVoid => .pushVoid
  | .pushNull => .pushNull
  | .pushTrue => .pushTrue
  | .pushFalse => .pushFalse
  | .pop => .pop (operand 0)
  | .ifTrue => .ifTrue (operand 0)
  | .goto => .goto (operand 0)
  | .invoke => .invoke (operand 0) (operand 1) (operand 2)
  | .builtin => .builtin (operand 0) (operand 1)
  | .tuple => .tuple (operand 0)
  | .concat => .concat (operand 0)
  | .loadLocal => .loadLocal (operand 0)
  | .checkHeight => .checkHeight (operand 0)
  | .outer => .outer (operand 0)
  | .closure => .closure (operand 0) (operand 1)
  | .raise => .raise (operand 0) (operand 1)
  | .mark => .mark (operand 0)
  | .unmark => .unmark
  | .new => .new (operand 0)
  | .loadField => .loadField (operand 0) (operand 1)
  | .storeField => .storeField (operand 0) (operand 1)
  | .task => .task
  | .yield => .yield
  | .storeLocal => .storeLocal (operand 0)
  | .attach => .attach
  | .keyword => .keyword (operand 0)
  | .invokeSuper => .invokeSuper (operand 0) (operand 1) (operand 2) (operand 3)
  | .swap => .swap
  | .ifFalse => .ifFalse (operand 0)
  | .newForwarder => .newForwarder (operand 0)
  | .bindForwarder => .bindForwarder
  | .newCell => .newCell
  | .loadCell => .loadCell
  | .storeCell => .storeCell

/-- The number of units of an instruction. -/
def size (i : Instruction) : Nat := i.opcode.size

/-- The units an instruction is written as. -/
def units (i : Instruction) : List UInt16 := i.opcode.unit :: i.operands

theorem operands_length (i : Instruction) : i.operands.length = i.opcode.argc := by
  cases i <;> rfl

theorem ofOperands_operands (i : Instruction) :
    ofOperands i.opcode (fun n => i.operands.getD n 0) = i := by
  cases i <;> rfl

theorem opcode_ofOperands (op : Opcode) (operand : Nat → UInt16) :
    (ofOperands op operand).opcode = op := by
  cases op <;> rfl

theorem size_pos (i : Instruction) : 0 < i.size := Nat.succ_pos _

/-- The text of an instruction. Constants are marked `#` and targets `@`. -/
def text : Instruction → String
  | push index => s!"push #{index}"
  | ret => "return"
  | global name => s!"global #{name}"
  | call argc => s!"call {argc}"
  | slap height => s!"slap {height}"
  | argument index => s!"argument {index}"
  | pushVoid => "void"
  | pushNull => "null"
  | pushTrue => "true"
  | pushFalse => "false"
  | pop height => s!"pop {height}"
  | ifTrue target => s!"if_true @{target}"
  | goto target => s!"goto @{target}"
  | invoke selector argc keymap => s!"invoke #{selector} {argc} #{keymap}"
  | builtin argc index => s!"builtin {argc} {index}"
  | tuple length => s!"tuple {length}"
  | concat terms => s!"concat {terms}"
  | loadLocal index => s!"load_local {index}"
  | checkHeight expected => s!"check_height {expected}"
  | outer index => s!"outer {index}"
  | closure template count => s!"closure #{template} {count}"
  | raise name argc => s!"raise #{name} {argc}"
  | mark handlers => s!"mark #{handlers}"
  | unmark => "unmark"
  | new template => s!"new #{template}"
  | loadField index argc => s!"load_field {index} {argc}"
  | storeField index argc => s!"store_field {index} {argc}"
  | task => "task"
  | yield => "yield"
  | storeLocal index => s!"store_local {index}"
  | attach => "attach"
  | keyword index => s!"keyword {index}"
  | invokeSuper selector argc keymap signature => s!"invoke_super #{selector} {argc} #{keymap} #{signature}"
  | swap => "swap"
  | ifFalse target => s!"if_false @{target}"
  | newForwarder kind => s!"new_forwarder {kind}"
  | bindForwarder => "bind_forwarder"
  | newCell => "new_cell"
  | loadCell => "load_cell"
  | storeCell => "store_cell"

/-- Read the instruction that starts at unit `pc`. -/
def decodeAt (code : Array UInt16) (pc : Nat) : Except Violation Instruction :=
  match code[pc]? with
  | none => .error (.indexOutOfBounds code.size pc)
  | some unit =>
    match Opcode.ofUnit? unit with
    | none => .error (.unassignedOpcode unit pc)
    | some op =>
      if pc + op.size ≤ code.size then
        .ok (ofOperands op (fun i => code.getD (pc + 1 + i) 0))
      else
        .error (.truncatedInstruction op pc)

/-- What reading a buffer of code gives: the instructions with their offsets, and how the
reading ended, at an offset or by a malformed instruction. -/
structure Listing where
  lines : List (Nat × Instruction)
  finish : Except Violation Nat

/-- Read the instructions from unit `pc` to the end of the buffer. -/
def decodeFrom (code : Array UInt16) (pc : Nat) : Listing :=
  if _ : pc < code.size then
    match decodeAt code pc with
    | .error violation => ⟨[], .error violation⟩
    | .ok instruction =>
      have := instruction.size_pos
      let rest := decodeFrom code (pc + instruction.size)
      ⟨(pc, instruction) :: rest.lines, rest.finish⟩
  else
    ⟨[], .ok pc⟩
termination_by code.size - pc

/-- Read a buffer of code from its start. -/
def decode (code : Array UInt16) : Listing := decodeFrom code 0

end Instruction

end ObjectMachine
