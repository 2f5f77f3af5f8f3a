/-
# ObjectMachine.Code.Draft -- instructions before assembly

A draft names its constants directly and its jump targets by label. The operand type `ν` is
what stands for a constant: a value for a program that is about to be assembled, a position in
the constant pool once the constants have been pooled.

`pops` and `pushes` say how a drafted instruction changes the height of the operand stack.
-/
import ObjectMachine.Code.Instruction

namespace ObjectMachine

/-- An instruction with its constants in place, or what stands between instructions. -/
inductive Draft (ν : Type) where
  | push (constant : ν)
  | ret
  | global (name : ν)
  | call (argc : UInt16)
  | slap (height : UInt16)
  | argument (index : UInt16)
  | pushVoid
  | pushNull
  | pushTrue
  | pushFalse
  | pop (height : UInt16)
  | ifTrue (target : String)
  | ifFalse (target : String)
  | goto (target : String)
  /-- Jumps to an offset that is known already. -/
  | gotoOffset (target : UInt16)
  /-- Emits nothing and names the offset of what follows. -/
  | label (name : String)
  /-- Emits nothing and takes a value into the pool. -/
  | pool (value : ν)
  | invoke (selector : ν) (argc : UInt16) (keymap : ν)
  | invokeSuper (selector : ν) (argc : UInt16) (keymap signature : ν)
  | builtin (argc index : UInt16)
  | tuple (length : UInt16)
  | concat (terms : UInt16)
  | loadLocal (index : UInt16)
  | storeLocal (index : UInt16)
  /-- Checks the height that the assembler has counted so far. -/
  | checkHeight
  | outer (index : UInt16)
  | closure (template : ν) (count : UInt16)
  | raise (name : ν) (argc : UInt16)
  | mark (handlers : ν)
  | unmark
  /-- Makes an instance from the `fields` values above its protocol. -/
  | new (template : ν) (fields : Nat)
  | loadField (index argc : UInt16)
  | storeField (index argc : UInt16)
  | task
  | yield
  | attach
  | keyword (index : UInt16)
  | swap
  | newForwarder (kind : UInt16)
  | bindForwarder
  | newCell
  | loadCell
  | storeCell
  deriving Inhabited

namespace Draft

variable {ν μ : Type}

/-- Replace the constants, from left to right. -/
def traverse {m : Type → Type} [Monad m] (f : ν → m μ) : Draft ν → m (Draft μ)
  | push constant => do pure (push (← f constant))
  | ret => pure ret
  | global name => do pure (global (← f name))
  | call argc => pure (call argc)
  | slap height => pure (slap height)
  | argument index => pure (argument index)
  | pushVoid => pure pushVoid
  | pushNull => pure pushNull
  | pushTrue => pure pushTrue
  | pushFalse => pure pushFalse
  | pop height => pure (pop height)
  | ifTrue target => pure (ifTrue target)
  | ifFalse target => pure (ifFalse target)
  | goto target => pure (goto target)
  | gotoOffset target => pure (gotoOffset target)
  | label name => pure (label name)
  | pool value => do pure (pool (← f value))
  | invoke selector argc keymap => do
    let selector ← f selector
    let keymap ← f keymap
    pure (invoke selector argc keymap)
  | invokeSuper selector argc keymap signature => do
    let selector ← f selector
    let keymap ← f keymap
    let signature ← f signature
    pure (invokeSuper selector argc keymap signature)
  | builtin argc index => pure (builtin argc index)
  | tuple length => pure (tuple length)
  | concat terms => pure (concat terms)
  | loadLocal index => pure (loadLocal index)
  | storeLocal index => pure (storeLocal index)
  | checkHeight => pure checkHeight
  | outer index => pure (outer index)
  | closure template count => do pure (closure (← f template) count)
  | raise name argc => do pure (raise (← f name) argc)
  | mark handlers => do pure (mark (← f handlers))
  | unmark => pure unmark
  | new template fields => do pure (new (← f template) fields)
  | loadField index argc => pure (loadField index argc)
  | storeField index argc => pure (storeField index argc)
  | task => pure task
  | yield => pure yield
  | attach => pure attach
  | keyword index => pure (keyword index)
  | swap => pure swap
  | newForwarder kind => pure (newForwarder kind)
  | bindForwarder => pure bindForwarder
  | newCell => pure newCell
  | loadCell => pure loadCell
  | storeCell => pure storeCell

/-- Operands an instruction takes off the stack. -/
def pops : Draft ν → Nat
  | ret => 1
  | slap height => height.toNat + 1
  | pop height => height.toNat
  | ifTrue _ | ifFalse _ => 1
  | tuple length => length.toNat
  | concat terms => terms.toNat
  | storeLocal _ => 1
  | closure _ count => count.toNat
  | unmark => 2
  | new _ fields => fields + 1
  | storeField _ _ => 1
  | task | yield | attach => 1
  | swap => 2
  | newForwarder _ => 1
  | bindForwarder => 2
  | newCell | loadCell => 1
  | storeCell => 2
  | _ => 0

/-- Operands an instruction puts on the stack after that. -/
def pushes : Draft ν → Nat
  | push _ | global _ | argument _ | pushVoid | pushNull | pushTrue | pushFalse => 1
  | slap _ => 1
  | builtin _ _ | tuple _ | concat _ | loadLocal _ | storeLocal _ | outer _ | closure _ _ => 1
  | mark _ => 2
  | new _ _ | loadField _ _ | storeField _ _ | task | yield | attach | keyword _ => 1
  | swap => 2
  | newForwarder _ | bindForwarder | newCell | loadCell | storeCell => 1
  | _ => 0

/-- The label an instruction jumps to. -/
def target? : Draft ν → Option String
  | ifTrue target | ifFalse target | goto target => some target
  | _ => none

/-- The instruction for a draft with pooled constants, at a given height and with a given jump
target. What emits nothing has none. -/
def instruction? (height target : UInt16) : Draft UInt16 → Option Instruction
  | push constant => some (.push constant)
  | ret => some .ret
  | global name => some (.global name)
  | call argc => some (.call argc)
  | slap height => some (.slap height)
  | argument index => some (.argument index)
  | pushVoid => some .pushVoid
  | pushNull => some .pushNull
  | pushTrue => some .pushTrue
  | pushFalse => some .pushFalse
  | pop height => some (.pop height)
  | ifTrue _ => some (.ifTrue target)
  | ifFalse _ => some (.ifFalse target)
  | goto _ => some (.goto target)
  | gotoOffset target => some (.goto target)
  | label _ | pool _ => none
  | invoke selector argc keymap => some (.invoke selector argc keymap)
  | invokeSuper selector argc keymap signature =>
    some (.invokeSuper selector argc keymap signature)
  | builtin argc index => some (.builtin argc index)
  | tuple length => some (.tuple length)
  | concat terms => some (.concat terms)
  | loadLocal index => some (.loadLocal index)
  | storeLocal index => some (.storeLocal index)
  | checkHeight => some (.checkHeight height)
  | outer index => some (.outer index)
  | closure template count => some (.closure template count)
  | raise name argc => some (.raise name argc)
  | mark handlers => some (.mark handlers)
  | unmark => some .unmark
  | new template _ => some (.new template)
  | loadField index argc => some (.loadField index argc)
  | storeField index argc => some (.storeField index argc)
  | task => some .task
  | yield => some .yield
  | attach => some .attach
  | keyword index => some (.keyword index)
  | swap => some .swap
  | newForwarder kind => some (.newForwarder kind)
  | bindForwarder => some .bindForwarder
  | newCell => some .newCell
  | loadCell => some .loadCell
  | storeCell => some .storeCell

end Draft

end ObjectMachine
