/-
# ObjectMachine.Code.Assembly -- from drafts to units

An assembly grows by one draft at a time. Constants are pooled: a value that is already in the
pool keeps its position. The height of the operand stack is followed along the straight line of
the code, and its maximum is what a frame of the code needs; a jump does not reset it.

A jump to a label that has no offset yet is written with target 0 and patched where the label is
defined.
-/
import ObjectMachine.Code.Draft

namespace ObjectMachine

/-- A buffer of code under construction, together with its constants. -/
structure Assembly where
  units : Array UInt16 := #[]
  constants : Array Value := #[]
  /-- Operand height at this point of the straight line. -/
  height : Nat := 0
  maxHeight : Nat := 0
  deriving DecidableEq, Inhabited

namespace Assembly

/-- The offset of what is emitted next. -/
def offset (a : Assembly) : UInt16 := UInt16.ofNat a.units.size

/-- The position of a constant in the pool, which takes it in if it is new. -/
def constant (a : Assembly) (v : Value) : Except Violation (UInt16 × Assembly) :=
  if v.isSignal then
    .error (.signalStored .constants)
  else
    match a.constants.findIdx? (· == v) with
    | some index => .ok (UInt16.ofNat index, a)
    | none =>
      let index := a.constants.size
      .ok (UInt16.ofNat index, { a with constants := a.constants.push v })

/-- Append an instruction that takes `pops` operands and leaves `pushes`. -/
def emit (a : Assembly) (instruction : Instruction) (pops pushes : Nat) : Assembly :=
  let height := a.height - pops + pushes
  { a with units := a.units ++ instruction.units.toArray
           height
           maxHeight := max a.maxHeight height }

/-- Write the offset of what is emitted next over the unit at `position`. -/
def patch (a : Assembly) (position : Nat) : Assembly :=
  { a with units := a.units.setIfInBounds position a.offset }

end Assembly

/-- An assembly together with its labels. -/
structure Assembler where
  assembly : Assembly := {}
  /-- Offsets of the labels defined so far, the latest definition first. -/
  labels : List (String × UInt16) := []
  /-- Operands of jumps to labels that are not defined yet. -/
  pending : List (String × Nat) := []
  deriving Inhabited

namespace Assembler

/-- Define a label here, and patch the jumps that wait for it. -/
def define (a : Assembler) (name : String) : Assembler :=
  let (waiting, pending) := a.pending.partition (fun jump => jump.1 == name)
  { assembly := waiting.foldl (fun assembly jump => assembly.patch jump.2) a.assembly
    labels := (name, a.assembly.offset) :: a.labels
    pending }

/-- Pool the constants of a draft. -/
def pool (assembly : Assembly) (draft : Draft Value) :
    Except Violation (Draft UInt16 × Assembly) :=
  (draft.traverse (m := StateT Assembly (Except Violation))
    fun v assembly => assembly.constant v).run assembly

/-- Append one draft. -/
def step (a : Assembler) (draft : Draft Value) : Except Violation Assembler :=
  match draft with
  | .label name => .ok (a.define name)
  | draft => do
    let known := draft.target?.bind fun label => List.lookup label a.labels
    let (pooled, assembly) ← pool a.assembly draft
    match pooled.instruction? (UInt16.ofNat assembly.height) (known.getD 0) with
    | none => pure { a with assembly }
    | some instruction =>
      let assembly := assembly.emit instruction draft.pops draft.pushes
      match draft.target?, known with
      | some label, none =>
        pure { a with assembly, pending := (label, assembly.units.size - 1) :: a.pending }
      | _, _ => pure { a with assembly }

/-- Append drafts in order. -/
def run (a : Assembler) (drafts : List (Draft Value)) : Except Violation Assembler :=
  drafts.foldlM step a

end Assembler

namespace Assembly

/-- Assemble drafts from nothing. -/
def ofDrafts (drafts : List (Draft Value)) : Except Violation Assembly := do
  let assembler ← Assembler.run {} drafts
  pure assembler.assembly

end Assembly

end ObjectMachine
