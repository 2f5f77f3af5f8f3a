/-
# ObjectMachine.Proofs.Heights -- the operands of a piece of code

Code is followed along its instructions and jumps, counting operands. `HeightAt units fields pc n`
says that some path from the start arrives at `pc` with `n` operands. Code is `Disciplined` under a
declared height if every instruction on such a path finds the operands it works on in its own frame
and leaves no more than the declared height.

How many operands `new` takes is not in the code but in the layout behind a constant: `fields` gives
it, and `Disciplined.mono` says that the discipline outlives a growing knowledge of layouts.

* `Disciplined.height_le` -- a path never has more operands than declared.
* `Disciplined.ofTable` -- a table of heights that is closed under the instructions shows the
  discipline.
-/
import Mathlib
import ObjectMachine.Code.Instruction
import ObjectMachine.Growth

namespace ObjectMachine

open Instruction (decodeAt)

namespace Instruction

variable (fields : UInt16 → Option Nat)

/-- Operands an instruction reads or replaces. The answer to a call replaces the topmost of them,
and so does the answer to a condition: without an argument it needs an operand all the same. -/
def needs : Instruction → Nat
  | call argc | invoke _ argc _ | invokeSuper _ argc _ _ | builtin argc _ => argc.toNat + 1
  | raise _ argc => max argc.toNat 1
  | slap height => height.toNat + 1
  | pop height => height.toNat
  | tuple count | concat count | closure _ count => count.toNat
  | new template => (fields template).getD 0 + 1
  | ret | ifTrue _ | ifFalse _ | storeLocal _ | storeField _ _ | task | yield | attach
  | newForwarder _ | newCell | loadCell => 1
  | unmark | swap | bindForwarder | storeCell => 2
  | _ => 0

/-- Operands after an instruction that has started with `n`. A call has then been answered. -/
def leaves (n : Nat) : Instruction → Nat
  | push _ | global _ | argument _ | pushVoid | pushNull | pushTrue | pushFalse | builtin _ _
  | loadLocal _ | outer _ | loadField _ _ | keyword _ => n + 1
  | slap height | pop height => n - height.toNat
  | tuple count | concat count | closure _ count => n - count.toNat + 1
  | new template => n - (fields template).getD 0
  | ifTrue _ | ifFalse _ | bindForwarder | storeCell => n - 1
  | mark _ => n + 2
  | unmark => n - 2
  | _ => n

/-- Whether the instruction behind this one may be next. -/
def goesOn : Instruction → Bool
  | ret | goto _ => false
  | _ => true

/-- Where an instruction may jump to. -/
def targets : Instruction → List UInt16
  | ifTrue target | ifFalse target | goto target => [target]
  | _ => []

end Instruction

/-- A path through the code arrives at `pc` with `n` operands. -/
inductive HeightAt (units : Array UInt16) (fields : UInt16 → Option Nat) : Nat → Nat → Prop
  | entry : HeightAt units fields 0 0
  | next {pc n : Nat} {i : Instruction} (here : HeightAt units fields pc n)
      (found : decodeAt units pc = .ok i) (goesOn : i.goesOn = true) :
      HeightAt units fields (pc + i.size) (i.leaves fields n)
  | jump {pc n : Nat} {i : Instruction} {target : UInt16} (here : HeightAt units fields pc n)
      (found : decodeAt units pc = .ok i) (jumps : target ∈ i.targets) :
      HeightAt units fields target.toNat (i.leaves fields n)

/-- Code that stays within its own frame and within `maxHeight` operands on every path. -/
structure Disciplined (units : Array UInt16) (fields : UInt16 → Option Nat) (maxHeight : Nat) :
    Prop where
  short : units.size < Size.limit
  needs : ∀ pc n i, HeightAt units fields pc n → decodeAt units pc = .ok i → i.needs fields ≤ n
  leaves : ∀ pc n i, HeightAt units fields pc n → decodeAt units pc = .ok i → i.leaves fields n ≤ maxHeight
  layouts : ∀ pc n template, HeightAt units fields pc n →
    decodeAt units pc = .ok (.new template) → (fields template).isSome

namespace Instruction

variable {fields fields' : UInt16 → Option Nat} {i : Instruction}

/-- The rest of a buffer is as long as the instruction that was read from it. -/
theorem add_size_le {units : Array UInt16} {pc : Nat} (found : decodeAt units pc = .ok i) :
    pc + i.size ≤ units.size := by
  unfold decodeAt at found
  split at found
  · cases found
  · split at found
    · cases found
    · rename_i op isOp
      split at found
      · rename_i fits
        cases found
        rwa [size, opcode_ofOperands]
      · cases found

theorem needs_congr (same : ∀ template, i = .new template → fields template = fields' template) :
    i.needs fields = i.needs fields' := by
  cases i with
  | new template => exact congrArg (fun count => count.getD 0 + 1) (same template rfl)
  | _ => rfl

theorem leaves_congr (same : ∀ template, i = .new template → fields template = fields' template)
    (n : Nat) : i.leaves fields n = i.leaves fields' n := by
  cases i with
  | new template => exact congrArg (fun count => n - count.getD 0) (same template rfl)
  | _ => rfl

end Instruction

namespace Disciplined

variable {units : Array UInt16} {fields fields' : UInt16 → Option Nat} {maxHeight pc n : Nat}

theorem height_le (disciplined : Disciplined units fields maxHeight)
    (here : HeightAt units fields pc n) : n ≤ maxHeight := by
  cases here with
  | entry => exact Nat.zero_le _
  | next here found _ => exact disciplined.leaves _ _ _ here found
  | jump here found _ => exact disciplined.leaves _ _ _ here found

section Knowledge

variable (disciplined : Disciplined units fields maxHeight)
  (more : ∀ template count, fields template = some count → fields' template = some count)

include disciplined more

theorem fields_eq (here : HeightAt units fields pc n) {i : Instruction}
    (found : decodeAt units pc = .ok i) (template : UInt16) (isNew : i = .new template) :
    fields template = fields' template := by
  subst isNew
  obtain ⟨count, known⟩ := Option.isSome_iff_exists.mp (disciplined.layouts _ _ _ here found)
  rw [known, more _ _ known]

/-- Knowing more layouts opens no path and closes none. -/
theorem heightAt_iff : HeightAt units fields' pc n ↔ HeightAt units fields pc n := by
  constructor
  · intro here
    induction here with
    | entry => exact .entry
    | next _ found goesOn ih =>
      rw [← Instruction.leaves_congr (disciplined.fields_eq more ih found)]
      exact .next ih found goesOn
    | jump _ found jumps ih =>
      rw [← Instruction.leaves_congr (disciplined.fields_eq more ih found)]
      exact .jump ih found jumps
  · intro here
    induction here with
    | entry => exact .entry
    | next here found goesOn ih =>
      rw [Instruction.leaves_congr (disciplined.fields_eq more here found)]
      exact .next ih found goesOn
    | jump here found jumps ih =>
      rw [Instruction.leaves_congr (disciplined.fields_eq more here found)]
      exact .jump ih found jumps

theorem mono : Disciplined units fields' maxHeight where
  short := disciplined.short
  needs := by
    intro pc n i here found
    have here := (disciplined.heightAt_iff more).mp here
    rw [← Instruction.needs_congr (disciplined.fields_eq more here found)]
    exact disciplined.needs pc n i here found
  leaves := by
    intro pc n i here found
    have here := (disciplined.heightAt_iff more).mp here
    rw [← Instruction.leaves_congr (disciplined.fields_eq more here found)]
    exact disciplined.leaves pc n i here found
  layouts := by
    intro pc n template here found
    have here := (disciplined.heightAt_iff more).mp here
    rw [← disciplined.fields_eq more here found template rfl]
    exact disciplined.layouts pc n template here found

end Knowledge

/-- An entry of a table of heights agrees with the instruction it stands at: the instruction finds
its operands, and whatever may be next has an entry. -/
def Agrees (units : Array UInt16) (fields : UInt16 → Option Nat) (maxHeight : Nat)
    (table : List (Nat × Nat)) (pc n : Nat) : Bool :=
  match decodeAt units pc with
  | .error _ => true
  | .ok i =>
    let after := i.leaves fields n
    decide (i.needs fields ≤ n) && decide (after ≤ maxHeight) &&
      (!i.goesOn || table.contains (pc + i.size, after)) &&
      i.targets.all (fun target => table.contains (target.toNat, after)) &&
      (match i with
        | .new template => (fields template).isSome
        | _ => true)

theorem ofTable (table : List (Nat × Nat))
    (short : units.size < Size.limit) (starts : (0, 0) ∈ table)
    (closed : ∀ entry ∈ table, Agrees units fields maxHeight table entry.1 entry.2 = true) :
    Disciplined units fields maxHeight := by
  have listed : ∀ {pc n}, HeightAt units fields pc n → (pc, n) ∈ table := by
    intro pc n here
    induction here with
    | entry => exact starts
    | next here found goesOn ih =>
      have agrees := closed _ ih
      simp only [Agrees, found, goesOn] at agrees
      simp_all
    | jump here found jumps ih =>
      have agrees := closed _ ih
      simp only [Agrees, found] at agrees
      simp_all
  refine ⟨short, fun pc n i here found => ?_, fun pc n i here found => ?_,
    fun pc n template here found => ?_⟩ <;>
  · have agrees := closed _ (listed here)
    simp only [Agrees, found] at agrees
    simp_all

end Disciplined


end ObjectMachine
