/-
# ObjectMachine.Proofs.Emissions -- the code that drafts stand for

What code a list of drafts stands for is said here without an assembler. `Draft.emissions` lays the
drafts out one behind the other and looks every label up, ahead or behind, and `Draft.Writes` says
which instruction a draft is written as, operand by operand.

* `Draft.emissionsFrom_disjoint` -- no two drafts share a unit.
* `Draft.labelsFrom_starts` -- a label stands where the next draft is written, or at the end.
* `Draft.decodeFrom_emissions` -- units in which every draft has been written are read back as such.
-/
import Mathlib
import ObjectMachine.Code.Assembly

namespace ObjectMachine

open List (mem_append mem_singleton)

namespace Draft

variable {ν : Type}

/-- Units that a draft is written as. -/
def size : Draft ν → Nat
  | label _ | pool _ => 0
  | ret | pushVoid | pushNull | pushTrue | pushFalse | unmark | task | yield | attach | swap
  | bindForwarder | newCell | loadCell | storeCell => 1
  | builtin _ _ | closure _ _ | raise _ _ | loadField _ _ | storeField _ _ => 3
  | invoke _ _ _ => 4
  | invokeSuper _ _ _ _ => 5
  | _ => 2

/-- The constants of a draft, in the order they are pooled. -/
def constants : Draft ν → List ν
  | push v | global v | mark v | pool v | closure v _ | raise v _ | new v _ => [v]
  | invoke selector _ keymap => [selector, keymap]
  | invokeSuper selector _ keymap signature => [selector, keymap, signature]
  | _ => []

/-- The label that a draft defines. -/
def label? : Draft ν → Option String
  | label name => some name
  | _ => none

/-- Operands after a draft that has found `height` of them, as they are counted. -/
def heightAfter (height : Nat) (d : Draft ν) : Nat := height - d.pops + d.pushes

/-- Where the labels of drafts are that are laid out from `offset` on. -/
def labelsFrom (offset : Nat) : List (Draft ν) → List (String × Nat)
  | [] => []
  | d :: rest => d.label?.toList.map (·, offset) ++ labelsFrom (offset + d.size) rest

/-- How a draft is written, operand by operand. `pooled` says which positions of the pool stand for
a constant, and `place` which targets for a label. -/
inductive Writes (pooled : ν → UInt16 → Prop) (place : String → UInt16 → Prop) (height : UInt16) :
    Draft ν → Instruction → Prop
  | push {v : ν} {index : UInt16} (isPooled : pooled v index) :
    Writes pooled place height (.push v) (.push index)
  | ret : Writes pooled place height .ret .ret
  | global {v : ν} {index : UInt16} (isPooled : pooled v index) :
    Writes pooled place height (.global v) (.global index)
  | call {argc : UInt16} : Writes pooled place height (.call argc) (.call argc)
  | slap {count : UInt16} : Writes pooled place height (.slap count) (.slap count)
  | argument {index : UInt16} : Writes pooled place height (.argument index) (.argument index)
  | pushVoid : Writes pooled place height .pushVoid .pushVoid
  | pushNull : Writes pooled place height .pushNull .pushNull
  | pushTrue : Writes pooled place height .pushTrue .pushTrue
  | pushFalse : Writes pooled place height .pushFalse .pushFalse
  | pop {count : UInt16} : Writes pooled place height (.pop count) (.pop count)
  | ifTrue {name : String} {target : UInt16} (isPlace : place name target) :
    Writes pooled place height (.ifTrue name) (.ifTrue target)
  | ifFalse {name : String} {target : UInt16} (isPlace : place name target) :
    Writes pooled place height (.ifFalse name) (.ifFalse target)
  | goto {name : String} {target : UInt16} (isPlace : place name target) :
    Writes pooled place height (.goto name) (.goto target)
  | gotoOffset {target : UInt16} : Writes pooled place height (.gotoOffset target) (.goto target)
  | invoke {selector keymap : ν} {argc index map : UInt16} (isPooled : pooled selector index)
      (isPooled' : pooled keymap map) :
    Writes pooled place height (.invoke selector argc keymap) (.invoke index argc map)
  | invokeSuper {selector keymap signature : ν} {argc index map types : UInt16}
      (isPooled : pooled selector index) (isPooled' : pooled keymap map)
      (isPooled'' : pooled signature types) :
    Writes pooled place height (.invokeSuper selector argc keymap signature)
      (.invokeSuper index argc map types)
  | builtin {argc index : UInt16} : Writes pooled place height (.builtin argc index) (.builtin argc index)
  | tuple {length : UInt16} : Writes pooled place height (.tuple length) (.tuple length)
  | concat {terms : UInt16} : Writes pooled place height (.concat terms) (.concat terms)
  | loadLocal {index : UInt16} : Writes pooled place height (.loadLocal index) (.loadLocal index)
  | storeLocal {index : UInt16} : Writes pooled place height (.storeLocal index) (.storeLocal index)
  | checkHeight : Writes pooled place height .checkHeight (.checkHeight height)
  | outer {index : UInt16} : Writes pooled place height (.outer index) (.outer index)
  | closure {v : ν} {index count : UInt16} (isPooled : pooled v index) :
    Writes pooled place height (.closure v count) (.closure index count)
  | raise {v : ν} {index argc : UInt16} (isPooled : pooled v index) :
    Writes pooled place height (.raise v argc) (.raise index argc)
  | mark {v : ν} {index : UInt16} (isPooled : pooled v index) :
    Writes pooled place height (.mark v) (.mark index)
  | unmark : Writes pooled place height .unmark .unmark
  | new {v : ν} {index : UInt16} {fields : Nat} (isPooled : pooled v index) :
    Writes pooled place height (.new v fields) (.new index)
  | loadField {index argc : UInt16} :
    Writes pooled place height (.loadField index argc) (.loadField index argc)
  | storeField {index argc : UInt16} :
    Writes pooled place height (.storeField index argc) (.storeField index argc)
  | task : Writes pooled place height .task .task
  | yield : Writes pooled place height .yield .yield
  | attach : Writes pooled place height .attach .attach
  | keyword {index : UInt16} : Writes pooled place height (.keyword index) (.keyword index)
  | swap : Writes pooled place height .swap .swap
  | newForwarder {kind : UInt16} : Writes pooled place height (.newForwarder kind) (.newForwarder kind)
  | bindForwarder : Writes pooled place height .bindForwarder .bindForwarder
  | newCell : Writes pooled place height .newCell .newCell
  | loadCell : Writes pooled place height .loadCell .loadCell
  | storeCell : Writes pooled place height .storeCell .storeCell

namespace Writes

variable {pooled pooled' : ν → UInt16 → Prop} {place place' : String → UInt16 → Prop}
  {height : UInt16} {d : Draft ν} {i : Instruction}

variable (writes : d.Writes pooled place height i)
include writes

theorem size_eq : i.size = d.size := by
  cases writes <;> rfl

theorem mono (pools : ∀ v ∈ d.constants, ∀ index, pooled v index → pooled' v index)
    (places : ∀ name target, d.target? = some name → place name target → place' name target) :
    d.Writes pooled' place' height i := by
  cases writes <;> constructor <;> first
    | exact pools _ (by simp [constants]) _ (by assumption)
    | exact places _ _ rfl (by assumption)

/-- A jump can be given another target, which is its second unit. -/
theorem aim {name : String} (jumps : d.target? = some name) (target : UInt16) :
    ∃ i', d.Writes pooled (fun _ t => t = target) height i' ∧
      i'.units = [i.opcode.unit, target] := by
  cases writes <;> cases jumps
  · exact ⟨_, .ifTrue rfl, rfl⟩
  · exact ⟨_, .ifFalse rfl, rfl⟩
  · exact ⟨_, .goto rfl, rfl⟩

end Writes

theorem size_of_jump {d : Draft ν} {name : String} (jumps : d.target? = some name) :
    d.size = 2 := by
  cases d <;> cases jumps <;> rfl

/-- A draft with its place in the code, the operands counted before it, and the offset that the
label of a jump stands for. -/
structure Emission (ν : Type) where
  offset : Nat
  height : Nat
  draft : Draft ν
  target : Option Nat

/-- The drafts that are written, laid out from `offset` on. `known` are the labels before them. -/
def emissionsFrom (known : List (String × Nat)) (offset height : Nat) : List (Draft ν) → List (Emission ν)
  | [] => []
  | d :: rest =>
    let target := d.target?.bind fun name =>
      (known.lookup name).or ((labelsFrom (offset + d.size) rest).lookup name)
    (if d.size = 0 then [] else [{ offset, height, draft := d, target }]) ++
      emissionsFrom (d.label?.toList.map (·, offset) ++ known) (offset + d.size) (d.heightAfter height) rest

/-- The drafts that are written. -/
def emissions (drafts : List (Draft ν)) : List (Emission ν) := emissionsFrom [] 0 0 drafts

/-- Units of drafts together. -/
def totalSize (drafts : List (Draft ν)) : Nat := (drafts.map size).sum

/-- Operands after drafts, as they are counted. -/
def countedHeight (drafts : List (Draft ν)) : Nat := drafts.foldl heightAfter 0

section Layout

variable {known : List (String × Nat)} {offset height : Nat} {before after : List (Draft ν)}
variable {labels : List (String × Nat)}

theorem labelsFrom_append : labelsFrom offset (before ++ after) =
    labelsFrom offset before ++ labelsFrom (offset + totalSize before) after := by
  induction before generalizing offset with
  | nil => simp [labelsFrom, totalSize]
  | cons d rest ih => simp [labelsFrom, totalSize, ih, Nat.add_assoc]

/-- What an emission knows once further labels have been found. -/
def Emission.resolve (labels : List (String × Nat)) (e : Emission ν) : Emission ν :=
  { e with target := e.target.or (e.draft.target?.bind fun name => labels.lookup name) }

theorem emissionsFrom_append : emissionsFrom known offset height (before ++ after) =
    (emissionsFrom known offset height before).map
        (Emission.resolve (labelsFrom (offset + totalSize before) after)) ++
      emissionsFrom ((labelsFrom offset before).reverse ++ known) (offset + totalSize before)
        (before.foldl heightAfter height) after := by
  induction before generalizing known offset height with
  | nil => simp [emissionsFrom, labelsFrom, totalSize]
  | cons d rest ih =>
    have labels : ∀ name, List.lookup name (labelsFrom (offset + d.size) (rest ++ after)) =
        (List.lookup name (labelsFrom (offset + d.size) rest)).or
          (List.lookup name (labelsFrom (offset + totalSize (d :: rest)) after)) := by
      intro name
      rw [labelsFrom_append, List.lookup_append, totalSize, totalSize, List.map_cons, List.sum_cons,
        Nat.add_assoc]
    have total : totalSize (d :: rest) = d.size + totalSize rest := rfl
    have single : ∀ o : Option String, (o.toList.map (·, offset)).reverse = o.toList.map (·, offset) := by
      rintro (_ | _) <;> rfl
    simp only [List.cons_append, emissionsFrom, ih, List.map_append, List.foldl_cons, labels, total,
      labelsFrom, List.reverse_append, List.append_assoc, ← Nat.add_assoc, single]
    congr 1
    split
    · rfl
    · cases isTarget : d.target? <;> simp [Emission.resolve, isTarget, Option.or_assoc]

variable {e e' : Emission ν}

section

variable (mem : e ∈ emissionsFrom known offset height before)
include mem

theorem emissionsFrom_bounds :
    offset ≤ e.offset ∧ 0 < e.draft.size ∧ e.offset + e.draft.size ≤ offset + totalSize before := by
  induction before generalizing known offset height with
  | nil => cases mem
  | cons d rest ih =>
    have total : totalSize (d :: rest) = d.size + totalSize rest := rfl
    simp only [emissionsFrom, mem_append] at mem
    rw [total]
    obtain here | later := mem
    · split at here
      · cases here
      · rename_i written
        cases mem_singleton.mp here
        exact ⟨Nat.le_refl _, Nat.pos_of_ne_zero written, by simp only; omega⟩
    · have := ih later
      omega

/-- Two emissions do not overlap. -/
theorem emissionsFrom_disjoint (mem' : e' ∈ emissionsFrom known offset height before)
    (differ : e ≠ e') :
    e.offset + e.draft.size ≤ e'.offset ∨ e'.offset + e'.draft.size ≤ e.offset := by
  induction before generalizing known offset height with
  | nil => cases mem
  | cons d rest ih =>
    simp only [emissionsFrom, mem_append] at mem mem'
    obtain here | later := mem <;> obtain here' | later' := mem'
    · split at here
      · cases here
      · rw [if_neg (by assumption)] at here'
        cases mem_singleton.mp here
        exact absurd (mem_singleton.mp here').symm differ
    · split at here
      · cases here
      · cases mem_singleton.mp here
        exact .inl (emissionsFrom_bounds later').1
    · split at here'
      · cases here'
      · cases mem_singleton.mp here'
        exact .inr (emissionsFrom_bounds later).1
    · exact ih later later'

theorem mem_of_emissionsFrom : e.draft ∈ before := by
  induction before generalizing known offset height with
  | nil => cases mem
  | cons d rest ih =>
    simp only [emissionsFrom, mem_append] at mem
    obtain here | later := mem
    · split at here
      · cases here
      · cases mem_singleton.mp here
        exact List.mem_cons_self
    · exact List.mem_cons_of_mem _ (ih later)

end

/-! ## Labels -/

variable {name : String} {position : Nat}

theorem labelsFrom_names : (labelsFrom offset before).map Prod.fst = before.filterMap label? := by
  induction before generalizing offset with
  | nil => rfl
  | cons d rest ih =>
    cases isLabel : d.label? <;> simp [labelsFrom, isLabel, ih]

theorem labelsFrom_le (mem : (name, position) ∈ labelsFrom offset before) :
    position ≤ offset + totalSize before := by
  induction before generalizing offset with
  | nil => cases mem
  | cons d rest ih =>
    have total : totalSize (d :: rest) = d.size + totalSize rest := rfl
    simp only [labelsFrom, mem_append, List.mem_map, Prod.mk.injEq] at mem
    obtain ⟨-, -, -, rfl⟩ | later := mem
    · omega
    · have := ih later
      omega

/-- A label that is defined once is at one offset. -/
theorem labelsFrom_unique (offset : Nat) (once : (before.filterMap label?).count name = 1) :
    ∃ place, ∀ position, (name, position) ∈ labelsFrom offset before ↔ position = place := by
  induction before generalizing offset with
  | nil => cases once
  | cons d rest ih =>
    by_cases here : d.label? = some name
    · have nowhere : name ∉ rest.filterMap label? := by
        rw [← List.count_eq_zero]
        simpa [here] using once
      refine ⟨offset, fun position => ?_⟩
      have absent : (name, position) ∉ labelsFrom (offset + d.size) rest := fun mem =>
        nowhere (labelsFrom_names ▸ List.mem_map_of_mem mem)
      simp [labelsFrom, here, absent]
    · have later : (rest.filterMap label?).count name = 1 := by
        cases isLabel : d.label? with
        | none => simpa [isLabel] using once
        | some other =>
          have differs : other ≠ name := fun same => here (same ▸ isLabel)
          simpa [isLabel, differs] using once
      obtain ⟨place, isPlace⟩ := ih (offset + d.size) later
      refine ⟨place, fun position => ?_⟩
      rw [← isPlace]
      cases isLabel : d.label? with
      | none => simp [labelsFrom, isLabel]
      | some other =>
        have differs : name ≠ other := fun same => here (same ▸ isLabel)
        simp [labelsFrom, isLabel, differs]

/-- The first draft that is written is written at the start. -/
theorem emissionsFrom_starts (known : List (String × Nat))
    (offset height : Nat) (drafts : List (Draft ν)) :
    totalSize drafts = 0 ∨ ∃ e ∈ emissionsFrom known offset height drafts, e.offset = offset := by
  induction drafts generalizing known offset height with
  | nil => exact .inl rfl
  | cons d rest ih =>
    have total : totalSize (d :: rest) = d.size + totalSize rest := rfl
    by_cases silent : d.size = 0
    · have := ih (d.label?.toList.map (·, offset) ++ known) (offset + d.size) (d.heightAfter height)
      simpa [emissionsFrom, silent, total] using this
    · rw [emissionsFrom, if_neg silent]
      exact .inr ⟨_, List.mem_append_left _ (List.mem_singleton_self _), rfl⟩

/-- A label stands where a draft is written, or at the end. -/
theorem labelsFrom_starts (known : List (String × Nat)) (height : Nat)
    (mem : (name, position) ∈ labelsFrom offset before) : position = offset + totalSize before ∨
      ∃ e ∈ emissionsFrom known offset height before, e.offset = position := by
  induction before generalizing known offset height with
  | nil => cases mem
  | cons d rest ih =>
    have total : totalSize (d :: rest) = d.size + totalSize rest := rfl
    simp only [labelsFrom, mem_append, List.mem_map, Prod.mk.injEq] at mem
    obtain ⟨-, -, -, rfl⟩ | later := mem
    · obtain empty | found := emissionsFrom_starts known offset height (d :: rest)
      · exact .inl (by omega)
      · exact .inr found
    · simp only [emissionsFrom, mem_append]
      obtain atEnd | ⟨e, mem, isOffset⟩ :=
        ih (d.label?.toList.map (·, offset) ++ known) (d.heightAfter height) later
      · exact .inl (by omega)
      · exact .inr ⟨e, .inr mem, isOffset⟩

theorem mem_of_lookup (found : labels.lookup name = some position) : (name, position) ∈ labels := by
  obtain ⟨first, last, rfl, -⟩ := List.lookup_eq_some_iff.mp found
  simp

theorem not_mem_of_lookup (none : labels.lookup name = none) : (name, position) ∉ labels := fun mem => by
  simpa using List.lookup_eq_none_iff.mp none _ mem

/-- The target of a jump is where its label is, unless there is no such label. -/
theorem emissionsFrom_target (mem : e ∈ emissionsFrom known offset height before)
    (jumps : e.draft.target? = some name) :
    (∃ place, e.target = some place ∧
      ((name, place) ∈ known ∨ (name, place) ∈ labelsFrom offset before)) ∨
      ∀ place, (name, place) ∉ known ∧ (name, place) ∉ labelsFrom offset before := by
  induction before generalizing known offset height with
  | nil => cases mem
  | cons d rest ih =>
    simp only [emissionsFrom, mem_append] at mem
    have split : ∀ place, (name, place) ∈ labelsFrom offset (d :: rest) ↔
        (name, place) ∈ d.label?.toList.map (·, offset) ∨
          (name, place) ∈ labelsFrom (offset + d.size) rest := fun place => mem_append
    obtain here | later := mem
    · split at here
      · cases here
      cases mem_singleton.mp here
      have jumps : d.target? = some name := jumps
      have notLabel : d.label? = none := by
        cases d <;> first | rfl | cases jumps
      simp only [split, notLabel, jumps, Option.bind_some, Option.toList_none, List.map_nil,
        List.not_mem_nil, false_or]
      cases behind : known.lookup name with
      | some place => exact .inl ⟨place, rfl, .inl (mem_of_lookup behind)⟩
      | none =>
        cases ahead : (labelsFrom (offset + d.size) rest).lookup name with
        | some place => exact .inl ⟨place, rfl, .inr (mem_of_lookup ahead)⟩
        | none => exact .inr fun place => ⟨not_mem_of_lookup behind, not_mem_of_lookup ahead⟩
    · simp only [split]
      obtain ⟨place, isTarget, mem | mem⟩ | nowhere := ih later
      · obtain here | before := mem_append.mp mem
        · exact .inl ⟨place, isTarget, .inr (.inl here)⟩
        · exact .inl ⟨place, isTarget, .inl before⟩
      · exact .inl ⟨place, isTarget, .inr (.inr mem)⟩
      · refine .inr fun place => ⟨fun mem => (nowhere place).1 (List.mem_append_right _ mem), ?_⟩
        rintro (here | later)
        · exact (nowhere place).1 (List.mem_append_left _ here)
        · exact (nowhere place).2 later

end Layout

end Draft

namespace Instruction

variable {i : Instruction} {units : Array UInt16} {offset : Nat}

/-- The units from `offset` on are those of the instruction. -/
def LiesAt (i : Instruction) (units : Array UInt16) (offset : Nat) : Prop :=
  ∀ j, j < i.size → units[offset + j]? = i.units[j]?

theorem units_length (i : Instruction) : i.units.length = i.size := by
  rw [units, List.length_cons, operands_length, size, Opcode.size]

theorem ofOperands_congr {op : Opcode}
    {operand operand' : Nat → UInt16} (same : ∀ j, j < op.argc → operand j = operand' j) :
    ofOperands op operand = ofOperands op operand' := by
  cases op <;> simp only [ofOperands] <;> congr 1 <;> exact same _ (by decide)

theorem LiesAt.size_le (lies : i.LiesAt units offset) : offset + i.size ≤ units.size := by
  have positive := i.size_pos
  have last := lies (i.size - 1) (by omega)
  rw [List.getElem?_eq_getElem (by rw [units_length]; omega)] at last
  have := (Array.getElem?_eq_some_iff.mp last).1
  omega

theorem LiesAt.decodeAt (lies : i.LiesAt units offset) : decodeAt units offset = .ok i := by
  have isOpcode : units[offset]? = some i.opcode.unit := lies 0 i.size_pos
  have fits : offset + i.opcode.size ≤ units.size := lies.size_le
  have operand : ∀ j, j < i.opcode.argc → units.getD (offset + 1 + j) 0 = i.operands.getD j 0 := by
    intro j inside
    have := lies (j + 1) (by simp only [size, Opcode.size]; omega)
    rw [Instruction.units, List.getElem?_cons_succ, Nat.add_comm j, ← Nat.add_assoc] at this
    rw [Array.getD_eq_getD_getElem?, this, List.getD_eq_getElem?_getD]
  simp only [Instruction.decodeAt, isOpcode, Opcode.ofUnit?_unit]
  rw [if_pos fits, ofOperands_congr operand, ofOperands_operands]

end Instruction

namespace Draft

variable {ν : Type}

/-- An emission has been written into units. -/
def Emission.WrittenIn (e : Emission ν) (pooled : ν → UInt16 → Prop) (units : Array UInt16) : Prop :=
  ∃ i : Instruction, i.LiesAt units e.offset ∧
    e.draft.Writes pooled (fun _ target => target = UInt16.ofNat (e.target.getD 0)) (UInt16.ofNat e.height) i

/-- Units in which everything has been written are read back as what was written. -/
theorem decodeFrom_emissions {units : Array UInt16} {written : Emission ν → Instruction → Prop}
    (sized : ∀ e i, written e i → i.size = e.draft.size)
    {known : List (String × Nat)} {offset height : Nat} {drafts : List (Draft ν)}
    (lies : ∀ e ∈ emissionsFrom known offset height drafts, ∃ i, i.LiesAt units e.offset ∧
      written e i) (ends : offset + totalSize drafts = units.size) :
    (Instruction.decodeFrom units offset).finish = .ok units.size ∧
      List.Forall₂ (fun e line => line.1 = e.offset ∧ written e line.2)
      (emissionsFrom known offset height drafts) (Instruction.decodeFrom units offset).lines := by
  induction drafts generalizing known offset height with
  | nil =>
    have atEnd : offset = units.size := ends
    rw [Instruction.decodeFrom]
    simp [atEnd, emissionsFrom]
  | cons d rest ih =>
    have total : totalSize (d :: rest) = d.size + totalSize rest := rfl
    simp only [emissionsFrom, mem_append] at lies ⊢
    have rest := ih (fun e mem => lies e (.inr mem)) (by omega)
    by_cases silent : d.size = 0
    · simpa [silent] using rest
    · rw [if_neg silent] at lies ⊢
      obtain ⟨i, liesHere, isWritten⟩ := lies _ (.inl (mem_singleton.mpr rfl))
      have isSize : i.size = d.size := sized _ _ isWritten
      have inside : offset < units.size := by omega
      rw [Instruction.decodeFrom, dif_pos inside, liesHere.decodeAt]
      simp only [isSize, List.singleton_append, List.forall₂_cons]
      exact ⟨rest.1, ⟨trivial, isWritten⟩, rest.2⟩

end Draft

end ObjectMachine
