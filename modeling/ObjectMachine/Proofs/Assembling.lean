/-
# ObjectMachine.Proofs.Assembling -- what an assembly says

`Proofs.Emissions` says what code drafts stand for. The assembler writes it in one pass: a jump to a
label that is still to come waits with target 0, and is patched when the label is defined.

`Assembler.Follows before a` is the invariant of that pass after the drafts `before`: the units hold
the instructions of what has been emitted, and the jumps that wait are those whose label is not
there.

* `Assembler.run_follows` -- the invariant holds after any drafts.
* `Assembly.ofDrafts_decodes` -- so the units are read back as what was emitted, operand by operand.
-/
import Mathlib
import ObjectMachine.Proofs.Emissions

namespace ObjectMachine

open Instruction (decode units_length)
open Draft (Emission countedHeight emissions emissionsFrom label? labelsFrom size_of_jump totalSize)

namespace Assembly

/-- A position of the pool that holds a constant, as it is written. -/
def Pooled (constants : Array Value) (v : Value) (index : UInt16) : Prop :=
  ∃ k, constants[k]? = some v ∧ index = UInt16.ofNat k

/-- What pooling constants does to an assembly. -/
structure TakesIn (a : Assembly) (values : List Value) (b : Assembly) : Prop where
  units : b.units = a.units
  height : b.height = a.height
  maxHeight : b.maxHeight = a.maxHeight
  kept : ∀ (k : Nat) v, a.constants[k]? = some v → b.constants[k]? = some v
  members : ∀ v ∈ b.constants, v ∈ a.constants ∨ v ∈ values
  distinct : a.constants.toList.Nodup → b.constants.toList.Nodup

variable {a b c : Assembly} {v : Value} {values more : List Value}

theorem TakesIn.refl (a : Assembly) : a.TakesIn [] a := ⟨rfl, rfl, rfl, fun _ _ => id, fun _ => .inl, id⟩

theorem TakesIn.trans (first : a.TakesIn values b) (second : b.TakesIn more c) :
    a.TakesIn (values ++ more) c where
  units := second.units.trans first.units
  height := second.height.trans first.height
  maxHeight := second.maxHeight.trans first.maxHeight
  kept k v found := second.kept k v (first.kept k v found)
  members v mem := by
    obtain mem | mem := second.members v mem
    · obtain mem | mem := first.members v mem
      · exact .inl mem
      · exact .inr (List.mem_append_left _ mem)
    · exact .inr (List.mem_append_right _ mem)
  distinct nodup := second.distinct (first.distinct nodup)

theorem TakesIn.pooled (takes : a.TakesIn values b) {index : UInt16}
    (pooled : Pooled a.constants v index) : Pooled b.constants v index := by
  obtain ⟨k, found, rfl⟩ := pooled
  exact ⟨k, takes.kept k v found, rfl⟩

theorem constant_takesIn (a : Assembly) (clean : v.isSignal = false) :
    ∃ index b, a.constant v = .ok (index, b) ∧ a.TakesIn [v] b ∧ Pooled b.constants v index := by
  unfold constant
  rw [if_neg (by simp [clean])]
  cases search : a.constants.findIdx? (· == v) with
  | some k =>
    obtain ⟨inside, same, -⟩ := Array.findIdx?_eq_some_iff_getElem.mp search
    refine ⟨_, a, rfl, ⟨rfl, rfl, rfl, fun _ _ => id, fun _ => .inl, id⟩, k, ?_, rfl⟩
    rw [Array.getElem?_eq_getElem inside, eq_of_beq same]
  | none =>
    refine ⟨_, _, rfl, ⟨rfl, rfl, rfl, fun k w found => ?_, fun w mem => ?_, fun nodup => ?_⟩, _,
      Array.getElem?_push_size, rfl⟩
    · have inside := (Array.getElem?_eq_some_iff.mp found).1
      rwa [Array.getElem?_push_lt inside, ← Array.getElem?_eq_getElem inside]
    · simpa using mem
    · have absent : v ∉ a.constants := by
        intro mem
        have := Array.findIdx?_eq_none_iff.mp search v mem
        simp at this
      simpa [List.nodup_append, absent] using ⟨nodup, fun w mem same => absent (same ▸ mem)⟩

end Assembly

namespace Assembler

open Assembly

/-- Pooling the constants of a draft succeeds, and the draft is then written as it should be or not
at all. -/
def Pools (a : Assembly) (d : Draft Value) : Prop :=
  ∃ pooled b, pool a d = .ok (pooled, b) ∧ a.TakesIn d.constants b ∧ ∀ height target,
    (d.size = 0 ∧ pooled.instruction? height target = none) ∨
    (d.size ≠ 0 ∧ ∃ i, pooled.instruction? height target = some i ∧
      d.Writes (Pooled b.constants) (fun _ t => t = target) height i)

section Pooling

variable {a : Assembly} {d : Draft Value}

theorem pools_none {pooled : Draft UInt16} {write : UInt16 → UInt16 → Instruction}
    (constants : d.constants = []) (pools : pool a d = .ok (pooled, a))
    (instruction : ∀ height target, pooled.instruction? height target = some (write height target))
    (written : d.size ≠ 0) (writes : ∀ height target,
      d.Writes (Pooled a.constants) (fun _ t => t = target) height (write height target)) :
    Pools a d :=
  ⟨pooled, a, pools, constants ▸ .refl a, fun height target =>
    .inr ⟨written, _, instruction height target, writes height target⟩⟩

theorem pools_one {v : Value} (make : UInt16 → Draft UInt16) {write : UInt16 → Instruction}
    (clean : ∀ v ∈ d.constants, v.isSignal = false) (constants : d.constants = [v])
    (pools : pool a d = a.constant v >>= fun (index, b) => .ok (make index, b))
    (instruction : ∀ height target index,
      (make index).instruction? height target = some (write index))
    (written : d.size ≠ 0) (writes : ∀ pooled place height index, pooled v index →
      d.Writes pooled place height (write index)) : Pools a d := by
  obtain ⟨index, b, isConstant, takes, isPooled⟩ :=
    a.constant_takesIn (clean v (constants ▸ List.mem_singleton_self v))
  refine ⟨make index, b, ?_, constants ▸ takes, fun height target =>
    .inr ⟨written, _, instruction height target index, writes _ _ _ _ isPooled⟩⟩
  rw [pools, isConstant]
  rfl

theorem pools_of_clean (a : Assembly) (d : Draft Value)
    (clean : ∀ v ∈ d.constants, v.isSignal = false) : Pools a d := by
  have zero : ∀ {n : Nat}, n + 1 ≠ 0 := Nat.succ_ne_zero _
  cases d with
  | label name => exact ⟨.label name, a, rfl, .refl a, fun _ _ => .inl ⟨rfl, rfl⟩⟩
  | pool v =>
    obtain ⟨index, b, isConstant, takes, isPooled⟩ := a.constant_takesIn (clean v (List.mem_singleton_self v))
    refine ⟨.pool index, b, ?_, takes, fun _ _ => .inl ⟨rfl, rfl⟩⟩
    rw [show pool a (.pool v) = a.constant v >>= fun (index, b) => .ok (.pool index, b) from rfl, isConstant]
    rfl
  | push v =>
    exact pools_one .push clean rfl rfl (fun _ _ _ => rfl) zero fun _ _ _ _ => .push
  | global v =>
    exact pools_one .global clean rfl rfl (fun _ _ _ => rfl) zero fun _ _ _ _ => .global
  | closure v count =>
    exact pools_one (.closure · count) clean rfl rfl (fun _ _ _ => rfl) zero fun _ _ _ _ => .closure
  | raise v argc =>
    exact pools_one (.raise · argc) clean rfl rfl (fun _ _ _ => rfl) zero fun _ _ _ _ => .raise
  | mark v =>
    exact pools_one .mark clean rfl rfl (fun _ _ _ => rfl) zero fun _ _ _ _ => .mark
  | new v fields =>
    exact pools_one (.new · fields) clean rfl rfl (fun _ _ _ => rfl) zero fun _ _ _ _ => .new
  | ifTrue name => exact pools_none rfl rfl (fun _ _ => rfl) zero fun _ _ => .ifTrue rfl
  | ifFalse name => exact pools_none rfl rfl (fun _ _ => rfl) zero fun _ _ => .ifFalse rfl
  | goto name => exact pools_none rfl rfl (fun _ _ => rfl) zero fun _ _ => .goto rfl
  | invoke selector argc keymap =>
    obtain ⟨index, b, isConstant, takes, isPooled⟩ :=
      a.constant_takesIn (clean selector (by simp [Draft.constants]))
    obtain ⟨map, c, isConstant', takes', isPooled'⟩ :=
      b.constant_takesIn (clean keymap (by simp [Draft.constants]))
    refine ⟨.invoke index argc map, c, ?_, takes.trans takes', fun _ _ =>
      .inr ⟨zero, _, rfl, .invoke (takes'.pooled isPooled) isPooled'⟩⟩
    simp [pool, Draft.traverse, StateT.run, bind, StateT.bind, isConstant, isConstant', Except.bind,
      pure, StateT.pure, Except.pure]
  | invokeSuper selector argc keymap signature =>
    obtain ⟨index, b, isConstant, takes, isPooled⟩ :=
      a.constant_takesIn (clean selector (by simp [Draft.constants]))
    obtain ⟨map, c, isConstant', takes', isPooled'⟩ :=
      b.constant_takesIn (clean keymap (by simp [Draft.constants]))
    obtain ⟨types, e, isConstant'', takes'', isPooled''⟩ :=
      c.constant_takesIn (clean signature (by simp [Draft.constants]))
    refine ⟨.invokeSuper index argc map types, e, ?_, (takes.trans takes').trans takes'', fun _ _ =>
      .inr ⟨zero, _, rfl, .invokeSuper (takes''.pooled (takes'.pooled isPooled))
        (takes''.pooled isPooled') isPooled''⟩⟩
    simp [pool, Draft.traverse, StateT.run, bind, StateT.bind, isConstant, isConstant', isConstant'',
      Except.bind, pure, StateT.pure, Except.pure]
  | _ => exact pools_none rfl rfl (fun _ _ => rfl) zero fun _ _ => by constructor

end Pooling

/-- The offset of the label that a draft jumps to, if the label has been defined. -/
def known (a : Assembler) (d : Draft Value) : Option UInt16 :=
  d.target?.bind fun name => List.lookup name a.labels

section Stepping

variable {a : Assembler} {d : Draft Value}

theorem step_eq (a : Assembler) (notLabel : d.label? = none) : step a d = (do
    let (pooled, assembly) ← pool a.assembly d
    match pooled.instruction? (UInt16.ofNat assembly.height) ((a.known d).getD 0) with
    | none => pure { a with assembly }
    | some instruction =>
      let assembly := assembly.emit instruction d.pops d.pushes
      match d.target?, a.known d with
      | some label, none =>
        pure { a with assembly, pending := (label, assembly.units.size - 1) :: a.pending }
      | _, _ => pure { a with assembly }) := by
  cases d with
  | label name => cases notLabel
  | _ => rfl

theorem step_silent (a : Assembler) (silent : d.size = 0) (notLabel : d.label? = none)
    (clean : ∀ v ∈ d.constants, v.isSignal = false) :
    ∃ b, step a d = .ok { a with assembly := b } ∧ a.assembly.TakesIn d.constants b := by
  obtain ⟨pooled, b, isPool, takes, outcome⟩ := pools_of_clean a.assembly d clean
  refine ⟨b, ?_, takes⟩
  obtain ⟨-, isNone⟩ | ⟨written, -⟩ := outcome (UInt16.ofNat b.height) ((a.known d).getD 0)
  · rw [step_eq a notLabel, isPool]
    simp only [bind, Except.bind, isNone]
    rfl
  · exact absurd silent written

theorem label?_of_size (written : d.size ≠ 0) : d.label? = none := by
  cases d with
  | label name => exact absurd rfl written
  | _ => rfl

/-- The assembler has emitted the instruction of a draft. A jump to a label that is not known yet
waits for it. -/
def appended (a : Assembler) (d : Draft Value) (b : Assembly) (i : Instruction) : Assembler :=
  { a with
    assembly := b.emit i d.pops d.pushes
    pending := (match d.target?, a.known d with
      | some name, none => [(name, a.assembly.units.size + 1)]
      | _, _ => []) ++ a.pending }

theorem step_written (a : Assembler) (written : d.size ≠ 0)
    (clean : ∀ v ∈ d.constants, v.isSignal = false) :
    ∃ i b, a.assembly.TakesIn d.constants b ∧ d.Writes (Pooled b.constants)
      (fun _ target => target = (a.known d).getD 0) (UInt16.ofNat a.assembly.height) i ∧
      step a d = .ok (a.appended d b i) := by
  have notLabel := label?_of_size written
  obtain ⟨pooled, b, isPool, takes, outcome⟩ := pools_of_clean a.assembly d clean
  obtain ⟨silent, -⟩ | ⟨-, i, isInstruction, writes⟩ := outcome (UInt16.ofNat b.height) ((a.known d).getD 0)
  · exact absurd silent written
  refine ⟨i, b, takes, takes.height ▸ writes, ?_⟩
  rw [step_eq a notLabel, isPool]
  simp only [bind, Except.bind, isInstruction, appended]
  cases isTarget : d.target? with
  | none => rfl
  | some name =>
    cases isKnown : a.known d with
    | some offset => rfl
    | none =>
      have size : (b.emit i d.pops d.pushes).units.size - 1 = a.assembly.units.size + 1 := by
        have isSize : i.size = 2 := writes.size_eq.trans (size_of_jump isTarget)
        simp [emit, units_length, isSize, takes.units]
      simp only [size]
      rfl

end Stepping

section Patching

theorem patchAll_eq (a : Assembly) (jumps : List (String × Nat)) :
    jumps.foldl (fun assembly jump => assembly.patch jump.2) a =
      { a with units := jumps.foldl (fun units jump => units.setIfInBounds jump.2 a.offset) a.units } := by
  induction jumps generalizing a with
  | nil => rfl
  | cons jump rest ih =>
    have same : (a.patch jump.2).offset = a.offset := by simp [patch, offset]
    rw [List.foldl_cons, ih, same]
    rfl

theorem patched_size (units : Array UInt16) (jumps : List (String × Nat)) (offset : UInt16) :
    (jumps.foldl (fun units jump => units.setIfInBounds jump.2 offset) units).size =
      units.size := by
  induction jumps generalizing units with
  | nil => rfl
  | cons jump rest ih => simp [ih]

theorem patched_getElem? (units : Array UInt16) (jumps : List (String × Nat)) (offset : UInt16)
    {position : Nat} (inside : position < units.size) :
    (jumps.foldl (fun units jump => units.setIfInBounds jump.2 offset) units)[position]? =
      if position ∈ jumps.map Prod.snd then some offset else units[position]? := by
  induction jumps generalizing units with
  | nil => simp
  | cons jump rest ih =>
    rw [List.foldl_cons, ih _ (by simpa using inside)]
    by_cases later : position ∈ rest.map Prod.snd
    · simp [later]
    · by_cases here : jump.2 = position
      · subst here
        simp [later, inside]
      · simp [later, here, Ne.symm here]

end Patching

/-- The assembler after the drafts `before`. -/
structure Follows (before : List (Draft Value)) (a : Assembler) : Prop where
  size : a.assembly.units.size = totalSize before
  height : a.assembly.height = countedHeight before
  labels : a.labels = (labelsFrom 0 before).reverse.map fun label => (label.1, UInt16.ofNat label.2)
  written : ∀ e ∈ emissions before, e.WrittenIn (Pooled a.assembly.constants) a.assembly.units
  pending : ∀ name position, (name, position) ∈ a.pending ↔ ∃ e ∈ emissions before,
    e.draft.target? = some name ∧ e.target = none ∧ position = e.offset + 1
  distinct : a.assembly.constants.toList.Nodup
  members : ∀ v ∈ a.assembly.constants, v ∈ before.flatMap Draft.constants
  highest : a.assembly.height ≤ a.assembly.maxHeight
  heights : ∀ e ∈ emissions before,
    e.height ≤ a.assembly.maxHeight ∧ e.draft.heightAfter e.height ≤ a.assembly.maxHeight

theorem Follows.start : Follows [] {} where
  size := rfl
  height := rfl
  labels := rfl
  written := by simp [emissions, emissionsFrom]
  pending := by simp [emissions, emissionsFrom]
  distinct := .nil
  members := by simp
  highest := Nat.le_refl 0
  heights := by simp [emissions, emissionsFrom]

section Following

variable {before : List (Draft Value)} {a : Assembler} {d : Draft Value} {e : Emission Value}

theorem totalSize_append (before : List (Draft Value)) (d : Draft Value) :
    totalSize (before ++ [d]) = totalSize before + d.size := by
  simp [totalSize]

theorem countedHeight_append (before : List (Draft Value)) (d : Draft Value) :
    countedHeight (before ++ [d]) = d.heightAfter (countedHeight before) := by
  simp [countedHeight]

theorem resolve_nil (e : Emission Value) : e.resolve [] = e := by
  cases isTarget : e.draft.target? <;> simp [Emission.resolve, isTarget]

theorem emissions_silent (before : List (Draft Value)) (notLabel : d.label? = none)
    (silent : d.size = 0) : emissions (before ++ [d]) = emissions before := by
  have same : @Emission.resolve Value [] = id := funext resolve_nil
  simp [emissions, Draft.emissionsFrom_append, labelsFrom, notLabel, emissionsFrom, silent, same]

theorem emissions_label (before : List (Draft Value)) (name : String) :
    emissions (before ++ [.label name]) =
      (emissions before).map (Emission.resolve [(name, totalSize before)]) := by
  simp [emissions, Draft.emissionsFrom_append, labelsFrom, label?, emissionsFrom, Draft.size]

theorem emissions_written (before : List (Draft Value)) (written : d.size ≠ 0) (notLabel : d.label? = none) :
    emissions (before ++ [d]) = emissions before ++
      [{ offset := totalSize before
         height := countedHeight before
         draft := d
         target := d.target?.bind fun name =>
           List.lookup name (labelsFrom 0 before).reverse }] := by
  have same : @Emission.resolve Value [] = id := funext resolve_nil
  simp [emissions, Draft.emissionsFrom_append, labelsFrom, notLabel, emissionsFrom,
    written, same, countedHeight]

/-- Only the target of a jump can be waiting. -/
theorem Follows.waiting_unique (follows : Follows before a) (mem : e ∈ emissions before)
    {name : String} {j : Nat} (inside : j < e.draft.size)
    (waits : (name, e.offset + j) ∈ a.pending) :
    e.draft.target? = some name ∧ e.target = none ∧ j = 1 := by
  obtain ⟨e', mem', jumps, open', isPosition⟩ := (follows.pending _ _).mp waits
  have size' := size_of_jump jumps
  by_cases same : e = e'
  · subst same
    exact ⟨jumps, open', by omega⟩
  · have := Draft.emissionsFrom_disjoint mem mem' same
    omega

theorem Follows.silent (follows : Follows before a) {b : Assembly} (silent : d.size = 0)
    (notLabel : d.label? = none) (takes : a.assembly.TakesIn d.constants b) :
    Follows (before ++ [d]) { a with assembly := b } := by
  have same := emissions_silent before notLabel silent
  have noEffect : ∀ height, d.heightAfter height = height := by
    intro height
    cases d <;> first | rfl | cases silent
  refine ⟨?_, ?_, ?_, ?_, ?_, takes.distinct follows.distinct, ?_, ?_, ?_⟩
  · rw [totalSize_append, silent, takes.units, follows.size, Nat.add_zero]
  · rw [countedHeight_append, noEffect, takes.height, follows.height]
  · simpa [Draft.labelsFrom_append, labelsFrom, notLabel] using follows.labels
  · rw [same]
    intro e mem
    obtain ⟨i, lies, writes⟩ := follows.written e mem
    exact ⟨i, takes.units ▸ lies, writes.mono (fun _ _ _ => takes.pooled) fun _ _ _ => id⟩
  · rw [same]
    exact follows.pending
  · intro v mem
    rw [List.flatMap_append, List.mem_append]
    obtain old | new := takes.members v mem
    · exact .inl (follows.members v old)
    · exact .inr (by simpa using new)
  · rw [takes.height, takes.maxHeight]
    exact follows.highest
  · rw [same, takes.maxHeight]
    exact follows.heights

theorem lookup_map {α β : Type} (f : α → β) (name : String) (entries : List (String × α)) :
    List.lookup name (entries.map fun entry => (entry.1, f entry.2)) =
      (List.lookup name entries).map f := by
  induction entries with
  | nil => rfl
  | cons entry rest ih =>
    rw [List.map_cons, List.lookup_cons, List.lookup_cons, ih]
    cases name == entry.1 <;> rfl

theorem Follows.known_eq (follows : Follows before a) (d : Draft Value) :
    a.known d = (d.target?.bind fun name =>
      List.lookup name (labelsFrom 0 before).reverse).map UInt16.ofNat := by
  rw [known, follows.labels]
  cases d.target? with
  | none => rfl
  | some name => exact lookup_map UInt16.ofNat name _

theorem Follows.emitted (follows : Follows before a) {b : Assembly} {i : Instruction}
    (written : d.size ≠ 0) (takes : a.assembly.TakesIn d.constants b)
    (writes : d.Writes (Pooled b.constants) (fun _ target => target = (a.known d).getD 0)
      (UInt16.ofNat a.assembly.height) i) :
    Follows (before ++ [d]) (a.appended d b i) := by
  unfold appended
  have notLabel := label?_of_size written
  have emissions := emissions_written before written notLabel
  have isKnown := follows.known_eq d
  have length : i.units.length = d.size := (units_length i).trans writes.size_eq
  refine ⟨?_, ?_, ?_, ?_, ?_, takes.distinct follows.distinct, ?_, ?_, ?_⟩
  · rw [totalSize_append, ← follows.size]
    simp [emit, takes.units, length]
  · rw [countedHeight_append, ← follows.height, ← takes.height]
    rfl
  · simpa [Draft.labelsFrom_append, labelsFrom, notLabel] using follows.labels
  · rw [emissions]
    intro e mem
    obtain old | new := List.mem_append.mp mem
    · obtain ⟨i', lies, writes'⟩ := follows.written e old
      refine ⟨i', fun j inside => ?_, writes'.mono (fun _ _ _ => takes.pooled) fun _ _ _ => id⟩
      have fits := lies.size_le
      rw [← lies j inside, emit, takes.units]
      exact Array.getElem?_append_left (by omega)
    · cases List.mem_singleton.mp new
      refine ⟨i, fun j inside => ?_, ?_⟩
      · simp only [← follows.size, emit, takes.units]
        rw [Array.getElem?_append_right (by omega)]
        simp
      · simp only [isKnown] at writes
        simp only [← follows.height]
        refine writes.mono (fun _ _ _ => id) fun name target _ isTarget => ?_
        rw [isTarget]
        cases (d.target?.bind fun name => List.lookup name (labelsFrom 0 before).reverse) <;> rfl
  · rw [emissions]
    intro name position
    have new : (name, position) ∈ (match d.target?, a.known d with
          | some name, none => [(name, a.assembly.units.size + 1)]
          | _, _ => []) ↔ d.target? = some name ∧
        (d.target?.bind fun name => List.lookup name (labelsFrom 0 before).reverse) = none ∧
        position = totalSize before + 1 := by
      rw [isKnown, ← follows.size]
      cases d.target? with
      | none => simp
      | some label =>
        cases found : List.lookup label (labelsFrom 0 before).reverse <;>
          simp [found, eq_comm]
    rw [List.mem_append, new, follows.pending]
    simp only [List.mem_append, List.mem_singleton]
    constructor
    · rintro (⟨jumps, isOpen, isPosition⟩ | ⟨e, mem, waits⟩)
      · exact ⟨_, .inr rfl, jumps, isOpen, isPosition⟩
      · exact ⟨e, .inl mem, waits⟩
    · rintro ⟨e, mem | rfl, waits⟩
      · exact .inr ⟨e, mem, waits⟩
      · exact .inl waits
  · intro v mem
    rw [List.flatMap_append, List.mem_append]
    obtain old | new := takes.members v mem
    · exact .inl (follows.members v old)
    · exact .inr (by simpa using new)
  · exact Nat.le_max_right _ _
  · rw [emissions]
    intro e mem
    have highest : b.maxHeight ≤ (b.emit i d.pops d.pushes).maxHeight := Nat.le_max_left _ _
    rw [takes.maxHeight] at highest
    obtain old | new := List.mem_append.mp mem
    · have := follows.heights e old
      exact ⟨this.1.trans highest, this.2.trans highest⟩
    · cases List.mem_singleton.mp new
      refine ⟨?_, ?_⟩
      · rw [← follows.height]
        exact follows.highest.trans highest
      · rw [← follows.height, ← takes.height]
        exact Nat.le_max_right _ _

/-- The units after everything that waits for a label has been patched. -/
def patched (a : Assembler) (name : String) : Array UInt16 :=
  (a.pending.filter fun jump => jump.1 == name).foldl
    (fun units jump => units.setIfInBounds jump.2 a.assembly.offset) a.assembly.units

theorem define_eq (a : Assembler) (name : String) : a.define name =
    { assembly := { a.assembly with units := a.patched name }
      labels := (name, a.assembly.offset) :: a.labels
      pending := a.pending.filter fun jump => !(jump.1 == name) } := by
  have parts : (a.pending.partition fun jump => jump.1 == name) =
      (a.pending.filter fun jump => jump.1 == name, a.pending.filter fun jump => !(jump.1 == name)) := by
    rw [List.partition_eq_filter_filter]
    rfl
  simp only [define, parts, patchAll_eq, patched]

theorem patched_read (a : Assembler)
    (name : String) {position : Nat} (inside : position < a.assembly.units.size) :
    (a.patched name)[position]? = if (name,
      position) ∈ a.pending then some a.assembly.offset else a.assembly.units[position]? := by
  have waiting : position ∈ (a.pending.filter fun jump => jump.1 == name).map Prod.snd ↔
      (name, position) ∈ a.pending := by simp
  rw [patched, patched_getElem? _ _ _ inside]
  simp only [waiting]

/-- A label that an emission does not wait for tells it nothing. -/
theorem resolve_other {name label : String} {place : Nat} (jumps : e.draft.target? = some label)
    (other : e.target = none → label ≠ name) : (e.resolve [(name, place)]).target = e.target := by
  cases isOpen : e.target with
  | some _ => simp [Emission.resolve, isOpen]
  | none =>
    simp [Emission.resolve, isOpen, jumps, List.lookup_cons, beq_false_of_ne (other isOpen)]

section

variable (follows : Follows before a)
include follows

/-- What was written is still there after a label has been defined, and what waited for the label
has got its target. -/
theorem Follows.written_define (name : String) (mem : e ∈ emissions before) :
    (e.resolve [(name, totalSize before)]).WrittenIn (Pooled a.assembly.constants)
      (a.patched name) := by
  obtain ⟨i, lies, writes⟩ := follows.written e mem
  have isSize : i.size = e.draft.size := writes.size_eq
  have fits := lies.size_le
  by_cases waits : e.draft.target? = some name ∧ e.target = none
  · obtain ⟨jumps, isOpen⟩ := waits
    obtain ⟨i', writes', isUnits⟩ := writes.aim jumps a.assembly.offset
    have two : i.size = 2 := isSize.trans (size_of_jump jumps)
    have two' : i'.size = 2 := writes'.size_eq.trans (size_of_jump jumps)
    refine ⟨i', fun j inside => (patched_read a name (show e.offset + j < _ by omega)).trans ?_, ?_⟩
    · rw [isUnits]
      obtain rfl | rfl : j = 0 ∨ j = 1 := by omega
      · have unpatched : (name, e.offset + 0) ∉ a.pending := fun waits => by
          have := (follows.waiting_unique mem (by omega) waits).2.2
          omega
        rw [if_neg unpatched]
        exact lies 0 (by omega)
      · rw [if_pos ((follows.pending _ _).mpr ⟨e, mem, jumps, isOpen, rfl⟩)]
        rfl
    · refine writes'.mono (fun _ _ _ => id) fun _ target _ isTarget => ?_
      rw [isTarget, offset, follows.size]
      simp [Emission.resolve, isOpen, jumps]
  · refine ⟨i, fun j inside => (patched_read a name (show e.offset + j < _ by omega)).trans ?_, ?_⟩
    · have unpatched : (name, e.offset + j) ∉ a.pending := fun waiting => by
        have := follows.waiting_unique mem (isSize ▸ inside) waiting
        exact waits ⟨this.1, this.2.1⟩
      rw [if_neg unpatched]
      exact lies j inside
    · refine writes.mono (fun _ _ _ => id) fun label target jumps isTarget => ?_
      have other : e.target = none → label ≠ name := by
        rintro isOpen rfl
        exact waits ⟨jumps, isOpen⟩
      rw [resolve_other jumps other]
      exact isTarget

/-- What waits after a label has been defined is what waited for others. -/
theorem Follows.pending_define (name : String) (label : String) (position : Nat) :
    (label, position) ∈ a.pending.filter (fun jump => !(jump.1 == name)) ↔
      ∃ e ∈ (emissions before).map (Emission.resolve [(name, totalSize before)]),
        e.draft.target? = some label ∧ e.target = none ∧ position = e.offset + 1 := by
  simp only [List.mem_filter, follows.pending, List.mem_map]
  constructor
  · rintro ⟨⟨e, mem, jumps, isOpen, isPosition⟩, isOther⟩
    have other : label ≠ name := by simpa using isOther
    exact ⟨_, ⟨e, mem, rfl⟩, jumps, (resolve_other jumps fun _ => other).trans isOpen, isPosition⟩
  · rintro ⟨_, ⟨e, mem, rfl⟩, jumps, isOpen, isPosition⟩
    have jumps : e.draft.target? = some label := jumps
    simp only [Emission.resolve, jumps, Option.or_eq_none_iff, Option.bind_some] at isOpen
    have other : label ≠ name := by
      rintro rfl
      simp at isOpen
    exact ⟨⟨e, mem, jumps, isOpen.1, isPosition⟩, by simpa using other⟩

theorem Follows.define (name : String) : Follows (before ++ [.label name]) (a.define name) := by
  have emissions := emissions_label before name
  rw [define_eq]
  refine ⟨?_, ?_, ?_, ?_, ?_, follows.distinct, ?_, follows.highest, ?_⟩
  · rw [totalSize_append]
    exact (patched_size _ _ _).trans follows.size
  · rw [countedHeight_append]
    exact follows.height
  · simp [Draft.labelsFrom_append, labelsFrom, label?, follows.labels, offset, follows.size]
  · rw [emissions]
    intro e' mem'
    obtain ⟨e, mem, rfl⟩ := List.mem_map.mp mem'
    exact follows.written_define name mem
  · rw [emissions]
    exact follows.pending_define name
  · intro v mem
    rw [List.flatMap_append, List.mem_append]
    exact .inl (follows.members v mem)
  · rw [emissions]
    intro e' mem'
    obtain ⟨e, mem, rfl⟩ := List.mem_map.mp mem'
    exact follows.heights e mem

theorem Follows.step (clean : ∀ v ∈ d.constants, v.isSignal = false) :
    ∃ a', a.step d = .ok a' ∧ Follows (before ++ [d]) a' := by
  by_cases written : d.size = 0
  · cases isLabel : d.label? with
    | none =>
      obtain ⟨b, stepped, takes⟩ := step_silent a written isLabel clean
      exact ⟨_, stepped, follows.silent written isLabel takes⟩
    | some name =>
      obtain rfl : d = .label name := by
        cases d <;> cases isLabel
        rfl
      exact ⟨_, rfl, follows.define name⟩
  · obtain ⟨i, b, takes, writes, stepped⟩ := step_written a written clean
    exact ⟨_, stepped, follows.emitted written takes writes⟩

end

/-- Drafts without signals can be assembled, and the assembler follows them. -/
theorem run_follows (drafts : List (Draft Value))
    (clean : ∀ d ∈ drafts, ∀ v ∈ d.constants, v.isSignal = false) :
    ∃ a, run {} drafts = .ok a ∧ Follows drafts a := by
  suffices general : ∀ (rest before : List (Draft Value)) (a : Assembler), Follows before a →
      (∀ d ∈ rest, ∀ v ∈ d.constants, v.isSignal = false) →
      ∃ a', run a rest = .ok a' ∧ Follows (before ++ rest) a' from
    general drafts [] {} .start clean
  intro rest
  induction rest with
  | nil =>
    intro before a follows _
    exact ⟨a, rfl, by simpa using follows⟩
  | cons d rest ih =>
    intro before a follows clean
    obtain ⟨a₁, stepped, follows₁⟩ := follows.step (clean d List.mem_cons_self)
    obtain ⟨a₂, ran, follows₂⟩ := ih (before ++ [d]) a₁ follows₁
      fun d mem => clean d (List.mem_cons_of_mem _ mem)
    refine ⟨a₂, ?_, by simpa using follows₂⟩
    simp only [run, List.foldlM_cons, stepped] at ran ⊢
    exact ran

/-- The units of an assembler are read back as the drafts it follows. -/
theorem Follows.lines (follows : Follows before a) : List.Forall₂ (fun e line => line.1 = e.offset ∧
        e.draft.Writes (fun _ _ => True) (fun _ _ => True) (UInt16.ofNat e.height) line.2)
      (emissions before) (decode a.assembly.units).lines :=
  (Draft.decodeFrom_emissions (fun _ _ writes => writes.size_eq) (fun e mem => by
    obtain ⟨i, lies, writes⟩ := follows.written e mem
    exact ⟨i, lies, writes.mono (fun _ _ _ _ => trivial) fun _ _ _ _ => trivial⟩)
    (by rw [follows.size, Nat.zero_add])).2

end Following

end Assembler

namespace Assembly

/-- Drafts without signals can be assembled. Their code is read back without fault, as exactly the
drafts that are written, in their order and with their operands: a constant is found in the pool at
the position that stands for it, and a jump leads to the one offset where its label is defined, at
which the next instruction starts or the code ends. -/
theorem ofDrafts_decodes (drafts : List (Draft Value))
    (clean : ∀ d ∈ drafts, ∀ v ∈ d.constants, v.isSignal = false)
    (once : ∀ d ∈ drafts, ∀ name ∈ d.target?, (drafts.filterMap label?).count name = 1)
    (short : totalSize drafts ≤ 65535)
    (few : (drafts.flatMap Draft.constants).dedup.length ≤ 65536) :
    ∃ a, ofDrafts drafts = .ok a ∧ a.units.size = totalSize drafts ∧ a.constants.toList.Nodup ∧
      (decode a.units).finish = .ok a.units.size ∧ List.Forall₂ (fun e line => line.1 = e.offset ∧
      e.draft.Writes (fun v index => a.constants[index.toNat]? = some v)
      (fun name target => ∀ offset, (name, offset) ∈ labelsFrom 0 drafts ↔ offset = target.toNat)
      (UInt16.ofNat e.height) line.2) (emissions drafts) (decode a.units).lines ∧
      ∀ name offset, (name, offset) ∈ labelsFrom 0 drafts → offset = a.units.size ∨
      ∃ i, (offset, i) ∈ (decode a.units).lines := by
  obtain ⟨a, ran, follows⟩ := Assembler.run_follows drafts clean
  have poolSize : a.assembly.constants.size ≤ 65536 := by
    refine (follows.distinct.length_le_of_subset fun v mem => ?_).trans few
    exact List.mem_dedup.mpr (follows.members v (Array.mem_toList_iff.mp mem))
  have written : ∀ e ∈ emissions drafts, ∃ i : Instruction,
      i.LiesAt a.assembly.units e.offset ∧
      e.draft.Writes (fun v index => a.assembly.constants[index.toNat]? = some v)
        (fun name target => ∀ offset, (name, offset) ∈ labelsFrom 0 drafts ↔ offset = target.toNat)
        (UInt16.ofNat e.height) i := by
    intro e mem
    obtain ⟨i, lies, writes⟩ := follows.written e mem
    refine ⟨i, lies, writes.mono ?_ ?_⟩
    · rintro v - index ⟨k, found, rfl⟩
      have inside := (Array.getElem?_eq_some_iff.mp found).1
      rwa [UInt16.toNat_ofNat_of_lt' (by simp only [UInt16.size]; omega)]
    · rintro name target jumps rfl
      obtain ⟨place, isPlace⟩ := Draft.labelsFrom_unique 0
        (once e.draft (Draft.mem_of_emissionsFrom mem) name jumps)
      have there := (isPlace place).mpr rfl
      have inRange := Draft.labelsFrom_le there
      obtain ⟨found, isTarget, behind | ahead⟩ | nowhere := Draft.emissionsFrom_target mem jumps
      · cases behind
      · cases (isPlace found).mp ahead
        rw [isTarget, Option.getD_some, UInt16.toNat_ofNat_of_lt' (by simp only [UInt16.size]; omega)]
        exact isPlace
      · exact absurd there (nowhere place).2
  obtain ⟨finishes, lines⟩ := Draft.decodeFrom_emissions (fun e i writes => writes.size_eq) written
    (by rw [follows.size, Nat.zero_add])
  refine ⟨a.assembly, by rw [ofDrafts, ran]; rfl, follows.size, follows.distinct, finishes, lines, ?_⟩
  intro name offset mem
  have offsets : (emissions drafts).map Emission.offset = (decode a.assembly.units).lines.map Prod.fst := by
    rw [← List.forall₂_eq_eq_eq, List.forall₂_map_left_iff, List.forall₂_map_right_iff]
    exact lines.imp fun e line isLine => isLine.1.symm
  obtain atEnd | ⟨e, isEmitted, isOffset⟩ := Draft.labelsFrom_starts [] 0 mem
  · exact .inl (by rw [atEnd, follows.size, Nat.zero_add])
  · have : offset ∈ (decode a.assembly.units).lines.map Prod.fst :=
      offsets ▸ isOffset ▸ List.mem_map_of_mem isEmitted
    obtain ⟨⟨_, i⟩, isLine, rfl⟩ := List.mem_map.mp this
    exact .inr ⟨i, isLine⟩

/-- Two labels are open at once, one jump goes back, and a constant is used twice. -/
def crossing : List (Draft Value) :=
  [.label "again", .pushTrue, .ifFalse "else", .push (.int 1), .goto "end", .label "else",
    .push (.int 2), .push (.int 1), .pop 1, .checkHeight, .goto "again", .label "end", .gotoOffset 7,
    .invoke (.int 2) 0 (.int 3), .ret]

theorem ofDrafts_decodes_crossing : ∃ a, ofDrafts crossing = .ok a ∧ a.units.size = 24 ∧
    a.constants.toList.Nodup ∧
    (decode a.units).finish = .ok a.units.size ∧
    List.Forall₂ (fun e line => line.1 = e.offset ∧
        e.draft.Writes (fun v index => a.constants[index.toNat]? = some v)
          (fun name target => ∀ offset,
            (name, offset) ∈ [("again", 0), ("else", 7), ("end", 17)] ↔ offset = target.toNat)
          (UInt16.ofNat e.height) line.2)
      (emissions crossing) (decode a.units).lines ∧
    ∀ name offset, (name, offset) ∈ [("again", 0), ("else", 7), ("end", 17)] →
      offset = a.units.size ∨ ∃ i, (offset, i) ∈ (decode a.units).lines :=
  ofDrafts_decodes crossing (by decide) (by decide) (by decide) (by decide)

end Assembly

end ObjectMachine
