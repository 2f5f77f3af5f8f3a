/-
# ObjectMachine.Proofs.Instructions -- one instruction keeps the invariant of calls

An instruction that is completed leaves the top frame with as many operands as the discipline says,
or another frame on top. One that is not completed leaves the call as `Execution.Interrupted` says.
As long as the same frame stays on top, what lies below its operands is not touched
(`Execution.Spares`).

* `Exec.ends_execute_within` -- every instruction of which the frame stays on top.
* `Exec.ends_execute` -- every instruction.
* `Exec.ends_step` -- every step, the one of the bottom frame included.
-/
import Mathlib
import ObjectMachine.Proofs.Switching

namespace ObjectMachine

open ObjectMachine.Action (Ends ends_bind)
open Heap (cast_eq_ok view?_eq_some)

/-- The frame that executes the instruction stays the top one. -/
def Instruction.staysWithin : Instruction → Bool
  | .ret | .call _ | .invoke .. | .invokeSuper .. | .raise .. | .yield | .attach => false
  | _ => true

namespace Execution

/-- What lies below the operands of the top frame is as it was, and so are all other stacks. -/
structure Spares (x x' : Execution) : Prop where
  stack : x'.stack = x.stack
  fp : x'.fp = x.fp
  rootTask : x'.rootTask = x.rootTask
  currentTask : x'.currentTask = x.currentTask
  references : x'.machine.references = x.machine.references
  compiler : x'.machine.compiler = x.machine.compiler
  roots : x'.machine.store.roots = x.machine.store.roots
  evolves : x.machine.store.heap.Evolves (· = x.stack) x'.machine.store.heap
  words : ∀ s, x.Stacked s → ∃ s', x'.machine.store.heap.bodyOf? (.object x.stack) = some (.stack s') ∧
      ∀ i < x.fp + 3, s'.words[i]? = s.words[i]?

namespace Spares

variable {x x' x'' : Execution} {s s' : Stack} {m : Machine}

theorem refl (x : Execution) : x.Spares x :=
  ⟨rfl, rfl, rfl, rfl, rfl, rfl, rfl, .refl _ _, fun s found => ⟨s, found, fun _ _ => rfl⟩⟩

theorem trans (first : x.Spares x') (second : x'.Spares x'') : x.Spares x'' where
  stack := second.stack.trans first.stack
  fp := second.fp.trans first.fp
  rootTask := second.rootTask.trans first.rootTask
  currentTask := second.currentTask.trans first.currentTask
  references := second.references.trans first.references
  compiler := second.compiler.trans first.compiler
  roots := second.roots.trans first.roots
  evolves := first.evolves.trans (first.stack ▸ second.evolves)
  words s found := by
    obtain ⟨s', found', same⟩ := first.words s found
    obtain ⟨s'', found'', same'⟩ := second.words s' (by rwa [Stacked, first.stack])
    rw [first.stack] at found''
    rw [first.fp] at same'
    exact ⟨s'', found'', fun i low => (same' i low).trans (same i low)⟩

theorem registers (spares : x.Spares x') (sp pc : Nat) : x.Spares { x' with sp, pc } := { spares with }

theorem grown (grown : x.machine.Grown (· = x.stack) m) : x.Spares (x.withMachine m) where
  stack := rfl
  fp := rfl
  rootTask := rfl
  currentTask := rfl
  references := grown.references
  compiler := grown.compiler
  roots := grown.store.roots
  evolves := grown.store.evolves.mono fun _ absurd => absurd.elim
  words s found := ⟨s, grown.store.evolves.stack found id, fun _ _ => rfl⟩

theorem withStack (on : x.On s) (height : s'.height = s.height)
    (same : ∀ i < x.fp + 3, s'.words[i]? = s.words[i]?) : x.Spares (x.withStack s') where
  stack := rfl
  fp := rfl
  rootTask := rfl
  currentTask := rfl
  references := rfl
  compiler := rfl
  roots := rfl
  evolves := on.evolves height
  words s₀ found := by
    cases on.found.symm.trans found
    exact ⟨s', Heap.bodyOf?_put on.found s', same⟩

theorem write (on : x.On s) {offset : Nat} (above : x.fp + 3 ≤ offset) (v : Value) :
    x.Spares (x.withStack (s.setWord offset (.value v))) :=
  .withStack on (by simp [Stack.height, Stack.setWord]) fun i low =>
    Array.getElem?_setIfInBounds_ne (by omega)

theorem push (frame : x.On s) (above : x.fp + 3 ≤ x.sp) (v : Value) : x.Spares (x.pushed s v) :=
  (write frame above v).registers (x.sp + 1) x.pc

theorem drop (x : Execution) (count : Nat) : x.Spares (x.dropped count) :=
  (refl x).registers (x.sp - count) x.pc

end Spares

/-- The same frame goes on, and what lies below its operands is as it was. -/
structure Continues (x x' : Execution) : Prop extends x.Spares x' where
  running : x'.Running

theorem Spares.continues {x x' x'' : Execution} (spares : x.Spares x') (continues : x'.Continues x'') :
    x.Continues x'' := ⟨spares.trans continues.toSpares, continues.running⟩

/-- The instruction `i` at `pc` is being carried out by a frame with `n` operands. -/
structure Executing (x : Execution) (s : Stack) (a : Activation) (n pc : Nat) (i : Instruction) :
    Prop extends x.Frame s a n where
  path : HeightAt a.units a.fields pc n
  decoded : Instruction.decodeAt a.units pc = .ok i
  next : x.pc = pc + i.size

namespace Executing

variable {x x' : Execution} {s s' : Stack} {a : Activation} {n pc : Nat} {i : Instruction} {m : Machine}

variable (e : x.Executing s a n pc i)
include e

theorem needs : i.needs a.fields ≤ n := e.disciplined.needs pc n i e.path e.decoded

theorem leaves : i.leaves a.fields n ≤ a.maxHeight := e.disciplined.leaves pc n i e.path e.decoded

theorem operand (needs : 1 ≤ i.needs a.fields) : x.fp + 3 < x.sp := by
  have := e.needs
  have := e.sp_eq
  have := e.base_ge
  omega

theorem operand_above {index : Nat} (needs : index < n) : x.fp + 3 ≤ x.sp - (index + 1) := by
  have := e.sp_eq
  have := e.base_ge
  omega

theorem grown (grown : x.machine.Grown (· = x.stack) m) : (x.withMachine m).Executing s a n pc i :=
  ⟨e.toFrame.grown grown, e.path, e.decoded, e.next⟩

/-- A value may be written over any operand in the middle of an instruction. -/
theorem write {offset : Nat} (above : x.fp + 3 ≤ offset) (v : Value) :
    (x.withStack (s.setWord offset (.value v))).Executing (s.setWord offset (.value v)) a n pc i :=
  ⟨e.toFrame.write above v, e.path, e.decoded, e.next⟩

theorem above : x.fp + 3 ≤ x.sp := e.frameAt.room

theorem continues {count : Nat} (goesOn : i.goesOn = true) (leaves : i.leaves a.fields n = count)
    (spares : x.Spares x') (frame : x'.Frame s' a count) (same : x'.pc = x.pc) :
    x.Continues x' := by
  refine ⟨spares, frame.running ?_⟩
  rw [same, e.next, ← leaves]
  exact .next e.path e.decoded goesOn

theorem continues_grown (goesOn : i.goesOn = true) (leaves : i.leaves a.fields n = n)
    (grown : x.machine.Grown (· = x.stack) m) : x.Continues { x with machine := m } :=
  e.continues goesOn leaves (.grown grown) (e.toFrame.grown grown) rfl

theorem jumps {count : Nat} {target : UInt16}
    (leaves : i.leaves a.fields n = count) (spares : x.Spares x') (frame : x'.Frame s' a count)
    (isTarget : target ∈ i.targets) : x.Continues { x' with pc := target.toNat } := by
  refine ⟨spares.registers x'.sp target.toNat, (frame.withPc target.toNat).running ?_⟩
  rw [← leaves]
  exact .jump e.path e.decoded isTarget

/-- The frame waits for an answer behind the instruction. -/
theorem at_next (goesOn : i.goesOn = true) (leaves : i.leaves a.fields n = n) :
    x.At s (pc + i.size) := by
  have path := HeightAt.next e.path e.decoded goesOn
  rw [leaves] at path
  exact e.toFrame.at path

end Executing

end Execution

namespace Exec

open Execution (Executing)

variable {x : Execution} {s : Stack} {a : Activation} {n pc : Nat} {i : Instruction}
  {raised : Interrupt → Execution → Prop}
variable {next : Nat}

theorem ends_grown {m : Machine} {work : Exec Unit} (grown : x.machine.Grown (· = x.stack) m)
    (ends : Ends work (x.withMachine m) (fun _ x' => (x.withMachine m).Continues x')
      (x.withMachine m).Interrupted) :
    Ends work (x.withMachine m) (fun _ x' => x.Continues x') x.Interrupted :=
  ends.mono (fun _ _ continues => (Execution.Spares.grown grown).continues continues)
    fun _ _ interrupted => Execution.Stalled.interrupted (.ofGrown grown) interrupted

section

variable (e : x.Executing s a n pc i) {v : Value}
include e

theorem ends_pushing (goesOn : i.goesOn = true) (leaves : i.leaves a.fields n = n + 1) :
    Ends (push v) x (fun _ x' => x.Continues x') raised := by
  have room := e.leaves
  rw [leaves] at room
  exact ends_push e.found (e.continues goesOn leaves (.push e.toOn e.above v) (e.toFrame.push room v) rfl)

/-- Some operands are replaced by one. -/
theorem ends_replacing {count : Nat}
    (goesOn : i.goesOn = true) (needs : count ≤ n) (leaves : i.leaves a.fields n = n - count + 1) :
    Ends (do drop count; push v) x (fun _ x' => x.Continues x') raised := by
  rw [ends_bind]
  refine ends_drop ?_
  have frame := e.toFrame.drop needs
  have room := e.leaves
  rw [leaves] at room
  have spares := (Execution.Spares.drop x count).trans (.push frame.toOn frame.frameAt.room v)
  exact ends_push frame.found (e.continues goesOn leaves spares (frame.push room v) rfl)

/-- One operand is replaced by another. -/
theorem ends_updating {index : Nat} (goesOn : i.goesOn = true) (needs : index < n)
    (leaves : i.leaves a.fields n = n) :
    Ends (setPeek index v) x (fun _ x' => x.Continues x') raised := by
  have above := e.operand_above needs
  exact ends_setPeek e.toOn (e.continues goesOn leaves (.write e.toOn above v) (e.toFrame.write above v) rfl)

theorem ends_making {α : Type} {work : Alloc α} {next : α → Exec Unit} {post : α → Store → Prop}
    (keeps : Store.Keeps (· = x.stack) work x.machine.store post)
    (rest : ∀ answer m, x.machine.Grown (· = x.stack) m → post answer m.store →
      (x.withMachine m).Executing s a n pc i →
      Ends (next answer) (x.withMachine m) (fun _ x' => (x.withMachine m).Continues x')
        (x.withMachine m).Interrupted) :
    Ends (alloc work >>= next) x (fun _ x' => x.Continues x') x.Interrupted := by
  refine (ends_alloc e.toOn keeps).bind ?_
  rintro answer _ ⟨m, rfl, grown, holds⟩
  exact ends_grown grown (rest answer m grown holds (e.grown grown))

/-- An instruction that ends the call with an error that names a value. -/
theorem ends_failing {f : Store → Except Violation String} {error : String → RunError}
    (calm : Calm (f x.machine.store)) {answered : Unit → Execution → Prop} :
    Ends (do fail (error (← checkStore f))) x answered
      x.Interrupted := by
  exact ends_check_bind calm fun name _ => e.abandonable

section Calls

variable (goesOn : i.goesOn = true) (leaves : i.leaves a.fields n = n) (needs : 1 ≤ i.needs a.fields)
include goesOn leaves needs

theorem ends_entering {l : Lambda} {argc : Nat} {keymap : Option Value}
    (isLambda : x.heap.view? Lambda v = some l) :
    Ends (enter v l argc keymap (pc + i.size)) x (fun _ x' => x'.Running) x.Interrupted :=
  ends_enter (e.at_next goesOn leaves) (e.operand needs) isLambda

theorem ends_invoke {selector argc keymap : UInt16} {signature : Option UInt16} :
    Ends (invoke selector argc keymap signature (pc + i.size)) x
      (fun _ x' => x'.Running) x.Interrupted := by
  unfold invoke
  rw [ends_bind]
  refine ends_constant fun selector _ => ?_
  refine ends_check_bind (by simp) fun named _ => ?_
  rw [ends_bind]
  refine ends_top fun arguments _ => ?_
  have rest : ∀ found, Ends (answerWith named.name argc keymap (pc + i.size) found) x
      (fun _ x' => x'.Running) x.Interrupted := by
    intro found
    cases found with
    | none => exact ends_failing e (by simp)
    | some method =>
      refine ends_bind.mpr (ends_constant fun v _ => ?_)
      rw [ends_bind, askStore, ends_ask]
      refine ends_check_bind (by simp) fun answer isAnswer => ?_
      obtain ⟨method, -, isAnswer⟩ := ok_of_bind isAnswer
      obtain ⟨l, isLambda, isAnswer⟩ := ok_of_bind isAnswer
      cases isAnswer
      exact ends_entering e goesOn leaves needs (cast_eq_ok.mp isLambda)
  cases signature with
  | none =>
    exact ends_check_bind (by simp) fun found _ => rest found
  | some signature =>
    refine ends_bind.mpr (ends_constant fun current _ => ends_bind.mpr ?_)
    refine ends_check (by simp) fun _ _ => ends_bind.mpr ?_
    exact ends_check (by simp) fun found _ => rest found

theorem ends_raise {name argc : UInt16} :
    Ends (raise name argc (pc + i.size)) x (fun _ x' => x'.Running) x.Interrupted := by
  unfold raise
  rw [ends_bind]
  refine ends_constant fun name _ => ?_
  refine ends_check_bind (by simp) fun handler _ => ?_
  cases handler with
  | none => exact ends_failing e (by simp)
  | some handler =>
    rw [ends_bind]
    refine ends_narrow (fun lambda l isLambda => ?_) fun _ => e.abandonable
    exact ends_entering e goesOn leaves needs isLambda

theorem ends_attach : Ends (attach (pc + i.size)) x (fun _ x' => x'.Running) x.Interrupted := by
  unfold attach
  rw [ends_bind]
  refine ends_peek fun v => ?_
  rw [ends_bind]
  refine ends_narrow (fun task t isTask => ?_) fun _ => e.abandonable
  unfold attachTo
  refine ends_check_bind (by simp) fun _ _ => ?_
  split
  · exact e.abandonable
  rw [ends_bind, currentTask, ends_ask]
  refine ends_check_bind (by simp) fun attached _ => ?_
  split
  · exact e.abandonable
  rw [ends_bind, ends_modifyHeap]
  have e := e.grown (.putCaller e.sound.store (x.machine.references.slot x.currentTask) isTask)
  exact (ends_switchTo (e.at_next goesOn leaves) (e.operand needs)).imp fun _ _ switched => switched.1

theorem ends_yield : Ends (yield (pc + i.size)) x (fun _ x' => x'.Running) x.Interrupted := by
  unfold yield
  rw [ends_bind]
  refine ends_peek fun v => ?_
  rw [ends_bind, askStore, ends_ask, ends_bind]
  refine ends_setPeek e.toOn ?_
  have operand := e.operand needs
  have e := e.write (show x.fp + 3 ≤ x.sp - (0 + 1) by omega) (.object x.machine.store.roots.null)
  have operand' := e.operand needs
  generalize (s.setWord (x.sp - (0 + 1)) _) = s' at *
  rw [ends_bind, currentTask, ends_ask]
  refine ends_check_bind (by simp) fun t isTask => ?_
  rw [ends_bind, askStore, ends_ask]
  split
  · rw [ends_bind]
    refine ends_park (e.at_next goesOn leaves) ?_
    exact (Execution.At.suspended (e.at_next goesOn leaves) operand').idle
  · rename_i caller _
    rw [ends_bind, ends_modifyHeap]
    have e := e.grown (.putCaller e.sound.store (.object x.machine.store.roots.null) (cast_eq_ok.mp isTask))
    refine (ends_switchTo (e.at_next goesOn leaves) (e.operand needs)).bind ?_
    rintro - z ⟨⟨s'', atPc⟩, operand''⟩
    exact ends_setPeek atPc.toOn ⟨_, atPc.write (show z.fp + 3 ≤ z.sp - 1 by omega) v⟩

end Calls

/-- A builtin leaves its arguments where they are and adds its answer. -/
theorem ends_callBuiltin {argc index : UInt16} (goesOn : i.goesOn = true)
    (leaves : i.leaves a.fields n = n + 1) :
    Ends (callBuiltin argc index) x (fun _ x' => x.Continues x') x.Interrupted := by
  unfold callBuiltin
  split
  · rfl
  rename_i builtin isBuiltin
  split
  · rfl
  rw [ends_bind]
  refine ends_peek fun this => ?_
  rw [ends_bind]
  refine ends_top fun arguments _ => ?_
  have lawful : builtin.Lawful := Builtin.lawful_of_mem (List.mem_of_find?_eq_some isBuiltin)
  refine (ends_interrupting e.toOn (lawful _ _ _) fun signal => ?_).bind ?_
  · cases signal with
    | allocationFailed size => exact .inl ⟨size, rfl⟩
    | _ => exact .inr (.inl ⟨_, rfl⟩)
  · rintro answer _ ⟨m, rfl, grown, -⟩
    exact ends_grown grown (ends_pushing (e.grown grown) goesOn leaves)

theorem ends_pushGlobal {name : UInt16}
    (goesOn : i.goesOn = true) (leaves : i.leaves a.fields n = n + 1) :
    Ends (pushGlobal name) x (fun _ x' => x.Continues x') x.Interrupted := by
  unfold pushGlobal
  rw [ends_bind]
  refine ends_constant fun name _ => ?_
  refine ends_check_bind (by simp) fun found _ => ?_
  cases found with
  | none => exact ends_failing e (by simp)
  | some v => exact ends_pushing e goesOn leaves

/-- The heap is changed in what nothing that runs depends on. -/
theorem ends_changing {f : Heap → Heap} {next : Exec Unit}
    (grown : x.machine.Grown (· = x.stack) (x.machine.withHeap (f x.heap)))
    (rest : ∀ m, m.store.heap = f x.heap → (x.withMachine m).Executing s a n pc i →
      Ends next (x.withMachine m) (fun _ x' => (x.withMachine m).Continues x')
        (x.withMachine m).Interrupted) :
    Ends (do modifyHeap f; next) x (fun _ x' => x.Continues x') x.Interrupted := by
  rw [ends_bind, ends_modifyHeap]
  exact ends_grown grown (rest _ rfl (e.grown grown))

theorem ends_makeClosure {template count : UInt16} (goesOn : i.goesOn = true)
    (needs : count.toNat ≤ n) (leaves : i.leaves a.fields n = n - count.toNat + 1) :
    Ends (makeClosure template count) x (fun _ x' => x.Continues x') x.Interrupted := by
  unfold makeClosure
  rw [ends_bind]
  refine ends_constant fun template _ => ?_
  refine ends_check_bind (by simp) fun _ _ => ?_
  rw [ends_bind]
  refine ends_top fun captured _ => ?_
  refine ends_making e (Make.keeps_tuple captured) fun outers m _ _ e => ?_
  refine ends_making e (Make.keeps_clone template) fun closure m' _ _ e => ?_
  refine ends_changing e (.adjust e.sound.store fun b _ => ?_) fun _ _ e =>
    ends_replacing e goesOn needs leaves
  cases b with
  | lambda l =>
    exact ⟨⟨rfl, rfl, by simp, by simp [Body.kind]⟩, by rintro _ ⟨⟩; exact ⟨_, rfl, rfl, rfl, rfl⟩,
      by simp [Body.kind], by simp⟩
  | _ => exact .refl _

theorem ends_makeTask (goesOn : i.goesOn = true)
    (needs : 1 ≤ n) (leaves : i.leaves a.fields n = n) :
    Ends makeTask x (fun _ x' => x.Continues x') x.Interrupted := by
  unfold makeTask
  rw [ends_bind]
  refine ends_peek fun v => ?_
  rw [ends_bind]
  refine ends_narrow (fun lambda _ _ => ?_) fun _ => e.abandonable
  rw [ends_bind, ends_ask]
  dsimp only
  refine (ends_alloc e.toOn (Make.keeps_task _)).bind ?_
  rintro task _ ⟨m, rfl, grown, r, caller, absent, isStack, madeTask⟩
  refine ends_check_bind (by simp) fun answer isAnswer => ?_
  obtain ⟨t, isTask, isAnswer⟩ := ok_of_bind isAnswer
  cases (view?_eq_some.mpr madeTask.bodyOf?).symm.trans (cast_eq_ok.mp isTask)
  obtain ⟨s₁, isStack', isAnswer⟩ := ok_of_bind isAnswer
  cases (view?_eq_some.mpr isStack).symm.trans (cast_eq_ok.mp isStack')
  obtain ⟨prepared, isPrepared, isAnswer⟩ := ok_of_bind isAnswer
  cases isAnswer
  rw [ends_bind, ends_modifyHeap]
  have bottom := (e.sound.grown grown).bottom
  have prepared := grown.prepared absent isStack bottom (by simp) isPrepared
  exact ends_grown prepared (ends_updating (e.grown prepared) goesOn needs leaves)

end

/-- The layout behind a constant has as many fields as the discipline knows. -/
theorem fields_of_constant {template : UInt16} {v : Value} {l : Layout}
    (e : x.Executing s a n pc (.new template)) (isLayout : x.heap.view? Layout v = some l)
    (known : ∀ l, x.heap.view? Lambda x.lambda = some l →
      x.heap.fieldCounts l.constants template = x.heap.fieldCount? v) :
    a.fields template = some l.fieldCount := by
  obtain ⟨count, isCount⟩ := Option.isSome_iff_exists.mp (e.disciplined.layouts pc n template e.path
    e.decoded)
  obtain ⟨lambda, _, isLambda, -, -, -, fields⟩ := e.records
  have same := (fields template count isCount).symm.trans (known lambda isLambda)
  simp only [Heap.fieldCount?, isLayout, Option.map_some] at same
  exact isCount.trans same

theorem ends_makeInstance {template : UInt16} (e : x.Executing s a n pc (.new template)) :
    Ends (makeInstance template) x (fun _ x' => x.Continues x') x.Interrupted := by
  unfold makeInstance
  rw [ends_bind]
  refine ends_constant fun v known => ?_
  refine ends_check_bind (by simp) fun l isLayout => ?_
  have isLayout := cast_eq_ok.mp isLayout
  have fields := fields_of_constant e isLayout known
  have needs : (a.fields template).getD 0 + 1 ≤ n := e.needs
  have leaves : (Instruction.new template).leaves a.fields n = n - (a.fields template).getD 0 := rfl
  rw [fields, Option.getD_some] at needs leaves
  refine ends_check_bind (by simp) fun depth _ => ?_
  rw [ends_bind]
  refine ends_below fun _ => ?_
  rw [ends_bind]
  refine ends_valueAt fun protocol => ?_
  refine ends_making e (Make.keeps_clone v) fun layout m grown made e => ?_
  obtain ⟨_, isBody, made⟩ := made
  cases isBody.symm.trans (view?_eq_some.mp isLayout)
  split
  · rfl
  refine ends_changing e (.adjust e.sound.store fun b _ => ?_) fun m' isHeap e => ?_
  · cases b with
    | layout l =>
      exact ⟨⟨rfl, rfl, by rintro _ ⟨⟩; exact ⟨_, rfl, rfl, rfl⟩, by simp [Body.kind]⟩, by simp,
        by simp [Body.kind], by simp⟩
    | _ => exact .refl _
  have isLayout' : m'.store.heap.view? Layout layout = some { l with protocol } := by
    rw [isHeap, view?_eq_some]
    exact (Heap.bodyOf?_adjust made.bodyOf?).trans (by rw [if_pos rfl]; rfl)
  refine ends_making e Make.keeps_inst fun v' m'' _ made' e => ?_
  obtain ⟨_, isLayout'', made'⟩ := made'
  cases isLayout'.symm.trans isLayout''
  rw [ends_bind]
  refine ends_top fun values size => ?_
  split
  · rfl
  refine ends_changing e ?_ fun _ _ e => ends_replacing e rfl needs (by omega)
  refine ⟨e.sound.store.grown_put (fun b found => ?_)
    (by simp [HeapKind.wrap, Body.kind, Body.activeKinds]), rfl, rfl, rfl⟩
  cases made'.bodyOf?.symm.trans found
  exact ⟨rfl, by simp [HeapKind.wrap, Body.size, size]⟩

/-- A marker is two operands more, and the innermost one. -/
theorem ends_mark {handlers : UInt16} (e : x.Executing s a n pc (.mark handlers)) :
    Ends (execute pc next (.mark handlers)) x (fun _ x' => x.Continues x') x.Interrupted := by
  have room : n + 2 ≤ a.maxHeight := e.leaves
  refine ends_bind.mpr (ends_ask.mpr (ends_bind.mpr ?_))
  refine ends_check (by simp) fun marker _ => ends_bind.mpr ?_
  generalize Value.int _ = link
  have frame := e.toFrame.push (show n < a.maxHeight by omega) link
  refine ends_push e.found (ends_bind.mpr (ends_constant fun v _ => ends_bind.mpr ?_))
  have frame' := frame.push (by omega) v
  refine ends_push frame.found ?_
  have spares := (Execution.Spares.push e.toOn e.above link).trans (.push frame.toOn frame.frameAt.room v)
  exact ends_setMarker frame'.toOn (e.continues rfl rfl
    (spares.trans (.withStack frame'.toOn rfl fun _ _ => rfl))
    (frame'.withStack rfl frame'.status frame'.mode) rfl)

/-- The innermost marker is given up with its two operands. -/
theorem ends_unmark (e : x.Executing s a n pc .unmark) :
    Ends (execute pc next .unmark) x (fun _ x' => x.Continues x') x.Interrupted := by
  have needs : 2 ≤ n := e.needs
  refine ends_bind.mpr (ends_below fun _ => ends_bind.mpr ?_)
  refine ends_check (by simp) fun marker _ => ?_
  split
  · rfl
  refine ends_check_bind (by simp) fun outer _ => ?_
  refine ends_bind.mpr (ends_setMarker e.toOn (ends_drop ?_))
  have frame := @Execution.Frame.withStack _ _ { s with marker := outer } _ _ e.toFrame rfl e.status e.mode
  have spares := (@Execution.Spares.withStack _ _ { s with marker := outer } e.toOn rfl
    fun _ _ => rfl).trans (.drop _ Marker.size)
  exact e.continues rfl rfl spares (frame.drop needs) rfl

theorem ends_storeField {index argc : UInt16} (e : x.Executing s a n pc (.storeField index argc)) :
    Ends (execute pc next (.storeField index argc)) x
      (fun _ x' => x.Continues x') x.Interrupted := by
  refine ends_bind.mpr (ends_bind.mpr (ends_argument fun v => ?_))
  refine ends_narrow (fun receiver data _ => ?_) fun _ => e.abandonable
  refine ends_bind.mpr (ends_peek fun v => ?_)
  dsimp only
  split
  · rfl
  split
  · rfl
  rw [ends_modifyHeap]
  refine e.continues_grown rfl rfl (.adjust e.sound.store fun b _ => ?_)
  cases b with
  | inst i => exact .ofPlain rfl (by simp [Body.size]) (by simp [Body.kind, Body.activeKinds])
  | _ => exact .refl _

theorem ends_swap (e : x.Executing s a n pc .swap) :
    Ends (execute pc next .swap) x (fun _ x' => x.Continues x') x.Interrupted := by
  have needs : 2 ≤ n := e.needs
  refine ends_bind.mpr (ends_peek fun above => ends_bind.mpr ?_)
  refine ends_peek fun below => ends_bind.mpr (ends_setPeek e.toOn ?_)
  have first := e.operand_above (show 0 < n by omega)
  exact (ends_updating (e.write first below) rfl needs rfl).imp fun _ _ continues =>
    (Execution.Spares.write e.toOn first below).continues continues

theorem ends_bindForwarder (e : x.Executing s a n pc .bindForwarder) :
    Ends (execute pc next .bindForwarder) x (fun _ x' => x.Continues x') x.Interrupted := by
  have needs : 2 ≤ n := e.needs
  refine ends_bind.mpr (ends_pop fun target => ends_bind.mpr ?_)
  have frame := e.toFrame.drop (show 1 ≤ n by omega)
  refine ends_peek fun v => ends_bind.mpr (ends_ask.mpr ?_)
  split
  · exact frame.abandonable
  rename_i f _
  refine ends_check_bind (by simp) fun bound isBound => ?_
  rw [ends_modifyHeap]
  have grown : x.machine.Grown (· = x.stack) (x.machine.withHeap (x.heap.put f.descriptor bound)) := by
    refine ⟨e.sound.store.grown_put (fun b found => ?_)
      (by simp [HeapKind.wrap, Body.kind, Body.activeKinds]), rfl, rfl, rfl⟩
    obtain ⟨d, isDescriptor, -⟩ := ok_of_bind isBound
    obtain ⟨d', isDescriptor', -⟩ := ok_of_bind isDescriptor
    cases (view?_eq_some.mp (cast_eq_ok.mp isDescriptor')).symm.trans found
    exact ⟨rfl, rfl⟩
  exact e.continues rfl rfl ((Execution.Spares.drop x 1).trans (.grown grown)) (frame.grown grown) rfl

theorem ends_storeCell (e : x.Executing s a n pc .storeCell) :
    Ends (execute pc next .storeCell) x (fun _ x' => x.Continues x') x.Interrupted := by
  have needs : 2 ≤ n := e.needs
  refine ends_bind.mpr (ends_pop fun v => ends_bind.mpr ?_)
  have frame := e.toFrame.drop (show 1 ≤ n by omega)
  refine ends_peek fun target => ends_bind.mpr ?_
  refine ends_narrow (fun cell data isCell => ?_) fun _ => frame.abandonable
  dsimp only
  split
  · rfl
  refine ends_bind.mpr (ends_modifyHeap.mpr ?_)
  have grown : x.machine.Grown (· = x.stack) (x.machine.withHeap (x.heap.put cell (⟨v⟩ : Cell))) :=
    ⟨e.sound.store.grown_put (fun b found => by
      cases (view?_eq_some.mp isCell).symm.trans found
      exact ⟨rfl, rfl⟩) (by simp [HeapKind.wrap, Body.kind, Body.activeKinds]), rfl, rfl, rfl⟩
  have stored := frame.grown grown
  have above : x.fp + 3 ≤ x.sp - 1 - (0 + 1) := e.operand_above needs
  have spares := ((Execution.Spares.drop x 1).trans (.grown grown)).trans (.write stored.toOn above v)
  exact ends_setPeek stored.toOn (e.continues rfl rfl spares (stored.write above v) rfl)

/-- An instruction of which the frame stays on top touches nothing below its operands. -/
theorem ends_execute_within (e : x.Executing s a n pc i) (within : i.staysWithin = true) :
    Ends (execute pc (pc + i.size) i) x (fun _ x' => x.Continues x') x.Interrupted := by
  have needs := e.needs
  cases i with
  | ret | call | invoke | invokeSuper | raise | yield | attach => cases within
  | push index =>
    refine ends_bind.mpr (ends_constant fun _ _ => ?_)
    exact ends_pushing e rfl rfl
  | global name => exact ends_pushGlobal e rfl rfl
  | slap height =>
    have needs : height.toNat + 1 ≤ n := needs
    have room : n - height.toNat ≤ a.maxHeight := e.leaves
    refine ends_bind.mpr (ends_pop fun v => ends_bind.mpr (ends_drop ?_))
    have frame := (e.toFrame.drop (show 1 ≤ n by omega)).drop (show height.toNat ≤ n - 1 by omega)
    have spares := ((Execution.Spares.drop x 1).trans (.drop _ height.toNat)).trans
      (.push frame.toOn frame.frameAt.room v)
    refine ends_push frame.found (e.continues rfl ?_ spares (frame.push (by omega) v) rfl)
    change n - height.toNat = n - 1 - height.toNat + 1
    omega
  | argument index =>
    refine ends_bind.mpr (ends_argument fun _ => ?_)
    exact ends_pushing e rfl rfl
  | pushVoid | pushNull | pushTrue | pushFalse =>
    refine ends_bind.mpr (ends_ask.mpr ?_)
    exact ends_pushing e rfl rfl
  | pop height =>
    exact ends_drop (e.continues rfl rfl (.drop x height.toNat) (e.toFrame.drop needs) rfl)
  | ifTrue target | ifFalse target =>
    refine ends_bind.mpr (ends_pop fun v => ends_bind.mpr ?_)
    have frame := e.toFrame.drop needs
    refine ends_check (by simp) fun holds _ => ?_
    split
    · exact e.jumps rfl (.drop x 1) frame List.mem_cons_self
    · exact e.continues rfl rfl (.drop x 1) frame rfl
  | goto target => exact e.jumps rfl (.refl x) e.toFrame List.mem_cons_self
  | builtin argc index => exact ends_callBuiltin e rfl rfl
  | tuple count =>
    refine ends_bind.mpr (ends_top fun elements _ => ?_)
    exact ends_making e (Make.keeps_tuple elements) fun _ _ _ _ e => ends_replacing e rfl needs rfl
  | concat count =>
    refine ends_bind.mpr (ends_top fun strings _ => ?_)
    exact ends_making e (Builtin.closed_keeps.concatStrings _ _ _) fun _ _ _ _ e => ends_replacing e rfl needs rfl
  | loadLocal index =>
    refine ends_bind.mpr (ends_bind.mpr (ends_ask.mpr (ends_valueAt fun _ => ?_)))
    exact ends_pushing e rfl rfl
  | storeLocal index =>
    refine ends_bind.mpr (ends_peek fun v => ends_setLocal e.toOn ?_)
    have above : x.fp + 3 ≤ x.fp + Frame.size + index.toNat := Nat.le_add_right _ _
    exact e.continues rfl rfl (.write e.toOn above v) (e.toFrame.write above v) rfl
  | checkHeight expected =>
    refine ends_bind.mpr (ends_ask.mpr ?_)
    split
    · rfl
    · exact e.continues rfl rfl (.refl x) e.toFrame rfl
  | outer index =>
    refine ends_check_bind (by simp) fun _ _ => ?_
    exact ends_pushing e rfl rfl
  | closure template count => exact ends_makeClosure e rfl needs rfl
  | mark handlers => exact ends_mark e
  | unmark => exact ends_unmark e
  | new template => exact ends_makeInstance e
  | loadField index argc =>
    refine ends_bind.mpr (ends_bind.mpr (ends_argument fun v => ?_))
    refine ends_narrow (fun receiver instance' _ => ?_) fun _ => e.abandonable
    dsimp only
    split
    · exact ends_pushing e rfl rfl
    · rfl
  | storeField index argc => exact ends_storeField e
  | task => exact ends_makeTask e rfl needs rfl
  | keyword index =>
    refine ends_bind.mpr (ends_bind.mpr (ends_ask.mpr (ends_valueAt fun keymap => ?_)))
    refine ends_check_bind (by simp) fun v _ => ?_
    split
    · refine ends_bind.mpr (ends_argument fun _ => ?_)
      exact ends_pushing e rfl rfl
    · rfl
  | swap => exact ends_swap e
  | newForwarder kind =>
    simp only [execute]
    split
    · rfl
    · refine ends_bind.mpr (ends_peek fun target => ?_)
      exact ends_making e ((Making.forwarder _ _).places rfl).keeps fun _ _ _ _ e => ends_updating e rfl needs rfl
  | bindForwarder => exact ends_bindForwarder e
  | newCell =>
    refine ends_bind.mpr (ends_peek fun content => ?_)
    exact ends_making e ((Making.cell content).places rfl).keeps fun _ _ _ _ e => ends_updating e rfl needs rfl
  | loadCell =>
    refine ends_bind.mpr (ends_peek fun v => ends_bind.mpr ?_)
    refine ends_narrow (fun _ cell _ => ?_) fun _ => e.abandonable
    exact ends_updating e rfl needs rfl
  | storeCell => exact ends_storeCell e

/-- Every instruction keeps the invariant of calls, or is interrupted. -/
theorem ends_execute (e : x.Executing s a n pc i) :
    Ends (execute pc (pc + i.size) i) x (fun _ x' => x'.Running) x.Interrupted := by
  cases within : i.staysWithin with
  | true =>
    exact (ends_execute_within e within).imp fun _ _ continues => continues.running
  | false =>
    cases i with
    | ret => exact ends_leave e.toFrame e.needs
    | call argc =>
      refine ends_bind.mpr (ends_peek fun v => ends_bind.mpr ?_)
      refine ends_narrow (fun lambda l isLambda => ?_) fun _ => e.abandonable
      exact ends_entering e rfl rfl (Nat.le_add_left 1 _) isLambda
    | invoke selector argc keymap =>
      change Ends (invoke selector argc keymap none _) _ _ _
      exact ends_invoke e rfl rfl (Nat.le_add_left 1 _)
    | invokeSuper selector argc keymap signature =>
      change Ends (invoke selector argc keymap (some signature) _) _ _ _
      exact ends_invoke e rfl rfl (Nat.le_add_left 1 _)
    | raise name argc => exact ends_raise e rfl rfl (Nat.le_max_right _ _)
    | yield => exact ends_yield e rfl rfl le_rfl
    | attach => exact ends_attach e rfl rfl le_rfl
    | _ => cases within

theorem ends_step (running : x.Running) : Ends step x (fun _ x' => x'.Running) x.Interrupted := by
  unfold step
  refine ends_bind.mpr (ends_ask.mpr ?_)
  split
  · rename_i isBottom
    obtain ⟨s, atPc⟩ := running
    obtain ⟨atStart, operand⟩ := atPc.ofBottom isBottom 0
    unfold start
    refine ends_bind.mpr (ends_ask.mpr (ends_bind.mpr (ends_bind.mpr ?_)))
    refine ends_ask.mpr (ends_valueAt fun v => ends_bind.mpr ?_)
    exact ends_narrow (fun lambda l isLambda => ends_enter atStart operand isLambda) fun _ => atPc.abandonable
  · rename_i above
    obtain ⟨s, a, n, frame, path⟩ := running.frame above
    refine ends_bind.mpr (ends_ask.mpr (ends_bind.mpr ?_))
    refine ends_check (by simp) fun i decoded => ?_
    obtain ⟨l, isLambda, decoded⟩ := ok_of_bind decoded
    obtain ⟨c, isCode, decoded⟩ := ok_of_bind decoded
    obtain ⟨l', c', isLambda', isCode', units, -⟩ := frame.records
    cases (cast_eq_ok.mp isLambda).symm.trans isLambda'
    cases (cast_eq_ok.mp isCode).symm.trans isCode'
    refine ends_bind.mpr (ends_report.mpr (ends_bind.mpr (ends_jump.mpr ?_)))
    generalize x.machine.log.add .trace _ = log
    have grown : x.machine.Grown (· = x.stack) { x.machine with log } :=
      ⟨.refl frame.sound.store, rfl, rfl, rfl⟩
    have e : Execution.Executing { x.withMachine { x.machine with log } with pc := x.pc + i.size }
        s a n x.pc i := ⟨(frame.grown grown).withPc _, path, units ▸ decoded, rfl⟩
    exact (ends_execute e).mono (fun _ _ running => running) fun _ _ interrupted =>
      Execution.Stalled.interrupted ⟨{ x.machine with log }, x.pc + i.size, rfl, grown⟩ interrupted

end Exec

end ObjectMachine
