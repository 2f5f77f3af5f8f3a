/-
# ObjectMachine.Proofs.Execution -- a call in the middle of an instruction

`Execution.Running x` is the invariant of calls: the frames of the running stack form a chain from
the registers down to the bottom frame, every other stack is at rest, and the machine is sound.
Inside an instruction the top frame is described by `Execution.Frame x s a n`: it runs the code that
`a` records and has `n` operands of its own.

* `Execution.Frame.running` -- a frame that some path of its code is at is a running call.
* `Exec.ends_push`, `Exec.ends_drop`, `Exec.ends_setPeek`, `Exec.ends_setLocal` -- what happens to
  the operands.
* `Exec.ends_alloc` -- an instruction that runs out of room has changed nothing.
-/
import Mathlib
import ObjectMachine.Proofs.Machines

namespace ObjectMachine

open ObjectMachine.Action (Ends ends_bind)

namespace Heap

variable {h : Heap} {busy : Ref → Prop} {v : Value} {r : Ref} {s s' : Stack}

/-- A change is only asked about the body it finds. -/
theorem adjust_congr {f g : Body → Body} {b : Body} (found : h.bodyOf? v = some b)
    (same : f b = g b) : h.adjust v f = h.adjust v g := by
  obtain ⟨r, o, rfl, isObject, rfl⟩ := bodyOf?_eq_some.mp found
  simp only [adjust]
  congr 1
  apply Array.ext_getElem?
  intro i
  simp only [Array.getElem?_modify]
  by_cases here : r.position = i
  · subst here
    rw [object?_eq_some] at isObject
    simp [isObject, same]
  · simp [here]

/-- Writing what is there already changes nothing. -/
theorem put_self {α : Type} [HeapKind α] {data : α}
    (found : h.bodyOf? v = some (HeapKind.wrap data)) : h.put v data = h := by
  obtain ⟨r, o, rfl, isObject, isBody⟩ := bodyOf?_eq_some.mp found
  simp only [put, adjust]
  congr 1
  refine Array.ext_getElem? fun i => ?_
  rw [Array.getElem?_modify]
  split
  · rename_i here
    subst here
    rw [show h.objects[r.position]? = some o from isObject, ← isBody]
    rfl
  · rfl

theorem adjustStack_eq_put (found : h.bodyOf? v = some (.stack s)) (f : Stack → Stack) :
    h.adjustStack v f = h.put v (f s) := adjust_congr found rfl

theorem bodyOf?_put {α : Type} [HeapKind α] {b : Body} (found : h.bodyOf? v = some b) (data : α) :
    (h.put v data).bodyOf? v = some (HeapKind.wrap data) := by
  rw [put, bodyOf?_adjust found, if_pos rfl]

theorem put_stack_similar (found : h.bodyOf? (.object r) = some (.stack s))
    (height : s'.height = s.height) (b : Body) (isBody : h.bodyOf? (.object r) = some b) :
    b.Similar (.stack s') := by
  cases found.symm.trans isBody
  exact ⟨rfl, by simp [Body.size, height], by simp, by simp [Body.kind]⟩

theorem put_stack_evolves (found : h.bodyOf? (.object r) = some (.stack s))
    (height : s'.height = s.height) : h.Evolves (· = r) (h.put (.object r) s') := by
  refine adjust_evolves (put_stack_similar found height) ?_ ?_
  · rintro _ b ⟨⟩ _ tight
    exact absurd rfl tight
  · intro l isLambda
    cases found.symm.trans isLambda

theorem Sound.put_stack (sound : h.Sound busy) (found : h.bodyOf? (.object r) = some (.stack s))
    (height : s'.height = s.height) (isBusy : busy r) : (h.put (.object r) s').Sound busy := by
  refine sound.adjust (put_stack_evolves found height) (fun q _ _ same => same ▸ isBusy)
    (put_stack_similar found height) ?_
  intro l l' isLambda
  cases found.symm.trans isLambda

end Heap

/-- What a frame is known by while it is on top: the frame below it, where its operands start, where
the frame below goes on, and its code. -/
structure Activation where
  below : Nat
  base : Nat
  counter : Int
  units : Array UInt16
  /-- Numbers of fields of the layouts among the constants, as far as they are known. -/
  fields : UInt16 → Option Nat
  maxHeight : Nat

namespace Execution

/-- The call with another machine. -/
def withMachine (x : Execution) (machine : Machine) : Execution := { x with machine }

/-- The call with another stack in the place of the running one. -/
def withStack (x : Execution) (s : Stack) : Execution :=
  x.withMachine (x.machine.withHeap (x.machine.store.heap.put (.object x.stack) s))

/-- The stack of the registers. -/
abbrev Stacked (x : Execution) (s : Stack) : Prop :=
  x.machine.store.heap.bodyOf? (.object x.stack) = some (.stack s)

/-- The call runs on `s`, and is the only one that runs. -/
structure On (x : Execution) (s : Stack) : Prop where
  sound : x.machine.Sound (· = x.stack)
  hosts : x.machine.Hosts x.currentTask x.stack
  found : x.Stacked s
  status : s.status = .running
  mode : s.mode = .linked
  limit : x.limit = s.height - Frame.reserved * Frame.size

/-- The lambda runs the code that is recorded. -/
def Records (h : Heap) (v : Value) (a : Activation) : Prop :=
  ∃ l c, h.view? Lambda v = some l ∧ h.view? Code l.code = some c ∧ c.units = a.units ∧
    l.maxHeight = a.maxHeight ∧
    ∀ index count, a.fields index = some count → h.fieldCounts l.constants index = some count

/-- The top frame has `n` operands. -/
structure Frame (x : Execution) (s : Stack) (a : Activation) (n : Nat) : Prop extends x.On s where
  frameAt : Stack.FrameAt s.words (.address x.stack a.below) x.fp x.sp x.lambda a.counter
  base_ge : x.fp + 3 ≤ a.base
  base_le : a.base ≤ x.fp + 4
  sp_eq : x.sp = a.base + n
  records : Records x.machine.store.heap x.lambda a
  disciplined : Disciplined a.units a.fields a.maxHeight
  fits : a.base + a.maxHeight ≤ x.limit
  answer : a.below + 3 < x.fp
  rest : x.machine.store.heap.Chain s.words (.address x.stack) x.limit a.below x.fp (Size.ofInt a.counter)

/-- The frames of the call form a chain, the top one being at `pc`. -/
structure At (x : Execution) (s : Stack) (pc : Nat) : Prop extends x.On s where
  registered : s.words[x.fp + 2]? = some (.value x.lambda)
  chain : x.machine.store.heap.Chain s.words (.address x.stack) x.limit x.fp x.sp pc

/-- The invariant of calls. -/
def Running (x : Execution) : Prop := ∃ s, x.At s x.pc

variable {x : Execution} {s s' : Stack} {a : Activation} {n : Nat} {m : Machine}

theorem On.grown (on : x.On s) (grown : x.machine.Grown (· = x.stack) m) :
    (x.withMachine m).On s where
  sound := on.sound.grown grown
  hosts := on.hosts.evolve grown.store.evolves (fun _ _ _ => id) (by rw [withMachine, grown.references])
  found := grown.store.evolves.stack on.found id
  status := on.status
  mode := on.mode
  limit := on.limit

theorem On.evolves (on : x.On s) (height : s'.height = s.height) :
    x.heap.Evolves (· = x.stack) (x.withStack s').heap :=
  Heap.put_stack_evolves on.found height

theorem On.task_ne (on : x.On s) (r : Ref) (t : Task)
    (isTask : x.heap.view? Task (.object r) = some t) : ¬ r = x.stack := by
  rintro rfl
  cases on.found.symm.trans (Heap.view?_eq_some.mp isTask)

theorem On.withStack (on : x.On s) (height : s'.height = s.height) (status : s'.status = .running)
    (mode : s'.mode = .linked) : (x.withStack s').On s' where
  sound := on.sound.withHeap (on.evolves height) (on.sound.store.heap.put_stack on.found height rfl)
  hosts := on.hosts.evolve (on.evolves height) on.task_ne rfl
  found := Heap.bodyOf?_put on.found s'
  status := status
  mode := mode
  limit := by
    rw [height]
    exact on.limit

theorem Records.evolve {h h' : Heap} {loose : Ref → Prop} {v : Value} (records : Records h v a)
    (evolves : h.Evolves loose h') : Records h' v a := by
  obtain ⟨l, c, isLambda, isCode, units, declared, known⟩ := records
  obtain ⟨l', isLambda', code, constants, declared'⟩ := evolves.lambda v l isLambda
    (Heap.is_iff.mpr ⟨c, isCode⟩)
  refine ⟨l', c, isLambda', by rw [code]; exact evolves.view_fixed (by decide) isCode, units,
    declared'.trans declared, fun index count isField => ?_⟩
  rw [constants]
  exact evolves.fieldCounts _ _ _ (known index count isField)

theorem Frame.grown (frame : x.Frame s a n) (grown : x.machine.Grown (· = x.stack) m) :
    (x.withMachine m).Frame s a n :=
  { frame with
    toOn := frame.toOn.grown grown
    records := frame.records.evolve grown.store.evolves
    rest := grown.store.evolves.chain frame.rest }

/-- A path of the code is at the next instruction. -/
theorem Frame.at (frame : x.Frame s a n) {pc : Nat} (path : HeightAt a.units a.fields pc n) :
    x.At s pc := by
  obtain ⟨l, c, isLambda, isCode, units, declared, known⟩ := frame.records
  refine ⟨frame.toOn, frame.frameAt.lambda, .frame frame.frameAt frame.base_ge frame.base_le
    frame.sp_eq ⟨isLambda, isCode, ?_, ?_⟩ (declared ▸ frame.fits) frame.answer frame.rest⟩
  · rw [units, declared]
    exact frame.disciplined.mono known
  · rw [units]
    exact (frame.disciplined.heightAt_iff known).mpr path

theorem Frame.running (frame : x.Frame s a n) (path : HeightAt a.units a.fields x.pc n) :
    x.Running := ⟨s, frame.at path⟩

/-- Above the bottom frame, a running call is in a frame with code. -/
theorem Running.frame (running : x.Running) (above : x.fp ≠ 0) :
    ∃ s a n, x.Frame s a n ∧ HeightAt a.units a.fields x.pc n := by
  obtain ⟨s, on, isLambda, chain⟩ := running
  generalize isFrame : x.fp = frame at *
  cases chain with
  | bottom => exact absurd rfl above
  | @frame _ below _ _ base height v counter l c frameAt base_ge base_le above_eq runs fits answer rest =>
    subst isFrame
    cases frameAt.lambda.symm.trans isLambda
    exact ⟨s, ⟨below, base, counter, c.units, x.heap.fieldCounts l.constants,
      l.maxHeight⟩, height, ⟨on, frameAt, base_ge, base_le, above_eq,
      ⟨l, c, runs.lambda, runs.code, rfl, rfl, fun _ _ known => known⟩, runs.disciplined, fits,
      answer, rest⟩, runs.path⟩

section Operands

theorem Frame.sp_le_limit (frame : x.Frame s a n) (low : n ≤ a.maxHeight) : x.sp ≤ x.limit := by
  have := frame.fits
  have := frame.sp_eq
  omega

theorem On.limit_le (on : x.On s) : x.limit ≤ s.words.size := by
  have := on.limit
  simp only [Stack.height] at this
  omega

/-- A value may be written anywhere above the header of the top frame. -/
theorem Frame.write (frame : x.Frame s a n) {offset : Nat} (above : x.fp + 3 ≤ offset) (v : Value) :
    (x.withStack (s.setWord offset (.value v))).Frame (s.setWord offset (.value v)) a n := by
  have height : (s.setWord offset (.value v)).height = s.height := by
    simp [Stack.height, Stack.setWord]
  have evolves := frame.toOn.evolves height
  refine { toOn := frame.toOn.withStack height frame.status frame.mode, frameAt := ?_,
           base_ge := frame.base_ge, base_le := frame.base_le, sp_eq := frame.sp_eq,
           records := frame.records.evolve evolves, disciplined := frame.disciplined,
           fits := frame.fits, answer := frame.answer, rest := ?_ }
  · exact frame.frameAt.write above v
  · refine (evolves.chain frame.rest).congr fun i low => ?_
    exact Array.getElem?_setIfInBounds_ne (by omega)

/-- The call with one operand more. -/
def pushed (x : Execution) (s : Stack) (v : Value) : Execution :=
  { x.withStack (s.setWord x.sp (.value v)) with sp := x.sp + 1 }

theorem Frame.push (frame : x.Frame s a n) (room : n < a.maxHeight) (v : Value) :
    (x.pushed s v).Frame (s.setWord x.sp (.value v)) a (n + 1) := by
  have written := frame.write frame.frameAt.room v
  have inside := frame.sp_le_limit room.le
  have := frame.fits
  have := frame.sp_eq
  have := frame.toOn.limit_le
  exact { written with
    frameAt := frame.frameAt.push v (by omega)
    sp_eq := show x.sp + 1 = a.base + (n + 1) by omega }

/-- The call with `count` operands less. -/
def dropped (x : Execution) (count : Nat) : Execution := { x with sp := x.sp - count }

theorem Frame.drop (frame : x.Frame s a n) {count : Nat} (le : count ≤ n) :
    (x.dropped count).Frame s a (n - count) := by
  have := frame.sp_eq
  have := frame.base_ge
  exact { frame with
    frameAt := frame.frameAt.drop (show x.fp + 3 ≤ x.sp - count by omega) (Nat.sub_le _ _)
    sp_eq := show x.sp - count = a.base + (n - count) by omega }

theorem Frame.withPc (frame : x.Frame s a n) (pc : Nat) : ({ x with pc } : Execution).Frame s a n :=
  { frame with }

end Operands

end Execution

namespace Exec

open Execution (Frame On)

variable {x : Execution} {s : Stack} {a : Activation} {n : Nat} {done : Unit → Execution → Prop}
  {raised : Interrupt → Execution → Prop}
variable {answered : Value → Execution → Prop} {index : Nat} {count : Nat}

@[simp] theorem ends_modifyHeap {f : Heap → Heap} : Ends (modifyHeap f) x done raised ↔
    done () (x.withMachine (x.machine.withHeap (f x.heap))) := Iff.rfl

@[simp] theorem ends_report {level : LogLevel} {message : Unit → String} :
    Ends (report level message) x done raised ↔
      done () (x.withMachine { x.machine with log := x.machine.log.add level message }) := Iff.rfl

theorem write_eq (found : x.Stacked s) (offset : Nat) (slot : Slot) :
    write offset slot x = .ok () (x.withStack (s.setWord offset slot)) := by
  refine congrArg (fun h => EStateM.Result.ok () { x with machine := x.machine.withHeap h })
    (Heap.adjust_congr found ?_)
  rfl

theorem adjustStack_eq (found : x.Stacked s) (f : Stack → Stack) :
    modifyHeap (fun h => h.adjustStack x.stack f) x = .ok () (x.withStack (f s)) := by
  rw [Execution.withStack, ← Heap.adjustStack_eq_put found]
  rfl

theorem ends_write (found : x.Stacked s) {offset : Nat} {slot : Slot} :
    Ends (write offset slot) x done raised ↔ done () (x.withStack (s.setWord offset slot)) := by
  rw [Ends, write_eq found]

theorem ends_adjustStack (found : x.Stacked s) {f : Stack → Stack} :
    Ends (modifyHeap fun h => h.adjustStack x.stack f) x done raised ↔
      done () (x.withStack (f s)) := by
  rw [Ends, adjustStack_eq found]

theorem ends_push (found : x.Stacked s) {v : Value} (holds : done () (x.pushed s v)) :
    Ends (push v) x done raised := by
  unfold push
  split
  · rfl
  · rw [ends_bind, ends_ask, ends_bind, ends_write found]
    exact holds

theorem ends_below {answered : Nat → Execution → Prop}
    (holds : count ≤ x.sp → answered (x.sp - count) x) : Ends (below count) x answered raised := by
  refine ends_check (by simp) fun offset isOffset => ?_
  split at isOffset
  · cases isOffset
    exact holds (by assumption)
  · cases isOffset

theorem ends_drop (holds : done () (x.dropped count)) : Ends (drop count) x done raised := by
  unfold drop
  rw [ends_bind]
  exact ends_below fun _ => holds

theorem ends_valueAt {offset : Nat} (holds : ∀ v, answered v x) :
    Ends (valueAt offset) x answered raised :=
  ends_check (by simp) fun v _ => holds v

theorem ends_peek (holds : ∀ v, answered v x) : Ends (peek index) x answered raised := by
  unfold peek
  rw [ends_bind]
  exact ends_below fun _ => ends_valueAt holds

theorem ends_pop (holds : ∀ v, answered v (x.dropped 1)) : Ends pop x answered raised := by
  unfold pop
  rw [ends_bind]
  refine ends_peek fun v => ?_
  rw [ends_bind]
  exact ends_drop (holds v)

theorem ends_setPeek (on : x.On s) {v : Value}
    (holds : done () (x.withStack (s.setWord (x.sp - (index + 1)) (.value v)))) :
    Ends (setPeek index v) x done raised := by
  unfold setPeek
  rw [ends_bind]
  refine ends_below fun _ => ?_
  rw [ends_write on.found]
  exact holds

theorem ends_setLocal (on : x.On s) {v : Value}
    (holds : done () (x.withStack (s.setWord (x.fp + Frame.size + index) (.value v)))) :
    Ends (setLocal index v) x done raised := by
  unfold setLocal
  rw [ends_bind, ends_ask, ends_write on.found]
  exact holds

theorem length_of_mapM {α β : Type} {f : α → Except Violation β} {list : List α} {answers : List β}
    (isAnswers : list.mapM f = .ok answers) : answers.length = list.length := by
  induction list generalizing answers with
  | nil => cases isAnswers; rfl
  | cons a list ih =>
    rw [List.mapM_cons] at isAnswers
    obtain ⟨b, -, isAnswers⟩ := ok_of_bind isAnswers
    obtain ⟨rest, isRest, isAnswers⟩ := ok_of_bind isAnswers
    cases isAnswers
    simp [ih isRest]

theorem ends_top {answered : Array Value → Execution → Prop}
    (holds : ∀ values, values.size = count → answered values x) :
    Ends (top count) x answered raised := by
  unfold top
  rw [ends_bind]
  refine ends_below fun _ => ends_check ?_ fun values isValues => holds values ?_
  · simp only [Calm.bind_iff]
    exact ⟨by simp [runningStack], fun s _ => ⟨Calm.mapM fun _ _ => by simp, fun _ _ => by simp⟩⟩
  · obtain ⟨s, -, isValues⟩ := ok_of_bind isValues
    obtain ⟨list, isList, isValues⟩ := ok_of_bind isValues
    cases isValues
    simpa using length_of_mapM isList

theorem ends_argument (holds : ∀ v, answered v x) : Ends (argument index) x answered raised := by
  unfold argument
  exact ends_check_bind (by simp) fun _ _ => ends_valueAt holds

theorem ends_constant {index : UInt16} (holds : ∀ v, (∀ l, x.heap.view? Lambda x.lambda = some l →
      x.heap.fieldCounts l.constants index = x.heap.fieldCount? v) →
      answered v x) : Ends (constant index) x answered raised := by
  refine ends_check (by simp) fun v isConstant => holds v fun l isLambda => ?_
  obtain ⟨l', isLambda', isConstant⟩ := ok_of_bind isConstant
  cases (Heap.cast_eq_ok.mp isLambda').symm.trans isLambda
  obtain ⟨t, isTuple, isConstant⟩ := ok_of_bind isConstant
  have isTuple := Heap.cast_eq_ok.mp isTuple
  cases inside : t.elements[index.toNat]? with
  | none => simp [inside] at isConstant
  | some element =>
    simp only [inside] at isConstant
    cases isConstant
    simp [Heap.fieldCounts, isTuple, Heap.fieldCountsIn, inside]

end Exec

/-- The task in a slot can be given up: its stack is the only one that may not be at rest. -/
def Machine.Abandonable (m : Machine) (index : Nat) : Prop := ∃ home, m.Sound (· = home) ∧ m.Hosts index home

namespace Execution

variable {x x' x'' : Execution} {s : Stack} {a : Activation} {n : Nat} {m : Machine}

/-- Nothing has happened since `x` but that objects were made. -/
def Stalled (x x' : Execution) : Prop :=
  ∃ machine pc, x' = { x with machine, pc } ∧ x.machine.Grown (· = x.stack) machine

/-- How an instruction that was started at `x` leaves a call when it is not completed. A higher
stack or the code of a lambda is only asked for by a frame that has an operand to be answered
into. -/
def Interrupted (x : Execution) : Interrupt → Execution → Prop
  | .collect _, x' => x.Stalled x'
  | .grow _, x' => x.Stalled x' ∧ x.fp + 3 < x.sp
  | .compile v, x' => x.Stalled x' ∧ x.fp + 3 < x.sp ∧ ∃ l, x'.machine.store.heap.view? Lambda v = some l ∧
        ¬ x'.machine.store.heap.is Code l.code = true
  | .done _, x' => x'.machine.Idle
  | .failed _, x' => x'.machine.Abandonable x'.currentTask

theorem Stalled.refl (on : x.On s) : x.Stalled x := ⟨x.machine, x.pc, rfl, .refl on.sound.store⟩

theorem Stalled.trans (first : x.Stalled x') (second : x'.Stalled x'') : x.Stalled x'' := by
  obtain ⟨machine, pc, rfl, grown⟩ := first
  obtain ⟨machine', pc', rfl, grown'⟩ := second
  exact ⟨machine', pc', rfl, grown.trans grown'⟩

theorem Stalled.interrupted {interrupt : Interrupt} (stalled : x.Stalled x')
    (interrupted : x'.Interrupted interrupt x'') : x.Interrupted interrupt x'' := by
  obtain ⟨machine, pc, rfl, -⟩ := id stalled
  cases interrupt with
  | collect size => exact stalled.trans interrupted
  | grow height => exact ⟨stalled.trans interrupted.1, interrupted.2⟩
  | compile v => exact ⟨stalled.trans interrupted.1, interrupted.2⟩
  | done answer => exact interrupted
  | failed error => exact interrupted

theorem Stalled.ofGrown (grown : x.machine.Grown (· = x.stack) m) : x.Stalled (x.withMachine m) :=
  ⟨m, x.pc, rfl, grown⟩

theorem On.abandonable (on : x.On s) : x.machine.Abandonable x.currentTask := ⟨x.stack, on.sound, on.hosts⟩

end Execution

namespace Exec

variable {α : Type} {x : Execution} {s : Stack}

/-- Work that makes objects ends as a signal does, or with an answer. -/
theorem ends_interrupting {work : Op Signal α}
    {post : α → Machine → Prop} {interrupt : Signal → Interrupt}
    (on : x.On s) (keeps : Machine.Keeps (· = x.stack) work x.machine post)
    (means : ∀ signal, (∃ size, interrupt signal = .collect size) ∨
      (∃ error, interrupt signal = .failed error) ∨ signal.isOverflow = true) :
    Ends (onMachine (Action.mapError interrupt work)) x (fun answer x' => ∃ m,
      x' = x.withMachine m ∧ x.machine.Grown (· = x.stack) m ∧ post answer m) x.Interrupted := by
  rw [ends_onMachine, Action.ends_mapError]
  refine (keeps on.sound.store).mono (fun answer m ⟨grown, holds⟩ => ⟨m, rfl, grown, holds⟩) ?_
  rintro signal m ⟨grown, fine⟩
  obtain ⟨size, isCollect⟩ | ⟨error, isFailed⟩ | overflow := means signal
  · rw [isCollect]
    exact .ofGrown grown
  · rw [isFailed]
    exact (on.grown grown).abandonable
  · rw [overflow] at fine
    cases fine

theorem ends_alloc {work : Alloc α} {post : α → Store → Prop} (on : x.On s)
    (keeps : Store.Keeps (· = x.stack) work x.machine.store post) :
    Ends (alloc work) x (fun answer x' => ∃ m, x' = x.withMachine m ∧
      x.machine.Grown (· = x.stack) m ∧ post answer m.store) x.Interrupted := by
  refine ends_interrupting on (Machine.keeps_onStore keeps) fun signal => ?_
  cases signal with
  | allocationFailed size => exact .inl ⟨size, rfl⟩
  | stackOverflow height => exact .inr (.inr rfl)
  | _ => exact .inr (.inl ⟨_, rfl⟩)

theorem ends_narrow {κ : Type} [HeapKind κ] {v : Value} {answered : Value × κ → Execution → Prop}
    {raised : Interrupt → Execution → Prop}
    (holds : ∀ target data, x.heap.view? κ target = some data → answered (target, data) x)
    (fails : ∀ error, raised (.failed error) x) : Ends (narrow κ v) x answered raised := by
  unfold narrow alloc
  rw [ends_onMachine, Action.ends_mapError, Machine.ends_onStore]
  unfold Store.narrow
  rw [ends_bind]
  refine Store.ends_check (by simp) fun target _ => ?_
  rw [ends_bind, Store.ends_ask]
  cases found : x.heap.view? κ target with
  | none => exact fails _
  | some data => exact holds target data found

end Exec

end ObjectMachine
