/-
# ObjectMachine.Proofs.Strides -- what a step does to pictures

A step changes one stack, and that only in one of five ways (`Picture.Step`): the top frame stays
with what lies below its operands, a frame or a marker comes, or one goes. Every other stack shows
what it showed, or has got an answer on top if a task has been left.

* `Exec.unmarked_execute` -- only some instructions touch the innermost marker.
* `Execution.depicts_suspended` -- which pictures there are while a call runs.
* `Exec.execute_pictures`, `Exec.leave_pictures` -- one instruction, and the end of a frame.
* `Exec.step_pictures` -- any step.
-/
import Mathlib
import ObjectMachine.Proofs.Stepping

namespace ObjectMachine

open ObjectMachine.Action (Ends asks_violate bind_eq_of_ok bind_ok)
open Heap (bodyOf?_adjust bodyOf?_eq_some cast_eq_ok view?_eq_some view?_iff)

namespace Execution

/-- The running stack is the same, and has the innermost marker that it had, if it still is a
stack. -/
def KeepsMarker (x y : Execution) : Prop :=
  y.stack = x.stack ∧ ∀ b, x.machine.store.heap.bodyOf? (.object x.stack) = some b →
    ∃ b', y.machine.store.heap.bodyOf? (.object x.stack) = some b' ∧
      ∀ s', b' = .stack s' → ∃ s, b = .stack s ∧ s'.marker = s.marker

theorem KeepsMarker.of_heap {x y : Execution} (stack : y.stack = x.stack)
    (heap : y.machine.store.heap = x.machine.store.heap) : x.KeepsMarker y :=
  ⟨stack, fun b found => ⟨b, heap ▸ found, fun s' isStack => ⟨s', isStack, rfl⟩⟩⟩

instance : IsPreorder Execution KeepsMarker where
  refl _ := .of_heap rfl rfl
  trans x y z first second := by
    refine ⟨second.1.trans first.1, fun b found => ?_⟩
    obtain ⟨b', found', same⟩ := first.2 b found
    rw [← first.1] at found'
    obtain ⟨b'', found'', same'⟩ := second.2 b' found'
    rw [first.1] at found''
    refine ⟨b'', found'', fun s'' isStack => ?_⟩
    obtain ⟨s', isStack', marker'⟩ := same' s'' isStack
    obtain ⟨s, isStack, marker⟩ := same s' isStack'
    exact ⟨s, isStack, marker'.trans marker⟩

theorem Undisturbed.keepsMarker {x y : Execution} (undisturbed : x.Undisturbed y) :
    x.KeepsMarker y := by
  refine ⟨undisturbed.stack, fun b found => ⟨b, ?_, fun s' isStack => ⟨s', isStack, rfl⟩⟩⟩
  obtain ⟨_, o, ⟨⟩, isObject, rfl⟩ := bodyOf?_eq_some.mp found
  exact bodyOf?_eq_some.mpr ⟨_, o, rfl, undisturbed.machine.store.heap.object _ o isObject, rfl⟩

end Execution

namespace Exec

section Markers

variable {α : Type}

/-- Work that leaves the innermost marker alone. -/
abbrev Unmarked (work : Exec α) : Prop := Action.Gentle Execution.KeepsMarker (fun _ => False) work

theorem unmarked_of_answered {work : Exec α}
    (answered : ∀ x answer y, work x = .ok answer y → x.KeepsMarker y) : Unmarked work :=
  ⟨answered, fun _ _ _ _ absurd => absurd.elim⟩

theorem Gentle.unmarked {work : Exec α} (gentle : Gentle work) : Unmarked work :=
  unmarked_of_answered fun x answer y done => (gentle.answered x answer y done).keepsMarker

/-- A change after which a stack is a stack with the same marker, or none. -/
theorem unmarked_adjust (v : Value) {f : Body → Body}
    (keeps : ∀ b s', f b = .stack s' → ∃ s, b = .stack s ∧ s'.marker = s.marker) :
    Unmarked (modifyHeap fun h => h.adjust v f) := by
  refine unmarked_of_answered ?_
  rintro x _ _ ⟨⟩
  refine ⟨rfl, fun b found => ⟨_, bodyOf?_adjust found, fun s' isStack => ?_⟩⟩
  split at isStack
  · exact keeps b s' isStack
  · exact ⟨s', isStack, rfl⟩

theorem unmarked_write (offset : Nat) (slot : Slot) : Unmarked (write offset slot) := by
  refine unmarked_of_answered ?_
  rintro x _ _ ⟨⟩
  refine ⟨rfl, fun b found => ⟨_, bodyOf?_adjust found, fun s' isStack => ?_⟩⟩
  rw [if_pos rfl] at isStack
  cases b with
  | stack s =>
    cases isStack
    exact ⟨s, rfl, rfl⟩
  | _ => cases isStack

theorem unmarked_registers {work : Exec Unit}
    (answers : ∀ x, ∃ fp sp pc lambda, work x = .ok () { x with fp, sp, pc, lambda }) : Unmarked work :=
  unmarked_of_answered fun x answer y done => by
    obtain ⟨_, _, _, _, isAnswer⟩ := answers x
    cases done.symm.trans isAnswer
    exact .of_heap rfl rfl

theorem unmarked_uniform : Uniform @Store.Adds @Unmarked where
  bind isFirst rest := isFirst.bind rest
  asks asks := asks.gentle
  write := unmarked_write
  registers := unmarked_registers
  allots := Make.adds
  make adds _ _ := (gentle_onMachine (Machine.gentle_onStore adds)).unmarked
  print call f := unmarked_of_answered fun x answer y done => by
    obtain ⟨m, isDone, rfl⟩ := onMachine_ok done
    obtain ⟨_, -, isDone₁⟩ := (Action.asks_lift _).bind_ok isDone
    obtain ⟨_, -, isDone₂⟩ := (Machine.asks_check _).bind_ok isDone₁
    obtain ⟨_, m₃, ⟨⟩, ⟨⟩⟩ := bind_ok isDone₂
    exact .of_heap rfl rfl
  fail _ _ := Action.gentle_fail _
  adjust := unmarked_adjust

/-- The stack of a new task is not the one that runs. -/
theorem unmarked_makeTask : Unmarked makeTask := by
  refine (asks_peek 0).gentle.bind fun v => (unmarked_uniform.passes.narrow Lambda v).bind fun (lambda, l) =>
    (asks_ask _).gentle.bind fun height => unmarked_of_answered fun x answer y done => ?_
  obtain ⟨task, x₁, made, done₁⟩ := bind_ok done
  obtain ⟨-, -, home, q, rfl, absent, -, -, isTask⟩ := (within_alloc (Make.within_task height)).answer made
  have first := (gentle_alloc (Make.adds.task height)).answered _ _ _ made
  obtain ⟨⟨stack, prepared⟩, isPrepared, done₂⟩ := check_bind_ok done₁
  obtain ⟨t, isTask', isPrepared⟩ := ok_of_bind isPrepared
  cases isTask.symm.trans (cast_eq_ok.mp isTask')
  obtain ⟨s, -, isPrepared⟩ := ok_of_bind isPrepared
  obtain ⟨_, -, isPrepared⟩ := ok_of_bind isPrepared
  cases isPrepared
  obtain ⟨_, x₃, ⟨⟩, done₃⟩ := bind_ok done₂
  have last := (unmarked_uniform.setPeek 0 _).answered _ _ _ done₃
  refine IsTrans.trans _ _ _ ?_ last
  refine ⟨first.stack, fun b found => ⟨b, ?_, fun s' isStack => ⟨s', isStack, rfl⟩⟩⟩
  obtain ⟨_, o, ⟨⟩, isObject, rfl⟩ := bodyOf?_eq_some.mp found
  have found' := bodyOf?_eq_some.mpr ⟨x.stack, o, rfl, first.machine.store.heap.object _ o isObject, rfl⟩
  refine (bodyOf?_adjust found').trans (by rw [if_neg]; rintro ⟨⟩; cases absent.symm.trans isObject)

/-- An instruction that stays within its frame leaves the innermost marker alone, unless that is
what it is for. -/
theorem unmarked_execute (pc next : Nat) {i : Instruction} (within : i.staysWithin = true)
    (plain : i.marks = false) : Unmarked (execute pc next i) := by
  by_cases isTask : i = .task
  · rw [isTask]
    exact unmarked_makeTask
  · refine unmarked_uniform.passes.execute pc next ?_ (by simp [plain])
    cases i with
    | ret | yield | attach => cases within
    | task => exact absurd rfl isTask
    | _ => rfl

end Markers

end Exec

namespace Stack

theorem loose_setWord {s : Stack} {n i : Nat} (slot : Slot) (inside : n ≤ s.height) :
    (s.setWord i slot).loose n = (s.loose n).set i slot.loosen := by
  have height : n ≤ s.words.size := inside
  refine List.ext_getElem? fun j => ?_
  rw [getElem?_loose, List.getElem?_set, length_loose inside, getElem?_loose, setWord,
    Array.getElem?_setIfInBounds]
  by_cases low : j < n
  · by_cases here : i = j
    · subst here
      simp [low, show i < s.words.size by omega]
    · simp [low, here]
  · by_cases here : i = j
    · subst here
      simp [low]
    · simp [low, here]

theorem loose_setWord_self {s : Stack} {n : Nat} (slot : Slot) (inside : n < s.height) :
    (s.setWord n slot).loose (n + 1) = s.loose n ++ [slot.loosen] := by
  rw [loose_setWord _ inside]
  refine List.ext_getElem? fun j => ?_
  rw [List.getElem?_set, List.getElem?_append, length_loose inside, length_loose (by omega), getElem?_loose,
    getElem?_loose]
  rcases Nat.lt_trichotomy j n with low | rfl | high
  · simp [low, show n ≠ j by omega, show j < n + 1 by omega]
  · simp
  · rw [if_neg (by omega), if_neg (by omega), if_neg (by omega), List.getElem?_eq_none (by simp; omega)]

theorem take_loose {s : Stack} {n k : Nat} (le : k ≤ n) : (s.loose n).take k = s.loose k := by
  rw [loose, ← List.map_take, List.take_take, min_eq_left le, loose]

end Stack

open Stack (getElem?_loose height_setWord)

/-- The number of arguments, for an instruction that enters a lambda. -/
def Instruction.arguments? : Instruction → Option Nat
  | .call argc | .raise _ argc | .invoke _ argc _ | .invokeSuper _ argc _ _ => some argc.toNat
  | _ => none

namespace Picture

variable {p : Picture} {v : Value}

/-- The picture with another top operand. -/
def topped (p : Picture) (v : Value) : Picture :=
  { p with words := p.words.set (p.words.length - 1) (.value v) }

/-- Neither a marker nor a frame comes or goes with the instruction. -/
def Plain (i : Option Instruction) : Prop :=
  (∀ handlers, i ≠ some (.mark handlers)) ∧ i ≠ some .unmark ∧ i ≠ some .ret

/-- What becomes of a picture in a step. The instruction is the one that the stack carries out, if
it is the one that runs. -/
inductive Step : Option Instruction → Picture → Picture → Prop
  /-- The top frame stays, and so does everything below its operands. -/
  | stays {i : Option Instruction} {p q : Picture} (plain : Plain i) (fp : q.fp = p.fp)
      (below : ∀ j < p.fp + 3, q.words[j]? = p.words[j]?) (room : p.fp + 3 ≤ q.words.length)
      (marker : q.marker = p.marker) : Step i p q
  /-- A frame more, whose header lies on the operands of the one below. -/
  | enters {i : Option Instruction} {p q : Picture} (plain : Plain i) (fp : q.fp = p.words.length)
      (below : ∀ j < p.words.length, q.words[j]? = p.words[j]?)
      (linked : q.words[p.words.length + 1]? = some (.link (.offset p.fp)))
      (higher : p.fp + 3 < p.words.length) (room : p.words.length + 3 ≤ q.words.length)
      (marker : q.marker = p.marker) : Step i p q
  /-- A frame less, with its answer on top of the operands of the one below. -/
  | leaves {p q : Picture} {below fuel : Nat} {counter : Int} {answer : Value} {s : Stack}
      (counted : p.words[p.fp]? = some (.value (.int counter)))
      (linked : p.words[p.fp + 1]? = some (.link (.offset below))) (lower : below + 3 < p.fp)
      (fp : q.fp = below) (pc : q.pc = Size.ofInt counter)
      (words : q.words = (p.words.take p.fp).set (p.fp - 1) (.value answer))
      (same : ∀ j < p.words.length, (s.words[j]?).map Slot.loosen = p.words[j]?)
      (marker : Exec.markerBelow s p.fp fuel p.marker = .ok q.marker)
      (answered : p.words[p.words.length - 1]? = some (.value answer)) : Step (some .ret) p q
  /-- A marker more, on top of the operands. -/
  | marks {p q : Picture} {index : UInt16} {handlers : Value} (fp : q.fp = p.fp) (words : q.words = p.words ++
        [.value (.int (Size.signed (p.marker.elim 0 (· + 1)))), .value handlers])
      (marker : q.marker = some p.words.length) : Step (some (.mark index)) p q
  /-- A marker less. -/
  | unmarks {p q : Picture} {s : Stack} (fp : q.fp = p.fp)
      (inner : p.marker = some (p.words.length - 2)) (room : p.fp + 3 + 2 ≤ p.words.length)
      (words : q.words = p.words.take (p.words.length - 2))
      (same : ∀ j < p.words.length, (s.words[j]?).map Slot.loosen = p.words[j]?)
      (marker : Exec.nextMarker s (p.words.length - 2) = .ok q.marker) : Step (some .unmark) p q

variable {i : Option Instruction} {q : Picture}

theorem plain_none : Plain none := ⟨nofun, nofun, nofun⟩

/-- Where the instruction is looked for makes no difference to what it does. -/
theorem Step.of_pc {pc : Nat} (step : Step i { p with pc } q) : Step i p q := by
  cases step with
  | stays plain fp below room marker => exact .stays plain fp below room marker
  | enters plain fp below linked higher room marker =>
    exact .enters plain fp below linked higher room marker
  | leaves counted linked lower fp pc words same marker answered =>
    exact .leaves counted linked lower fp pc words same marker answered
  | marks fp words marker => exact .marks fp words marker
  | unmarks fp inner room words same marker => exact .unmarks fp inner room words same marker

theorem Step.refl (plain : Plain i) (room : p.fp + 3 ≤ p.words.length) : Step i p p :=
  .stays plain rfl (fun _ _ => rfl) room rfl

/-- Another top operand does not matter to what happens to the frames. -/
theorem Step.topped (plain : Plain i) (step : Step i p q) (room : p.fp + 3 < q.words.length)
    (same : q.fp = p.fp) : Step i p (q.topped v) := by
  have below : ∀ j < p.fp + 3, (q.topped v).words[j]? = q.words[j]? := fun j low =>
    List.getElem?_set_ne (by omega)
  have length : (q.topped v).words.length = q.words.length := List.length_set
  cases step with
  | stays _ fp below' _ marker =>
    exact .stays plain fp (fun j low => (below j low).trans (below' j low)) (by omega) marker
  | enters _ fp _ _ higher => omega
  | leaves => exact absurd rfl plain.2.2
  | marks => exact absurd rfl (plain.1 _)
  | unmarks => exact absurd rfl plain.2.1

end Picture

namespace Heap

variable {h h' : Heap} {home r : Ref} {s : Stack}

/-- What happens to a stack does not concern other data. -/
theorem view?_put_stack {κ : Type} [HeapKind κ] (found : h.bodyOf? (.object home) = some (.stack s))
    (other : ∀ s, (HeapKind.view? (.stack s) : Option κ) = none) (s' : Stack) :
    (h.put (.object home) s').view? κ = h.view? κ := by
  rw [put, view?_adjust found]
  refine Function.update_eq_self_iff.mpr ?_
  rw [view?, found]
  exact (other s').trans (other s).symm

theorem view?_task_put_stack (found : h.bodyOf? (.object home) = some (.stack s)) (s' : Stack) :
    (h.put (.object home) s').view? Task = h.view? Task := view?_put_stack found (fun _ => rfl) s'

theorem Houses.evolve {loose : Ref → Prop} (houses : h.Houses r home) (evolves : h.Evolves loose h')
    (tight : ¬ loose r) : h'.Houses r home := by
  obtain ⟨t, isTask, isHome⟩ := houses
  obtain ⟨t', isTask', same⟩ := evolves.view_task isTask tight
  exact ⟨t', isTask', same.trans isHome⟩

instance : Decidable (h.Houses r home) :=
  decidable_of_iff ((h.view? Task (.object r)).map Task.stack = some (.object home)) Option.map_eq_some_iff

end Heap

namespace Execution

variable {x x' : Execution} {s s' : Stack} {r home : Ref} {p : Picture} {pc : Nat} {v : Value}

/-- The instruction that is next, unless the call is in the bottom frame. -/
def instruction? (x : Execution) : Option Instruction :=
  if x.fp = 0 then none else do
    let l ← x.machine.store.heap.view? Lambda x.lambda
    let c ← x.machine.store.heap.view? Code l.code
    (Instruction.decodeAt c.units x.pc).toOption

/-- The instruction that is next for a task, if its stack is the one that runs. -/
def doing (x : Execution) (r : Ref) : Option Instruction :=
  if x.machine.store.heap.Houses r x.stack then x.instruction? else none

theorem Frame.instruction?_eq {a : Activation} {n : Nat} {i : Instruction} (frame : x.Frame s a n)
    (decoded : Instruction.decodeAt a.units x.pc = .ok i) : x.instruction? = some i := by
  have := frame.answer
  obtain ⟨l, c, isLambda, isCode, units, -⟩ := frame.records
  rw [← units] at decoded
  simp [instruction?, isLambda, isCode, decoded, show x.fp ≠ 0 by omega, Except.toOption]

/-- The running stack, on which a frame can be parked. -/
structure Stands (x : Execution) (s : Stack) : Prop where
  found : x.Stacked s
  room : x.sp + 2 ≤ s.height

/-- The running stack shows what is on it, and the others show what they show. -/
theorem depicts_suspended (stands : x.Stands s) : x.suspended.Depicts r p ↔
      x.heap.Houses r x.stack ∧ p = x.picture s ∨
      ∃ home, home ≠ x.stack ∧ x.heap.Houses r home ∧ x.heap.Displays home p := by
  have tasks : ∀ home, x.suspended.store.heap.Houses r home ↔ x.heap.Houses r home := by
    intro home
    rw [suspended_eq stands.found]
    exact iff_of_eq (congrArg (fun view : Value → Option Task =>
      ∃ t, view (.object r) = some t ∧ t.stack = .object home) (Heap.view?_task_put_stack stands.found _))
  have here : x.suspended.store.heap.Displays x.stack (x.picture s) := by
    rw [suspended_eq stands.found]
    exact ⟨_, Heap.bodyOf?_put stands.found _, shows_parkedStack stands.room⟩
  have there : ∀ home, home ≠ x.stack → ∀ {s'}, x.suspended.store.heap.bodyOf? (.object home) =
      some (.stack s') ↔ x.heap.bodyOf? (.object home) = some (.stack s') := by
    intro home apart s'
    rw [suspended_eq stands.found]
    change (x.heap.put (.object x.stack) (x.parkedStack s x.pc)).bodyOf? _ = _ ↔ _
    rw [Heap.put, Heap.bodyOf?_adjust_map]
    simp only [Value.object.injEq, Ne.symm apart, if_false, Option.map_id']
  constructor
  · rintro ⟨home, houses, displays⟩
    by_cases isHere : home = x.stack
    · subst isHere
      exact .inl ⟨(tasks _).mp houses, here.unique displays⟩
    · obtain ⟨s', isStack, shows⟩ := displays
      exact .inr ⟨home, isHere, (tasks _).mp houses, s', (there home isHere).mp isStack, shows⟩
  · rintro (⟨houses, rfl⟩ | ⟨home, apart, houses, s', isStack, shows⟩)
    · exact ⟨_, (tasks _).mpr houses, here⟩
    · exact ⟨home, (tasks _).mpr houses, s', (there home apart).mpr isStack, shows⟩

theorem At.fits (atPc : x.At s pc) : x.sp + 2 ≤ s.height := by
  have := atPc.room
  simp only [Stack.height]
  omega

theorem At.stands (atPc : x.At s pc) : x.Stands s := ⟨atPc.found, atPc.fits⟩

theorem At.depicts (atPc : x.At s pc) :
    x.suspended.Depicts r p ↔ x.heap.Houses r x.stack ∧ p = x.picture s ∨ ∃ home, home ≠ x.stack ∧
      x.heap.Houses r home ∧ x.heap.Displays home p :=
  depicts_suspended atPc.stands

/-- Where only the running stack changes, every other stack shows what it showed. -/
theorem depicts_transfer (stands : x.Stands s) (stack : x'.stack = x.stack) (stands' : x'.Stands s')
    (houses : ∀ home, x.heap.Houses r home → x'.heap.Houses r home)
    (others : ∀ home, home ≠ x.stack → ∀ s, x.heap.bodyOf? (.object home) = some (.stack s) →
      x'.heap.bodyOf? (.object home) = some (.stack s)) (holds : x.suspended.Depicts r p) :
    x.heap.Houses r x.stack ∧ p = x.picture s ∧ x'.suspended.Depicts r (x'.picture s') ∨
    ¬ x.heap.Houses r x.stack ∧ x'.suspended.Depicts r p := by
  obtain ⟨here, same⟩ | ⟨home, apart, there, s₁, isStack, shows⟩ := (depicts_suspended stands).mp holds
  · exact .inl ⟨here, same, (depicts_suspended stands').mpr (.inl ⟨stack ▸ houses _ here, rfl⟩)⟩
  · exact .inr ⟨fun here => apart (here.unique there), (depicts_suspended stands').mpr
      (.inr ⟨home, stack ▸ apart, houses _ there, s₁, others home apart s₁ isStack, shows⟩)⟩

theorem At.depicts_evolve (atPc : x.At s pc) (atPc' : x'.At s' x'.pc) (stack : x'.stack = x.stack)
    (evolves : x.heap.Evolves (· = x.stack) x'.heap) (holds : x.suspended.Depicts r p) :
    x.heap.Houses r x.stack ∧ p = x.picture s ∧ x'.suspended.Depicts r (x'.picture s') ∨
    ¬ x.heap.Houses r x.stack ∧ x'.suspended.Depicts r p := by
  refine depicts_transfer atPc.stands stack atPc'.stands ?_
    (fun home apart s isStack => evolves.stack isStack apart) holds
  rintro home ⟨t, isTask, isHome⟩
  exact Heap.Houses.evolve ⟨t, isTask, isHome⟩ evolves (atPc.task_ne r t isTask)

/-- A stack that waits has an operand for an answer. -/
theorem At.operand (atPc : x.At s pc) (apart : ¬ x.heap.Houses r x.stack)
    (holds : x.suspended.Depicts r p) : p.fp + 3 < p.words.length := by
  obtain ⟨here, -⟩ | ⟨home, differs, -, s₁, isStack, shows⟩ := (depicts_suspended atPc.stands).mp holds
  · exact absurd here apart
  obtain ⟨top, frame, v, counter, parked⟩ := atPc.sound.store.heap.parked_of_shows differs isStack shows
  cases parked.shows.unique shows
  have := parked.operands
  have := parked.parking.above_le_size
  simp only [Stack.length_loose (s := s₁) (n := top) (by simp only [Stack.height]; omega)]
  omega

theorem houses_withStack (found : x.Stacked s) :
    (x.withStack s').heap.Houses r home ↔ x.heap.Houses r home := by
  have views : (x.withStack s').heap.view? Task = x.heap.view? Task := Heap.view?_task_put_stack found s'
  rw [Heap.Houses, views, Heap.Houses]

theorem found_withStack_of_ne (isStack : x.heap.bodyOf? (.object home) = some (.stack s))
    (apart : home ≠ x.stack) : (x.withStack s').heap.bodyOf? (.object home) = some (.stack s) :=
  (bodyOf?_adjust isStack).trans (congrArg some (if_neg (by simpa using Ne.symm apart)))

theorem withStack_depicts (stands : x.Stands s) (height : s'.height = s.height)
    (holds : x.suspended.Depicts r p) :
    (x.withStack s').suspended.Depicts r (if x.heap.Houses r x.stack then x.picture s' else p) := by
  obtain ⟨here, -, holds'⟩ | ⟨there, holds'⟩ := @depicts_transfer x (x.withStack s') s s' r p stands rfl
    ⟨found_withStack stands.found s', by rw [height]; exact stands.room⟩ (fun _ => (houses_withStack stands.found).mpr)
    (fun _ apart _ isStack => found_withStack_of_ne isStack apart) holds
  · rw [if_pos here]
    exact holds'
  · rwa [if_neg there]

theorem picture_topped (room : x.sp + 2 ≤ s.height) :
    x.picture (s.setWord (x.sp - 1) (.value v)) = (x.picture s).topped v := by
  have inside : x.sp ≤ s.height := by omega
  simp only [picture, Picture.topped, Stack.loose_setWord _ inside, Stack.length_loose inside,
    Slot.loosen_value]
  rfl

/-- The call with another top operand. -/
def answered (x : Execution) (s : Stack) (v : Value) : Execution :=
  x.withStack (s.setWord (x.sp - 1) (.value v))

/-- What is held of a task when the top operand of the running stack is replaced. -/
def topping (x : Execution) (r : Ref) (v : Value) (p : Picture) : Picture :=
  if x.machine.store.heap.Houses r x.stack then p.topped v else p

theorem topping_answered (found : x.Stacked s) :
    (x.answered s v).topping r v p = x.topping r v p := by
  unfold topping
  refine if_congr ?_ rfl rfl
  exact houses_withStack found

theorem answered_depicts (stands : x.Stands s) (holds : x.suspended.Depicts r p) :
    (x.answered s v).suspended.Depicts r (x.topping r v p) := by
  have answered := withStack_depicts stands (height_setWord s (x.sp - 1) (.value v)) holds
  unfold topping
  by_cases here : x.heap.Houses r x.stack
  · rw [if_pos here] at answered ⊢
    cases holds.unique ((depicts_suspended stands).mpr (.inl ⟨here, rfl⟩))
    rw [← picture_topped stands.room]
    exact answered
  · rw [if_neg here] at answered ⊢
    exact answered

/-- The task `q` gets another caller. -/
def withCaller (x : Execution) (q : Ref) (t : Task) (caller : Value) : Execution :=
  x.withMachine (x.machine.withHeap (x.machine.store.heap.put (.object q) { t with caller }))

theorem found_withCaller {q : Ref} {t : Task} (caller : Value)
    (isTask : x.heap.view? Task (.object q) = some t)
    (isStack : x.heap.bodyOf? (.object home) = some (.stack s)) :
    (x.withCaller q t caller).heap.bodyOf? (.object home) = some (.stack s) := by
  refine (bodyOf?_adjust isStack).trans ?_
  rw [if_neg]
  rintro ⟨⟩
  cases isStack.symm.trans (view?_eq_some.mp isTask)

theorem houses_withCaller {q : Ref} {t : Task} {caller : Value}
    (isTask : x.heap.view? Task (.object q) = some t) :
    (x.withCaller q t caller).heap.Houses r home ↔ x.heap.Houses r home := by
  have views : (x.withCaller q t caller).heap.view? Task =
      Function.update (x.heap.view? Task) (.object q) (some { t with caller }) :=
    Heap.view?_adjust (view?_eq_some.mp isTask)
  simp only [Heap.Houses, views]
  by_cases same : Value.object r = .object q
  · rw [same, Function.update_self, isTask]
    simp
  · rw [Function.update_of_ne same]

theorem withCaller_depicts {q : Ref} {t : Task}
    (caller : Value) (isTask : x.heap.view? Task (.object q) = some t) (stands : x.Stands s)
    (holds : x.suspended.Depicts r p) : (x.withCaller q t caller).suspended.Depicts r p := by
  obtain ⟨-, rfl, holds'⟩ | ⟨-, holds'⟩ := @depicts_transfer x (x.withCaller q t caller) s s r p stands rfl
    ⟨found_withCaller caller isTask stands.found, stands.room⟩ (fun home => (houses_withCaller isTask).mpr)
    (fun home _ s₁ isStack => found_withCaller caller isTask isStack) holds
  · exact holds'
  · exact holds'

end Execution

open Execution (answered_depicts found_withStack found_withStack_of_ne houses_withCaller houses_withStack)

namespace Exec

variable {x x' : Execution} {s : Stack} {r : Ref} {p : Picture} {v : Value}

theorem narrow_ok {κ : Type} [HeapKind κ] {target : Value} {data : κ}
    (done : narrow κ v x = .ok (target, data) x') : x' = x ∧ x.heap.view? κ target = some data := by
  have leads : Action.Leads (narrow κ v >>= pure) x
      (fun answer y => y = x ∧ x.heap.view? κ answer.1 = some answer.2) fun _ _ => True :=
    leads_narrow_bind trivial fun target data isFound => ⟨rfl, isFound⟩
  exact leads.answer (bind_eq_of_ok done)

theorem resume_tasks (done : resume x = .ok () x') : x'.heap.view? Task = x.heap.view? Task := by
  obtain ⟨home, s, sp, fp, pc, lambda, -, found, -, -, -, -, rfl⟩ := resume_ok done
  exact Heap.view?_task_put_stack found _

theorem resume_found (done : resume x = .ok () x') : ∃ s, x'.Stands s := by
  obtain ⟨home, s, sp, fp, pc, lambda, -, found, -, -, -, isFrame, rfl⟩ := resume_ok done
  refine ⟨_, found_withStack (x := { x with
    stack := home, limit := s.height - Frame.reserved * Frame.size, fp, sp, pc, lambda }) found _, ?_⟩
  obtain ⟨place, isPlace, -⟩ := ok_of_bind isFrame
  unfold Stack.placeAt at isPlace
  split at isPlace
  · rename_i found
    have := (Array.getElem?_eq_some_iff.mp found).1
    simp only [Frame.linkWord] at this
    change sp + 2 ≤ s.words.size
    omega
  · cases isPlace

theorem setPeek_ok (found : x.Stacked s) (done : setPeek 0 v x = .ok () x') :
    x' = x.answered s v := by
  obtain ⟨offset, isBelow, done₁⟩ := check_bind_ok done
  split at isBelow
  · cases isBelow
    rw [write_eq found] at done₁
    cases done₁
    rfl
  · cases isBelow

/-- A call that hands over finds every stack as it was parked. -/
theorem switchTo_ok {next : Nat} (here : x.pc = next) (done : switchTo v next x = .ok () x') :
    (∀ r p, x.suspended.Depicts r p → x'.suspended.Depicts r p) ∧ x'.currentTask = x.currentTask ∧
      x'.heap.view? Task = x.heap.view? Task ∧ ∃ s', x'.Stands s' := by
  subst here
  obtain ⟨_, y, parking, done₁⟩ := bind_ok done
  obtain ⟨s, found, fits, mode⟩ := park_ok parking
  cases (park_eq found fits mode).symm.trans parking
  obtain ⟨_, y₁, ⟨⟩, done₂⟩ := bind_ok done₁
  obtain ⟨_, y₂, setting, resuming⟩ := bind_ok done₂
  obtain ⟨_, _, ⟨⟩, setting₁⟩ := bind_ok setting
  cases setting₁
  obtain ⟨retains, current, -⟩ := resumed_retains resuming
  refine ⟨fun r p holds => retains.holds r p ?_, current,
    (resume_tasks resuming).trans (Heap.view?_task_put_stack found _), resume_found resuming⟩
  rw [Execution.suspended_eq found] at holds
  exact holds

theorem setCaller_eq {q : Ref} {t : Task} {caller : Value} :
    modifyHeap (fun h => h.put (.object q) { t with caller }) x = .ok () (x.withCaller q t caller) := rfl

/-- Attaching a task leaves all stacks as they are. The task that attaches goes on behind the
instruction. -/
theorem attach_ok {next : Nat}
    (here : x.pc = next) (stands : x.Stands s) (done : attach next x = .ok () x') :
    (∀ r p, x.suspended.Depicts r p → x'.suspended.Depicts r p) ∧
      x'.currentTask = x.currentTask := by
  obtain ⟨v, -, done₁⟩ := (asks_peek 0).bind_ok done
  obtain ⟨⟨task, t⟩, x₂, narrowed, done₂⟩ := bind_ok done₁
  obtain ⟨rfl, isTask⟩ := narrow_ok narrowed
  obtain ⟨q, o, rfl, -⟩ := view?_iff.mp isTask
  obtain ⟨s₁, -, done₃⟩ := check_bind_ok done₂
  split at done₃
  · cases done₃
  obtain ⟨current, _, ⟨⟩, done₄⟩ := bind_ok done₃
  obtain ⟨attached, -, done₅⟩ := check_bind_ok done₄
  split at done₅
  · cases done₅
  rw [bind_eq_of_ok setCaller_eq] at done₅
  obtain ⟨holds, current, -⟩ := switchTo_ok (by exact here) done₅
  exact ⟨fun r p held => holds r p (Execution.withCaller_depicts _ isTask stands held), current⟩

/-- A task that yields has null on top, and the one that goes on has what was there. -/
theorem yield_ok {next : Nat}
    (here : x.pc = next) (stands : x.Stands s) (done : yield next x = .ok () x') :
    ∃ v, peek 0 x = .ok v x ∧ ∀ r p, x.suspended.Depicts r p →
      x'.suspended.Depicts r (x'.topping r v (x.topping r x.machine.store.roots.null p)) := by
  obtain ⟨v, peeked, done₁⟩ := (asks_peek 0).bind_ok done
  obtain ⟨null, _, ⟨⟩, done₂⟩ := bind_ok done₁
  obtain ⟨_, x₂, cleared, done₃⟩ := bind_ok done₂
  cases setPeek_ok stands.found cleared
  obtain ⟨task, _, ⟨⟩, done₄⟩ := bind_ok done₃
  obtain ⟨t, isTask, done₅⟩ := check_bind_ok done₄
  have isTask := cast_eq_ok.mp isTask
  obtain ⟨q, o, isRef, -⟩ := view?_iff.mp isTask
  rw [isRef] at isTask
  obtain ⟨caller, -, done₆⟩ := (asks_askStore _).bind_ok done₅
  cases caller with
  | none =>
    obtain ⟨_, _, -, done₇⟩ := bind_ok done₆
    cases done₇
  | some caller =>
  dsimp only at done₆ isRef
  rw [isRef, bind_eq_of_ok setCaller_eq] at done₆
  obtain ⟨_, x₅, switched, answered⟩ := bind_ok done₆
  obtain ⟨holds, -, -, s₅, stands₅⟩ := switchTo_ok (by exact here) switched
  cases setPeek_ok stands₅.found answered
  refine ⟨v, peeked, fun r p held => ?_⟩
  have held := answered_depicts (v := x.machine.store.roots.null) stands held
  have held := Execution.withCaller_depicts x.machine.store.roots.null isTask
    ⟨found_withStack stands.found _, (height_setWord s _ _).symm ▸ stands.room⟩ held
  have held := answered_depicts (v := v) stands₅ (holds r _ held)
  rwa [Execution.topping_answered stands₅.found]

/-- A task that has left its last frame has nothing to go on with, and the one that goes on has its
answer on top. -/
theorem finish_ok {answer : Value} (stands : x.Stands s) (done : finishTask answer x = .ok () x') :
    (∀ r p, ¬ x.heap.Houses r x.stack → x.suspended.Depicts r p →
      x'.suspended.Depicts r (x'.topping r answer p)) ∧
    ∀ r p, x.heap.Houses r x.stack → ¬ x'.suspended.Depicts r p := by
  obtain ⟨_, _, ⟨⟩, done₁⟩ := bind_ok done
  rw [bind_eq_of_ok (adjustStack_eq stands.found _)] at done₁
  generalize emptied : x.withStack _ = x₁ at done₁
  obtain ⟨task, _, ⟨⟩, done₂⟩ := bind_ok done₁
  obtain ⟨t, isTask, done₃⟩ := check_bind_ok done₂
  have isTask := cast_eq_ok.mp isTask
  obtain ⟨q, o, isRef, -⟩ := view?_iff.mp isTask
  dsimp only at isRef
  obtain ⟨root, _, ⟨⟩, done₄⟩ := bind_ok done₃
  split at done₄
  · cases done₄
  obtain ⟨caller, -, done₅⟩ := (asks_askStore _).bind_ok done₄
  cases caller with
  | none => cases done₅
  | some caller =>
  obtain ⟨null, _, ⟨⟩, done₆⟩ := bind_ok done₅
  dsimp only at done₆ isTask
  rw [isRef] at isTask
  rw [isRef, bind_eq_of_ok setCaller_eq] at done₆
  obtain ⟨_, x₄, ⟨⟩, done₇⟩ := bind_ok done₆
  obtain ⟨_, x₅, setting, done₈⟩ := bind_ok done₇
  obtain ⟨_, _, ⟨⟩, setting₁⟩ := bind_ok setting
  cases setting₁
  obtain ⟨_, x₆, resuming, answered⟩ := bind_ok done₈
  obtain ⟨s₆, stands₆⟩ := resume_found resuming
  cases setPeek_ok stands₆.found answered
  have houses : ∀ r home, x₆.heap.Houses r home ↔ x.heap.Houses r home := by
    intro r home
    rw [Heap.Houses, resume_tasks resuming]
    subst emptied
    exact (houses_withCaller isTask).trans (houses_withStack stands.found)
  refine ⟨fun r p apart holds => ?_, fun r p here holds => ?_⟩
  · obtain ⟨here, -⟩ | ⟨home, differs, there, s₁, isStack, shows⟩ :=
      (Execution.depicts_suspended stands).mp holds
    · exact absurd here apart
    rw [Execution.topping_answered stands₆.found]
    refine answered_depicts stands₆ ((resumed_retains resuming).1.holds r p ?_)
    subst emptied
    exact ⟨home, (houses_withCaller isTask).mpr ((houses_withStack stands.found).mpr there), s₁,
      Execution.found_withCaller _ isTask (found_withStack_of_ne isStack differs), shows⟩
  · have isEmpty : (x₆.answered s₆ answer).heap.bodyOf? (.object x.stack) =
        some (.stack { s with status := .empty }) ∧ x.stack ≠ x₆.stack := by
      obtain ⟨home, s₁, sp, fp, pc, lambda, -, isParked, parked, -, -, -, rfl⟩ := resume_ok resuming
      subst emptied
      have isEmpty := Execution.found_withCaller x.machine.store.roots.null isTask
        (found_withStack stands.found { s with status := .empty })
      have differs : x.stack ≠ home := by
        rintro rfl
        cases isParked.symm.trans isEmpty
        cases parked
      exact ⟨found_withStack_of_ne (found_withStack_of_ne isEmpty differs) differs, differs⟩
    have there : (x₆.answered s₆ answer).heap.Houses r x.stack :=
      (houses_withStack stands₆.found).mpr ((houses r x.stack).mpr here)
    obtain ⟨there', -⟩ | ⟨home, -, there', s₁, isStack, shows⟩ := (Execution.depicts_suspended
      ⟨found_withStack stands₆.found _, (height_setWord s₆ _ _).symm ▸ stands₆.room⟩).mp holds
    · exact isEmpty.2 (there.unique there').symm
    · cases there.unique there'
      cases isEmpty.1.symm.trans isStack
      cases shows.status

end Exec

namespace Execution

variable {x x' : Execution} {s s' : Stack} {r : Ref} {p q : Picture} {pc : Nat} {v : Value}
  {i : Option Instruction}

theorem length_picture (room : x.sp + 2 ≤ s.height) : (x.picture s).words.length = x.sp :=
  Stack.length_loose (by omega)

theorem At.higher (atPc : x.At s pc) (holds : x.suspended.Depicts r p) :
    p.fp + 3 ≤ p.words.length := by
  by_cases here : x.heap.Houses r x.stack
  · cases holds.unique (atPc.depicts.mpr (.inl ⟨here, rfl⟩))
    exact atPc.chain.room.trans_eq (length_picture atPc.fits).symm
  · exact (atPc.operand here holds).le

/-- What becomes of the picture of a task. The instruction is carried out by the one that runs. -/
def Steps (x : Execution) (r : Ref) (i : Option Instruction) (p : Picture) (x' : Execution) : Prop :=
  ∃ q, x'.suspended.Depicts r q ∧ Picture.Step (if x.heap.Houses r x.stack then i else none) p q

/-- Where only the running stack changes, only its picture does. -/
theorem At.steps (atPc : x.At s pc) (atPc' : x'.At s' x'.pc)
    (stack : x'.stack = x.stack) (evolves : x.heap.Evolves (· = x.stack) x'.heap)
    (step : Picture.Step i (x.picture s) (x'.picture s')) (holds : x.suspended.Depicts r p) :
    x.Steps r i p x' := by
  obtain ⟨here, rfl, holds'⟩ | ⟨there, holds'⟩ := atPc.depicts_evolve atPc' stack evolves holds
  · exact ⟨_, holds', by rwa [if_pos here]⟩
  · refine ⟨p, holds', ?_⟩
    rw [if_neg there]
    exact .refl Picture.plain_none (atPc.higher holds)

theorem topping_fp {w : Execution} : (w.topping r v p).fp = p.fp := by
  unfold topping
  split <;> rfl

theorem length_topping {w : Execution} : (w.topping r v p).words.length = p.words.length := by
  unfold topping
  split
  · exact List.length_set
  · rfl

theorem step_topping {w : Execution} {i : Option Instruction} (plain : Picture.Plain i)
    (step : Picture.Step i p q) (operand : p.fp + 3 < q.words.length) (same : q.fp = p.fp) :
    Picture.Step i p (w.topping r v q) := by
  unfold topping
  split
  · exact step.topped plain operand same
  · exact step

theorem fetched_depicts {i : Instruction} (stands : x.Stands s) (holds : x.suspended.Depicts r p) :
    ∃ pc, (x.fetched i).suspended.Depicts r { p with pc } := by
  obtain ⟨-, rfl, holds'⟩ | ⟨-, holds'⟩ := @depicts_transfer x (x.fetched i) s s r p stands rfl ⟨stands.found, stands.room⟩
    (fun _ => id) (fun _ _ _ => id) holds
  · exact ⟨_, holds'⟩
  · exact ⟨p.pc, holds'⟩

theorem Entered.step {base ret : Nat} (entered : x.Entered s s' v ret base) (atPc : x.At s pc)
    (running : (x.inFrame s' v base).Running) (above : x.sp + 3 ≤ base) (operand : x.fp + 3 < x.sp)
    (plain : Picture.Plain i) (holds : x.suspended.Depicts r p) :
    x.Steps r i p (x.inFrame s' v base) := by
  obtain ⟨s'', atPc'⟩ := running
  cases atPc'.found.symm.trans (found_withStack atPc.found s')
  have fits' : base + 2 ≤ s'.height := atPc'.fits
  have length : (x.picture s).words.length = x.sp := length_picture atPc.fits
  have length' : ((x.inFrame s' v base).picture s').words.length = base := length_picture fits'
  refine atPc.steps atPc' rfl (atPc.evolves entered.height) (.enters plain length.symm (fun j low => ?_) ?_
    (by rw [length]; exact operand) (by rw [length, length']; exact above) entered.marker) holds
  · rw [length] at low
    change (s'.loose base)[j]? = (s.loose x.sp)[j]?
    rw [getElem?_loose, getElem?_loose, if_pos low, if_pos (by omega), entered.below j low]
  · rw [length]
    change (s'.loose base)[x.sp + 1]? = _
    rw [getElem?_loose, if_pos (by omega), entered.frameAt.linked]
    rfl

theorem Frame.left {a : Activation} {n : Nat} {marker : Option Nat} {answer lambda : Value}
    (frame : x.Frame s a n) (isAnswer : s.words[x.sp - 1]? = some (.value answer))
    (isMarker : Exec.markerBelow s x.fp (s.height + 2) s.marker = .ok marker)
    (running : (x.inCaller s a marker answer lambda).Running)
    (atPc : x.At s pc) (holds : x.suspended.Depicts r p) :
    x.Steps r (some .ret) p (x.inCaller s a marker answer lambda) := by
  obtain ⟨s', atPc'⟩ := running
  cases atPc'.found.symm.trans (found_withStack frame.found _)
  have inside := frame.frameAt.room
  have fits := atPc.fits
  have shown : ∀ {j slot}, j < x.sp → s.words[j]? = some slot →
      (x.picture s).words[j]? = some slot.loosen := fun low isSlot =>
    (getElem?_loose s x.sp _).trans (by rw [if_pos low, isSlot]; rfl)
  refine atPc.steps atPc' rfl (frame.evolves (height_setWord { s with marker } _ _)) (@Picture.Step.leaves
    (x.picture s) _ a.below (s.height + 2) a.counter answer s (shown (by omega) frame.frameAt.counter)
    (shown (by omega) frame.frameAt.linked) frame.answer rfl (Size.ofInt_ofInt _) ?_ (fun j low => ?_)
    isMarker ?_) holds
  · change (({ s with marker } : Stack).setWord (x.fp - 1) (.value answer)).loose x.fp =
      ((s.loose x.sp).take x.fp).set (x.fp - 1) (.value answer)
    rw [Stack.loose_setWord _ (by change x.fp ≤ s.height; omega), Stack.take_loose (by omega)]
    rfl
  · rw [length_picture atPc.fits] at low
    exact ((getElem?_loose s x.sp j).trans (if_pos low)).symm
  · rw [length_picture atPc.fits]
    exact shown (by omega) isAnswer

/-- The running stack after it has changed within its top frame. -/
theorem Spares.step (spares : x.Spares x') (atPc : x.At s pc) (running : x'.Running)
    (marker : x.KeepsMarker x') (plain : Picture.Plain i) (holds : x.suspended.Depicts r p) :
    x.Steps r i p x' := by
  obtain ⟨s', atPc'⟩ := running
  have found' : x'.heap.bodyOf? (.object x.stack) = some (.stack s') := spares.stack ▸ atPc'.found
  have higher := atPc.chain.room
  have higher' := atPc'.chain.room
  rw [spares.fp] at higher'
  refine atPc.steps atPc' spares.stack spares.evolves (.stays plain spares.fp (fun j low => ?_)
    (by rw [length_picture atPc'.fits]; exact higher') ?_) holds
  · obtain ⟨s₁, found₁, same⟩ := spares.words s atPc.found
    cases found₁.symm.trans found'
    have low : j < x.fp + 3 := low
    change (s'.loose x'.sp)[j]? = (s.loose x.sp)[j]?
    rw [getElem?_loose, getElem?_loose, if_pos (by omega), if_pos (by omega), same j low]
  · obtain ⟨-, keeps⟩ := marker
    obtain ⟨b, found₁, same⟩ := keeps _ atPc.found
    cases found₁.symm.trans found'
    obtain ⟨_, ⟨⟩, same⟩ := same s' rfl
    exact same

theorem found_pushed (found : x.Stacked s) (v : Value) :
    (x.pushed s v).heap.bodyOf? (.object (x.pushed s v).stack) =
      some (.stack (s.setWord x.sp (.value v))) := found_withStack found _

/-- The call with a marker more. -/
def markedBy (x : Execution) (s : Stack) (handlers : Value) : Execution :=
  { x.withStack { (s.setWord x.sp (.value (.int (Size.signed (s.marker.elim 0 (· + 1)))))).setWord
      (x.sp + 1) (.value handlers) with marker := some x.sp } with sp := x.sp + 2 }

end Execution

namespace Exec

variable {x x' : Execution} {s : Stack} {r : Ref} {p : Picture} {v : Value} {i : Instruction}

theorem innermostMarker_ok {marker : Option Nat} (found : x.Stacked s)
    (done : innermostMarker x = .ok marker x') : marker = s.marker ∧ x' = x := by
  obtain ⟨isMarker, rfl⟩ := check_ok done
  rw [runningStack_eq found] at isMarker
  cases isMarker
  exact ⟨rfl, rfl⟩

theorem constant_ok {index : UInt16} : constant index x = .ok v x ↔
    ∃ l t, x.heap.view? Lambda x.lambda = some l ∧
      x.heap.view? Tuple l.constants = some t ∧ t.elements[index.toNat]? = some v := by
  constructor
  · intro done
    obtain ⟨isConstant, -⟩ := check_ok done
    obtain ⟨l, isLambda, isElement⟩ := ok_of_bind isConstant
    obtain ⟨t, isTuple, isElement⟩ := ok_of_bind isElement
    refine ⟨l, t, cast_eq_ok.mp isLambda, cast_eq_ok.mp isTuple, ?_⟩
    cases found : t.elements[index.toNat]? with
    | none =>
      rw [found] at isElement
      cases isElement
    | some element =>
      rw [found] at isElement
      cases isElement
      rfl
  · rintro ⟨l, t, isLambda, isTuple, found⟩
    refine check_eq ?_
    simp only [runningLambda, elementOf, cast_eq_ok.mpr isLambda, cast_eq_ok.mpr isTuple, found,
      bind, Except.bind, pure, Except.pure]

theorem mark_ok {pc next : Nat} {index : UInt16} (found : x.Stacked s)
    (done : execute pc next (.mark index) x = .ok () x') :
    ∃ handlers, constant index x = .ok handlers x ∧ x' = x.markedBy s handlers := by
  obtain ⟨_, _, ⟨⟩, done₁⟩ := bind_ok done
  obtain ⟨marker, x₁, asked, done₂⟩ := bind_ok done₁
  obtain ⟨rfl, rfl⟩ := innermostMarker_ok found asked
  obtain ⟨_, x₂, pushed, done₃⟩ := bind_ok done₂
  have pushed : push (.int (Size.signed (s.marker.elim 0 (· + 1)))) x₁ = .ok () x₂ := by
    rw [← pushed]
    cases s.marker <;> rfl
  cases push_ok found pushed
  obtain ⟨handlers, constant, done₄⟩ := (asks_constant index).bind_ok done₃
  obtain ⟨_, x₄, pushed₁, done₅⟩ := bind_ok done₄
  have found₁ := Execution.found_pushed found (.int (Size.signed (s.marker.elim 0 (· + 1))))
  cases push_ok found₁ pushed₁
  cases (setMarker_eq (Execution.found_pushed found₁ handlers) (some x₁.sp)).symm.trans done₅
  obtain ⟨l, t, isLambda, isTuple, isElement⟩ := constant_ok.mp constant
  refine ⟨handlers, constant_ok.mpr ⟨l, t, ?_, ?_, isElement⟩, ?_⟩
  · rwa [← Heap.view?_put_stack found (fun _ => rfl)]
  · rwa [← Heap.view?_put_stack found (fun _ => rfl)]
  · simp only [Execution.markedBy, Execution.pushed, Execution.withStack, Execution.withMachine,
      Machine.withHeap, Heap.put_put]

theorem unmark_ok {pc next : Nat} (found : x.Stacked s) (done : execute pc next .unmark x = .ok () x') :
    ∃ marker, s.marker = some (x.sp - 2) ∧ nextMarker s (x.sp - 2) = .ok marker ∧
      x' = { x.withStack { s with marker } with sp := x.sp - 2 } := by
  obtain ⟨offset, isOffset, done₁⟩ := check_bind_ok done
  split at isOffset
  rotate_left
  · cases isOffset
  rename_i low
  cases isOffset
  obtain ⟨inner, x₂, asked, done₂⟩ := bind_ok done₁
  obtain ⟨rfl, rfl⟩ := innermostMarker_ok found asked
  split at done₂
  · cases done₂
  rename_i innermost
  obtain ⟨outer, isOuter, done₃⟩ := check_bind_ok done₂
  rw [runningStack_eq found] at isOuter
  rw [bind_eq_of_ok (setMarker_eq found outer), drop_eq (by exact low)] at done₃
  cases done₃
  exact ⟨outer, not_not.mp innermost, isOuter, rfl⟩

/-- A frame has been put on the operands, to return to `next`. -/
def Enters (x : Execution) (s : Stack) (next : Nat) (x' : Execution) : Prop :=
  ∃ s' v base, x.Entered s s' v next base ∧ x.sp + 3 ≤ base ∧ x' = x.inFrame s' v base

/-- Entering a lambda is the last that an instruction does. -/
theorem enters_of_enter {v : Value} {l : Lambda} {argc next : Nat} {keymap : Option Value}
    (on : x.On s) (done : enter v l argc keymap next x = .ok () x') : Enters x s next x' := by
  obtain ⟨s', entered, isFrame, -⟩ := enter_ok on done
  exact ⟨s', v, _, entered, by omega, isFrame⟩

/-- A method that has been found is entered. -/
theorem answering_enters {name : Value} {argc keymap : UInt16} {next : Nat} (on : x.On s)
    (found : Option Value) (done : answerWith name argc keymap next found x = .ok () x') :
    Enters x s next x' := by
  cases found with
  | none =>
    obtain ⟨_, _, -, done₁⟩ := bind_ok done
    cases done₁
  | some method =>
    obtain ⟨_, -, done₁⟩ := (asks_constant _).bind_ok done
    obtain ⟨keymap, -, done₂⟩ := (asks_askStore _).bind_ok done₁
    obtain ⟨⟨lambda, l⟩, -, done₃⟩ := (asks_checkStore _).bind_ok done₂
    exact enters_of_enter on done₃

theorem invoke_enters {selector argc keymap : UInt16} {signature : Option UInt16}
    {next : Nat} (on : x.On s) (done : invoke selector argc keymap signature next x = .ok () x') :
    Enters x s next x' := by
  obtain ⟨_, -, done₁⟩ := (asks_constant _).bind_ok done
  obtain ⟨named, -, done₂⟩ := (asks_checkStore _).bind_ok done₁
  obtain ⟨arguments, -, done₃⟩ := (asks_top _).bind_ok done₂
  cases signature with
  | none =>
    obtain ⟨found, -, done₄⟩ := (asks_checkStore _).bind_ok done₃
    exact answering_enters on found done₄
  | some signature =>
    obtain ⟨_, -, done₄⟩ := (asks_constant _).bind_ok done₃
    obtain ⟨_, -, done₅⟩ := (asks_checkStore _).bind_ok done₄
    obtain ⟨found, -, done₆⟩ := (asks_checkStore _).bind_ok done₅
    exact answering_enters on found done₆

/-- Calls, messages and conditions put a frame on the operands. -/
theorem execute_enters {pc next argc : Nat} (on : x.On s) (enters : i.arguments? = some argc)
    (done : execute pc next i x = .ok () x') : Enters x s next x' := by
  cases i with
  | call argc =>
    obtain ⟨v, -, done₁⟩ := (asks_peek _).bind_ok done
    obtain ⟨⟨lambda, l⟩, x₂, narrowed, done₂⟩ := bind_ok done₁
    obtain ⟨rfl, -⟩ := narrow_ok narrowed
    exact enters_of_enter on done₂
  | invoke selector argc keymap => exact @invoke_enters x x' s selector argc keymap none next on done
  | invokeSuper selector argc keymap signature =>
    exact @invoke_enters x x' s selector argc keymap (some signature) next on done
  | raise name argc =>
    obtain ⟨_, -, done₁⟩ := (asks_constant _).bind_ok done
    obtain ⟨handler, -, done₂⟩ := (asks_check _).bind_ok done₁
    cases handler with
    | none =>
      obtain ⟨_, _, -, done₃⟩ := bind_ok done₂
      cases done₃
    | some handler =>
      obtain ⟨⟨lambda, l⟩, x₃, narrowed, done₃⟩ := bind_ok done₂
      obtain ⟨rfl, -⟩ := narrow_ok narrowed
      exact enters_of_enter on done₃
  | _ => cases enters

variable {a : Activation} {n pc : Nat}

theorem mark_pictures {next : Nat} {index : UInt16} (atPc : x.At s pc) (running : x'.Running)
    (done : execute pc next (.mark index) x = .ok () x') (holds : x.suspended.Depicts r p) :
    x.Steps r (some (.mark index)) p x' := by
  obtain ⟨handlers, -, rfl⟩ := mark_ok atPc.found done
  obtain ⟨s', atPc'⟩ := running
  cases atPc'.found.symm.trans (found_withStack atPc.found _)
  have fits := atPc.fits
  have length := Execution.length_picture fits
  refine atPc.steps atPc' rfl
    (atPc.evolves ((height_setWord (s.setWord x.sp _) _ _).trans (height_setWord s _ _)))
    (@Picture.Step.marks (x.picture s) _ index handlers rfl ?_ (congrArg some length.symm)) holds
  change ((s.setWord x.sp (.value _)).setWord (x.sp + 1) (.value handlers)).loose (x.sp + 1 + 1) = _
  rw [Stack.loose_setWord_self _ (by rw [height_setWord]; omega),
    Stack.loose_setWord_self _ (by omega), List.append_assoc]
  rfl

theorem unmark_pictures {next : Nat} (e : x.Executing s a n pc .unmark) (atPc : x.At s pc)
    (running : x'.Running) (done : execute pc next .unmark x = .ok () x')
    (holds : x.suspended.Depicts r p) : x.Steps r (some .unmark) p x' := by
  obtain ⟨marker, inner, isMarker, rfl⟩ := unmark_ok atPc.found done
  obtain ⟨s', atPc'⟩ := running
  cases atPc'.found.symm.trans (found_withStack atPc.found _)
  have needs : 2 ≤ n := e.needs
  have := e.sp_eq
  have := e.base_ge
  have length := Execution.length_picture atPc.fits
  have height : ({ s with marker } : Stack).height = s.height := rfl
  refine atPc.steps atPc' rfl (atPc.evolves height) (.unmarks (s := s) rfl (by rw [length]; exact inner)
    (by rw [length]; change x.fp + 3 + 2 ≤ x.sp; omega) ?_ (fun j low => ?_)
    (by rw [length]; exact isMarker)) holds
  · rw [length]
    change s.loose (x.sp - 2) = (s.loose x.sp).take (x.sp - 2)
    rw [Stack.take_loose (by omega)]
  · rw [length] at low
    exact ((getElem?_loose s x.sp j).trans (if_pos low)).symm

theorem leave_pictures (e : x.Executing s a n pc .ret) (atPc : x.At s pc) (running : x'.Running)
    (done : leave x = .ok () x') (holds : x.suspended.Depicts r p) : x.Steps r (some .ret) p x' ∨
    (x.heap.Houses r x.stack ∧ Instruction.ret = .ret ∧ ∀ q, ¬ x'.suspended.Depicts r q) := by
  have needs : 1 ≤ n := e.needs
  have := e.sp_eq
  have := e.base_ge
  obtain ⟨answer, isAnswer⟩ := e.frameAt.operands (x.sp - 1) (by omega) (by omega)
  obtain ⟨_, lambda, _, below, -⟩ := e.rest.frameAt
  have left := @leaveWith_eq x s a n finishTask answer lambda e.toFrame needs isAnswer below.lambda
  rw [leave, left] at done
  split at done
  rotate_left
  · cases done
  rename_i marker isMarker
  split at done
  · have found := found_withStack (x := x.dropped 1) e.found { s with marker }
    have room : (x.dropped 1).sp + 2 ≤ ({ s with marker } : Stack).height := by
      have := atPc.fits
      change x.sp - 1 + 2 ≤ s.height
      omega
    obtain ⟨others, gone⟩ := finish_ok ⟨found, room⟩ done
    have houses : ((x.dropped 1).withStack { s with marker }).heap.Houses r x.stack ↔
        x.heap.Houses r x.stack := houses_withStack e.found
    by_cases here : x.heap.Houses r x.stack
    · exact .inr ⟨here, rfl, fun q => gone r q (houses.mpr here)⟩
    · refine .inl ⟨_, others r p (fun there => here (houses.mp there)) ?_, ?_⟩
      · obtain ⟨here', -⟩ | ⟨-, holds'⟩ := @Execution.depicts_transfer x ((x.dropped 1).withStack
          { s with marker }) s { s with marker } r p atPc.stands rfl ⟨found, room⟩
          (fun _ => (houses_withStack e.found).mpr)
          (fun _ apart _ isStack => found_withStack_of_ne isStack apart) holds
        · exact absurd here' here
        · exact holds'
      · rw [if_neg here]
        exact Execution.step_topping Picture.plain_none (.refl Picture.plain_none (atPc.higher holds))
          (atPc.operand here holds) rfl
  · cases done
    exact .inl (e.toFrame.left isAnswer isMarker running atPc holds)

/-- What the instruction of the running frame does to the pictures of tasks. -/
theorem execute_pictures (e : x.Executing s a n pc i) (atPc : x.At s pc) (running : x'.Running)
    (done : execute pc (pc + i.size) i x = .ok () x') (holds : x.suspended.Depicts r p) :
    x.Steps r (some i) p x' ∨
      (x.heap.Houses r x.stack ∧ i = .ret ∧ ∀ q, ¬ x'.suspended.Depicts r q) := by
  by_cases within : i.staysWithin = true
  · by_cases isMark : ∃ index, i = .mark index
    · obtain ⟨index, rfl⟩ := isMark
      exact .inl (mark_pictures atPc running done holds)
    by_cases isUnmark : i = .unmark
    · subst isUnmark
      exact .inl (unmark_pictures e atPc running done holds)
    have noMark : ∀ index, i ≠ .mark index := fun index isIndex => isMark ⟨index, isIndex⟩
    have plain : i.marks = false := by
      cases i with
      | mark index => exact absurd rfl (noMark index)
      | unmark => exact absurd rfl isUnmark
      | _ => rfl
    have spares : x.Continues x' := by
      have ends := ends_execute_within e within
      unfold Ends at ends
      rwa [done] at ends
    refine .inl (spares.toSpares.step atPc running
      ((unmarked_execute pc _ within plain).answered x () x' done) ⟨?_, ?_, ?_⟩ holds)
    · exact fun index isIndex => noMark index (Option.some.inj isIndex)
    · exact fun isIndex => isUnmark (Option.some.inj isIndex)
    · rintro ⟨⟩
      cases within
  · by_cases enters : ∃ argc, i.arguments? = some argc
    · obtain ⟨argc, enters⟩ := enters
      obtain ⟨s', v, base, entered, above, rfl⟩ := execute_enters e.toOn enters done
      have needs : 1 ≤ i.needs a.fields := by
        cases i with
        | call | invoke | invokeSuper => exact Nat.succ_pos _
        | raise => exact le_max_right _ _
        | _ => cases enters
      have operand := e.operand needs
      refine .inl (entered.step atPc running above operand ⟨?_, ?_, ?_⟩ holds)
      all_goals
        rintro ⟨⟩
        try rintro ⟨⟩
        cases enters
    · cases i with
      | ret => exact leave_pictures e atPc running done holds
      | yield =>
        obtain ⟨v, -, held⟩ := yield_ok e.next atPc.stands done
        have operand : p.fp + 3 < p.words.length := by
          by_cases here : x.heap.Houses r x.stack
          · cases holds.unique (atPc.depicts.mpr (.inl ⟨here, rfl⟩))
            rw [Execution.length_picture atPc.fits]
            exact e.operand le_rfl
          · exact atPc.operand here holds
        have plain : Picture.Plain (if x.heap.Houses r x.stack then some .yield else none) := by
          split
          · exact ⟨nofun, nofun, nofun⟩
          · exact Picture.plain_none
        exact .inl ⟨_, held r p holds, Execution.step_topping plain
          (Execution.step_topping plain (.refl plain operand.le) operand rfl)
          (operand.trans_eq Execution.length_topping.symm) Execution.topping_fp⟩
      | attach =>
        obtain ⟨held, -⟩ := attach_ok e.next atPc.stands done
        refine .inl ⟨p, held r p holds, .refl ?_ (atPc.higher holds)⟩
        split
        · exact ⟨nofun, nofun, nofun⟩
        · exact Picture.plain_none
      | _ => first | exact absurd rfl within | exact absurd ⟨_, rfl⟩ enters

theorem step_running (running : x.Running) (done : step x = .ok () x') : x'.Running := by
  have ends := ends_step running
  unfold Ends at ends
  rwa [done] at ends

/-- What a step does to the pictures of tasks. Only a task that leaves its last frame is not
pictured any more. -/
theorem step_pictures (running : x.Running) (done : step x = .ok () x')
    (holds : x.suspended.Depicts r p) :
    (∃ q, x'.suspended.Depicts r q ∧ Picture.Step (x.doing r) p q) ∨
      (x.doing r = some .ret ∧ ∀ q, ¬ x'.suspended.Depicts r q) := by
  have running' := step_running running done
  by_cases isBottom : x.fp = 0
  · obtain ⟨s, atPc⟩ := running
    obtain ⟨atStart, operand⟩ := atPc.ofBottom isBottom 0
    have none : x.instruction? = none := if_pos isBottom
    have none : x.doing r = if x.heap.Houses r x.stack then Option.none else Option.none := by
      rw [Execution.doing, none]
    unfold step at done
    rw [ask_bind, if_pos isBottom] at done
    obtain ⟨_, _, ⟨⟩, done₁⟩ := bind_ok done
    obtain ⟨v, -, done₂⟩ := (asks_localValue 0).bind_ok done₁
    obtain ⟨⟨lambda, l⟩, x₂, narrowed, done₃⟩ := bind_ok done₂
    obtain ⟨rfl, -⟩ := narrow_ok narrowed
    obtain ⟨s', v', base, entered, above, rfl⟩ := enters_of_enter atPc.toOn done₃
    rw [none]
    exact .inl (entered.step atStart running' above operand Picture.plain_none holds)
  · obtain ⟨s, a, n, frame, path⟩ := running.frame isBottom
    obtain ⟨s', atPc⟩ := running
    cases frame.found.symm.trans atPc.found
    rw [step_eq frame] at done
    cases decoded : Instruction.decodeAt a.units x.pc with
    | error violation =>
      rw [decoded] at done
      cases done
    | ok i =>
      rw [decoded] at done
      obtain ⟨pc, holds₁⟩ := @Execution.fetched_depicts x s r p i atPc.stands holds
      have e := frame.fetch path decoded
      have doing : x.doing r = if x.heap.Houses r x.stack then some i else none := by
        rw [Execution.doing, frame.instruction?_eq decoded]
      rw [doing]
      obtain ⟨q, holds', step⟩ | ⟨here, rfl, gone⟩ :=
        execute_pictures e ⟨e.toOn, atPc.registered, atPc.chain⟩ running' done holds₁
      · exact .inl ⟨q, holds', step.of_pc⟩
      · exact .inr ⟨if_pos here, gone⟩

end Exec

end ObjectMachine
