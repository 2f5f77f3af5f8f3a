/-
# ObjectMachine.Proofs.Validity -- heaps that can be walked over

Between calls a heap can be walked over from its first byte: the size of each object, as its own
layout tells it, leads to the next one, and the walk ends where the next object will be placed.
Headers lead to layouts, and the frames of a parked stack descend to the bottom frame.

* `Heap.Chain.descends` -- frames that run code descend.
* `Heap.Sound.validate_ok` -- checking a heap in which no stack runs finds nothing.
* `Machine.Reached.validates` -- so does checking whatever orderly deeds lead to.
* `Machine.unbalanced_invalid` -- code that pops below its frame breaks a stack for good.
-/
import Mathlib
import ObjectMachine.Heap.Validation
import ObjectMachine.Proofs.Hosting

namespace ObjectMachine

namespace Heap

/-- The frames of the stack at `home` from the one at `frame` down. Each has a lambda and lies above
the one that it links to, and the last one is the bottom frame. -/
inductive Descends (h : Heap) (home : Ref) (words : Array Slot) : Nat → Prop
  | bottom {v : Value} (lambda : words[Frame.lambdaWord]? = some (.value v))
      (isLambda : h.is Lambda v = true) (linked : words[Frame.linkWord]? = some (.link .bottom)) :
      Descends h home words 0
  | frame {frame below : Nat} {v : Value}
      (lambda : words[frame + Frame.lambdaWord]? = some (.value v)) (isLambda : h.is Lambda v = true)
      (linked : words[frame + Frame.linkWord]? = some (.link (.address home below)))
      (lower : below < frame) (rest : Descends h home words below) : Descends h home words frame

/-- Bytes of an object as the layout in its header tells them: by the number of fields of an
instance, and by what the object says itself otherwise. -/
def sizeInMemory? (h : Heap) (o : Object) : Option Nat :=
  match o.header with
  | .forward _ => none
  | .layout layout =>
    match h.view? Layout (.object layout) with
    | none => none
    | some l =>
      if l.kind = .inst then some (8 + 8 * l.fieldCount)
      else if l.kind = o.body.kind then some o.body.size
      else none

/-- A walk over objects that lie one after the other from byte `start` on, up to byte `stop`. -/
inductive Walk (h : Heap) : Nat → List Object → Nat → Prop
  | done {offset : Nat} : Walk h offset [] offset
  | next {start stop size : Nat} {o : Object} {rest : List Object}
      (isSize : h.sizeInMemory? o = some size) (on : Walk h (start + Size.roundUp size) rest stop) :
      Walk h start (o :: rest) stop

variable {h : Heap} {home : Ref} {words : Array Slot} {frame : Nat} {busy : Ref → Prop}

theorem Chain.descends {limit above pc : Nat}
    (chain : h.Chain words (.address home) limit frame above pc) : h.Descends home words frame := by
  induction chain with
  | bottom frameAt isLambda _ _ => exact .bottom frameAt.lambda isLambda frameAt.linked
  | frame frameAt _ _ _ runs _ answer _ ih =>
    exact .frame frameAt.lambda (is_iff.mpr ⟨_, runs.lambda⟩) frameAt.linked (by omega) ih

theorem ParkedAs.descends {s : Stack} {least top : Nat} {v : Value} {counter : Int}
    (parked : h.ParkedAs home s least top frame v counter) : h.Descends home s.words top := by
  have := parked.operands
  exact .frame parked.parking.lambda parked.isLambda parked.parking.linked (by omega) parked.chain.descends

/-- Walking down frames that descend finds nothing to complain about. -/
theorem Descends.validateFrom_ok {s : Stack} {fuel : Nat} (descends : h.Descends home s.words frame)
    (enough : frame < fuel) : s.validateFrom home (h.is Lambda) fuel (.inside frame) = .ok () := by
  induction descends generalizing fuel with
  | bottom lambda isLambda linked =>
    obtain ⟨fuel, rfl⟩ : ∃ less, fuel = less + 1 := ⟨fuel - 1, by omega⟩
    have inside : ¬ s.height ≤ 0 := by
      have := (Array.getElem?_eq_some_iff.mp lambda).1
      simp only [Stack.height]
      omega
    simp [Stack.validateFrom, inside, lambda, Slot.asValue?, isLambda, Stack.placeAt, linked, Slot.place]
    rfl
  | @frame frame below v lambda isLambda linked lower rest ih =>
    obtain ⟨fuel, rfl⟩ : ∃ less, fuel = less + 1 := ⟨fuel - 1, by omega⟩
    have inside : ¬ s.height ≤ frame := by
      have := (Array.getElem?_eq_some_iff.mp lambda).1
      simp only [Stack.height]
      omega
    have rest := @ih fuel (by omega)
    simp only [Stack.validateFrom, if_neg inside, lambda, Stack.placeAt, linked, Slot.place]
    simp only [Option.bind_some, Slot.asValue?, Option.any_some, isLambda, Bool.not_true,
      Bool.false_eq_true, if_false, if_true]
    exact (if_pos lower).trans rest

/-- A stack that has nothing to run or is parked passes the check. -/
theorem AtRest.validate_ok {s : Stack} (atRest : h.AtRest home s) :
    s.validate home (h.is Lambda) = .ok () := by
  obtain empty | ⟨top, frame, v, counter, parked⟩ := atRest
  · simp [Stack.validate, empty]
  · have enough : top < s.chainFuel := by
      have := parked.parking.above_le_size
      simp only [Stack.chainFuel, Stack.height]
      omega
    simp only [Stack.validate, parked.status, parked.mode, reduceCtorEq, if_false]
    rw [parked.top_eq, Slot.place, if_pos rfl]
    exact parked.descends.validateFrom_ok enough

/-- Every object passes the check. -/
theorem Sound.validateObject_ok (sound : h.Sound fun _ => False) {r : Ref}
    {o : Object} (found : h.object? r = some o) (offset : Nat) :
    h.validateObject r.position offset o = .ok () := by
  obtain ⟨layout, isLayout, l, isView, -⟩ := (sound.objects r o found).described
  obtain ⟨_, described, ⟨⟩, isDescribed, isBody⟩ := view?_iff.mp isView
  obtain ⟨_, isMeta, -⟩ := (sound.objects layout described isDescribed).described
  obtain ⟨header, body⟩ := described
  cases isBody
  cases isMeta
  have kind : ¬ (Body.layout l).kind ≠ .layout := fun differs => differs rfl
  simp only [validateObject, isLayout, isDescribed, if_neg kind]
  split
  · rename_i s isStack
    exact ((sound.objects r o found).stack s isStack id).validate_ok
  · rfl

/-- The objects of a list that lies in the heap from `position` on pass the check. -/
theorem Sound.validateFrom_ok (sound : h.Sound fun _ => False)
    {objects : List Object} {position offset : Nat}
    (lies : ∀ i o, objects[i]? = some o → h.object? ⟨position + i⟩ = some o) :
    h.validateFrom position offset objects = .ok () := by
  induction objects generalizing position offset with
  | nil => rfl
  | cons o rest ih =>
    have first : h.validateObject position offset o = .ok () := sound.validateObject_ok (lies 0 o rfl) offset
    have rest := @ih (position + 1) (offset + Size.roundUp o.body.size) fun i o found => by
      rw [Nat.add_right_comm]
      exact lies (i + 1) o found
    rw [validateFrom]
    change (h.validateObject position offset o >>= _) = _
    rw [first]
    exact rest

/-- Checking a heap in which no stack runs finds nothing to complain about. -/
theorem Sound.validate_ok (sound : h.Sound fun _ => False) : h.validate = .ok () := by
  refine sound.validateFrom_ok fun i o found => ?_
  rw [Nat.zero_add, object?, ← Array.getElem?_toList]
  exact found

/-- A layout tells the size that an object was made with. -/
theorem Describes.sizeInMemory {layout : Ref} {o : Object} (described : h.Describes layout o.body)
    (isLayout : o.header = .layout layout) : h.sizeInMemory? o = some o.body.size := by
  obtain ⟨l, isView, kind, fields⟩ := described
  simp only [sizeInMemory?, isLayout, isView, kind]
  cases isBody : o.body with
  | inst i => simp [Body.kind, Body.size, fields i isBody]
  | _ => simp [Body.kind]

theorem walk_of_sizes {objects : List Object}
    (sizes : ∀ o ∈ objects, h.sizeInMemory? o = some o.body.size) (start : Nat) :
    h.Walk start objects (start + (objects.map fun o => Size.roundUp o.body.size).sum) := by
  induction objects generalizing start with
  | nil => exact .done
  | cons o rest ih =>
    refine .next (sizes o (by simp)) ?_
    rw [List.map_cons, List.sum_cons, ← Nat.add_assoc]
    exact ih (fun o member => sizes o (by simp [member])) _

/-- The sizes of the objects, as their layouts tell them, lead from the first byte to the cursor. -/
theorem Sound.walk (sound : h.Sound busy) : h.Walk 0 h.objects.toList h.used := by
  have walk := @walk_of_sizes h h.objects.toList (fun o member => ?_) 0
  · rw [Nat.zero_add, ← sound.accounted.used] at walk
    exact walk
  · obtain ⟨i, found⟩ := List.mem_iff_getElem?.mp member
    rw [Array.getElem?_toList] at found
    obtain ⟨layout, isLayout, described⟩ := (sound.objects ⟨i⟩ o found).described
    exact described.sizeInMemory isLayout

end Heap

namespace Machine

/-- Whatever orderly deeds have been done to a machine, failed ones among them, its heap passes the
check: walking over it by the sizes that layouts tell meets the objects in the order they were made
and ends at the cursor, every header leads to a layout, whose own header leads to a layout, and a
stack has nothing to run or is parked, its frames descending to the bottom frame. -/
theorem Reached.validates {m : Machine} (reached : m.Reached fun m deed => deed.Orderly m) :
    m.store.heap.validate = .ok () ∧
    m.store.heap.Walk 0 m.store.heap.objects.toList m.store.heap.used ∧
    m.store.heap.used ≤ m.store.heap.capacity ∧
    (∀ r o, m.store.heap.object? r = some o → ∃ layout described,
      o.header = .layout layout ∧ m.store.heap.object? layout = some described ∧
      (∃ other, described.header = .layout other) ∧ described.body.kind = .layout) ∧
    ∀ r s, m.store.heap.bodyOf? (.object r) = some (.stack s) → s.status = .empty ∨
      s.status = .parked ∧ s.mode = .linked ∧
        ∃ top, s.top = .address r top ∧ m.store.heap.Descends r s.words top := by
  have sound := reached.idle.store.heap
  refine ⟨sound.validate_ok, sound.walk, sound.accounted.fits, ?_, ?_⟩
  · intro r o found
    obtain ⟨layout, isLayout, l, isView, -⟩ := (sound.objects r o found).described
    obtain ⟨_, described, ⟨⟩, isDescribed, isBody⟩ := Heap.view?_iff.mp isView
    obtain ⟨other, isOther, -⟩ := (sound.objects layout described isDescribed).described
    exact ⟨layout, described, isLayout, isDescribed, ⟨other, isOther⟩, by rw [isBody]; rfl⟩
  · intro r s isStack
    obtain ⟨_, o, ⟨⟩, found, isBody⟩ := Heap.bodyOf?_eq_some.mp isStack
    obtain empty | ⟨top, frame, v, counter, parked⟩ := (sound.objects r o found).stack s isBody id
    · exact .inl empty
    · exact .inr ⟨parked.status, parked.mode, top, parked.top_eq, parked.descends⟩

/-- Code that may push the number five. -/
def trialCode (code : List Instruction) : Assembly :=
  { units := (code.flatMap Instruction.units).toArray, constants := #[.int 5], maxHeight := 1 }

/-- Whether something holds of a lambda with this code, on a machine that has just been made. -/
def trial (code : List Instruction) (holds : Value → Machine → Bool) : Bool :=
  match create { stackHeight := 32 } {} with
  | .error _ => false
  | .ok m =>
    match assemble (trialCode code) 0 m with
    | .error _ _ => false
    | .ok lambda m => holds lambda m

theorem exists_of_trial {code : List Instruction} {holds : Value → Machine → Bool}
    (tried : trial code holds = true) : ∃ m m₁ lambda, create { stackHeight := 32 } {} = .ok m ∧
      assemble (trialCode code) 0 m = .ok lambda m₁ ∧ holds lambda m₁ = true := by
  unfold trial at tried
  split at tried
  · cases tried
  rename_i m isMachine
  split at tried
  · cases tried
  rename_i lambda m₁ isLambda
  exact ⟨m, m₁, lambda, isMachine, isLambda, tried⟩

/-- Whether a call answers five, and its heap then passes a check as it should. -/
def answersFive (checked : Except Violation Unit → Bool) (lambda : Value) (m : Machine) : Bool :=
  match call 8 lambda #[] m with
  | .ok (.int 5) m => checked m.store.heap.validate
  | _ => false

theorem call_of_answersFive {checked : Except Violation Unit → Bool} {lambda : Value} {m : Machine}
    (answers : answersFive checked lambda m = true) :
    ∃ m₂, call 8 lambda #[] m = .ok (.int 5) m₂ ∧ checked m₂.store.heap.validate = true := by
  unfold answersFive at answers
  split at answers
  · rename_i m₂ isAnswer
    exact ⟨m₂, isAnswer, answers⟩
  · cases answers

theorem fits_yielding (h : Heap) :
    h.Fits (trialCode [.push 0, .yield, .ret]).units
      (trialCode [.push 0, .yield, .ret]).constants 1 := by
  have disciplined : Disciplined (trialCode [.push 0, .yield, .ret]).units (fun _ => none) 1 :=
    .ofTable [(0, 0), (2, 1), (3, 1)] (by decide) (by decide) (by decide)
  exact fun _ => disciplined.mono (by simp)

theorem validates_yielding : ∃ m m₁ m₂ lambda, create { stackHeight := 32 } {} = .ok m ∧
    assemble (trialCode [.push 0, .yield, .ret]) 0 m = .ok lambda m₁ ∧
    call 8 lambda #[] m₁ = .ok (.int 5) m₂ ∧ m₂.store.heap.validate = .ok () := by
  obtain ⟨m, m₁, lambda, isMachine, isLambda, answers⟩ :=
    @exists_of_trial [.push 0, .yield, .ret] (answersFive fun _ => true) (by decide +kernel)
  obtain ⟨m₂, isAnswer, -⟩ := call_of_answersFive answers
  have reached : m₂.Reached fun m deed => deed.Orderly m :=
    .done (.call 8 lambda #[])
      (.done (.assemble (trialCode [.push 0, .yield, .ret]) 0) (.created isMachine) (fits_yielding _)
        (Action.leaves_discard isLambda)) trivial (Action.leaves_discard isAnswer)
  exact ⟨m, m₁, m₂, lambda, isMachine, isLambda, isAnswer, reached.validates.1⟩

/-- A new machine has a stack that is marked as parked by hand, and is checked. -/
def markedEnds (checked : Except Violation Unit → Bool) : Bool :=
  match create {} {} with
  | .error _ => false
  | .ok m =>
    match onStore (Make.stack 32) m with
    | .error _ _ => false
    | .ok stack m =>
      checked (m.store.heap.adjustStack stack fun s => { s with status := .parked }).validate

/-- Code that gives up its own frame header, pushes over it and yields leaves a parked stack whose
frames do not descend any more. A stack that is marked as parked by hand has no frames at all. -/
theorem unbalanced_invalid :
    (∃ m m₁ m₂ lambda, create { stackHeight := 32 } {} = .ok m ∧
      assemble (trialCode [.pop 2, .push 0, .yield, .ret]) 0 m = .ok lambda m₁ ∧
      call 8 lambda #[] m₁ = .ok (.int 5) m₂ ∧
      m₂.store.heap.validate = .error .frameWithoutLambda) ∧
    markedEnds (fun | .error .frameOutsideStack => true | _ => false) = true := by
  obtain ⟨m, m₁, lambda, isMachine, isLambda, answers⟩ :=
    @exists_of_trial [.pop 2, .push 0, .yield, .ret]
      (answersFive fun | .error .frameWithoutLambda => true | _ => false) (by decide +kernel)
  obtain ⟨m₂, isAnswer, checked⟩ := call_of_answersFive answers
  refine ⟨⟨m, m₁, m₂, lambda, isMachine, isLambda, isAnswer, ?_⟩, by decide +kernel⟩
  split at checked
  · assumption
  · cases checked

end Machine

end ObjectMachine
