/-
# ObjectMachine.Proofs.Returning -- what a call finds and leaves

A frame lies on the operands of the frame that has called it. `Execution.Calls` is such a call, and
`Exec.Follows` whatever comes after it while its frame is active: further calls, handlers, other
tasks, collections, higher stacks. Whenever that frame runs it finds the arguments that were pushed,
and when it returns the frame below goes on where it was.

* `Execution.Calls.keeps_discipline` -- arguments, keywords and the return of a call.
* `Execution.misplaced_marker` -- a marker whose words are given up stays in the chain.
-/
import Mathlib
import ObjectMachine.Proofs.Trials

namespace ObjectMachine

open Machine (Item played)
open Stack (getElem?_loose)

/-- An instruction that enters a lambda needs the arguments, or an operand for the answer. -/
theorem Instruction.arguments_le_needs (i : Instruction) (fields : UInt16 → Option Nat) {argc : Nat}
    (enters : i.arguments? = some argc) : max argc 1 ≤ i.needs fields := by
  cases i with
  | call | invoke | invokeSuper =>
    cases enters
    exact max_le (Nat.le_succ _) (Nat.le_add_left 1 _)
  | raise =>
    cases enters
    exact le_rfl
  | _ => cases enters

namespace Execution

open Exec (Follows step argument localValue push execute peek)

variable {x x₁ y z : Execution} {r : Ref} {i : Instruction} {argc : Nat} {p q : Picture} {careful : Prop}
  {place : Ref → Ref} {marks : List Mark}

/-- The task `r`, pictured as `p`, enters a lambda with `argc` arguments. -/
structure Calls (x : Execution) (r : Ref) (i : Instruction) (argc : Nat) (p : Picture) (x₁ : Execution) :
    Prop where
  running : x.Running
  depicts : x.suspended.Depicts r p
  isNext : x.doing r = some i
  enters : i.arguments? = some argc
  done : step x = .ok () x₁

/-- The task `r` runs, and everything is as pictured. -/
structure Resumes (x : Execution) (r : Ref) (p : Picture) : Prop where
  houses : x.machine.store.heap.Houses r x.stack
  depicts : x.suspended.Depicts r p
  fp : x.fp = p.fp
  sp : x.sp = p.words.length
  pc : x.pc = p.pc

/-- The next instruction is within the code. -/
theorem Executing.next_lt {s : Stack} {a : Activation} {n pc : Nat} (e : x.Executing s a n pc i) :
    pc + i.size < 2 ^ 63 := by
  obtain ⟨l, c, -, isCode, units, -⟩ := e.records
  have := Instruction.add_size_le e.decoded
  have := e.sound.store.heap.size_lt (Heap.view?_eq_some.mp isCode)
  have : c.units.size ≤ (HeapKind.wrap c : Body).size := by
    have := Size.roundUp_ge (16 + 2 * c.units.size)
    change c.units.size ≤ Size.roundUp (16 + 2 * c.units.size)
    omega
  rw [← units] at *
  omega

namespace Calls

section

variable (calls : x.Calls r i argc p x₁)
include calls

/-- The arguments of a call are operands of the frame that calls, and without arguments there is
another operand for the answer. -/
theorem room : p.fp + 3 + max argc 1 ≤ p.words.length := by
  obtain ⟨s, a, n, here, atPc, e, -⟩ := Exec.executing_of_doing calls.running calls.isNext
  cases calls.depicts.unique (atPc.depicts.mpr (.inl ⟨here, rfl⟩))
  have top : x.sp = a.base + n := e.sp_eq
  have base : x.fp + 3 ≤ a.base := e.base_ge
  have needs := i.arguments_le_needs a.fields calls.enters
  have := e.needs
  rw [length_picture atPc.fits]
  change x.fp + 3 + _ ≤ _
  omega

theorem entered :
    ∃ p₁, x₁.suspended.Depicts r p₁ ∧ p₁.fp = p.words.length ∧
      p₁.fp + 3 ≤ p₁.words.length ∧ (∀ j < p.words.length, p₁.words[j]? = p.words[j]?) ∧
      p₁.words[p.words.length]? = some (.value (.int (x.pc + i.size : Nat))) ∧
      p₁.words[p.words.length + 1]? = some (.link (.offset p.fp)) ∧ p₁.marker = p.marker := by
  obtain ⟨s, a, n, here, atPc, e, isStep⟩ := Exec.executing_of_doing calls.running calls.isNext
  obtain ⟨s₁, atPc₁⟩ := Exec.step_running calls.running calls.done
  have done := isStep.symm.trans calls.done
  obtain ⟨s', v, base, entered, above, rfl⟩ := Exec.execute_enters e.toOn calls.enters done
  cases atPc₁.found.symm.trans (found_withStack (x := x.fetched i) e.found s')
  cases calls.depicts.unique (atPc.depicts.mpr (.inl ⟨here, rfl⟩))
  have length := length_picture atPc.fits
  have there : ((x.fetched i).inFrame s₁ v base).heap.Houses r x.stack :=
    (houses_withStack (x := x.fetched i) e.found).mpr here
  have above : x.sp + 3 ≤ base := above
  have word (j : Nat) (low : j < base) :
      (((x.fetched i).inFrame s₁ v base).picture s₁).words[j]? = (s₁.words[j]?).map Slot.loosen :=
    (getElem?_loose s₁ base j).trans (if_pos low)
  refine ⟨_, atPc₁.depicts.mpr (.inl ⟨there, rfl⟩), length.symm, ?_, fun j low => ?_, ?_, ?_, ?_⟩
  · rw [length_picture atPc₁.fits]
    exact above
  · rw [length] at low
    rw [word j (by omega), entered.below j low]
    exact ((getElem?_loose s x.sp j).trans (if_pos low)).symm
  · rw [length, word _ (by omega)]
    exact congrArg (Option.map Slot.loosen) entered.frameAt.counter
  · rw [length, word _ (by omega)]
    exact congrArg (Option.map Slot.loosen) entered.frameAt.linked
  · exact entered.marker

theorem words (follows : Follows careful x₁ r [] p.words.length place y marks) :
    ∃ q, y.suspended.Depicts (place r) q ∧
      (∀ j < p.words.length, q.words[j]? = (p.words[j]?).map (Slot.carry place)) ∧
      q.words[p.words.length]? = some (.value (.int (x.pc + i.size : Nat))) ∧
      q.words[p.words.length + 1]? = some (.link (.offset p.fp)) ∧
      (careful → (∀ b ∈ p.marker, b < p.words.length) → q.Lists marks p.marker) := by
  obtain ⟨p₁, depicts, isFrame, room, below, counted, linked, marker⟩ := calls.entered
  obtain ⟨q, depicts', -, -, words, lists⟩ := follows.kept depicts isFrame.ge room
  refine ⟨q, depicts', fun j low => ?_, ?_, ?_, fun isCareful low => lists _ isCareful ?_ low⟩
  · rw [words j (by omega), below j low]
  · rw [words _ (by omega), counted]
    rfl
  · rw [words _ (by omega), linked]
    rfl
  · exact ⟨marker, nofun, nofun, nofun, .nil⟩

theorem operand {j : Nat} (low : p.fp + 3 ≤ j) (high : j < p.words.length) :
    ∃ v, p.words[j]? = some (.value v) := by
  obtain ⟨s, a, n, here, atPc, e, -⟩ := Exec.executing_of_doing calls.running calls.isNext
  cases calls.depicts.unique (atPc.depicts.mpr (.inl ⟨here, rfl⟩))
  rw [length_picture atPc.fits] at high
  obtain ⟨v, found⟩ := e.frameAt.operands j low high
  refine ⟨v, (getElem?_loose s x.sp j).trans ?_⟩
  rw [if_pos high, found]
  rfl

/-- The frame of a call reads the arguments that were pushed, and what lies below them. -/
theorem argument_eq (follows : Follows careful x₁ r [] p.words.length place y marks)
    (running : y.Running) (here : y.heap.Houses (place r) y.stack)
    (isTop : y.fp = p.words.length) {index : Nat} (pushed : p.fp + 3 + index < p.words.length) :
    ∃ v, p.words[p.words.length - (index + 1)]? = some (.value v) ∧
      argument index y = .ok (v.move place) y := by
  obtain ⟨s, atPc⟩ := running
  have := calls.running.length_lt calls.depicts
  obtain ⟨q, depicts, words, -⟩ := calls.words follows
  cases depicts.unique (atPc.depicts.mpr (.inl ⟨here, rfl⟩))
  obtain ⟨v, isValue⟩ := @operand _ _ _ _ _ _ calls (p.words.length - (index + 1)) (by omega) (by omega)
  refine ⟨v, isValue, ?_⟩
  have room := atPc.chain.room
  have word := words (p.words.length - (index + 1)) (by omega)
  rw [isValue, picture, getElem?_loose, if_pos (by omega)] at word
  obtain ⟨slot, found, loose⟩ := Option.map_eq_some_iff.mp word
  cases Slot.eq_value_of_loosen loose
  have isOffset : (do
      let depth ← Size.add 1 index
      if depth ≤ y.fp then pure (y.fp - depth) else throw .wildStackAccess : Except Violation Nat) =
      .ok (p.words.length - (index + 1)) := by
    rw [Size.add_eq (by omega), isTop, Nat.add_comm 1]
    exact if_pos (by omega)
  exact (Action.bind_eq_of_ok (Exec.check_eq isOffset)).trans (Exec.valueAt_eq atPc.found found)

/-- Leaving the frame of a call, unless markers are in disorder. -/
theorem leave_eq (follows : Follows careful x₁ r [] p.words.length place y marks) (running : y.Running)
    (isNext : y.doing (place r) = some .ret) (isTop : y.fp = p.words.length) :
    ∃ (s : Stack) (a : Activation) (answer : Value), y.heap.Houses (place r) y.stack ∧ y.At s y.pc ∧ a.below = p.fp ∧
      a.counter = (x.pc + i.size : Nat) ∧ s.words[y.sp - 1]? = some (.value answer) ∧
      step y = match Exec.markerBelow s y.fp (s.height + 2) s.marker with
        | .ok marker => .ok () ((y.fetched .ret).inCaller s a marker answer (x.lambda.move place))
        | .error violation => .error (.broken violation) ((y.fetched .ret).dropped 1) := by
  obtain ⟨s, a, n, here, atPc, e, isStep⟩ := Exec.executing_of_doing running isNext
  obtain ⟨q, depicts, words, counted, linked, -⟩ := calls.words follows
  cases depicts.unique (atPc.depicts.mpr (.inl ⟨here, rfl⟩))
  have room := atPc.chain.room
  have operands : 1 ≤ n := e.needs
  have top : y.sp = a.base + n := e.sp_eq
  have base : y.fp + 3 ≤ a.base := e.base_ge
  have word (j : Nat) (low : j < y.sp) : (y.picture s).words[j]? = (s.words[j]?).map Slot.loosen :=
    (getElem?_loose s y.sp j).trans (if_pos low)
  obtain ⟨answer, isAnswer⟩ := e.frameAt.operands (y.sp - 1) (show y.fp + 3 ≤ _ by omega)
    (show _ < y.sp by omega)
  -- the words of the header say where to go on
  have isBelow : a.below = p.fp := by
    rw [← isTop, word _ (by omega), show s.words[y.fp + 1]? = _ from e.frameAt.linked] at linked
    exact Link.offset.inj (Slot.link.inj (Option.some.inj linked))
  have isCounter : a.counter = (x.pc + i.size : Nat) := by
    rw [← isTop, word _ (by omega), show s.words[y.fp]? = _ from e.frameAt.counter] at counted
    exact Value.int.inj (Slot.value.inj (Option.some.inj counted))
  obtain ⟨sₓ, aₓ, nₓ, hereₓ, atPcₓ, eₓ, -⟩ := Exec.executing_of_doing calls.running calls.isNext
  have higher : p.fp + 3 < p.words.length := by have := calls.room; omega
  have isLambda : s.words[a.below + 2]? = some (.value (x.lambda.move place)) := by
    have isWord := words (p.fp + 2) (by omega)
    cases calls.depicts.unique (atPcₓ.depicts.mpr (.inl ⟨hereₓ, rfl⟩))
    rw [word _ (by rw [isTop] at room; omega), ← isBelow] at isWord
    have registered : (x.picture sₓ).words[a.below + 2]? = some (.value x.lambda) := by
      refine (getElem?_loose sₓ x.sp (a.below + 2)).trans ?_
      have := atPcₓ.chain.room
      rw [isBelow]
      exact (if_pos (show x.fp + 2 < x.sp by omega)).trans
        (congrArg (Option.map Slot.loosen) atPcₓ.registered)
    rw [registered] at isWord
    obtain ⟨slot, found, loose⟩ := Option.map_eq_some_iff.mp isWord
    cases Slot.eq_value_of_loosen loose
    exact found
  have notEntry : ¬ a.below = 0 := by
    have := (Exec.doing_registers calls.running calls.isNext calls.depicts).1
    have : aₓ.below + 3 < x.fp := eₓ.answer
    omega
  refine ⟨s, a, answer, here, atPc, isBelow, isCounter, isAnswer, isStep.trans ?_⟩
  have isLeft : Exec.leaveWith Exec.finishTask (y.fetched .ret) = _ :=
    Exec.leaveWith_eq e.toFrame operands isAnswer isLambda
  refine isLeft.trans ?_
  change (match Exec.markerBelow s y.fp (s.height + 2) s.marker with
    | .ok marker => if a.below = 0 then _ else _
    | .error violation => _) = _
  simp only [if_neg notEntry]

/-- The frame that has called goes on behind the call with the answer on top, and with everything
else as it was. -/
theorem resumes (follows : Follows careful x₁ r [] p.words.length place y marks) (running : y.Running)
    (isNext : y.doing (place r) = some .ret) (isTop : y.fp = p.words.length) (done : step y = .ok () z) :
    ∃ answer marker, peek 0 y = .ok answer y ∧ z.lambda = x.lambda.move place ∧
      z.Resumes (place r) { (p.move place).topped answer with pc := x.pc + i.size, marker } := by
  obtain ⟨s, a, answer, here, atPc, isBelow, isCounter, isAnswer, isStep⟩ :=
    calls.leave_eq follows running isNext isTop
  obtain ⟨q, depicts, words, -⟩ := calls.words follows
  cases depicts.unique (atPc.depicts.mpr (.inl ⟨here, rfl⟩))
  obtain ⟨s', atPc'⟩ := Exec.step_running running done
  have fits := atPc.fits
  have room := atPc.chain.room
  have := calls.room
  rw [isStep] at done
  split at done
  rotate_left
  · cases done
  rename_i marker isMarker
  cases done
  have found : (y.fetched .ret).heap.bodyOf? (.object (y.fetched .ret).stack) = some (.stack s) := atPc.found
  cases atPc'.found.symm.trans (found_withStack found _)
  have next : Size.ofInt a.counter = x.pc + i.size := by
    obtain ⟨_, _, _, -, atPcₓ, e, -⟩ := Exec.executing_of_doing calls.running calls.isNext
    have := e.next_lt
    rw [isCounter]
    simp only [Size.ofInt]
    omega
  have isSp : y.fp = ((p.move place).topped answer).words.length :=
    isTop.trans (Picture.length_move.symm.trans List.length_set.symm)
  have houses : ((y.fetched .ret).inCaller s a marker answer (x.lambda.move place)).heap.Houses
    (place r) y.stack := (houses_withStack found).mpr here
  refine ⟨answer, marker, Exec.peek_eq atPc.found (by omega) isAnswer, rfl, houses, ?_, isBelow, isSp, next⟩
  have isPicture : ((y.fetched .ret).inCaller s a marker answer (x.lambda.move place)).picture
      (({ s with marker } : Stack).setWord (y.fp - 1) (.value answer)) =
      { (p.move place).topped answer with pc := x.pc + i.size, marker } := by
    have below : s.loose p.words.length = (p.move place).words := by
      refine List.ext_getElem? fun j => ?_
      rw [Picture.getElem?_move, getElem?_loose]
      split
      · rw [← words j ‹_›]
        exact ((getElem?_loose s y.sp j).trans (if_pos (by omega))).symm
      · rw [List.getElem?_eq_none (by omega)]
        rfl
    have isWords : (({ s with marker } : Stack).setWord (y.fp - 1) (.value answer)).loose y.fp =
        ((p.move place).topped answer).words := by
      rw [Stack.loose_setWord _ (by change y.fp ≤ s.height; omega)]
      change (s.loose y.fp).set (y.fp - 1) _ = _
      rw [isTop, below, Picture.topped, Picture.length_move]
      rfl
    refine (Picture.mk.injEq ..).mpr ⟨isWords, isBelow, ?_, rfl⟩
    exact (Size.ofInt_ofInt _).trans next
  exact isPicture ▸ atPc'.depicts.mpr (.inl ⟨houses, rfl⟩)

/-- Where markers are left alone, a call returns with the chain of markers that it has started
with. -/
theorem returns (follows : Follows careful x₁ r [] p.words.length place y marks) (running : y.Running)
    (isNext : y.doing (place r) = some .ret) (isTop : y.fp = p.words.length) (isCareful : careful)
    (low : ∀ b ∈ p.marker, b < p.words.length) :
    ∃ z answer, step y = .ok () z ∧ peek 0 y = .ok answer y ∧ z.lambda = x.lambda.move place ∧
      z.Resumes (place r) { (p.move place).topped answer with pc := x.pc + i.size, marker := p.marker } := by
  obtain ⟨s, a, answer, here, atPc, -, -, -, isStep⟩ := calls.leave_eq follows running isNext isTop
  obtain ⟨q, depicts, -, -, -, lists⟩ := calls.words follows
  have lists := lists isCareful low
  cases depicts.unique (atPc.depicts.mpr (.inl ⟨here, rfl⟩))
  have length := length_picture atPc.fits
  -- there is a marker below the frame
  have same (j : Nat) (inside : j < (y.picture s).words.length) :
      (s.words[j]?).map Slot.loosen = (y.picture s).words[j]? :=
    ((getElem?_loose s y.sp j).trans (if_pos (length ▸ inside))).symm
  obtain ⟨marker, isMarker⟩ := @Picture.Chained.exists_below y.fp _ _ _ _ s (s.height + 2) lists.chained same
    (isTop ▸ low) (by have := lists.length_le; have := atPc.fits; omega)
  have done : step y = .ok () ((y.fetched .ret).inCaller s a marker answer (x.lambda.move place)) := by
    rw [isStep, show Exec.markerBelow s y.fp (s.height + 2) s.marker = .ok marker from isMarker]
  obtain ⟨answer, marker, isAnswer, lambda, resumes⟩ := calls.resumes follows running isNext isTop done
  refine ⟨_, answer, done, isAnswer, lambda, ?_⟩
  -- all marks that have been made since are those of the frame that is left
  obtain ⟨p₁, entered, isFrame, room, -, -, -, isMarker₁⟩ := calls.entered
  have lists₁ : p₁.Lists [] p.marker := ⟨isMarker₁, nofun, nofun, nofun, .nil⟩
  obtain ⟨made, isMade, high, -⟩ := follows.outer entered isFrame.ge room isCareful lists₁ low nofun
  rw [List.map_nil, List.append_nil] at isMade
  have noneLeft : Picture.left (y.doing (place r)) (y.picture s).fp marks = [] := by
    rw [isNext]
    refine List.filter_eq_nil_iff.mpr fun k member => ?_
    have := high k (isMade ▸ member)
    have : k.frame ≤ y.fp := (lists.active k member).le
    simp only [ne_eq, decide_not, Bool.not_eq_eq_eq_not, Bool.not_true, decide_eq_false_iff_not, not_not]
    exact le_antisymm this (isTop.le.trans ‹_›)
  have keeps q : Picture.Keeps (y.unmarked (place r) marks) (y.picture s) q := by
    rw [Exec.unmarked_eq running depicts, noneLeft]
    exact nofun
  have lists' := Exec.step_lists running done depicts resumes.depicts lists (keeps _)
    (fun b member => (low b member).trans_eq isTop.symm)
    (atPc.chain.room.trans_eq length.symm)
  rw [Exec.marked_eq running depicts (by simp [isNext]), noneLeft] at lists'
  cases lists'.chained
  exact resumes

end

/-- Whenever the frame of a call runs, it reads the arguments that were pushed and what lies below
them, by number and by keyword. When it returns, the frame that has called goes on behind the call:
its lambda and its words are what they were, with the answer on top, and so is its chain of markers
if the words of markers are left alone. -/
theorem keeps_discipline (calls : x.Calls r i argc p x₁)
    (follows : Follows careful x₁ r [] p.words.length place y marks) (running : y.Running)
    (here : y.machine.store.heap.Houses (place r) y.stack) (isTop : y.fp = p.words.length) :
    p.fp + 3 + argc ≤ p.words.length ∧
    (∀ index, p.fp + 3 + index < p.words.length →
      ∃ v, p.words[p.words.length - (index + 1)]? = some (.value v) ∧
        argument index y = .ok (v.move place) y) ∧
    (∀ (key : UInt16) keymap (t : Tuple) n, localValue 0 y = .ok keymap y →
      y.machine.store.heap.view? Tuple keymap = some t → t.elements[key.toNat]? = some (.int n) →
      p.fp + 3 + Size.ofInt n < p.words.length → ∀ pc next, ∃ v,
        p.words[p.words.length - (Size.ofInt n + 1)]? = some (.value v) ∧
        execute pc next (.keyword key) y = push (v.move place) y) ∧
    (y.instruction? = some .ret →
      (∀ z, step y = .ok () z → ∃ answer marker, peek 0 y = .ok answer y ∧ z.lambda = x.lambda.move place ∧
        z.Resumes (place r) { (p.move place).topped answer with pc := x.pc + i.size, marker }) ∧
      (careful → (∀ b ∈ p.marker, b < p.words.length) →
        ∃ z answer, step y = .ok () z ∧ peek 0 y = .ok answer y ∧ z.lambda = x.lambda.move place ∧
          z.Resumes (place r) { (p.move place).topped answer with pc := x.pc + i.size })) := by
  refine ⟨by have := calls.room; omega, fun index pushed => calls.argument_eq follows running here isTop pushed,
    fun key keymap t n isLocal isTuple isIndex low pc next => ?_, fun isRet => ?_⟩
  · obtain ⟨v, isValue, isArgument⟩ := calls.argument_eq follows running here isTop low
    refine ⟨v, isValue, ?_⟩
    have isElement : Exec.elementOf y.machine.store.heap keymap key.toNat = .ok (.int n) := by
      simp only [Exec.elementOf, Heap.cast_eq_ok.mpr isTuple, isIndex, bind, Except.bind, pure, Except.pure]
    refine (Action.bind_eq_of_ok isLocal).trans ((Exec.checkStore_bind isElement).trans ?_)
    exact Action.bind_eq_of_ok isArgument
  · have isNext : y.doing (place r) = some .ret := (if_pos here).trans isRet
    exact ⟨fun z done => calls.resumes follows running isNext isTop done,
      fun isCareful low => calls.returns follows running isNext isTop isCareful low⟩

end Calls

/-- A lambda that marks, unmarks and answers its argument, and one that calls it with seven. -/
def passingOn : List (List Value → Item) :=
  [fun _ => .code [.mark 0, .unmark, .argument 0, .ret] [.int 0] 1 2,
    fun made => .code [.push 0, .push 1, .call 1, .ret] (made ++ [.int 7]) 0 2]

theorem passingOn_balanced : ∀ item ∈ passingOn, ∀ made, (item made).Balanced :=
  List.forall_mem_cons.mpr ⟨fun _ => .ofTable [(0, 0), (2, 2), (3, 0), (5, 1)] (by decide) (by decide) (by decide),
    List.forall_mem_cons.mpr ⟨fun _ => .ofTable [(0, 0), (2, 1), (4, 2), (6, 2)] (by decide) (by decide)
      (by decide), nofun⟩⟩

/-- Whether a call that is played passes a check when it is about to return. -/
def returnsWith (careful : Bool) (script : List (List Value → Item)) (count more : Nat)
    (check : Instruction → Picture → Execution → Bool) : Bool :=
  match played script count with
  | some x =>
    match called careful x more with
    | some (_, i, p, _, y, _) => check i p y
    | none => false
  | none => false

theorem exists_of_returnsWith {careful : Bool} {script : List (List Value → Item)}
    {count more : Nat} {check : Instruction → Picture → Execution → Bool}
    (tried : returnsWith careful script count more check = true) :
    ∃ x r i p x₁ y marks, played script count = some x ∧
      called careful x more = some (r, i, p, x₁, y, marks) ∧ check i p y = true := by
  unfold returnsWith at tried
  split at tried
  rotate_left
  · cases tried
  rename_i x isPlayed
  split at tried
  · rename_i r i p x₁ y marks isCalled
    exact ⟨x, r, i, p, x₁, y, marks, isPlayed, isCalled, tried⟩
  · cases tried

theorem disciplined_passingOn : ∃ x r p x₁ y marks, played passingOn 3 = some x ∧
    x.Calls r (.call 1) 1 p x₁ ∧ Follows True x₁ r [] p.words.length id y marks ∧
    (∃ v, p.words[p.words.length - 1]? = some (.value v) ∧ argument 0 y = .ok (v.move id) y) ∧
    ∃ z answer, step y = .ok () z ∧ peek 0 y = .ok answer y ∧ z.lambda = x.lambda.move id ∧
      z.Resumes r { (p.move id).topped answer with pc := x.pc + Instruction.size (.call 1) } := by
  obtain ⟨x, r, i, p, x₁, y, marks, isPlayed, isCalled, checked⟩ := @exists_of_returnsWith true passingOn 3 3
    (fun i p _ => decide (i = .call 1 ∧ p.marker = none)) (by decide +kernel)
  obtain ⟨rfl, noMarker⟩ := of_decide_eq_true checked
  have running := Machine.running_of_played passingOn_balanced isPlayed
  obtain ⟨depicts, isNext, done, follows, running', here, isTop, isRet⟩ := called_ok running isCalled
  have calls : x.Calls r (.call 1) 1 p x₁ := ⟨running, depicts, isNext, rfl, done⟩
  obtain ⟨-, arguments, -, returns⟩ := calls.keeps_discipline follows running' here isTop
  exact ⟨x, r, p, x₁, y, marks, isPlayed, calls, (eq_self true : (true = true) = True) ▸ follows,
    arguments 0 (by have := calls.room; omega), (returns isRet).2 rfl (by simp [noMarker])⟩

/-- A lambda that marks and then gives its marker up as if it were two operands, and one that has a
mark of its own and calls it. -/
def givingUp : List (List Value → Item) := [fun _ => .code [.mark 0, .pop 2, .push 0, .ret] [.int 0] 0 2,
    fun made => .code [.mark 1, .push 0, .call 0, .ret] (made ++ [.int 0]) 0 3]

theorem givingUp_balanced : ∀ item ∈ givingUp, ∀ made, (item made).Balanced :=
  List.forall_mem_cons.mpr ⟨fun _ => .ofTable [(0, 0), (2, 2), (4, 0), (6, 1)] (by decide) (by decide) (by decide),
    List.forall_mem_cons.mpr ⟨fun _ => .ofTable [(0, 0), (2, 2), (4, 3), (6, 3)] (by decide) (by decide)
      (by decide), nofun⟩⟩

/-- Whether a step leaves another innermost marker than a picture has. -/
def unmarks (p : Picture) (y : Execution) : Bool :=
  match step y with
  | .ok _ z => z.picture?.any (·.marker ≠ p.marker)
  | .error _ _ => false

/-- A marker whose words are given up stays in the chain until something else lies in its place. The
frame that returns then leaves another chain of markers than there was when it was called. -/
theorem misplaced_marker : ∃ x r p x₁ y marks z q, played givingUp 3 = some x ∧
    x.Calls r (.call 0) 0 p x₁ ∧ Follows False x₁ r [] p.words.length id y marks ∧
    y.fp = p.words.length ∧ y.doing r = some .ret ∧ step y = .ok () z ∧ z.Resumes r q ∧
    q.marker ≠ p.marker := by
  obtain ⟨x, r, i, p, x₁, y, marks, isPlayed, isCalled, checked⟩ := @exists_of_returnsWith false givingUp 3 3
    (fun i p y => decide (i = .call 0) && unmarks p y) (by decide +kernel)
  rw [Bool.and_eq_true, decide_eq_true_iff] at checked
  obtain ⟨rfl, changed⟩ := checked
  have running := Machine.running_of_played givingUp_balanced isPlayed
  obtain ⟨depicts, isNext, done, follows, running', here, isTop, isRet⟩ := called_ok running isCalled
  have calls : x.Calls r (.call 0) 0 p x₁ := ⟨running, depicts, isNext, rfl, done⟩
  have isNext' : y.doing r = some .ret := (if_pos here).trans isRet
  unfold unmarks at changed
  split at changed
  · rename_i z done'
    obtain ⟨answer, marker, -, -, resumes⟩ := calls.resumes follows running' isNext' isTop done'
    obtain ⟨q, isPicture, differs⟩ := Option.any_eq_true _ _ |>.mp changed
    have depicts' := depicts_of_picture? (Exec.step_running running' done') isPicture resumes.houses
    cases depicts'.unique resumes.depicts
    refine ⟨x, r, p, x₁, y, marks, z, _, isPlayed, calls, ?_, isTop, isNext', done', resumes, by simpa using differs⟩
    exact (by simp : (false = true) = False) ▸ follows
  · cases changed

end Execution

end ObjectMachine
